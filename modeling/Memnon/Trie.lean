import Memnon.Platform
import Memnon.Lib.Prog
import Mathlib.Logic.Function.Basic

/-!
# ncrit_trie and segment_registry

The trie maps page numbers to segment pointers through `levels` levels of nodes
with `2 ^ stride` slots each; every slot is one atomic word. Each thread has a
cache of 16 ranges, checked against the leaf slot they were filled from. The
registry is a trie of `sub_segment*` whose lookups widen the newest cache entry
to the bounds that the found object states.

All operations are programs of atomic actions on one memory.
-/

namespace Memnon.Trie

open Memnon.Lib

/-- The template parameters with their static assertions, the platform, and the
    address of the root node. -/
structure Config where
  stride : Nat
  levels : Nat
  levels_pos : 1 ≤ levels
  stride_pos : 1 ≤ stride
  stride_le : stride ≤ 16
  platform : Platform
  root : Word
  root_ne : root ≠ 0

/-- Pages of 4 KiB, the default stride and levels. -/
def defaultConfig : Config where
  stride := 9
  levels := 4
  levels_pos := by decide
  stride_pos := by decide
  stride_le := by decide
  platform := fourKiBPages
  root := 0x1000#64
  root_ne := by decide

def kLeafTag : Word := 1#64

/-- `tls_cache_t::kSize`. -/
def kSize : Nat := 16

/-- A slot: a node's address and an index. -/
abbrev Slot := Word × Nat

structure TlsEntry where
  base : Word := 0
  end_ : Word := 0
  seg : Word := 0
  leaf : Option Slot := none
deriving DecidableEq

def TlsEntry.covers (addr : Word) (e : TlsEntry) : Bool := decide (e.base ≤ addr ∧ addr < e.end_)

def emptyCache : List TlsEntry := List.replicate kSize {}

/-! ## 1. The memory -/

/-- Where the address of a node stands: not allocated, allocated by a thread
    that has not published it, part of the trie, `path` below the root, or part
    of something else. -/
inductive Place (T : Type) where
  | free
  | fresh (t : T)
  | linked (path : List Nat)
  | other
deriving DecidableEq

inductive Phase (T : Type) where
  | registering (t : T)
  | registered
  | unregistering (t : T)
deriving DecidableEq

/-- A segment from the call of `register_segment` to the return of
    `unregister_segment`. -/
structure Live (T : Type) where
  seg : Word
  base : Word
  size : Word
  phase : Phase T
deriving DecidableEq

/-- The words that the threads share, and bookkeeping that no program reads:
    `place`, `outOfMemory` (an allocation has failed), `live`, and `reading`,
    the fields of an object that the running operation of a thread has read. -/
structure Memory (T : Type) where
  slot : Word → Nat → Word
  cache : T → List TlsEntry
  object : Word → Word × Word
  place : Word → Place T
  outOfMemory : Bool
  live : List (Live T)
  reading : T → Option (Word × Word × Option Word)

inductive Act where
  | load (node : Word) (idx : Nat)
  | store (node : Word) (idx : Nat) (value : Word)
  | compareExchange (node : Word) (idx : Nat) (expected desired : Word)
  | newNode
  | deleteNode (node : Word)
  | getCache
  | setCache (entries : List TlsEntry)
  | readBase (seg : Word)
  | readSize (seg : Word)

abbrev Resp : Act → Type
  | .load _ _ | .compareExchange _ _ _ _ | .newNode | .readBase _ | .readSize _ => Word
  | .getCache => List TlsEntry
  | .store _ _ _ | .deleteNode _ | .setCache _ => Unit

abbrev TrieProg (A : Type) := Prog Act Resp A

abbrev load (node : Word) (idx : Nat) : TrieProg Word := .act (.load node idx) .ret
abbrev store (node : Word) (idx : Nat) (value : Word) : TrieProg Unit :=
  .act (.store node idx value) .ret
abbrev compareExchange (node : Word) (idx : Nat) (expected desired : Word) : TrieProg Word :=
  .act (.compareExchange node idx expected desired) .ret
abbrev newNode : TrieProg Word := .act .newNode .ret
abbrev deleteNode (node : Word) : TrieProg Unit := .act (.deleteNode node) .ret
abbrev getCache : TrieProg (List TlsEntry) := .act .getCache .ret
abbrev setCache (entries : List TlsEntry) : TrieProg Unit := .act (.setCache entries) .ret
abbrev readBase (seg : Word) : TrieProg Word := .act (.readBase seg) .ret
abbrev readSize (seg : Word) : TrieProg Word := .act (.readSize seg) .ret

/-- Where a node hung into slot `idx` of another one comes to stand. -/
def Place.child {T : Type} (idx : Nat) : Place T → Place T
  | .linked path => .linked (path ++ [idx])
  | p => p

namespace Memory

variable {T : Type} (m : Memory T)

def write (node : Word) (idx : Nat) (value : Word) : Memory T :=
  { m with slot := Function.update m.slot node (Function.update (m.slot node) idx value) }

/-- `node_t{}` at `addr`. -/
def construct (addr : Word) : Memory T :=
  { m with slot := Function.update m.slot addr (fun _ => 0) }

def setPlace (node : Word) (p : Place T) : Memory T :=
  { m with place := Function.update m.place node p }

variable [DecidableEq T]

def setCache (t : T) (entries : List TlsEntry) : Memory T :=
  { m with cache := Function.update m.cache t entries }

def setReading (t : T) (r : Option (Word × Word × Option Word)) : Memory T :=
  { m with reading := Function.update m.reading t r }

end Memory

/-- One action of thread `t`. `addr` is what the heap returns for an allocation;
    an address that is no free node stands for its failure. A compare-exchange
    answers with the value it has found. -/
def exec {T : Type} [DecidableEq T] (t : T) : (a : Act) → Word → Memory T → Resp a × Memory T
  | .load node idx, _, m => (m.slot node idx, m)
  | .store node idx value, _, m => ((), m.write node idx value)
  | .compareExchange node idx expected desired, _, m =>
      (m.slot node idx,
        if m.slot node idx = expected then
          (m.write node idx desired).setPlace desired ((m.place node).child idx)
        else m)
  | .newNode, addr, m =>
      if addr ≠ 0 ∧ addr &&& 63#64 = 0 ∧ m.place addr = .free then
        (addr, (m.construct addr).setPlace addr (.fresh t))
      else ((0 : Word), { m with outOfMemory := true })
  | .deleteNode node, _, m => ((), m.setPlace node .free)
  | .getCache, _, m => (m.cache t, m)
  | .setCache entries, _, m => ((), m.setCache t entries)
  | .readBase seg, _, m => ((m.object seg).1, m.setReading t (some (seg, (m.object seg).1, none)))
  | .readSize seg, _, m =>
      ((m.object seg).2,
        m.setReading t ((m.reading t).map fun r => (r.1, r.2.1, some (m.object seg).2)))

/-- The memory after the constructor of the trie. -/
def initialMemory (T : Type) (cfg : Config) : Memory T where
  slot := fun _ _ => 0
  cache := fun _ => emptyCache
  object := fun _ => (0, 0)
  place := Function.update (fun _ => .free) cfg.root (.linked [])
  outOfMemory := false
  live := []
  reading := fun _ => none

/-! ## 2. ncrit_trie -/

variable (cfg : Config)

/-- `level_idx`. -/
def levelIdx (pageNum : Word) (depth : Nat) : Nat :=
  ((pageNum >>> ((cfg.levels - 1 - depth) * cfg.stride)) &&&
    BitVec.ofNat 64 (2 ^ cfg.stride - 1)).toNat

/-- The indices above the leaf level. -/
def innerPath (pageNum : Word) : List Nat :=
  (List.range (cfg.levels - 1)).map (levelIdx cfg pageNum)

def leafIdx (pageNum : Word) : Nat := levelIdx cfg pageNum (cfg.levels - 1)

/-- The walk of `insert_leaf` from `cur` down the remaining indices. -/
def insertPath (value : Word) (leaf : Nat) : Word → List Nat → TrieProg Unit
  | cur, [] => store cur leaf (value ||| kLeafTag)
  | cur, idx :: rest => do
      let child ← load cur idx
      if child = 0 then
        let fresh ← newNode
        if fresh = 0 then return ()   -- OOM, best effort
        else
          let expected ← compareExchange cur idx 0 fresh
          if expected = 0 then insertPath value leaf fresh rest
          else
            deleteNode fresh
            insertPath value leaf expected rest
      else insertPath value leaf child rest

def insertLeaf (pageNum value : Word) : TrieProg Unit :=
  insertPath value (leafIdx cfg pageNum) cfg.root (innerPath cfg pageNum)

/-- The walk of `clear_leaf`. -/
def clearPath (leaf : Nat) : Word → List Nat → TrieProg Unit
  | cur, [] => store cur leaf 0
  | cur, idx :: rest => do
      let child ← load cur idx
      if child = 0 then return ()
      else clearPath leaf child rest

def clearLeaf (pageNum : Word) : TrieProg Unit :=
  clearPath (leafIdx cfg pageNum) cfg.root (innerPath cfg pageNum)

/-- The walk of `lookup_page_with_slot`: the value and the leaf slot. -/
def lookupPath (leaf : Nat) : Word → List Nat → TrieProg (Word × Option Slot)
  | cur, [] => do
      let raw ← load cur leaf
      if raw = 0 then return (0, none)
      else return (raw &&& ~~~kLeafTag, some (cur, leaf))
  | cur, idx :: rest => do
      let raw ← load cur idx
      if raw = 0 then return (0, none)
      else lookupPath leaf raw rest

def lookupPageWithSlot (pageNum : Word) : TrieProg (Word × Option Slot) :=
  lookupPath (leafIdx cfg pageNum) cfg.root (innerPath cfg pageNum)

def lookupPage (pageNum : Word) : TrieProg Word := do
  let (v, _) ← lookupPageWithSlot cfg pageNum
  return v

def invalidateCache : TrieProg Unit := setCache emptyCache

def pageOf (addr : Word) : Word := addr >>> cfg.platform.pageShift

def pageEnd (base size : Word) : Word :=
  (base + size + (cfg.platform.pageSize - 1#64)) >>> cfg.platform.pageShift

/-- The pages that `insert_range` and `remove_range` run through. -/
def pageRange (base size : Word) : List Word :=
  (List.range ((pageEnd cfg base size).toNat - (pageOf cfg base).toNat)).map fun k =>
    pageOf cfg base + BitVec.ofNat 64 k

def insertRange (base size value : Word) : TrieProg Unit := do
  (pageRange cfg base size).forM (insertLeaf cfg · value)
  invalidateCache

def removeRange (base size : Word) : TrieProg Unit := do
  (pageRange cfg base size).forM (clearLeaf cfg)
  invalidateCache

/-- The entry of a page. -/
def pageEntry (addr seg : Word) (leaf : Option Slot) : TlsEntry where
  base := pageOf cfg addr <<< cfg.platform.pageShift
  end_ := (pageOf cfg addr <<< cfg.platform.pageShift) + cfg.platform.pageSize
  seg := seg
  leaf := leaf

/-- `lookup` and `lookup_impl`. The first entry that covers the address is moved
    to the front, or evicted with a null result when its leaf slot has changed. -/
def lookup (addr : Word) : TrieProg Word := do
  let entries ← getCache
  let rest := entries.eraseP (·.covers addr)
  match entries.find? (·.covers addr) with
  | some entry =>
      match entry.leaf with
      | some (node, idx) =>
          let raw ← load node idx
          if raw = entry.seg ||| kLeafTag then
            setCache (entry :: rest)
            return entry.seg
          else
            setCache (rest ++ [{}])
            return 0
      | none =>
          setCache (rest ++ [{}])
          return 0
  | none =>
      let (v, leafSlot) ← lookupPageWithSlot cfg (pageOf cfg addr)
      if v ≠ 0 then
        setCache ((pageEntry cfg addr v leafSlot :: entries).take kSize)
        return v
      else return v

def expandCacheBoundsTop (base size seg : Word) : TrieProg Unit := do
  let entries ← getCache
  match entries with
  | top :: rest =>
      if top.seg = seg then
        setCache ({ top with base := base, end_ := base + size } :: rest)
      else return ()
  | [] => return ()

/-! ## 3. segment_registry -/

/-- The bounds of `seg` go to the newest cache entry. -/
def expandToSegment (seg : Word) : TrieProg Unit := do
  let base ← readBase seg
  let size ← readSize seg
  expandCacheBoundsTop base size seg

def registerSegment (seg : Word) : TrieProg Unit := do
  let base ← readBase seg
  let size ← readSize seg
  insertRange cfg base size seg
  let base ← readBase seg
  let _ ← lookup cfg base
  expandToSegment seg

def unregisterSegment (seg : Word) : TrieProg Unit := do
  let base ← readBase seg
  let size ← readSize seg
  removeRange cfg base size
  invalidateCache

def find (addr : Word) : TrieProg Word := do
  let seg ← lookup cfg addr
  if seg ≠ 0 then
    expandToSegment seg
    return seg
  else return seg

end Memnon.Trie
