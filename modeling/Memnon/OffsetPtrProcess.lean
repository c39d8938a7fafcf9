import Memnon.OffsetPtr
import Memnon.Manager
import Memnon.SegmentList
import Memnon.RegistrySolo
import Mathlib.Data.List.Find

/-!
# The process behind the pointers

A pointer asks the registry of its process and calls back into managers. This
module builds that runtime from the trie, the `sub_segment` objects and the
managers' lists of segments. On one thread the process is known by its live
segments: a pointer is encoded and decoded as if they were searched directly.
-/

namespace Memnon.OffsetPtr

open Memnon.Lib
open Memnon.Trie (Config HasPage InKeySpace PagesDisjoint Represents ValidPtr keyBound pageOf)

/-! ## 1. Processes -/

/-- A `sub_segment`. -/
structure SegmentObject (M : Type) extends SubSegment M where
  isPrimary : Bool
deriving DecidableEq

/-- The registry with the cache of the running thread, the `sub_segment` objects
    by address, and of each manager `anon_`, `segments_` and the segment table. -/
structure Process (M : Type) where
  memory : Trie.Memory Unit
  object : Word → SegmentObject M
  anon : M → Bool
  segments : M → List Word
  table : M → SegmentTable

variable {M : Type}

def SubSegment.coversFileOffset (fileOffset : Word) (s : SubSegment M) : Bool :=
  decide (fileOffset ≥ s.fileOffset) && decide (fileOffset < s.fileOffset + s.size)

def SegmentObject.toSegment (s : SegmentObject M) : Memnon.Segment :=
  ⟨⟨s.fileOffset, s.size⟩, s.isPrimary⟩

/-- Calls of one process; `none` is an exception that leaves `get`, which is
    `noexcept`. -/
abbrev Run (M A : Type) := StateT (Process M) Option A

section process

variable [DecidableEq M] (cfg : Config) (pick : Trie.Memory Unit → Word)
  (openShmChunk : M → Word → Word → Option Mapping)

def findSegment (addr : Word) : Run M (Option (SubSegment M)) := fun p =>
  let (seg, memory) := (Trie.find cfg addr).eval (Trie.exec ()) pick p.memory
  some (if seg = 0 then none else some (p.object seg).toSubSegment, { p with memory := memory })

/-- `find_segment_by_file_offset`. -/
def findByFileOffset (mgr : M) (fileOffset : Word) : Run M (Option (SubSegment M)) := fun p =>
  some (((p.segments mgr).map fun seg => (p.object seg).toSubSegment).find?
    (·.coversFileOffset fileOffset), p)

/-- The new object of a mapped segment is registered and listed. -/
def Process.addSegment (seg : Word) (s : SegmentObject M) (p : Process M) : Process M :=
  { p with
    memory := Trie.runOp cfg () pick p.memory
      (.registerSegment seg (cfg.platform.ptrToVaddr s.baseVaddr) s.size)
    object := Function.update p.object seg s
    segments := Function.update p.segments s.manager (p.segments s.manager ++ [seg]) }

/-- The `sub_segment` of a chunk that `lazy_discover_growth` maps. -/
def discovered (mgr : M) (e : FileRange) (mapping : Mapping) : SegmentObject M :=
  ⟨⟨mapping.baseVaddr, e.size, e.fileOffset, false, mgr⟩, false⟩

/-- The loop of `lazy_discover_growth` over the missing entries. -/
def discoverLoop (mgr : M) : List FileRange → Run M Unit
  | [] => fun p => some ((), p)
  | e :: rest => fun p =>
      match openShmChunk mgr e.size e.fileOffset with
      | none => none
      | some mapping =>
          discoverLoop mgr rest (p.addSegment cfg pick mapping.seg (discovered mgr e mapping))

/-- `lazy_discover_growth`; its pure part is `lazyDiscoverGrowth`. -/
def discoverGrowth (mgr : M) (requiredFileOffset : Word) : Run M Bool := fun p =>
  if p.anon mgr then some (false, p)
  else
    let (segments, found) := lazyDiscoverGrowth (p.table mgr)
      ((p.segments mgr).map fun seg => (p.object seg).toSegment) requiredFileOffset
    match discoverLoop cfg pick openShmChunk mgr
        ((segments.drop (p.segments mgr).length).map Memnon.Segment.toFileRange) p with
    | none => none
    | some (_, p) => some (found, p)

def runtime : Runtime M (Run M) where
  find := findSegment cfg pick
  findByFileOffset := findByFileOffset
  discoverGrowth := discoverGrowth cfg pick openShmChunk

end process

/-! ## 2. Live segments -/

/-- A live segment, with the address of its `sub_segment`. -/
structure LiveSegment (M : Type) extends SegmentObject M where
  seg : Word
deriving DecidableEq

/-- What the registry knows of it. -/
def LiveSegment.range (s : LiveSegment M) : Trie.Segment := ⟨s.seg, s.baseVaddr, s.size⟩

/-- The address is on a page of the segment. -/
abbrev LiveSegment.Has (cfg : Config) (s : LiveSegment M) (addr : Word) : Prop :=
  HasPage cfg s.baseVaddr s.size (pageOf cfg addr)

/-- The address is in `[base, base + size)`. -/
def LiveSegment.Contains (s : LiveSegment M) (addr : Word) : Prop :=
  s.baseVaddr.toNat ≤ addr.toNat ∧ addr.toNat < s.baseVaddr.toNat + s.size.toNat

instance (s : LiveSegment M) (addr : Word) : Decidable (s.Contains addr) :=
  inferInstanceAs (Decidable (_ ∧ _))

/-- The segment that has the page of the address. -/
def segmentAt (cfg : Config) (live : List (LiveSegment M)) (addr : Word) :
    Option (LiveSegment M) :=
  live.find? fun s => s.Has cfg addr

/-- The segments of a manager, in the order of its list. -/
def segmentsOf [DecidableEq M] (live : List (LiveSegment M)) (mgr : M) : List (LiveSegment M) :=
  live.filter fun s => s.manager = mgr

/-- The file ranges of a manager's segments. -/
def fileRangesOf [DecidableEq M] (live : List (LiveSegment M)) (mgr : M) : List FileRange :=
  (segmentsOf live mgr).map fun s => ⟨s.fileOffset, s.size⟩

/-- The live segments, searched directly; there is nothing to discover. -/
def liveRuntime [DecidableEq M] (cfg : Config) (live : List (LiveSegment M)) : Runtime M Id where
  find addr := (segmentAt cfg live addr).map (·.toSubSegment)
  findByFileOffset mgr fileOffset :=
    ((segmentsOf live mgr).find? (·.coversFileOffset fileOffset)).map (·.toSubSegment)
  discoverGrowth _ _ := false

/-- `get` and `set` on live segments. -/
def liveGet [DecidableEq M] (cfg : Config) (live : List (LiveSegment M))
    (self mOffset : Word) : Word :=
  get cfg.platform (liveRuntime cfg live) self mOffset

def liveSet [DecidableEq M] (cfg : Config) (live : List (LiveSegment M))
    (self ptr : Word) : Except SetError Word :=
  set cfg.platform (liveRuntime cfg live) self ptr

/-- The lists of the SHM managers are contiguous from file offset 0. -/
structure Contiguous [DecidableEq M] (anon : M → Bool) (live : List (LiveSegment M)) : Prop where
  kind : ∀ s ∈ live, s.isAnon = anon s.manager
  laid : ∀ mgr, anon mgr = false → LaidOut 0 (extents (fileRangesOf live mgr))

/-- The managers list these segments, each in this order. -/
structure Lists [DecidableEq M] (live : List (LiveSegment M)) (p : Process M) : Prop where
  object : ∀ s ∈ live, p.object s.seg = s.toSegmentObject
  segments : ∀ mgr, p.segments mgr = (segmentsOf live mgr).map LiveSegment.seg

/-- These are the process's live segments. -/
structure Maps [DecidableEq M] (cfg : Config) (live : List (LiveSegment M)) (p : Process M) :
    Prop extends Lists live p where
  registry : Represents cfg () (live.map LiveSegment.range) p.memory

/-- Lookups change caches only. -/
structure Searched [DecidableEq M] (cfg : Config) (live : List (LiveSegment M))
    (p p' : Process M) : Prop where
  maps : Maps cfg live p'
  anon : p'.anon = p.anon
  table : p'.table = p.table
  outOfMemory : p'.memory.outOfMemory = p.memory.outOfMemory

variable [DecidableEq M] {cfg : Config} {pick : Trie.Memory Unit → Word}
  {openShmChunk : M → Word → Word → Option Mapping} {live : List (LiveSegment M)}
  {p p' p'' : Process M} {s : LiveSegment M} {self ptr addr mOffset fileOffset : Word} {mgr : M}

omit [DecidableEq M] in
theorem run_bind {A B : Type} {x : Run M A} {f : A → Run M B} {a : A}
    (hx : x p = some (a, p')) : (x >>= f) p = f a p' := by
  show (x p).bind _ = _
  rw [hx]
  rfl

omit [DecidableEq M] in
theorem run_bind_eq_some {A B : Type} {x : Run M A} {f : A → Run M B} {r : B × Process M}
    (h : (x >>= f) p = some r) : ∃ a p', x p = some (a, p') ∧ f a p' = some r := by
  obtain ⟨⟨a, p'⟩, hx, hf⟩ := Option.bind_eq_some_iff.mp h
  exact ⟨a, p', hx, hf⟩

theorem mem_segmentsOf : s ∈ segmentsOf live mgr ↔ s ∈ live ∧ s.manager = mgr := by
  simp [segmentsOf]

theorem Searched.refl (h : Maps cfg live p) : Searched cfg live p p := ⟨h, rfl, rfl, rfl⟩

theorem Searched.trans (h : Searched cfg live p p') (h' : Searched cfg live p' p'') :
    Searched cfg live p p'' :=
  ⟨h'.maps, h'.anon.trans h.anon, h'.table.trans h.table, h'.outOfMemory.trans h.outOfMemory⟩

theorem add_sub_self (a b : Word) : a + (b - a) = b := by
  rw [BitVec.add_comm, BitVec.sub_add_cancel]

theorem add_sub_left (a b : Word) : a + b - a = b := by
  rw [BitVec.add_comm, BitVec.add_sub_cancel]

theorem segmentsOf_append (mgr : M) : segmentsOf (live ++ [s]) mgr =
    if s.manager = mgr then segmentsOf live mgr ++ [s] else segmentsOf live mgr := by
  rw [segmentsOf, List.filter_append]
  split
  · rename_i hmgr
    simp [segmentsOf, hmgr]
  · rename_i hmgr
    simp [segmentsOf, hmgr]

theorem fileRangesOf_append (mgr : M) : fileRangesOf (live ++ [s]) mgr =
    if s.manager = mgr then fileRangesOf live mgr ++ [⟨s.fileOffset, s.size⟩]
    else fileRangesOf live mgr := by
  rw [fileRangesOf, segmentsOf_append]
  split
  · simp [fileRangesOf]
  · rfl

theorem stop_le_span (hlaid : LaidOut 0 (extents (fileRangesOf live mgr)))
    (hs : s ∈ segmentsOf live mgr) :
    s.fileOffset.toNat + s.size.toNat ≤ span (extents (fileRangesOf live mgr)) := by
  have hmem : FileRange.extent ⟨s.fileOffset, s.size⟩ ∈ extents (fileRangesOf live mgr) :=
    List.mem_map_of_mem (List.mem_map_of_mem hs)
  have hstop := (hlaid.bounds hmem).2
  rwa [Nat.zero_add] at hstop

/-- In a file with a length the end of a range does not wrap around. -/
theorem coversFileOffset_eq (hlaid : LaidOut 0 (extents (fileRangesOf live mgr)))
    (hsize : span (extents (fileRangesOf live mgr)) < 2 ^ 64) (hs : s ∈ segmentsOf live mgr)
    (fileOffset : Word) : s.coversFileOffset fileOffset =
      (FileRange.extent ⟨s.fileOffset, s.size⟩).covers fileOffset.toNat := by
  have hstop := stop_le_span hlaid hs
  rw [SubSegment.coversFileOffset, Bool.eq_iff_iff, Extent.covers_iff]
  simp only [Bool.and_eq_true, decide_eq_true_eq, ge_iff_le, BitVec.le_def, BitVec.lt_def,
    BitVec.toNat_add, FileRange.extent]
  rw [Nat.mod_eq_of_lt (by omega)]

/-- The search by file offset finds the segment that covers it. -/
theorem find_fileOffset (hlaid : LaidOut 0 (extents (fileRangesOf live mgr)))
    (hsize : span (extents (fileRangesOf live mgr)) < 2 ^ 64) (hs : s ∈ segmentsOf live mgr)
    {fileOffset : Word} (hcovers : s.coversFileOffset fileOffset = true) :
    (segmentsOf live mgr).find? (·.coversFileOffset fileOffset) = some s := by
  rw [List.find?_congr fun x hx => coversFileOffset_eq hlaid hsize hx fileOffset]
  rw [coversFileOffset_eq hlaid hsize hs] at hcovers
  refine LaidOut.find?_covers (n := 0)
    (f := fun x : LiveSegment M => FileRange.extent ⟨x.fileOffset, x.size⟩) ?_ hs hcovers
  simpa [extents, fileRangesOf, Function.comp_def] using hlaid

theorem liveSet_eq (hself : cfg.platform.ptrToVaddr self = self) (hnull : ptr ≠ 0) :
    liveSet cfg live self ptr =
      match segmentAt cfg live self with
      | none => .ok (ptr - self)
      | some s =>
          if s.isAnon then .ok (ptr - s.baseVaddr)
          else
            match segmentAt cfg live ptr with
            | none => .error .unmanaged
            | some s' =>
                if s'.manager ≠ s.manager then .error .acrossManagers
                else .ok (s'.fileOffsetOf ptr - s.fileOffsetOf self) := by
  simp only [liveSet, set, if_neg hnull, hself, liveRuntime, bind, pure]
  cases segmentAt cfg live self with
  | none => rfl
  | some s =>
    simp only [Option.map_some]
    by_cases hanon : s.isAnon = true
    · rw [if_pos hanon, if_pos hanon]
    · rw [if_neg hanon, if_neg hanon]
      cases segmentAt cfg live ptr with
      | none => rfl
      | some s' => rfl

theorem liveGet_eq (hself : cfg.platform.ptrToVaddr self = self) (hnull : mOffset ≠ kNull) :
    liveGet cfg live self mOffset =
      match segmentAt cfg live self with
      | none => self + mOffset
      | some s =>
          if s.isAnon then s.baseVaddr + mOffset
          else
            match (segmentsOf live s.manager).find?
              (·.coversFileOffset (s.fileOffsetOf self + mOffset)) with
            | some s' => s'.addrOf (s.fileOffsetOf self + mOffset)
            | none => 0 := by
  simp only [liveGet, get, if_neg hnull, hself, liveRuntime, bind, pure]
  cases segmentAt cfg live self with
  | none => rfl
  | some s =>
    simp only [Option.map_some]
    by_cases hanon : s.isAnon = true
    · rw [if_pos hanon, if_pos hanon]
    · rw [if_neg hanon, if_neg hanon]
      cases (segmentsOf live s.manager).find?
        (·.coversFileOffset (s.fileOffsetOf self + mOffset)) with
      | none => rfl
      | some s' => rfl

/-- What is read of the objects in a manager's list. -/
theorem Lists.map_object {A : Type} (h : Lists live p) (mgr : M) (f : SegmentObject M → A) :
    ((p.segments mgr).map fun seg => f (p.object seg)) =
      (segmentsOf live mgr).map fun s => f s.toSegmentObject := by
  rw [h.segments, List.map_map]
  exact List.map_congr_left fun s hs => congrArg f (h.object s (mem_segmentsOf.mp hs).1)

theorem Lists.findByFileOffset (h : Lists live p) (mgr : M) (fileOffset : Word) :
    findByFileOffset mgr fileOffset p =
    some (((segmentsOf live mgr).find? (·.coversFileOffset fileOffset)).map (·.toSubSegment),
      p) := by
  rw [OffsetPtr.findByFileOffset, h.map_object mgr SegmentObject.toSubSegment, List.find?_map]
  rfl

/-- One more segment with an object of its own. -/
theorem Lists.add (cfg : Config) (pick : Trie.Memory Unit → Word) (h : Lists live p)
    (hseg : ∀ x ∈ live, x.seg ≠ s.seg) :
    Lists (live ++ [s]) (p.addSegment cfg pick s.seg s.toSegmentObject) := by
  constructor
  · intro x hx
    rcases List.mem_append.mp hx with hx | hx
    · exact (Function.update_of_ne (hseg x hx) _ _).trans (h.object x hx)
    · obtain rfl := List.mem_singleton.mp hx
      exact Function.update_self ..
  · intro mgr
    rw [segmentsOf_append]
    show Function.update p.segments s.manager _ mgr = _
    split
    · rename_i hmgr
      subst hmgr
      rw [Function.update_self, h.segments, List.map_append]
      rfl
    · rename_i hmgr
      rw [Function.update_of_ne (Ne.symm hmgr), h.segments]

/-- A process without segments. -/
theorem maps_nil (hmemory : p.memory = Trie.initialMemory Unit cfg)
    (hsegments : ∀ mgr, p.segments mgr = []) : Maps cfg [] p := by
  refine ⟨⟨?_, hsegments⟩, hmemory ▸ Trie.represents_initial⟩
  intro s hs
  cases hs

namespace Maps

variable (h : Maps cfg live p)
include h

theorem seg_ne_zero (hs : s ∈ live) : s.seg ≠ 0 :=
  (h.registry.segment _ (List.mem_map_of_mem hs)).1.1

/-- An object belongs to one live segment. -/
theorem eq_of_seg {s' : LiveSegment M} (hs : s ∈ live) (hs' : s' ∈ live)
    (hseg : s.seg = s'.seg) : s = s' := by
  have hobject : s.toSegmentObject = s'.toSegmentObject := by
    rw [← h.object s hs, ← h.object s' hs', hseg]
  cases s
  cases s'
  cases hobject
  cases hseg
  rfl

/-- A page belongs to one live segment. -/
theorem eq_of_has {s' : LiveSegment M} (hs : s ∈ live) (hs' : s' ∈ live)
    (haddr : s.Has cfg addr) (haddr' : s'.Has cfg addr) : s = s' := by
  have hrange := h.registry.disjoint _ (List.mem_map_of_mem hs) _ (List.mem_map_of_mem hs')
    (pageOf cfg addr) haddr haddr'
  exact h.eq_of_seg hs hs' (congrArg Trie.Segment.seg hrange)

theorem segmentAt_eq (hs : s ∈ live) (haddr : s.Has cfg addr) :
    segmentAt cfg live addr = some s := by
  cases hfind : segmentAt cfg live addr with
  | none => exact absurd (decide_eq_true haddr) (List.find?_eq_none.mp hfind s hs)
  | some s' =>
    have haddr' : s'.Has cfg addr := by simpa using List.find?_some hfind
    rw [h.eq_of_has hs (List.mem_of_find?_eq_some hfind) haddr haddr']

/-- An address in the segment is on one of its pages. -/
theorem has_of_contains (hs : s ∈ live) (haddr : s.Contains addr) : s.Has cfg addr := by
  have hspace : InKeySpace cfg s.baseVaddr s.size :=
    (h.registry.segment _ (List.mem_map_of_mem hs)).2.2.1
  have hsp := hspace.1
  have hpos : 0 < 2 ^ cfg.platform.pageShift := Nat.two_pow_pos _
  refine hspace.boundsIn addr haddr.1 ?_
  rw [BitVec.lt_def, BitVec.toNat_add, Nat.mod_eq_of_lt (by omega)]
  exact haddr.2

theorem key_lt (hs : s ∈ live) (haddr : s.Has cfg addr) :
    (pageOf cfg addr).toNat < keyBound cfg :=
  ((h.registry.segment _ (List.mem_map_of_mem hs)).2.2.1).lt haddr

theorem size_pos (hs : s ∈ live) : 0 < s.size.toNat := by
  apply Nat.pos_of_ne_zero
  intro hzero
  exact (h.registry.segment _ (List.mem_map_of_mem hs)).2.1 (BitVec.eq_of_toNat_eq hzero)

theorem stop_le (hs : s ∈ live) :
    s.baseVaddr.toNat + s.size.toNat + 2 ^ cfg.platform.pageShift ≤ 2 ^ 64 :=
  ((h.registry.segment _ (List.mem_map_of_mem hs)).2.2.1).1

/-- Two segments have no address in common. -/
theorem disjoint_of_ne {s' : LiveSegment M} (hs : s ∈ live) (hs' : s' ∈ live) (hne : s ≠ s') :
    Extent.Disjoint ⟨s.baseVaddr.toNat, s.size.toNat⟩ ⟨s'.baseVaddr.toNat, s'.size.toNat⟩ := by
  by_contra hmeet
  simp only [Extent.Disjoint, Extent.stop, not_or, Nat.not_le] at hmeet
  apply hne
  have hpos := h.size_pos hs
  have hpos' := h.size_pos hs'
  rcases Nat.le_total s.baseVaddr.toNat s'.baseVaddr.toNat with hle | hle
  · have hin : s.Contains s'.baseVaddr := ⟨hle, hmeet.1⟩
    have hin' : s'.Contains s'.baseVaddr := ⟨Nat.le_refl _, by omega⟩
    exact h.eq_of_has hs hs' (h.has_of_contains hs hin) (h.has_of_contains hs' hin')
  · have hin : s.Contains s.baseVaddr := ⟨Nat.le_refl _, by omega⟩
    have hin' : s'.Contains s.baseVaddr := ⟨hle, hmeet.2⟩
    exact h.eq_of_has hs hs' (h.has_of_contains hs hin) (h.has_of_contains hs' hin')

/-- What is mapped at once fits into the address space, so file offsets do not
    wrap around. -/
theorem span_lt (hlaid : LaidOut 0 (extents (fileRangesOf live mgr))) :
    span (extents (fileRangesOf live mgr)) < 2 ^ 64 := by
  let addresses (s : LiveSegment M) : Extent := ⟨s.baseVaddr.toNat, s.size.toNat⟩
  have hsame : span (extents (fileRangesOf live mgr)) =
      span ((segmentsOf live mgr).map addresses) := by
    rw [span_eq_sum, span_eq_sum, extents, fileRangesOf, List.map_map, List.map_map, List.map_map]
    rfl
  have horder : (segmentsOf live mgr).Pairwise fun s s' =>
      s.fileOffset.toNat + s.size.toNat ≤ s'.fileOffset.toNat := by
    have hpairwise := hlaid.pairwise
    rwa [extents, fileRangesOf, List.map_map, List.pairwise_map] at hpairwise
  have hpos : 0 < 2 ^ cfg.platform.pageShift := Nat.two_pow_pos _
  have hbound : span ((segmentsOf live mgr).map addresses) ≤
      2 ^ 64 - 2 ^ cfg.platform.pageShift := by
    apply span_le_of_disjoint
    · rw [List.pairwise_map]
      refine horder.imp_of_mem fun {s s'} hs hs' hle => ?_
      have hlive := (mem_segmentsOf.mp hs).1
      refine h.disjoint_of_ne hlive (mem_segmentsOf.mp hs').1 ?_
      rintro rfl
      have hsize := h.size_pos hlive
      omega
    · intro e he
      obtain ⟨s, hs, rfl⟩ := List.mem_map.mp he
      have hstop := h.stop_le (mem_segmentsOf.mp hs).1
      simp only [Extent.stop, addresses]
      omega
  omega

/-! ## 3. The runtime on live segments -/

theorem find (pick : Trie.Memory Unit → Word) (hkey : (pageOf cfg addr).toNat < keyBound cfg) :
    ∃ p', findSegment cfg pick addr p = some ((liveRuntime cfg live).find addr, p') ∧
      Searched cfg live p p' := by
  obtain ⟨hfound, hrep, hoom⟩ := h.registry.find pick hkey
  generalize heval : (Trie.find cfg addr).eval (Trie.exec ()) pick p.memory = r
    at hfound hrep hoom
  obtain ⟨seg, memory⟩ := r
  have howner : Trie.owner cfg (live.map LiveSegment.range) (pageOf cfg addr) =
      ((segmentAt cfg live addr).map LiveSegment.seg).getD 0 := by
    rw [Trie.owner, List.find?_map, Option.map_map]
    rfl
  have hanswer : (if seg = 0 then none else some (p.object seg).toSubSegment) =
      (liveRuntime cfg live).find addr := by
    obtain rfl : seg = ((segmentAt cfg live addr).map LiveSegment.seg).getD 0 :=
      hfound.trans howner
    simp only [liveRuntime]
    cases hat : segmentAt cfg live addr with
    | none => rfl
    | some s =>
      have hs : s ∈ live := List.mem_of_find?_eq_some hat
      rw [Option.map_some, Option.getD_some, if_neg (h.seg_ne_zero hs), h.object s hs]
      rfl
  refine ⟨{ p with memory := memory }, ?_, ⟨⟨h.object, h.segments⟩, hrep⟩, rfl, rfl, hoom⟩
  simp only [findSegment, heval, hanswer]

theorem find_keeps (pick : Trie.Memory Unit → Word) (addr : Word) :
    ∃ found p', findSegment cfg pick addr p = some (found, p') ∧ Searched cfg live p p' := by
  obtain ⟨hrep, hoom⟩ := h.registry.find_keeps pick addr
  exact ⟨_, _, rfl, ⟨⟨h.object, h.segments⟩, hrep⟩, rfl, rfl, hoom⟩

/-- Only an object in a SHM segment asks which segment has the target. -/
theorem set (pick : Trie.Memory Unit → Word) (openShmChunk : M → Word → Word → Option Mapping)
    (hself : cfg.platform.ptrToVaddr self = self)
    (hkey : (pageOf cfg self).toNat < keyBound cfg)
    (hptr : ∀ s ∈ live, s.Has cfg self → s.isAnon = false →
      (pageOf cfg ptr).toNat < keyBound cfg) :
    ∃ p', OffsetPtr.set cfg.platform (runtime cfg pick openShmChunk) self ptr p =
      some (liveSet cfg live self ptr, p') ∧ Searched cfg live p p' := by
  by_cases hnull : ptr = 0
  · refine ⟨p, ?_, .refl h⟩
    rw [OffsetPtr.set, liveSet, OffsetPtr.set, if_pos hnull, if_pos hnull]
    rfl
  · obtain ⟨p₁, hfind₁, hp₁⟩ := h.find pick hkey
    rw [liveSet_eq hself hnull, OffsetPtr.set, if_neg hnull, hself]
    cases hat : segmentAt cfg live self with
    | none =>
      obtain ⟨found, p₂, hfind₂, hp₂⟩ := hp₁.maps.find_keeps pick ptr
      refine ⟨p₂, (run_bind hfind₁).trans ((run_bind hfind₂).trans ?_), hp₁.trans hp₂⟩
      simp only [liveRuntime, hat, Option.map_none]
      rfl
    | some s =>
      have hs : s ∈ live := List.mem_of_find?_eq_some hat
      have hhas : s.Has cfg self := by simpa using List.find?_some hat
      by_cases hanon : s.isAnon = true
      · obtain ⟨found, p₂, hfind₂, hp₂⟩ := hp₁.maps.find_keeps pick ptr
        refine ⟨p₂, (run_bind hfind₁).trans ((run_bind hfind₂).trans ?_), hp₁.trans hp₂⟩
        simp only [liveRuntime, hat, Option.map_some, if_pos hanon]
        rfl
      · obtain ⟨p₂, hfind₂, hp₂⟩ := hp₁.maps.find pick (hptr s hs hhas (by simpa using hanon))
        refine ⟨p₂, (run_bind hfind₁).trans ((run_bind hfind₂).trans ?_), hp₁.trans hp₂⟩
        simp only [liveRuntime, hat, Option.map_some, if_neg hanon]
        cases segmentAt cfg live ptr with
        | none => rfl
        | some s' =>
          simp only [Option.map_some]
          by_cases hmgr : s'.manager ≠ s.manager
          · rw [if_pos hmgr, if_pos hmgr]
            rfl
          · rw [if_neg hmgr, if_neg hmgr]
            rfl

/-- Where the live segments have the file offset, nothing is discovered. -/
theorem get_found (pick : Trie.Memory Unit → Word)
    (openShmChunk : M → Word → Word → Option Mapping)
    (hself : cfg.platform.ptrToVaddr self = self)
    (hkey : (pageOf cfg self).toNat < keyBound cfg)
    (hfound : mOffset ≠ kNull → ∀ s, segmentAt cfg live self = some s → s.isAnon = false →
      (segmentsOf live s.manager).find?
        (·.coversFileOffset (s.fileOffsetOf self + mOffset)) ≠ none) :
    ∃ p', OffsetPtr.get cfg.platform (runtime cfg pick openShmChunk) self mOffset p =
      some (liveGet cfg live self mOffset, p') ∧ Searched cfg live p p' := by
  by_cases hnull : mOffset = kNull
  · refine ⟨p, ?_, .refl h⟩
    rw [OffsetPtr.get, liveGet, OffsetPtr.get, if_pos hnull, if_pos hnull]
    rfl
  · obtain ⟨p₁, hfind, hp₁⟩ := h.find pick hkey
    refine ⟨p₁, ?_, hp₁⟩
    rw [liveGet_eq hself hnull, OffsetPtr.get, if_neg hnull, hself]
    refine (run_bind hfind).trans ?_
    simp only [liveRuntime]
    cases hat : segmentAt cfg live self with
    | none => rfl
    | some s =>
      simp only [Option.map_some]
      by_cases hanon : s.isAnon = true
      · rw [if_pos hanon, if_pos hanon]
        rfl
      · rw [if_neg hanon, if_neg hanon]
        refine (run_bind (hp₁.maps.findByFileOffset _ _)).trans ?_
        have hsome := hfound hnull s hat (by simpa using hanon)
        cases htarget : (segmentsOf live s.manager).find?
            (·.coversFileOffset (s.fileOffsetOf self + mOffset)) with
        | some s' => rfl
        | none => exact absurd htarget hsome

/-- Where the live segments give an address, nothing is discovered. -/
theorem get (pick : Trie.Memory Unit → Word) (openShmChunk : M → Word → Word → Option Mapping)
    (hself : cfg.platform.ptrToVaddr self = self)
    (hkey : (pageOf cfg self).toNat < keyBound cfg)
    (hfound : mOffset = kNull ∨ liveGet cfg live self mOffset ≠ 0) :
    ∃ p', OffsetPtr.get cfg.platform (runtime cfg pick openShmChunk) self mOffset p =
      some (liveGet cfg live self mOffset, p') ∧ Searched cfg live p p' := by
  apply h.get_found pick openShmChunk hself hkey
  intro hnull s hat hanon htarget
  apply hfound.resolve_left hnull
  rw [liveGet_eq hself hnull]
  simp only [hat, hanon, Bool.false_eq_true, if_false, htarget]

end Maps

end Memnon.OffsetPtr
