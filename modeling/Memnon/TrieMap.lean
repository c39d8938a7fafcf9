import Memnon.TrieSolo
import Memnon.Lib.LastWrite

/-!
# The trie as a map

A sequence of `insert_range` and `remove_range` calls by one thread leaves for
each page the value of the last call that covers a page with its key.
-/

namespace Memnon.Trie

open Memnon.Lib Memnon.Lib.Prog

inductive RangeCall where
  | insertRange (base size value : Word)
  | removeRange (base size : Word)
deriving DecidableEq

variable {T : Type} [DecidableEq T] {cfg : Config} {t : T} {pick : Memory T → Word}
  {m : Memory T} {p : Word}

namespace RangeCall

def base : RangeCall → Word
  | insertRange base _ _ | removeRange base _ => base

def size : RangeCall → Word
  | insertRange _ size _ | removeRange _ size => size

/-- What the call leaves for the pages it covers. -/
def value : RangeCall → Word
  | insertRange _ _ value => value
  | removeRange _ _ => 0

def body (cfg : Config) : RangeCall → TrieProg Unit
  | insertRange base size value => Trie.insertRange cfg base size value
  | removeRange base size => Trie.removeRange cfg base size

variable (cfg) (c : RangeCall)

/-- The range is not empty and, rounded up to pages, lies in the address space;
    only pointers are inserted. -/
def Fits : Prop :=
  c.size ≠ 0 ∧ c.base.toNat + c.size.toNat + 2 ^ cfg.platform.pageShift - 1 < 2 ^ 64 ∧
    match c with
    | insertRange _ _ value => ValidPtr value
    | removeRange _ _ => True

instance : Decidable (c.Fits cfg) :=
  match c with
  | insertRange _ _ _ | removeRange _ _ => inferInstanceAs (Decidable (_ ∧ _ ∧ _))

/-- Page `q` meets `[base, base + size)`. -/
def Covers (q : Nat) : Prop :=
  c.base.toNat < (q + 1) * 2 ^ cfg.platform.pageShift ∧
    q * 2 ^ cfg.platform.pageShift < c.base.toNat + c.size.toNat

instance (q : Nat) : Decidable (c.Covers cfg q) := inferInstanceAs (Decidable (_ ∧ _))

/-- The call covers a page that is congruent to `p`. -/
def Reaches (p : Word) : Prop :=
  ∃ q, c.Covers cfg q ∧ q % 2 ^ (cfg.stride * cfg.levels) =
    p.toNat % 2 ^ (cfg.stride * cfg.levels)

theorem Covers.lt {cfg : Config} {c : RangeCall} {q : Nat} (h : c.Covers cfg q) :
    q < c.base.toNat + c.size.toNat := by
  have hpos : 0 < 2 ^ cfg.platform.pageShift := Nat.two_pow_pos _
  exact Nat.lt_of_le_of_lt (Nat.le_mul_of_pos_right q hpos) h.2

instance (p : Word) : Decidable (c.Reaches cfg p) :=
  decidable_of_iff (∃ q, q < c.base.toNat + c.size.toNat ∧ c.Covers cfg q ∧
      q % 2 ^ (cfg.stride * cfg.levels) = p.toNat % 2 ^ (cfg.stride * cfg.levels))
    ⟨fun ⟨q, _, h⟩ => ⟨q, h⟩, fun ⟨q, h⟩ => ⟨q, h.1.lt, h⟩⟩

end RangeCall

variable {c : RangeCall}

/-- The loop of a call runs through the pages it covers. -/
theorem RangeCall.Fits.hits_iff (h : c.Fits cfg) :
    RangeHits cfg c.base c.size p ↔ c.Reaches cfg p := by
  have hsp : c.base.toNat + c.size.toNat + 2 ^ cfg.platform.pageShift ≤ 2 ^ 64 := by
    have := h.2.1
    omega
  constructor
  · rintro ⟨q, hq, hkey⟩
    exact ⟨q.toNat, (hasPage_iff hsp).mp hq, sameKey_iff.mp hkey⟩
  · rintro ⟨q, hq, hkey⟩
    have hpos : 0 < 2 ^ cfg.platform.pageShift := Nat.two_pow_pos _
    have hlt : q < 2 ^ 64 := by
      have hcover := hq.lt
      omega
    have hto : (BitVec.ofNat 64 q).toNat = q := by
      rw [BitVec.toNat_ofNat, Nat.mod_eq_of_lt hlt]
    refine ⟨BitVec.ofNat 64 q, ?_, ?_⟩
    · rw [hasPage_iff hsp, hto]
      exact hq
    · rw [sameKey_iff, hto]
      exact hkey

/-- One thread makes the calls one after the other. -/
def runCalls (cfg : Config) (t : T) (pick : Memory T → Word) (m : Memory T)
    (calls : List RangeCall) : Memory T :=
  calls.foldl (fun m c => ((c.body cfg).eval (exec t) pick m).2) m

theorem runCalls_concat (calls : List RangeCall) :
    runCalls cfg t pick m (calls ++ [c]) =
      ((c.body cfg).eval (exec t) pick (runCalls cfg t pick m calls)).2 := by
  rw [runCalls, List.foldl_append]
  rfl

/-- What a call does to the leaves, as a map of pages to values. -/
theorem eval_call (t : T) (pick : Memory T → Word) (h : HeapInv cfg m)
    (hc : c.Fits cfg) :
    let m' := ((c.body cfg).eval (exec t) pick m).2
    HeapInv cfg m' ∧ (m'.outOfMemory = false → m.outOfMemory = false ∧ ∀ p,
      leafValue cfg m' p &&& ~~~kLeafTag =
        if c.Reaches cfg p then c.value else leafValue cfg m p &&& ~~~kLeafTag) := by
  have hstored : ∃ x m₁, x &&& ~~~kLeafTag = c.value ∧
      Stored cfg (RangeHits cfg c.base c.size) x m m₁ ∧
      (c.body cfg).eval (exec t) pick m = ((), m₁.setCache t emptyCache) := by
    cases c with
    | insertRange base size value =>
      obtain ⟨m₁, hm₁, heval⟩ := stored_insertRange t pick h base size value
      exact ⟨_, m₁, untag_tag hc.2.2.2, hm₁, heval⟩
    | removeRange base size =>
      obtain ⟨m₁, hm₁, heval⟩ := stored_removeRange t pick h base size
      exact ⟨_, m₁, BitVec.zero_and, hm₁, heval⟩
  obtain ⟨x, m₁, hx, hm₁, heval⟩ := hstored
  rw [heval]
  refine ⟨hm₁.heap.congr rfl rfl, fun ho => ⟨hm₁.rest.allocated ho, fun p => ?_⟩⟩
  change leafValue cfg m₁ p &&& ~~~kLeafTag = _
  split
  · rename_i hreach
    rw [hm₁.inside ho p (hc.hits_iff.mpr hreach), hx]
  · rename_i hreach
    rw [hm₁.outside ho p fun hhits => hreach (hc.hits_iff.mp hhits)]

theorem runCalls_values (t : T) (pick : Memory T → Word) {calls : List RangeCall}
    (hfits : ∀ c ∈ calls, c.Fits cfg) :
    let m := runCalls cfg t pick (initialMemory T cfg) calls
    HeapInv cfg m ∧ (m.outOfMemory = false → ∀ p, leafValue cfg m p &&& ~~~kLeafTag =
      lastWrite (fun c => decide (c.Reaches cfg p)) RangeCall.value 0 calls) := by
  induction calls using List.reverseRecOn with
  | nil =>
    refine ⟨heapInv_initial, fun _ p => ?_⟩
    have hzero : leafValue cfg (initialMemory T cfg) p = 0 := by
      unfold leafValue
      split <;> rfl
    exact (congrArg (· &&& ~~~kLeafTag) hzero).trans BitVec.zero_and
  | append_singleton calls c ih =>
    obtain ⟨hheap, hvalues⟩ := ih fun c hc => hfits c (List.mem_append_left _ hc)
    have hc : c.Fits cfg := hfits c (List.mem_append_right _ (List.mem_singleton.mpr rfl))
    obtain ⟨hheap', hvalues'⟩ := eval_call t pick hheap hc
    rw [← runCalls_concat] at hheap' hvalues'
    refine ⟨hheap', fun ho p => ?_⟩
    obtain ⟨ho', hleaf⟩ := hvalues' ho
    rw [hleaf p, lastWrite_concat, hvalues ho' p]
    simp only [decide_eq_true_eq]

/-- The trie refines a map: `lookup_page` returns the value of the last call that
    covers a page congruent to the one looked up. Where all pages have keys of
    their own, that is the last call that covers the page itself. -/
theorem trie_refines_map {calls : List RangeCall} (hfits : ∀ c ∈ calls, c.Fits cfg)
    (halloc : (runCalls cfg t pick (initialMemory T cfg) calls).outOfMemory = false) (p : Word) :
    let found := ((lookupPage cfg p).eval (exec t) pick
      (runCalls cfg t pick (initialMemory T cfg) calls)).1
    found = lastWrite (fun c => decide (c.Reaches cfg p)) RangeCall.value 0 calls ∧
      (p.toNat < 2 ^ (cfg.stride * cfg.levels) →
        (∀ c ∈ calls, ∀ q, c.Covers cfg q → q < 2 ^ (cfg.stride * cfg.levels)) →
        found = lastWrite (fun c => decide (c.Covers cfg p.toNat)) RangeCall.value 0 calls) := by
  have hfound := (runCalls_values t pick hfits).2 halloc p
  simp only [eval_lookupPage]
  refine ⟨hfound, fun hp hbelow => hfound.trans ?_⟩
  apply lastWrite_congr
  intro c hc
  have hiff : c.Reaches cfg p ↔ c.Covers cfg p.toNat := by
    constructor
    · rintro ⟨q, hq, hmod⟩
      rw [Nat.mod_eq_of_lt (hbelow c hc q hq), Nat.mod_eq_of_lt hp] at hmod
      exact hmod ▸ hq
    · intro hcovers
      exact ⟨p.toNat, hcovers, rfl⟩
  exact decide_eq_decide.mpr hiff

/-- A heap that hands out the first free address of a list. -/
def firstFree (addrs : List Word) (m : Memory T) : Word :=
  (addrs.find? fun a => decide (m.place a = .free)).getD 0

/-- Half of page 256 and all of page 257, from which the second one is removed. -/
def overlappingCalls : List RangeCall :=
  [.insertRange 0x100800 0x1800 0x10, .removeRange 0x101000 0x1000]

theorem trie_refines_map_overlap :
    ((lookupPage defaultConfig 0x101).eval (exec ()) (firstFree [0x2000, 0x3000, 0x4000])
      (runCalls defaultConfig () (firstFree [0x2000, 0x3000, 0x4000])
        (initialMemory Unit defaultConfig) overlappingCalls)).1 = 0 := by
  have hfits : ∀ c ∈ overlappingCalls, c.Fits defaultConfig := by decide
  have halloc : (runCalls defaultConfig () (firstFree [0x2000, 0x3000, 0x4000])
    (initialMemory Unit defaultConfig) overlappingCalls).outOfMemory = false := by decide +kernel
  have hsmall : ∀ c ∈ overlappingCalls, c.base.toNat + c.size.toNat ≤ 2 ^ (9 * 4) := by decide
  have hfound := (trie_refines_map hfits halloc 0x101).2 (by decide)
    fun c hc q hq => Nat.lt_of_lt_of_le hq.lt (hsmall c hc)
  exact hfound.trans (by decide +kernel)

end Memnon.Trie
