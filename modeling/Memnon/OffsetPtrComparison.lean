import Memnon.SharedLinks

/-!
# Comparisons of shared pointers

The comparison operators decode both pointers and compare raw addresses. Whether two
pointers of a file are equal is therefore the same in every process. Their order is not:
it is the order of the file within one chunk only, and between chunks it is that of the
mappings.
-/

namespace Memnon.OffsetPtr.SharedLinks

open Memnon.Lib
open Memnon.Trie (Config)

variable {J M : Type} [DecidableEq M]

/-! ## 1. The operators -/

section operators

variable [DecidableEq J] (cfg : Config) (mgr : J → M) (j : J) (sys : System M) (a b : Word)

/-- `a.get()` and `b.get()` are compared. -/
def World.compare (test : Word → Word → Bool) (w : World J M) : Option (Bool × World J M) :=
  match w.get cfg mgr j sys a with
  | none => none
  | some (p, w) =>
      match w.get cfg mgr j sys b with
      | none => none
      | some (q, w) => some (test p q, w)

def World.operatorEq : World J M → Option (Bool × World J M) :=
  World.compare cfg mgr j sys a b fun p q => decide (p = q)

def World.operatorNe : World J M → Option (Bool × World J M) :=
  World.compare cfg mgr j sys a b fun p q => !decide (p = q)

def World.operatorLt : World J M → Option (Bool × World J M) :=
  World.compare cfg mgr j sys a b fun p q => decide (p < q)

def World.operatorLe : World J M → Option (Bool × World J M) :=
  World.compare cfg mgr j sys a b fun p q => decide (p ≤ q)

def World.operatorGt : World J M → Option (Bool × World J M) :=
  World.compare cfg mgr j sys a b fun p q => decide (p > q)

def World.operatorGe : World J M → Option (Bool × World J M) :=
  World.compare cfg mgr j sys a b fun p q => decide (p ≥ q)

end operators

/-- `operator!`, and the comparison with `nullptr`. -/
def operatorNot (mOffset : Word) : Bool := decide (mOffset = kNull)

/-! ## 2. Addresses of a process -/

/-- The table lists a chunk with both file offsets. -/
def SameChunk (t : SegmentTable) (u v : Word) : Prop :=
  ∃ e ∈ t.published, e.extent.covers u.toNat = true ∧ e.extent.covers v.toNat = true

section addresses

variable {cfg : Config} {t : SegmentTable} {mgr : M} {live : List (LiveSegment M)}
  {p : Process M} {s : LiveSegment M} {a b x y : Word}

/-- A process has one address for a file offset. -/
theorem Joined.locate_inj (h : Joined cfg t mgr live p) (ht : WellLaid t)
    (ha : locate p mgr a = some x) (hb : locate p mgr b = some x) : a = b := by
  obtain ⟨s, hs, hcovers, rfl, -, -⟩ := h.located ht ha
  obtain ⟨s', hs', hcovers', rfl, -, -⟩ := h.located ht hb
  obtain ⟨hlaid, hspan⟩ := h.toAttached.laid ht.laid
  have hsize : span (extents (fileRangesOf live mgr)) < 2 ^ 64 :=
    Nat.lt_of_le_of_lt hspan (Nat.lt_trans ht.size (by decide))
  have hfind := find_fileOffset hlaid hsize hs hcovers
  rw [find_fileOffset hlaid hsize hs' hcovers'] at hfind
  rw [Option.some.inj hfind]

/-- The segment of a file offset has the whole chunk that the table lists for it. -/
theorem Joined.covers_chunk (h : Joined cfg t mgr live p) (ht : WellLaid t)
    (hs : s ∈ segmentsOf live mgr) (hcovers : s.coversFileOffset x = true)
    (hchunk : SameChunk t x y) : s.coversFileOffset y = true := by
  obtain ⟨e, he, hx, hy⟩ := hchunk
  obtain ⟨hlaid, hspan⟩ := h.toAttached.laid ht.laid
  have hsize : span (extents (fileRangesOf live mgr)) < 2 ^ 64 :=
    Nat.lt_of_le_of_lt hspan (Nat.lt_trans ht.size (by decide))
  have hrange : (⟨s.fileOffset, s.size⟩ : FileRange) ∈ t.published :=
    h.listed.subset (List.mem_map_of_mem hs)
  rw [coversFileOffset_eq hlaid hsize hs] at hcovers ⊢
  have hfind := LaidOut.find?_covers ht.laid hrange hcovers
  rw [LaidOut.find?_covers ht.laid he hx] at hfind
  rwa [← Option.some.inj hfind]

/-- Within a chunk addresses are as far apart as file offsets. -/
theorem Joined.locate_apart (h : Joined cfg t mgr live p) (ht : WellLaid t)
    (ha : locate p mgr a = some x) (hb : locate p mgr b = some y) (hchunk : SameChunk t x y) :
    a.toNat + y.toNat = b.toNat + x.toNat := by
  obtain ⟨s, hs, hcovers, rfl, -, -⟩ := h.located ht ha
  have hcovers' := h.covers_chunk ht hs hcovers hchunk
  obtain rfl := h.locate_inj ht hb (h.locate_addrOf hs hcovers')
  have hstop := h.maps.stop_le (mem_segmentsOf.mp hs).1
  have hpage : 0 < 2 ^ cfg.platform.pageShift := Nat.two_pow_pos _
  obtain ⟨hlaid, hspan⟩ := h.toAttached.laid ht.laid
  have hsize : span (extents (fileRangesOf live mgr)) < 2 ^ 64 :=
    Nat.lt_of_le_of_lt hspan (Nat.lt_trans ht.size (by decide))
  have haddr : ∀ {z : Word}, s.coversFileOffset z = true →
      (s.addrOf z).toNat + s.fileOffset.toNat = s.baseVaddr.toNat + z.toNat := by
    intro z hz
    rw [coversFileOffset_eq hlaid hsize hs, Extent.covers_iff] at hz
    simp only [FileRange.extent] at hz
    have hdist : (z - s.fileOffset).toNat = z.toNat - s.fileOffset.toNat :=
      BitVec.toNat_sub_of_le (BitVec.le_def.mpr hz.1)
    rw [SubSegment.addrOf, BitVec.toNat_add, hdist, Nat.mod_eq_of_lt (by omega)]
    omega
  have hx := haddr hcovers
  have hy := haddr hcovers'
  omega

end addresses

/-! ## 3. Result -/

variable [DecidableEq J] {cfg : Config} {mgr : J → M} {w₀ w : World J M} {j : J}
  {sys : System M} {a b x y : Word} {link link' : Option Word}

theorem get_table {w' : World J M} (hget : w.get cfg mgr j sys a = some (b, w')) :
    w'.table = w.table := by
  unfold World.get at hget
  split at hget
  · cases hget
  · obtain ⟨r, -, hr⟩ := Option.map_eq_some_iff.mp hget
    cases hr
    rfl

/-- Both pointers are decoded, and the first address stays one. -/
theorem Inv.compare (h : Inv cfg mgr w)
    (hsys : MapsMissing cfg sys w.table (mgr j) (w.process j))
    (hx : locate (w.process j) (mgr j) a = some x) (hlink : w.links x = some link)
    (hy : locate (w.process j) (mgr j) b = some y) (hlink' : w.links y = some link')
    (ho : ∀ p w₁, w.get cfg mgr j sys a = some (p, w₁) → w₁.Allocated ∧
      ∀ q w₂, w₁.get cfg mgr j sys b = some (q, w₂) → w₂.Allocated) :
    ∃ p q w₂, (∀ test, w.compare cfg mgr j sys a b test = some (test p q, w₂)) ∧
      Inv cfg mgr w₂ ∧ w₂.table = w.table ∧ locate (w₂.process j) (mgr j) p = link ∧
      locate (w₂.process j) (mgr j) q = link' ∧ (link = none → p = 0) ∧
      (link' = none → q = 0) := by
  obtain ⟨p, w₁, hget, hafter⟩ := h.get hsys hx hlink
  obtain ⟨ho₁, ho⟩ := ho p w₁ hget
  obtain ⟨h₁, hlinks, hsys₁, hkeeps, hp, hnull⟩ := hafter ho₁
  obtain ⟨q, w₂, hget', hafter'⟩ := h₁.get hsys₁ (hkeeps b y hy) (hlinks ▸ hlink')
  obtain ⟨h₂, -, -, hkeeps', hq, hnull'⟩ := hafter' (ho q w₂ hget')
  refine ⟨p, q, w₂, fun test => ?_, h₂, ?_, ?_, hq, hnull, hnull'⟩
  · simp only [World.compare, hget, hget']
  · exact (get_table hget').trans (get_table hget)
  · cases link with
    | none =>
      rw [hnull rfl]
      obtain ⟨live, hlive⟩ := h₂.joined j
      exact hlive.locate_zero h₂.table
    | some u => exact hkeeps' p u hp

/-- In every fair run of any number of processes, and in each of them: two pointers of the
    file are equal just when they have the same target; within one chunk they are ordered
    as their targets are in the file; and a pointer is null just when it stores the
    sentinel. -/
theorem comparisons_agree (h₀ : Started cfg mgr w₀)
    (hrun : Steps (step cfg mgr) (FairStep cfg mgr) w₀ w)
    (hsys : MapsMissing cfg sys w.table (mgr j) (w.process j))
    (hx : locate (w.process j) (mgr j) a = some x) (hlink : w.links x = some link)
    (hy : locate (w.process j) (mgr j) b = some y) (hlink' : w.links y = some link')
    (ho : ∀ p w₁, w.get cfg mgr j sys a = some (p, w₁) → w₁.Allocated ∧
      ∀ q w₂, w₁.get cfg mgr j sys b = some (q, w₂) → w₂.Allocated) :
    operatorNot (w.offset x) = link.isNone ∧
    ∃ w₂, w.operatorEq cfg mgr j sys a b = some (decide (link = link'), w₂) ∧
      w.operatorNe cfg mgr j sys a b = some (!decide (link = link'), w₂) ∧
      ∀ u v, link = some u → link' = some v → SameChunk w.table u v →
        w.operatorLt cfg mgr j sys a b = some (decide (u < v), w₂) ∧
        w.operatorLe cfg mgr j sys a b = some (decide (u ≤ v), w₂) ∧
        w.operatorGt cfg mgr j sys a b = some (decide (u > v), w₂) ∧
        w.operatorGe cfg mgr j sys a b = some (decide (u ≥ v), w₂) := by
  have h := inv_of_run h₀ hrun
  obtain ⟨p, q, w₂, htest, h₂, htable, hp, hq, hnull, hnull'⟩ :=
    h.compare hsys hx hlink hy hlink' ho
  obtain ⟨live, hlive⟩ := h₂.joined j
  have hsame : p = q ↔ link = link' := by
    constructor
    · intro heq
      rw [← hp, ← hq, heq]
    · intro heq
      subst heq
      cases link with
      | none => rw [hnull rfl, hnull' rfl]
      | some u => exact hlive.locate_inj h₂.table hp hq
  refine ⟨?_, w₂, ?_, ?_, fun u v hu hv hchunk => ?_⟩
  · have hholds := h.holds x link hlink
    cases link with
    | none => exact decide_eq_true hholds
    | some u =>
      obtain ⟨hdist, hclear, -⟩ := hholds
      exact decide_eq_false (hdist ▸ sub_ne_kNull hclear)
  · rw [World.operatorEq, htest]
    simp only [hsame]
  · rw [World.operatorNe, htest]
    simp only [hsame]
  · subst hu
    subst hv
    have hapart := hlive.locate_apart h₂.table hp hq (htable ▸ hchunk)
    have hlt : p < q ↔ u < v := by
      rw [BitVec.lt_def, BitVec.lt_def]
      omega
    have hgt : p > q ↔ u > v := by
      rw [gt_iff_lt, gt_iff_lt, BitVec.lt_def, BitVec.lt_def]
      omega
    have hle : p ≤ q ↔ u ≤ v := by
      rw [BitVec.le_def, BitVec.le_def]
      omega
    have hge : p ≥ q ↔ u ≥ v := by
      rw [ge_iff_le, ge_iff_le, BitVec.le_def, BitVec.le_def]
      omega
    rw [World.operatorLt, World.operatorLe, World.operatorGt, World.operatorGe, htest, htest,
      htest, htest]
    simp only [hlt, hle, hgt, hge, and_self]

/-- Two pointers that lie in different chunks. -/
theorem comparisons_agree_two : operatorNot (twoLinks.offset 0x1000) = false ∧
    ∃ w₂, twoLinks.operatorEq Trie.defaultConfig (fun _ => false) true sharedSystem 0x10001000
      0x8000010 = some (false, w₂) := by
  have hx : locate (twoLinks.process true) false 0x10001000 = some 0x1000 := by decide +kernel
  have hy : locate (twoLinks.process true) false 0x8000010 = some 0x2010 := by decide +kernel
  have hlink : twoLinks.links 0x1000 = some (some 0x2010) := by decide +kernel
  have hlink' : twoLinks.links 0x2010 = some (some 0x1800) := by decide +kernel
  have hall : (twoLinks.get Trie.defaultConfig (fun _ => false) true sharedSystem 0x10001000).all
      (fun r => decide r.2.Allocated && (r.2.get Trie.defaultConfig (fun _ => false) true
        sharedSystem 0x8000010).all fun r => decide r.2.Allocated) = true := by decide +kernel
  have hsys : MapsMissing Trie.defaultConfig sharedSystem twoLinks.table false
      (twoLinks.process true) := mapsMissing_all (by decide +kernel)
  obtain ⟨hnot, w₂, heq, -⟩ := comparisons_agree sharedFile_started twoLinks_run hsys hx hlink hy
    hlink' fun p w₁ hget => by
      rw [hget, Option.all_some, Bool.and_eq_true] at hall
      refine ⟨of_decide_eq_true hall.1, fun q w₂ hget' => ?_⟩
      have hsecond := hall.2
      rw [hget', Option.all_some] at hsecond
      exact of_decide_eq_true hsecond
  exact ⟨hnot, w₂, heq⟩

/-- Between chunks the order is that of the mappings, here not that of the file. -/
example : (twoLinks.operatorLt Trie.defaultConfig (fun _ => false) true sharedSystem 0x10001000
    0x8000010).map Prod.fst = some true ∧ ¬ (0x2010 : Word) < 0x1800 := by decide +kernel

end Memnon.OffsetPtr.SharedLinks
