import Memnon.TrieHeap
import Memnon.Lib.Word

/-!
# Pages and keys

Tagged pointers, the pages of an address range as the loops of the trie run
through them, and the page numbers that have a leaf slot of their own: those
below `2 ^ (stride * levels)`.
-/

namespace Memnon.Trie

open Memnon.Lib

variable {T : Type} {cfg : Config} {m : Memory T} {base size addr p q v w : Word} {s : Slot}

/-! ## 1. Tags -/

/-- A pointer that can be stored: not null, and with bit 0 clear. -/
def ValidPtr (v : Word) : Prop := v ≠ 0 ∧ v &&& kLeafTag = 0

instance (v : Word) : Decidable (ValidPtr v) := inferInstanceAs (Decidable (_ ∧ _))

theorem untag_tag (h : v &&& kLeafTag = 0) : (v ||| kLeafTag) &&& ~~~kLeafTag = v :=
  or_and_not_of_and_eq_zero h

theorem tag_and (v : Word) : (v ||| kLeafTag) &&& kLeafTag = kLeafTag := or_and_cancel_right v _

/-- A tagged word is its value with the tag. -/
theorem tag_untag (h : v &&& kLeafTag = kLeafTag) : (v &&& ~~~kLeafTag) ||| kLeafTag = v :=
  and_not_or_of_and_eq_self h

theorem tag_inj (hv : v &&& kLeafTag = 0) (hw : w &&& kLeafTag = 0)
    (h : v ||| kLeafTag = w ||| kLeafTag) : v = w := by
  rw [← untag_tag hv, h, untag_tag hw]

theorem tag_ne_zero (v : Word) : v ||| kLeafTag ≠ 0 := by
  intro h
  have h0 := congrArg (fun x : Word => x.getLsbD 0) h
  simp [kLeafTag] at h0

/-! ## 2. Pages -/

theorem pageOf_toNat (cfg : Config) (addr : Word) :
    (pageOf cfg addr).toNat = addr.toNat / 2 ^ cfg.platform.pageShift := by
  rw [pageOf, BitVec.toNat_ushiftRight, Nat.shiftRight_eq_div_pow]

/-- The bounds of a page entry are those of its page. -/
theorem pageOf_eq_of_covers {a : Word} {l : Option Slot}
    (h : (pageEntry cfg a v l).covers addr = true) : pageOf cfg addr = pageOf cfg a := by
  have hps := cfg.platform.pageShift_lt
  have hpos : 0 < 2 ^ cfg.platform.pageShift := Nat.two_pow_pos _
  have hbase : (pageOf cfg a <<< cfg.platform.pageShift).toNat =
      a.toNat / 2 ^ cfg.platform.pageShift * 2 ^ cfg.platform.pageShift := by
    rw [BitVec.toNat_shiftLeft, pageOf_toNat, Nat.shiftLeft_eq]
    exact Nat.mod_eq_of_lt (Nat.lt_of_le_of_lt (Nat.div_mul_le_self _ _) a.isLt)
  simp only [TlsEntry.covers, pageEntry, decide_eq_true_eq, BitVec.le_def, BitVec.lt_def] at h
  rw [BitVec.toNat_add, cfg.platform.pageSize_toNat, hbase] at h
  apply BitVec.eq_of_toNat_eq
  rw [pageOf_toNat, pageOf_toNat]
  have hmod := Nat.mod_le (a.toNat / 2 ^ cfg.platform.pageShift * 2 ^ cfg.platform.pageShift +
    2 ^ cfg.platform.pageShift) (2 ^ 64)
  refine Nat.div_eq_of_lt_le h.1 ?_
  rw [Nat.add_mul, Nat.one_mul]
  omega

/-- `p` is one of the pages of `[base, base + size)`. -/
def HasPage (cfg : Config) (base size p : Word) : Prop :=
  pageOf cfg base ≤ p ∧ p < pageEnd cfg base size

instance : Decidable (HasPage cfg base size p) := inferInstanceAs (Decidable (_ ∧ _))

theorem mem_pageRange : p ∈ pageRange cfg base size ↔ HasPage cfg base size p := by
  simp only [pageRange, List.mem_map, List.mem_range, HasPage, BitVec.le_def, BitVec.lt_def]
  have hp := p.isLt
  have he := (pageEnd cfg base size).isLt
  constructor
  · rintro ⟨k, hk, rfl⟩
    rw [BitVec.toNat_add, BitVec.toNat_ofNat, Nat.mod_eq_of_lt (by omega : k < 2 ^ 64),
      Nat.mod_eq_of_lt (by omega)]
    omega
  · rintro ⟨hlow, hhigh⟩
    refine ⟨p.toNat - (pageOf cfg base).toNat, by omega, BitVec.eq_of_toNat_eq ?_⟩
    rw [BitVec.toNat_add, BitVec.toNat_ofNat, Nat.mod_eq_of_lt (by omega : _ - _ < 2 ^ 64),
      Nat.mod_eq_of_lt (by omega)]
    omega

/-- The number of keys. -/
def keyBound (cfg : Config) : Nat := 2 ^ (cfg.stride * cfg.levels)

/-- The range lies in the address space, and its pages have keys of their own. -/
def InKeySpace (cfg : Config) (base size : Word) : Prop :=
  base.toNat + size.toNat + 2 ^ cfg.platform.pageShift ≤ 2 ^ 64 ∧
    (pageEnd cfg base size).toNat ≤ keyBound cfg

instance : Decidable (InKeySpace cfg base size) := inferInstanceAs (Decidable (_ ∧ _))

theorem InKeySpace.lt (h : InKeySpace cfg base size) (hp : HasPage cfg base size p) :
    p.toNat < keyBound cfg :=
  Nat.lt_of_lt_of_le (BitVec.lt_def.mp hp.2) h.2

theorem pageEnd_toNat (h : base.toNat + size.toNat + 2 ^ cfg.platform.pageShift ≤ 2 ^ 64) :
    (pageEnd cfg base size).toNat =
      (base.toNat + size.toNat + (2 ^ cfg.platform.pageShift - 1)) /
        2 ^ cfg.platform.pageShift := by
  have hpos : 0 < 2 ^ cfg.platform.pageShift := Nat.two_pow_pos _
  have hmask : (cfg.platform.pageSize - 1#64).toNat = 2 ^ cfg.platform.pageShift - 1 :=
    lowMask_toNat cfg.platform.pageShift_lt
  rw [pageEnd, BitVec.toNat_ushiftRight, Nat.shiftRight_eq_div_pow, BitVec.toNat_add,
    BitVec.toNat_add, hmask, Nat.mod_eq_of_lt (by omega : base.toNat + size.toNat < 2 ^ 64),
    Nat.mod_eq_of_lt (by omega)]

/-- The pages of a range are those that meet it. -/
theorem hasPage_iff (h : base.toNat + size.toNat + 2 ^ cfg.platform.pageShift ≤ 2 ^ 64) :
    HasPage cfg base size p ↔
      base.toNat < (p.toNat + 1) * 2 ^ cfg.platform.pageShift ∧
        p.toNat * 2 ^ cfg.platform.pageShift < base.toNat + size.toNat := by
  have hpos : 0 < 2 ^ cfg.platform.pageShift := Nat.two_pow_pos _
  simp only [HasPage, BitVec.le_def, BitVec.lt_def, pageOf_toNat, pageEnd_toNat h]
  constructor
  · rintro ⟨hlow, hhigh⟩
    rw [Nat.lt_iff_add_one_le, Nat.le_div_iff_mul_le hpos, Nat.add_mul] at hhigh
    exact ⟨Nat.lt_mul_of_div_lt (Nat.lt_succ_of_le hlow) hpos, by omega⟩
  · rintro ⟨hlow, hhigh⟩
    refine ⟨Nat.le_of_lt_succ (Nat.div_lt_of_lt_mul (by rw [Nat.mul_comm]; exact hlow)), ?_⟩
    rw [Nat.lt_iff_add_one_le, Nat.le_div_iff_mul_le hpos, Nat.add_mul]
    omega

/-- The pages reach to the end of the range. -/
theorem InKeySpace.stop_le (h : InKeySpace cfg base size) :
    base.toNat + size.toNat ≤ (pageEnd cfg base size).toNat * 2 ^ cfg.platform.pageShift := by
  have hpos : 1 ≤ 2 ^ cfg.platform.pageShift := Nat.two_pow_pos _
  have hround := cfg.platform.le_roundUp (base.toNat + size.toNat)
  rw [pageEnd_toNat h.1]
  rwa [Nat.add_sub_assoc hpos] at hround

/-- Where keys and offsets leave bits of an address over, the ranges with pages of
    their own are those below `2 ^ (stride * levels + pageShift)`. -/
theorem inKeySpace_iff (hbits : cfg.stride * cfg.levels + cfg.platform.pageShift < 64) :
    InKeySpace cfg base size ↔
      base.toNat + size.toNat ≤ 2 ^ (cfg.stride * cfg.levels + cfg.platform.pageShift) := by
  have hpos : 0 < 2 ^ cfg.platform.pageShift := Nat.two_pow_pos _
  rw [Nat.pow_add]
  constructor
  · intro h
    exact Nat.le_trans h.stop_le (Nat.mul_le_mul_right _ h.2)
  · intro hle
    have hkeys : 2 ^ (cfg.stride * cfg.levels) * 2 ^ cfg.platform.pageShift ≤ 2 ^ 63 := by
      rw [← Nat.pow_add]
      exact Nat.pow_le_pow_right (by decide) (by omega)
    have hpage : 2 ^ cfg.platform.pageShift ≤ 2 ^ 63 :=
      Nat.pow_le_pow_right (by decide) (by omega)
    have hsp : base.toNat + size.toNat + 2 ^ cfg.platform.pageShift ≤ 2 ^ 64 := by omega
    refine ⟨hsp, ?_⟩
    rw [pageEnd_toNat hsp, keyBound, ← Nat.lt_succ_iff, Nat.div_lt_iff_lt_mul hpos, Nat.succ_mul]
    omega

theorem InKeySpace.base_lt (h : InKeySpace cfg base size) (hsize : size ≠ 0) :
    (pageOf cfg base).toNat < keyBound cfg := by
  have hpos : 0 < 2 ^ cfg.platform.pageShift := Nat.two_pow_pos _
  have hsize' : 0 < size.toNat := Nat.pos_of_ne_zero fun h0 => hsize (BitVec.eq_of_toNat_eq h0)
  have hstop := h.stop_le
  refine Nat.lt_of_lt_of_le ?_ h.2
  rw [pageOf_toNat]
  refine (Nat.div_lt_iff_lt_mul hpos).mpr ?_
  omega

/-- Every address between the two bounds is on a page of `[base, base + size)`. -/
def BoundsIn (cfg : Config) (b e base size : Word) : Prop :=
  ∀ addr, b ≤ addr → addr < e → HasPage cfg base size (pageOf cfg addr)

theorem InKeySpace.boundsIn (h : InKeySpace cfg base size) :
    BoundsIn cfg base (base + size) base size := by
  intro addr hlow hhigh
  have hpos : 0 < 2 ^ cfg.platform.pageShift := Nat.two_pow_pos _
  have hsp := h.1
  rw [BitVec.le_def] at hlow
  rw [BitVec.lt_def, BitVec.toNat_add, Nat.mod_eq_of_lt (by omega)] at hhigh
  constructor
  · rw [BitVec.le_def, pageOf_toNat, pageOf_toNat]
    exact Nat.div_le_div_right hlow
  · rw [BitVec.lt_def, pageOf_toNat]
    have hstop := h.stop_le
    refine (Nat.div_lt_iff_lt_mul hpos).mpr ?_
    omega

/-! ## 3. Keys -/

theorem levelIdx_eq (cfg : Config) (p : Word) (d : Nat) :
    levelIdx cfg p d =
      p.toNat / (2 ^ cfg.stride) ^ (cfg.levels - 1 - d) % 2 ^ cfg.stride := by
  have hstride := cfg.stride_le
  have hlt : 2 ^ cfg.stride ≤ 2 ^ 16 := Nat.pow_le_pow_right (by decide) hstride
  have hpos : 0 < 2 ^ cfg.stride := Nat.two_pow_pos _
  rw [levelIdx, BitVec.toNat_and, BitVec.toNat_ushiftRight, BitVec.toNat_ofNat,
    Nat.mod_eq_of_lt (by omega : 2 ^ cfg.stride - 1 < 2 ^ 64), Nat.and_two_pow_sub_one_eq_mod,
    Nat.shiftRight_eq_div_pow, Nat.mul_comm, Nat.pow_mul]

theorem SameKey.digit_eq (h : SameKey cfg p q) {j : Nat} (hj : j < cfg.levels) :
    p.toNat / (2 ^ cfg.stride) ^ j % 2 ^ cfg.stride =
      q.toNat / (2 ^ cfg.stride) ^ j % 2 ^ cfg.stride := by
  have hlevel : levelIdx cfg p (cfg.levels - 1 - j) = levelIdx cfg q (cfg.levels - 1 - j) := by
    by_cases hj0 : j = 0
    · subst hj0
      exact h.2
    · have hinner := h.1
      rw [innerPath, innerPath, List.map_inj_left] at hinner
      exact hinner _ (List.mem_range.mpr (by omega))
  rw [levelIdx_eq, levelIdx_eq] at hlevel
  rwa [show cfg.levels - 1 - (cfg.levels - 1 - j) = j by omega] at hlevel

/-- The indices of a page are the digits of its number, so pages share their
    leaf slot when their numbers agree modulo the number of keys. -/
theorem sameKey_iff : SameKey cfg p q ↔ p.toNat % keyBound cfg = q.toNat % keyBound cfg := by
  have hpos := cfg.levels_pos
  rw [keyBound, Nat.pow_mul]
  constructor
  · intro h
    have hb : 0 < (2 ^ cfg.stride) ^ cfg.levels := Nat.pow_pos (Nat.two_pow_pos _)
    apply eq_of_digits cfg.levels (Nat.mod_lt _ hb) (Nat.mod_lt _ hb)
    intro j hj
    rw [digit_mod hj, digit_mod hj]
    exact h.digit_eq hj
  · intro h
    have hdigit : ∀ d, d < cfg.levels → levelIdx cfg p d = levelIdx cfg q d := by
      intro d hd
      have hj : cfg.levels - 1 - d < cfg.levels := by omega
      rw [levelIdx_eq, levelIdx_eq, ← digit_mod hj, h, digit_mod hj]
    constructor
    · apply List.map_congr_left
      intro d hd
      exact hdigit d (by have := List.mem_range.mp hd; omega)
    · exact hdigit _ (by omega)

/-- Some page of `[base, base + size)` has the key of `q`. -/
def RangeHits (cfg : Config) (base size q : Word) : Prop :=
  ∃ p, HasPage cfg base size p ∧ SameKey cfg p q

/-- Page numbers in the key space that share their leaf slot are the same. -/
theorem SameKey.eq (h : SameKey cfg p q) (hp : p.toNat < keyBound cfg)
    (hq : q.toNat < keyBound cfg) : p = q := by
  have hmod := sameKey_iff.mp h
  rw [Nat.mod_eq_of_lt hp, Nat.mod_eq_of_lt hq] at hmod
  exact BitVec.eq_of_toNat_eq hmod

theorem LeafAt.eq (h : LeafAt cfg m p s) (h' : LeafAt cfg m q s) (hp : p.toNat < keyBound cfg)
    (hq : q.toNat < keyBound cfg) : p = q :=
  (h.sameKey h').eq hp hq

end Memnon.Trie
