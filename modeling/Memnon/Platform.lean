import Memnon.Lib.Word

/-!
# Platform abstractions

The page size, rounding to it, and the stripping of pointer tags, over 64-bit
words. `page_size()` is a power of two on every supported system, so a platform
is given by its page shift.
-/

namespace Memnon

abbrev Word := BitVec 64

/-- The three bodies of `strip_pac`. -/
inductive Arch where
  | generic
  | appleAArch64
  | linuxAArch64
deriving DecidableEq, Repr

structure Platform where
  arch : Arch
  pageShift : Nat
  pageShift_lt : pageShift < 64

/-- Pages of 4 KiB, pointers without tags. -/
def fourKiBPages : Platform := ⟨.generic, 12, by decide⟩

def Platform.pageSize (P : Platform) : Word := 1#64 <<< P.pageShift

/-- `detail::align_up`; `align` is a power of two. -/
def alignUp (v align : Word) : Word := (v + align - 1#64) &&& ~~~(align - 1#64)

def stripPac : Arch → Word → Word
  | .generic, addr => addr
  | .appleAArch64, addr => addr &&& 0x00007FFFFFFFFFFF#64
  | .linuxAArch64, addr => addr &&& 0x00FFFFFFFFFFFFFF#64

/-- `detail::ptr_to_vaddr`. -/
def Platform.ptrToVaddr (P : Platform) (p : Word) : Word := stripPac P.arch p

namespace Platform

variable (P : Platform)

theorem pageSize_toNat : P.pageSize.toNat = 2 ^ P.pageShift :=
  Lib.one_shiftLeft_toNat P.pageShift_lt

/-- `align_up` to the page size, with the wrap-around of the addition. -/
theorem alignUp_toNat (v : Word) :
    (alignUp v P.pageSize).toNat =
      (v + P.pageSize - 1#64).toNat / 2 ^ P.pageShift * 2 ^ P.pageShift := by
  simp only [alignUp, pageSize]
  exact Lib.and_not_lowMask_toNat P.pageShift_lt _

/-- The sum inside `align_up`. -/
theorem roundUp_toNat (v : Word) :
    (v + P.pageSize - 1#64).toNat = (v.toNat + 2 ^ P.pageShift - 1) % 2 ^ 64 := by
  have hpos : 0 < 2 ^ P.pageShift := Nat.two_pow_pos _
  have hp := P.pageSize_toNat
  have hv := v.isLt
  rw [BitVec.toNat_sub, BitVec.toNat_add, hp]
  simp only [BitVec.toNat_ofNat]
  omega

/-- `n` rounded up to whole pages, without wrap-around. -/
def roundedUp (n : Nat) : Nat := (n + 2 ^ P.pageShift - 1) / 2 ^ P.pageShift * 2 ^ P.pageShift

theorem le_roundUp (n : Nat) :
    n ≤ (n + 2 ^ P.pageShift - 1) / 2 ^ P.pageShift * 2 ^ P.pageShift := by
  have hpos : 0 < 2 ^ P.pageShift := Nat.two_pow_pos _
  have hdiv := Nat.div_add_mod (n + 2 ^ P.pageShift - 1) (2 ^ P.pageShift)
  have hmod := Nat.mod_lt (n + 2 ^ P.pageShift - 1) hpos
  rw [Nat.mul_comm] at hdiv
  omega

/-- Rounding up either wraps around to 0 or does not shrink its argument. -/
theorem alignUp_zero_or_ge (v : Word) :
    alignUp v P.pageSize = 0 ∨ v.toNat ≤ (alignUp v P.pageSize).toNat := by
  have hv := v.isLt
  by_cases hwrap : v.toNat + 2 ^ P.pageShift - 1 < 2 ^ 64
  · right
    rw [alignUp_toNat, P.roundUp_toNat, Nat.mod_eq_of_lt hwrap]
    exact P.le_roundUp v.toNat
  · left
    have hle : 2 ^ P.pageShift ≤ 2 ^ 63 :=
      Nat.pow_le_pow_right (by decide) (Nat.le_of_lt_succ P.pageShift_lt)
    apply BitVec.eq_of_toNat_eq
    rw [alignUp_toNat, P.roundUp_toNat, Nat.div_eq_of_lt (by omega)]
    simp

theorem alignUp_ge {v : Word} (hv : v.toNat < 2 ^ 63) :
    v.toNat ≤ (alignUp v P.pageSize).toNat := by
  have hle : 2 ^ P.pageShift ≤ 2 ^ 63 :=
    Nat.pow_le_pow_right (by decide) (Nat.le_of_lt_succ P.pageShift_lt)
  have hpos : 0 < 2 ^ P.pageShift := Nat.two_pow_pos _
  rw [alignUp_toNat, P.roundUp_toNat, Nat.mod_eq_of_lt (by omega)]
  exact P.le_roundUp v.toNat

theorem alignUp_lt {v : Word} (hv : v.toNat < 2 ^ 63) :
    (alignUp v P.pageSize).toNat < v.toNat + 2 ^ P.pageShift := by
  have hle : 2 ^ P.pageShift ≤ 2 ^ 63 :=
    Nat.pow_le_pow_right (by decide) (Nat.le_of_lt_succ P.pageShift_lt)
  have hpos : 0 < 2 ^ P.pageShift := Nat.two_pow_pos _
  rw [alignUp_toNat, P.roundUp_toNat, Nat.mod_eq_of_lt (by omega)]
  have hdiv := Nat.div_mul_le_self (v.toNat + 2 ^ P.pageShift - 1) (2 ^ P.pageShift)
  omega

/-- Rounding up gives 0 when the rounded value does not fit. -/
theorem alignUp_toNat_eq (v : Word) : (alignUp v P.pageSize).toNat =
    if P.roundedUp v.toNat < 2 ^ 64 then P.roundedUp v.toNat else 0 := by
  have hv := v.isLt
  have hle : 2 ^ P.pageShift ≤ 2 ^ 63 :=
    Nat.pow_le_pow_right (by decide) (Nat.le_of_lt_succ P.pageShift_lt)
  have hpos : 0 < 2 ^ P.pageShift := Nat.two_pow_pos _
  rw [alignUp_toNat, P.roundUp_toNat, roundedUp]
  by_cases hwrap : v.toNat + 2 ^ P.pageShift - 1 < 2 ^ 64
  · have hdiv := Nat.div_mul_le_self (v.toNat + 2 ^ P.pageShift - 1) (2 ^ P.pageShift)
    rw [Nat.mod_eq_of_lt hwrap, if_pos (by omega)]
  · -- `2 ^ 64` is a number of whole pages, so what reaches it also does when rounded
    have hpages : 2 ^ 64 = 2 ^ (64 - P.pageShift) * 2 ^ P.pageShift := by
      rw [← Nat.pow_add, Nat.sub_add_cancel (Nat.le_of_lt P.pageShift_lt)]
    have hquot : 2 ^ (64 - P.pageShift) ≤ (v.toNat + 2 ^ P.pageShift - 1) / 2 ^ P.pageShift := by
      rw [Nat.le_div_iff_mul_le hpos]
      omega
    have hbig := Nat.mul_le_mul_right (2 ^ P.pageShift) hquot
    rw [if_neg (by omega), Nat.div_eq_of_lt (by omega), Nat.zero_mul]

/-- A number of whole pages. -/
def Whole (size : Word) : Prop := 2 ^ P.pageShift ∣ size.toNat

theorem whole_alignUp (v : Word) : P.Whole (alignUp v P.pageSize) := by
  rw [Whole, alignUp_toNat]
  exact Nat.dvd_mul_left _ _

end Platform

end Memnon
