import Mathlib.Tactic.Common
import Mathlib.Algebra.GroupWithZero.Nat
import Mathlib.Data.Nat.Bits

/-!
# Fixed-width words

Masks of low bits and rounding to a power of two, read as arithmetic on
natural numbers, tag bits, and digits.
-/

namespace Memnon.Lib

variable {w k : Nat}

theorem one_shiftLeft_toNat (hk : k < w) : (1#w <<< k).toNat = 2 ^ k := by
  have hlt : 2 ^ k < 2 ^ w := Nat.pow_lt_pow_right (by decide) hk
  have hw : 1 < 2 ^ w := Nat.lt_of_le_of_lt (Nat.two_pow_pos k) hlt
  rw [BitVec.toNat_shiftLeft, BitVec.toNat_ofNat, Nat.mod_eq_of_lt hw, Nat.one_shiftLeft,
    Nat.mod_eq_of_lt hlt]

theorem lowMask_toNat (hk : k < w) : ((1#w <<< k) - 1#w).toNat = 2 ^ k - 1 := by
  have hpos : 0 < 2 ^ k := Nat.two_pow_pos k
  have hlt : 2 ^ k < 2 ^ w := Nat.pow_lt_pow_right (by decide) hk
  have hw : 1 < 2 ^ w := by omega
  rw [BitVec.toNat_sub, one_shiftLeft_toNat hk, BitVec.toNat_ofNat, Nat.mod_eq_of_lt hw]
  have hsum : 2 ^ w - 1 + 2 ^ k = 2 ^ w + (2 ^ k - 1) := by omega
  rw [hsum, Nat.add_mod_left, Nat.mod_eq_of_lt (by omega)]

/-- Clearing the low `k` bits rounds down to a multiple of `2 ^ k`. -/
theorem and_not_lowMask_toNat (hk : k < w) (x : BitVec w) :
    (x &&& ~~~((1#w <<< k) - 1#w)).toNat = x.toNat / 2 ^ k * 2 ^ k := by
  have hbits : x &&& ~~~((1#w <<< k) - 1#w) = (x >>> k) <<< k := by
    apply BitVec.eq_of_getLsbD_eq
    intro i hi
    have hmask : ((1#w <<< k) - 1#w).getLsbD i = decide (i < k) := by
      rw [BitVec.getLsbD, lowMask_toNat hk, Nat.testBit_two_pow_sub_one]
    simp only [BitVec.getLsbD_and, BitVec.getLsbD_not, hi, decide_true, Bool.true_and, hmask,
      BitVec.getLsbD_shiftLeft, BitVec.getLsbD_ushiftRight]
    by_cases hik : i < k
    · simp [hik]
    · simp [hik, show k + (i - k) = i by omega]
  rw [hbits, BitVec.toNat_shiftLeft, BitVec.toNat_ushiftRight, Nat.shiftLeft_eq,
    Nat.shiftRight_eq_div_pow]
  exact Nat.mod_eq_of_lt (Nat.lt_of_le_of_lt (Nat.div_mul_le_self _ _) x.isLt)

/-- Setting bits that are clear and clearing them again. -/
theorem or_and_not_of_and_eq_zero {x y : BitVec w} (h : x &&& y = 0#w) :
    (x ||| y) &&& ~~~y = x := by
  apply BitVec.eq_of_getLsbD_eq
  intro i hi
  have hbit : (x.getLsbD i && y.getLsbD i) = false := by
    rw [← BitVec.getLsbD_and, h, BitVec.getLsbD_zero]
  simp only [BitVec.getLsbD_and, BitVec.getLsbD_or, BitVec.getLsbD_not, hi, decide_true,
    Bool.true_and]
  cases hx : x.getLsbD i <;> cases hy : y.getLsbD i <;> simp [hx, hy] at hbit ⊢

theorem or_and_cancel_right (x y : BitVec w) : (x ||| y) &&& y = y := by
  ext i hi
  rw [BitVec.getElem_and, BitVec.getElem_or]
  cases x[i] <;> cases y[i] <;> rfl

theorem and_not_or_of_and_eq_self {x y : BitVec w} (h : x &&& y = y) : x &&& ~~~y ||| y = x := by
  ext i hi
  have hbit := congrArg (fun z : BitVec w => z[i]) h
  simp only [BitVec.getElem_and] at hbit
  rw [BitVec.getElem_or, BitVec.getElem_and, BitVec.getElem_not]
  cases hx : x[i] with
  | true => cases y[i] <;> rfl
  | false =>
    rw [hx] at hbit
    rw [← hbit]
    rfl

/-- The low digits are those of the remainder. -/
theorem digit_mod {b n j : Nat} (hj : j < n) (x : Nat) :
    x % b ^ n / b ^ j % b = x / b ^ j % b := by
  have hpow : b ^ n = b ^ j * b ^ (n - j) := by
    rw [← Nat.pow_add, show j + (n - j) = n by omega]
  have hdvd : b ∣ b ^ (n - j) := by
    simpa using Nat.pow_dvd_pow b (show 1 ≤ n - j by omega)
  rw [hpow, Nat.mod_mul_right_div_self]
  exact Nat.mod_mod_of_dvd _ hdvd

/-- A number below `b ^ n` is determined by its `n` lowest digits. -/
theorem eq_of_digits {b x y : Nat} (n : Nat) (hx : x < b ^ n) (hy : y < b ^ n)
    (h : ∀ j, j < n → x / b ^ j % b = y / b ^ j % b) : x = y := by
  induction n generalizing x y with
  | zero =>
    rw [Nat.pow_zero] at hx hy
    omega
  | succ n ih =>
    have hdiv : x / b = y / b := by
      rw [Nat.pow_succ, Nat.mul_comm] at hx hy
      refine ih (Nat.div_lt_of_lt_mul hx) (Nat.div_lt_of_lt_mul hy) fun j hj => ?_
      have hdigit := h (j + 1) (by omega)
      rwa [Nat.pow_succ, Nat.mul_comm, ← Nat.div_div_eq_div_mul, ← Nat.div_div_eq_div_mul]
        at hdigit
    have hmod : x % b = y % b := by
      simpa using h 0 (Nat.succ_pos n)
    rw [← Nat.div_add_mod x b, ← Nat.div_add_mod y b, hdiv, hmod]

end Memnon.Lib
