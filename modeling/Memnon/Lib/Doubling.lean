import Mathlib.Data.List.Chain
import Mathlib.Algebra.BigOperators.Group.List.Basic
import Mathlib.Algebra.GroupWithZero.Nat

/-!
# Doubling lists

Lists of numbers each of which is at least twice the one before: they grow
geometrically, so a bound on their elements bounds their length, and their sum
is less than twice their last element.
-/

namespace Memnon.Lib

/-- Each number is at least twice the one before. -/
def Doubling (l : List Nat) : Prop := l.IsChain fun a b => 2 * a ≤ b

variable {l : List Nat} {a low x : Nat}

theorem doubling_singleton (a : Nat) : Doubling [a] := List.isChain_singleton a

theorem Doubling.concat (h : Doubling l) (hx : ∀ last ∈ l.getLast?, 2 * last ≤ x) :
    Doubling (l ++ [x]) := by
  apply List.isChain_append.mpr
  refine ⟨h, List.isChain_singleton x, fun last hlast y hy => ?_⟩
  obtain rfl : x = y := Option.some.inj hy
  exact hx last hlast

theorem Doubling.getElem (h : Doubling l) {i : Nat} (hi : i + 1 < l.length) :
    2 * l[i] ≤ l[i + 1] :=
  List.isChain_iff_getElem.mp h i hi

theorem Doubling.pow_mul_le (h : Doubling l) (hlow : ∀ first ∈ l.head?, low ≤ first) {i : Nat}
    (hi : i < l.length) : 2 ^ i * low ≤ l[i] := by
  induction i with
  | zero =>
    have hfirst : l[0] ∈ l.head? := by simp [List.head?_eq_getElem?]
    simpa using hlow _ hfirst
  | succ i ih =>
    have hprev := ih (Nat.lt_of_succ_lt hi)
    calc 2 ^ (i + 1) * low = 2 * (2 ^ i * low) := by
          rw [Nat.pow_succ, Nat.mul_comm (2 ^ i), Nat.mul_assoc]
      _ ≤ 2 * l[i] := Nat.mul_le_mul_left 2 hprev
      _ ≤ l[i + 1] := h.getElem hi

/-- A bound on the elements bounds the length. -/
theorem Doubling.length_le (h : Doubling l) (hlow : ∀ first ∈ l.head?, low ≤ first) {n : Nat}
    (hbelow : ∀ a ∈ l, a < 2 ^ n * low) : l.length ≤ n := by
  by_contra hlong
  have hn : n < l.length := Nat.lt_of_not_le hlong
  have hge := h.pow_mul_le hlow hn
  exact absurd (hbelow _ (List.getElem_mem hn)) (Nat.not_lt.mpr hge)

/-- The sum, with the first element once more, is at most twice the last one. -/
theorem Doubling.sum_add_le (h : Doubling (a :: l)) {last : Nat}
    (hlast : last ∈ (a :: l).getLast?) : (a :: l).sum + a ≤ 2 * last := by
  induction l generalizing a with
  | nil =>
    obtain rfl : a = last := Option.some.inj hlast
    simp
    omega
  | cons b l ih =>
    obtain ⟨hab, hrest⟩ := List.isChain_cons_cons.mp h
    have hsum := ih hrest (by simpa using hlast)
    simp only [List.sum_cons] at hsum ⊢
    omega

theorem Doubling.sum_le (h : Doubling l) {last : Nat} (hlast : last ∈ l.getLast?) :
    l.sum ≤ 2 * last := by
  cases l with
  | nil => cases hlast
  | cons a l => exact Nat.le_of_add_right_le (h.sum_add_le hlast)

end Memnon.Lib
