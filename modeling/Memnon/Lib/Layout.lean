import Mathlib.Tactic.Common
import Mathlib.Algebra.BigOperators.Group.List.Basic
import Mathlib.Algebra.GroupWithZero.Nat
import Mathlib.Data.List.Nodup

/-!
# Extents laid out one after the other

A list of extents is laid out from `n` when the first starts at `n` and each
next one starts where the previous one stops. Such a list is cut without gaps
from `[n, n + span)`: its extents are pairwise disjoint, every point has exactly
one owner, and appending at the end disturbs no earlier point.
-/

namespace Memnon.Lib

/-- The half-open range `[start, start + len)`. -/
structure Extent where
  start : Nat
  len : Nat
deriving DecidableEq, Repr

namespace Extent

def stop (e : Extent) : Nat := e.start + e.len

def covers (e : Extent) (x : Nat) : Bool := decide (e.start ≤ x ∧ x < e.stop)

theorem covers_iff {e : Extent} {x : Nat} :
    e.covers x = true ↔ e.start ≤ x ∧ x < e.start + e.len := decide_eq_true_iff

def Disjoint (e f : Extent) : Prop := e.stop ≤ f.start ∨ f.stop ≤ e.start

instance (e f : Extent) : Decidable (e.Disjoint f) :=
  inferInstanceAs (Decidable (_ ∨ _))

end Extent

/-- Total length. -/
def span : List Extent → Nat
  | [] => 0
  | e :: es => e.len + span es

/-- Each extent starts where the previous one stops, the first one at `n`. -/
def LaidOut : Nat → List Extent → Prop
  | _, [] => True
  | n, e :: es => e.start = n ∧ LaidOut (n + e.len) es

instance LaidOut.decidable : ∀ (n : Nat) (es : List Extent), Decidable (LaidOut n es)
  | _, [] => .isTrue trivial
  | n, e :: es =>
      have := LaidOut.decidable (n + e.len) es
      inferInstanceAs (Decidable (e.start = n ∧ LaidOut (n + e.len) es))

variable {n x : Nat} {e f : Extent} {es fs : List Extent}

@[simp] theorem span_nil : span [] = 0 := rfl

@[simp] theorem span_cons : span (e :: es) = e.len + span es := rfl

@[simp] theorem span_append : span (es ++ fs) = span es + span fs := by
  induction es with
  | nil => simp
  | cons e es ih => simp [ih, Nat.add_assoc]

@[simp] theorem laidOut_nil : LaidOut n [] := trivial

@[simp] theorem laidOut_cons :
    LaidOut n (e :: es) ↔ e.start = n ∧ LaidOut (n + e.len) es := Iff.rfl

theorem laidOut_append :
    LaidOut n (es ++ fs) ↔ LaidOut n es ∧ LaidOut (n + span es) fs := by
  induction es generalizing n with
  | nil => simp
  | cons e es ih => simp [ih, Nat.add_assoc, and_assoc]

theorem laidOut_concat :
    LaidOut n (es ++ [e]) ↔ LaidOut n es ∧ e.start = n + span es := by
  simp [laidOut_append]

/-- Each extent starts where those before it end. -/
theorem LaidOut.start_getElem (h : LaidOut n es) {i : Nat} (hi : i < es.length) :
    es[i].start = n + span (es.take i) := by
  induction es generalizing n i with
  | nil => cases hi
  | cons e es ih =>
    obtain ⟨he, hes⟩ := h
    cases i with
    | zero => simpa using he
    | succ i =>
      have hstart := ih hes (Nat.lt_of_succ_lt_succ hi)
      simp only [List.getElem_cons_succ, List.take_succ_cons, span_cons, hstart]
      omega

theorem LaidOut.bounds (h : LaidOut n es) (he : e ∈ es) :
    n ≤ e.start ∧ e.stop ≤ n + span es := by
  induction es generalizing n with
  | nil => cases he
  | cons f es ih =>
    obtain ⟨hf, hes⟩ := h
    rcases List.mem_cons.mp he with rfl | he
    · simp only [Extent.stop, span_cons]
      omega
    · obtain ⟨hlow, hhigh⟩ := ih hes he
      simp only [span_cons]
      omega

/-- Extents laid out one after the other do not overlap. -/
theorem LaidOut.pairwise (h : LaidOut n es) : es.Pairwise fun a b => a.stop ≤ b.start := by
  induction es generalizing n with
  | nil => exact .nil
  | cons e es ih =>
    obtain ⟨he, hes⟩ := h
    refine .cons (fun b hb => ?_) (ih hes)
    have hlow := (hes.bounds hb).1
    simp only [Extent.stop]
    omega

theorem LaidOut.disjoint (h : LaidOut n es) {i j : Nat} (hi : i < es.length)
    (hj : j < es.length) (hij : i ≠ j) : es[i].Disjoint es[j] := by
  have hp := List.pairwise_iff_getElem.mp h.pairwise
  rcases Nat.lt_or_gt_of_ne hij with hlt | hgt
  · exact .inl (hp i j hi hj hlt)
  · exact .inr (hp j i hj hi hgt)

/-- Every point of the span has an owner. -/
theorem LaidOut.exists_covers (h : LaidOut n es) (hlow : n ≤ x) (hhigh : x < n + span es) :
    ∃ e ∈ es, e.covers x = true := by
  induction es generalizing n with
  | nil => simp only [span_nil] at hhigh; omega
  | cons e es ih =>
    obtain ⟨he, hes⟩ := h
    by_cases hx : x < n + e.len
    · refine ⟨e, List.mem_cons_self, decide_eq_true ⟨by omega, ?_⟩⟩
      simp only [Extent.stop]
      omega
    · simp only [span_cons] at hhigh
      obtain ⟨f, hf, hcov⟩ := ih hes (by omega) (by omega)
      exact ⟨f, List.mem_cons_of_mem _ hf, hcov⟩

/-- A search for the owner of a point finds it. -/
theorem LaidOut.find?_covers {α : Type} {f : α → Extent} {as : List α} {a : α}
    (h : LaidOut n (as.map f)) (ha : a ∈ as) (hx : (f a).covers x = true) :
    as.find? (fun b => (f b).covers x) = some a := by
  induction as generalizing n with
  | nil => cases ha
  | cons b as ih =>
    obtain ⟨hb, has⟩ := h
    rcases List.mem_cons.mp ha with rfl | ha
    · exact List.find?_cons_of_pos hx
    · have hlow := (has.bounds (List.mem_map_of_mem ha)).1
      have hnot : ¬ (f b).covers x = true := by
        rw [Extent.covers_iff] at hx ⊢
        omega
      exact (List.find?_cons_of_neg (p := fun b => (f b).covers x) hnot).trans (ih has ha)

theorem span_eq_sum : span es = (es.map Extent.len).sum := by
  induction es with
  | nil => rfl
  | cons e es ih => simp [ih]

theorem span_le_of_forall_le {b : Nat} (h : ∀ e ∈ es, e.len ≤ b) :
    span es ≤ es.length * b := by
  induction es with
  | nil => simp
  | cons e es ih =>
    have he := h e List.mem_cons_self
    have hes := ih fun f hf => h f (List.mem_cons_of_mem _ hf)
    simp only [span_cons, List.length_cons, Nat.add_mul, Nat.one_mul]
    omega

/-- Disjoint extents fit into what they lie in. -/
theorem span_le_of_disjoint {b : Nat} (hdisjoint : es.Pairwise Extent.Disjoint)
    (hstop : ∀ e ∈ es, e.stop ≤ b) : span es ≤ b := by
  have hnodup : (es.flatMap fun e => List.range' e.start e.len).Nodup := by
    apply List.nodup_flatMap.mpr
    constructor
    · intro e _
      exact List.nodup_range'
    · refine hdisjoint.imp fun {a b} hab x hx hx' => ?_
      rw [List.mem_range'_1] at hx hx'
      simp only [Extent.Disjoint, Extent.stop] at hab
      omega
  have hsub : (es.flatMap fun e => List.range' e.start e.len) ⊆ List.range b := by
    intro x hx
    obtain ⟨e, he, hx⟩ := List.mem_flatMap.mp hx
    have hlast := hstop e he
    rw [List.mem_range'_1] at hx
    simp only [Extent.stop] at hlast
    exact List.mem_range.mpr (by omega)
  have hlength := (List.subperm_of_subset hnodup hsub).length_le
  simpa [List.length_flatMap, span_eq_sum] using hlength

theorem span_take_le (k : Nat) : span (es.take k) ≤ span es := by
  conv_rhs => rw [← List.take_append_drop k es, span_append]
  exact Nat.le_add_right _ _

/-- With no empty extent, two prefixes of one span are the same prefix. -/
theorem take_length_of_span_eq (hpos : ∀ e ∈ es, 0 < e.len) {k : Nat} (hk : k ≤ es.length)
    (h : span (es.take k) = span es) : k = es.length := by
  by_contra hne
  have hsplit : span (es.take k) + span (es.drop k) = span es := by
    rw [← span_append, List.take_append_drop]
  have hlt : k < es.length := by omega
  rw [List.drop_eq_getElem_cons hlt, span_cons] at hsplit
  have := hpos _ (List.getElem_mem hlt)
  omega

end Memnon.Lib
