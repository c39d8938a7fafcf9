import Mathlib.Data.Finset.Card
import Mathlib.Data.List.Nodup

/-!
# Depth-first traversals

`next n i` is the node that link `i` of node `n` leads to. A traversal to a
bounded depth lists a node after the nodes below it. Where no node is at the end
of two paths it lists every node once, and as many nodes as there are paths.
-/

namespace Memnon.Lib

variable {N I : Type} {next : N → I → Option N} {links : List I} {depth : Nat} {n x : N}

/-- The node at the end of a path of links. -/
def follow (next : N → I → Option N) : N → List I → Option N
  | n, [] => some n
  | n, i :: path => (next n i).bind fun child => follow next child path

/-- A node and those at most `depth` of the links `links` below it, each one after
    the nodes below it. -/
def postOrder (next : N → I → Option N) (links : List I) : Nat → N → List N
  | 0, n => [n]
  | depth + 1, n =>
      (links.flatMap fun i => (next n i).elim [] (postOrder next links depth)) ++ [n]

/-- No node is at the end of two paths of at most `depth` links. -/
def OnePath (next : N → I → Option N) (depth : Nat) (n : N) : Prop :=
  ∀ {x p q}, p.length ≤ depth → q.length ≤ depth → follow next n p = some x →
    follow next n q = some x → p = q

theorem OnePath.child {i : I} {child : N} (h : OnePath next (depth + 1) n)
    (hi : next n i = some child) : OnePath next depth child := by
  intro x p q hp hq hpx hqx
  have hcons : i :: p = i :: q := by
    apply h (by simpa using hp) (by simpa using hq)
    · rw [follow, hi]
      exact hpx
    · rw [follow, hi]
      exact hqx
  exact (List.cons.inj hcons).2

theorem mem_elim {c : Option N} {f : N → List N} :
    x ∈ c.elim [] f ↔ ∃ child, c = some child ∧ x ∈ f child := by
  cases c with
  | none => simp
  | some child => simp

theorem mem_postOrder : x ∈ postOrder next links depth n ↔
    ∃ path, path.length ≤ depth ∧ (∀ i ∈ path, i ∈ links) ∧ follow next n path = some x := by
  induction depth generalizing n with
  | zero =>
    rw [postOrder, List.mem_singleton]
    constructor
    · rintro rfl
      exact ⟨[], Nat.le_refl _, by simp, rfl⟩
    · rintro ⟨path, hlen, -, hx⟩
      obtain rfl := List.length_eq_zero_iff.mp (Nat.le_zero.mp hlen)
      exact (Option.some.inj hx).symm
  | succ depth ih =>
    rw [postOrder, List.mem_append, List.mem_flatMap, List.mem_singleton]
    constructor
    · rintro (⟨i, hi, hx⟩ | rfl)
      · obtain ⟨child, hnext, hx⟩ := mem_elim.mp hx
        obtain ⟨path, hlen, hlinks, hpath⟩ := ih.mp hx
        refine ⟨i :: path, Nat.succ_le_succ hlen, ?_, ?_⟩
        · intro j hj
          rcases List.mem_cons.mp hj with rfl | hj
          · exact hi
          · exact hlinks j hj
        · rw [follow, hnext]
          exact hpath
      · exact ⟨[], Nat.zero_le _, by simp, rfl⟩
    · rintro ⟨path, hlen, hlinks, hx⟩
      cases path with
      | nil => exact .inr (Option.some.inj hx).symm
      | cons i path =>
        obtain ⟨child, hnext, hx⟩ := Option.bind_eq_some_iff.mp hx
        refine .inl ⟨i, hlinks i List.mem_cons_self, mem_elim.mpr ⟨child, hnext, ?_⟩⟩
        apply ih.mpr
        exact ⟨path, Nat.le_of_succ_le_succ hlen,
          fun j hj => hlinks j (List.mem_cons_of_mem _ hj), hx⟩

/-- The paths to what is listed below a link begin with that link. -/
theorem exists_path_of_mem {i : I}
    (hx : x ∈ (next n i).elim [] (postOrder next links depth)) :
    ∃ path, (i :: path).length ≤ depth + 1 ∧ follow next n (i :: path) = some x := by
  obtain ⟨child, hnext, hx⟩ := mem_elim.mp hx
  obtain ⟨path, hlen, -, hpath⟩ := mem_postOrder.mp hx
  refine ⟨path, Nat.succ_le_succ hlen, ?_⟩
  rw [follow, hnext]
  exact hpath

/-- No node is listed twice. -/
theorem nodup_postOrder (hlinks : links.Nodup) (h : OnePath next depth n) :
    (postOrder next links depth n).Nodup := by
  induction depth generalizing n with
  | zero => exact List.nodup_singleton n
  | succ depth ih =>
    rw [postOrder, List.nodup_append]
    refine ⟨List.nodup_flatMap.mpr ⟨?_, ?_⟩, List.nodup_singleton n, ?_⟩
    · intro i _
      cases hnext : next n i with
      | none => exact List.nodup_nil
      | some child => exact ih (h.child hnext)
    · apply hlinks.imp
      intro i j hij x hi hj
      obtain ⟨p, hp, hpx⟩ := exists_path_of_mem hi
      obtain ⟨q, hq, hqx⟩ := exists_path_of_mem hj
      exact hij (List.cons.inj (h hp hq hpx hqx)).1
    · rintro x hx y hy rfl
      obtain ⟨i, -, hi⟩ := List.mem_flatMap.mp hx
      obtain ⟨p, hp, hpx⟩ := exists_path_of_mem hi
      obtain rfl := List.mem_singleton.mp hy
      have hroot : follow next x [] = some x := rfl
      cases h hp (Nat.zero_le _) hpx hroot

/-- There are as many nodes as paths. -/
theorem length_postOrder [DecidableEq N] {paths : Finset (List I)} (hlinks : links.Nodup)
    (h : OnePath next depth n)
    (hpaths : ∀ {p}, p ∈ paths ↔
      p.length ≤ depth ∧ (∀ i ∈ p, i ∈ links) ∧ (follow next n p).isSome = true) :
    (postOrder next links depth n).length = paths.card := by
  rw [← List.toFinset_card_of_nodup (nodup_postOrder hlinks h)]
  symm
  apply Finset.card_bij fun p hp => (follow next n p).get (hpaths.mp hp).2.2
  · intro p hp
    obtain ⟨hlen, hin, hsome⟩ := hpaths.mp hp
    rw [List.mem_toFinset, mem_postOrder]
    exact ⟨p, hlen, hin, (Option.some_get hsome).symm⟩
  · intro p hp q hq hpq
    apply h (hpaths.mp hp).1 (hpaths.mp hq).1 (Option.some_get (hpaths.mp hp).2.2).symm
    rw [hpq]
    exact (Option.some_get (hpaths.mp hq).2.2).symm
  · intro x hx
    obtain ⟨p, hlen, hin, hpx⟩ := mem_postOrder.mp (List.mem_toFinset.mp hx)
    refine ⟨p, hpaths.mpr ⟨hlen, hin, by rw [hpx]; rfl⟩, ?_⟩
    simp only [hpx, Option.get_some]

end Memnon.Lib
