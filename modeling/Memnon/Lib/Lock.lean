import Mathlib.Logic.Function.Basic
import Mathlib.Tactic.Common

/-!
# Exclusive locks

A lock is a variable `lock : Option O` naming its owner. `holds o` says that
the program counter of `o` is at a point where the lock is held. A step of one
party either leaves the lock alone, acquires it when it is free, or releases it
from a point where it was held; these three shapes keep "whoever holds it is
its owner", and with it mutual exclusion.
-/

namespace Memnon.Lib

variable {O : Type*}

/-- What one step of party `o` may do to a lock: `before` and `after` say
    whether `o` stands at a holding point. -/
def LockStep (lock lock' : Option O) (o : O) (before after : Bool) : Prop :=
  (lock' = lock ∧ (after = true → before = true)) ∨
  (lock = none ∧ lock' = some o) ∨
  (before = true ∧ after = false ∧ lock' = none)

/-- Every party at a holding point is the owner. -/
def Owned (lock : Option O) (holds : O → Bool) : Prop :=
  ∀ o, holds o = true → lock = some o

theorem Owned.exclusive {lock : Option O} {holds : O → Bool} (h : Owned lock holds)
    {o p : O} (ho : holds o = true) (hp : holds p = true) : o = p := by
  have heq : some o = some p := (h o ho).symm.trans (h p hp)
  exact Option.some.inj heq

/-- A step of `o` that leaves every other party where it stands keeps ownership. -/
theorem Owned.step {lock lock' : Option O} {holds holds' : O → Bool} {o : O}
    (h : Owned lock holds) (hothers : ∀ p, p ≠ o → holds' p = holds p)
    (hstep : LockStep lock lock' o (holds o) (holds' o)) : Owned lock' holds' := by
  intro p hp
  by_cases hpo : p = o
  · subst hpo
    rcases hstep with ⟨hlock, hafter⟩ | ⟨_, hlock⟩ | ⟨_, hafter, _⟩
    · exact hlock.trans (h p (hafter hp))
    · exact hlock
    · exact absurd hp (by simp [hafter])
  · have hp' : holds p = true := (hothers p hpo) ▸ hp
    have howner := h p hp'
    rcases hstep with ⟨hlock, _⟩ | ⟨hfree, _⟩ | ⟨hbefore, _, _⟩
    · exact hlock.trans howner
    · exact absurd (hfree.symm.trans howner) (by simp)
    · exact absurd (Owned.exclusive h hp' hbefore) hpo

/-- The owner is the party at a holding point, and there is none without one. -/
def OwnedExactly (lock : Option O) (holds : O → Bool) : Prop :=
  ∀ o, lock = some o ↔ holds o = true

namespace OwnedExactly

variable [DecidableEq O] {Q : Type*} {lock : Option O} {holds : Q → Bool} {point : O → Q} {o : O}
  {q : Q}

theorem keep (h : OwnedExactly lock fun p => holds (point p)) (hq : holds q = holds (point o)) :
    OwnedExactly lock fun p => holds (Function.update point o q p) := by
  intro p
  show _ ↔ holds (Function.update point o q p) = true
  by_cases hpo : p = o
  · subst hpo
    rw [Function.update_self, hq]
    exact h p
  · rw [Function.update_of_ne hpo]
    exact h p

theorem acquire (h : OwnedExactly none fun p => holds (point p)) (hq : holds q = true) :
    OwnedExactly (some o) fun p => holds (Function.update point o q p) := by
  intro p
  show _ ↔ holds (Function.update point o q p) = true
  by_cases hpo : p = o
  · subst hpo
    simp [hq]
  · rw [Function.update_of_ne hpo]
    have hfree : holds (point p) ≠ true := fun hp => by cases (h p).mpr hp
    simp [hfree, Ne.symm hpo]

theorem release (h : OwnedExactly lock fun p => holds (point p)) (ho : holds (point o) = true)
    (hq : holds q = false) :
    OwnedExactly none fun p => holds (Function.update point o q p) := by
  intro p
  show _ ↔ holds (Function.update point o q p) = true
  by_cases hpo : p = o
  · subst hpo
    simp [hq]
  · rw [Function.update_of_ne hpo]
    have hother : holds (point p) ≠ true := by
      intro hp
      have heq : some o = some p := ((h o).mpr ho).symm.trans ((h p).mpr hp)
      exact hpo (Option.some.inj heq).symm
    simp [hother]

end OwnedExactly

/-- What a step of `o` may do to a lock that it holds at its holding points only. -/
def LockMove (lock lock' : Option O) (o : O) (before after : Bool) : Prop :=
  (lock' = lock ∧ after = before) ∨
  (lock = none ∧ lock' = some o ∧ after = true) ∨
  (before = true ∧ lock' = none ∧ after = false)

/-- Such a step of `o` keeps exact ownership. -/
theorem OwnedExactly.move {lock lock' : Option O} {holds holds' : O → Bool} {o : O}
    (h : OwnedExactly lock holds) (hothers : ∀ p, p ≠ o → holds' p = holds p)
    (hmove : LockMove lock lock' o (holds o) (holds' o)) : OwnedExactly lock' holds' := by
  intro p
  by_cases hpo : p = o
  · subst hpo
    rcases hmove with ⟨hlock, hafter⟩ | ⟨_, hlock, hafter⟩ | ⟨_, hlock, hafter⟩
    · rw [hlock, hafter]
      exact h p
    · simp [hlock, hafter]
    · simp [hlock, hafter]
  · rw [hothers p hpo]
    rcases hmove with ⟨hlock, _⟩ | ⟨hfree, hlock, _⟩ | ⟨hbefore, hlock, _⟩
    · rw [hlock]
      exact h p
    · have hp : holds p ≠ true := by
        intro hp
        have howner := (h p).mpr hp
        rw [hfree] at howner
        cases howner
      simp [hlock, hp, Ne.symm hpo]
    · have hp : holds p ≠ true := by
        intro hp
        have howner := ((h p).mpr hp).symm.trans ((h o).mpr hbefore)
        exact hpo (Option.some.inj howner)
      simp [hlock, hp]

end Memnon.Lib
