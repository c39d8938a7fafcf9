import Mathlib.Tactic.Common

/-!
# Calls that lock and throw

A call runs on a state and ends with a value, with an exception, or not at all:
the thread is stuck when it locks a non-recursive mutex it already holds. Lock
guards release their mutex on every way out. `Keeps` is the invariant rule for
calls: what holds before holds again whenever the call ends.
-/

namespace Memnon.Lib

inductive Outcome (E S A : Type) where
  | value (a : A) (s : S)
  | thrown (e : E) (s : S)
  | stuck

/-- The state in which a call ends, if it ends. -/
def Outcome.state {E S A : Type} : Outcome E S A → Option S
  | .value _ s | .thrown _ s => some s
  | .stuck => none

def Outcome.returns {E S A : Type} : Outcome E S A → Bool
  | .value _ _ => true
  | .thrown _ _ | .stuck => false

structure Call (E S A : Type) where
  run : S → Outcome E S A

/-- A mutex as a flag of the state: whether the running thread holds it. -/
structure Mutex (S : Type) where
  held : S → Bool
  setHeld : Bool → S → S
  setHeld_setHeld : ∀ b b' s, setHeld b' (setHeld b s) = setHeld b' s
  setHeld_held : ∀ s, setHeld (held s) s = s

theorem Mutex.unlock_lock {S : Type} (mtx : Mutex S) {s : S} (h : mtx.held s = false) :
    mtx.setHeld false (mtx.setHeld true s) = s := by
  rw [mtx.setHeld_setHeld, ← h, mtx.setHeld_held]

namespace Call

variable {E S A B : Type}

instance : Monad (Call E S) where
  pure a := ⟨fun s => .value a s⟩
  bind c f := ⟨fun s =>
    match c.run s with
    | .value a s' => (f a).run s'
    | .thrown e s' => .thrown e s'
    | .stuck => .stuck⟩

def read : Call E S S := ⟨fun s => .value s s⟩

def modify (f : S → S) : Call E S Unit := ⟨fun s => .value () (f s)⟩

def raise (e : E) : Call E S A := ⟨fun s => .thrown e s⟩

/-- The scope of a lock guard. -/
def guarded (mtx : Mutex S) (body : Call E S A) : Call E S A := ⟨fun s =>
  if mtx.held s then .stuck
  else
    match body.run (mtx.setHeld true s) with
    | .value a s' => .value a (mtx.setHeld false s')
    | .thrown e s' => .thrown e (mtx.setHeld false s')
    | .stuck => .stuck⟩

/-! ## 1. Evaluation -/

variable {c : Call E S A} {f : A → Call E S B} {s s' : S} {a : A} {e : E} {mtx : Mutex S}

@[simp] theorem run_pure : (pure a : Call E S A).run s = .value a s := rfl

@[simp] theorem run_read : (read : Call E S S).run s = .value s s := rfl

@[simp] theorem run_modify {g : S → S} : (modify g : Call E S Unit).run s = .value () (g s) := rfl

@[simp] theorem run_raise : (raise e : Call E S A).run s = .thrown e s := rfl

theorem run_bind_value (h : c.run s = .value a s') : (c >>= f).run s = (f a).run s' := by
  simp only [bind, h]

theorem run_bind_thrown (h : c.run s = .thrown e s') : (c >>= f).run s = .thrown e s' := by
  simp only [bind, h]

theorem run_bind_stuck (h : c.run s = .stuck) : (c >>= f).run s = .stuck := by
  simp only [bind, h]

@[simp] theorem run_read_bind {g : S → Call E S B} : (read >>= g).run s = (g s).run s := rfl

@[simp] theorem run_modify_bind {g : S → S} {k : Unit → Call E S B} :
    (modify g >>= k).run s = (k ()).run (g s) := rfl

/-- A result computed at the end leaves the state. -/
theorem state_bind_pure {b : A → B} :
    ((c >>= fun a => pure (b a)).run s).state = (c.run s).state := by
  cases h : c.run s with
  | value a s' =>
    rw [run_bind_value h]
    rfl
  | thrown e s' =>
    rw [run_bind_thrown h]
    rfl
  | stuck =>
    rw [run_bind_stuck h]
    rfl

/-- A sequence returns only if both parts do. -/
theorem run_bind_eq_value {b : B} (h : (c >>= f).run s = .value b s') :
    ∃ a s₁, c.run s = .value a s₁ ∧ (f a).run s₁ = .value b s' := by
  cases hcs : c.run s with
  | value a s₁ =>
    rw [run_bind_value hcs] at h
    exact ⟨a, s₁, rfl, h⟩
  | thrown e s₁ =>
    rw [run_bind_thrown hcs] at h
    cases h
  | stuck =>
    rw [run_bind_stuck hcs] at h
    cases h

/-- A sequence is left by an exception of its first part or of the rest. -/
theorem run_bind_eq_thrown (h : (c >>= f).run s = .thrown e s') :
    c.run s = .thrown e s' ∨ ∃ a s₁, c.run s = .value a s₁ ∧ (f a).run s₁ = .thrown e s' := by
  cases hcs : c.run s with
  | value a s₁ =>
    rw [run_bind_value hcs] at h
    exact .inr ⟨a, s₁, rfl, h⟩
  | thrown e₁ s₁ =>
    rw [run_bind_thrown hcs] at h
    cases h
    exact .inl rfl
  | stuck =>
    rw [run_bind_stuck hcs] at h
    cases h

/-- A sequence ends where its first part ends, or where the rest does. -/
theorem bind_ends (h : s' ∈ ((c >>= f).run s).state) :
    s' ∈ (c.run s).state ∨ ∃ a s₁, c.run s = .value a s₁ ∧ s' ∈ ((f a).run s₁).state := by
  cases hcs : c.run s with
  | value a s₁ =>
    rw [run_bind_value hcs] at h
    exact .inr ⟨a, s₁, rfl, h⟩
  | thrown e s₁ =>
    rw [run_bind_thrown hcs] at h
    exact .inl h
  | stuck =>
    rw [run_bind_stuck hcs] at h
    cases h

theorem guarded_held (h : mtx.held s = true) : (guarded mtx c).run s = .stuck := by
  simp [guarded, h]

theorem guarded_value (h : mtx.held s = false) (hc : c.run (mtx.setHeld true s) = .value a s') :
    (guarded mtx c).run s = .value a (mtx.setHeld false s') := by
  simp [guarded, h, hc]

theorem guarded_thrown (h : mtx.held s = false) (hc : c.run (mtx.setHeld true s) = .thrown e s') :
    (guarded mtx c).run s = .thrown e (mtx.setHeld false s') := by
  simp [guarded, h, hc]

theorem guarded_congr {d : Call E S A}
    (h : c.run (mtx.setHeld true s) = d.run (mtx.setHeld true s)) :
    (guarded mtx c).run s = (guarded mtx d).run s := by
  simp only [guarded, h]

theorem pure_not_stuck : (pure a : Call E S A).run s ≠ .stuck := by
  intro h
  cases h

theorem bind_not_stuck (hc : c.run s ≠ .stuck)
    (hf : ∀ a s', c.run s = .value a s' → (f a).run s' ≠ .stuck) :
    (c >>= f).run s ≠ .stuck := by
  cases hcs : c.run s with
  | value a s' =>
    rw [run_bind_value hcs]
    exact hf a s' hcs
  | thrown e s' =>
    rw [run_bind_thrown hcs]
    nofun
  | stuck => exact absurd hcs hc

/-- A section whose mutex is free is stuck exactly when its body is. -/
theorem guarded_eq_stuck (h : mtx.held s = false) :
    (guarded mtx c).run s = .stuck ↔ c.run (mtx.setHeld true s) = .stuck := by
  simp only [guarded, h, Bool.false_eq_true, if_false]
  cases c.run (mtx.setHeld true s) <;> simp

theorem guarded_not_stuck (h : mtx.held s = false) (hc : c.run (mtx.setHeld true s) ≠ .stuck) :
    (guarded mtx c).run s ≠ .stuck := fun hstuck => hc ((guarded_eq_stuck h).mp hstuck)

theorem guarded_eq_value (h : (guarded mtx c).run s = .value a s') :
    ∃ s₁, c.run (mtx.setHeld true s) = .value a s₁ := by
  simp only [guarded] at h
  split at h
  · cases h
  · split at h
    · rename_i hc
      cases h
      exact ⟨_, hc⟩
    · cases h
    · cases h

/-- A section that returns unlocks the state in which its body returns. -/
theorem guarded_inv (h : (guarded mtx c).run s = .value a s') :
    ∃ s₁, c.run (mtx.setHeld true s) = .value a s₁ ∧ s' = mtx.setHeld false s₁ := by
  simp only [guarded] at h
  split at h
  · cases h
  · split at h
    · rename_i hc
      cases h
      exact ⟨_, hc, rfl⟩
    · cases h
    · cases h

/-- A section that ends unlocks the state in which its body ends. -/
theorem guarded_ends (h : s' ∈ ((guarded mtx c).run s).state) :
    ∃ s₁ ∈ (c.run (mtx.setHeld true s)).state, s' = mtx.setHeld false s₁ := by
  simp only [guarded] at h
  split at h
  · cases h
  · cases hc : c.run (mtx.setHeld true s) with
    | value a s₁ =>
      rw [hc] at h
      cases h
      exact ⟨s₁, rfl, rfl⟩
    | thrown e s₁ =>
      rw [hc] at h
      cases h
      exact ⟨s₁, rfl, rfl⟩
    | stuck =>
      rw [hc] at h
      cases h

/-- A section between two states in which the mutex is free. -/
theorem guarded_section (h : mtx.held s = false) (h' : mtx.held s' = false)
    (hc : c.run (mtx.setHeld true s) = .value a (mtx.setHeld true s')) :
    (guarded mtx c).run s = .value a s' := by
  rw [guarded_value h hc, mtx.unlock_lock h']

theorem guarded_section_thrown (h : mtx.held s = false) (h' : mtx.held s' = false)
    (hc : c.run (mtx.setHeld true s) = .thrown e (mtx.setHeld true s')) :
    (guarded mtx c).run s = .thrown e s' := by
  rw [guarded_thrown h hc, mtx.unlock_lock h']

/-! ## 2. Invariants of calls -/

/-- Whenever the call ends, also by an exception, `P` holds again. -/
def Keeps (P : S → Prop) (c : Call E S A) : Prop :=
  ∀ s, P s → ∀ s' ∈ (c.run s).state, P s'

variable {P : S → Prop}

theorem keeps_pure : Keeps P (pure a : Call E S A) := by
  intro s hs s' h
  exact Option.some.inj h ▸ hs

theorem keeps_raise : Keeps P (raise e : Call E S A) := by
  intro s hs s' h
  exact Option.some.inj h ▸ hs

theorem keeps_modify {g : S → S} (hg : ∀ s, P s → P (g s)) :
    Keeps P (modify g : Call E S Unit) := by
  intro s hs s' h
  exact Option.some.inj h ▸ hg s hs

theorem keeps_bind (hc : Keeps P c) (hf : ∀ a, Keeps P (f a)) : Keeps P (c >>= f) := by
  intro s hs s' h
  cases hcs : c.run s with
  | value a s₁ =>
    rw [run_bind_value hcs] at h
    exact hf a s₁ (hc s hs s₁ (by rw [hcs]; rfl)) s' h
  | thrown e s₁ =>
    rw [run_bind_thrown hcs] at h
    exact hc s hs s' (by rw [hcs]; exact h)
  | stuck =>
    rw [run_bind_stuck hcs] at h
    cases h

/-- Reading the state tells that it satisfies `P`. -/
theorem keeps_read_bind {k : S → Call E S B}
    (hk : ∀ s, P s → ∀ s' ∈ ((k s).run s).state, P s') : Keeps P (read >>= k) :=
  fun s hs s' h => hk s hs s' h

/-- The rule of a guarded section: `Q` holds inside, from locking to unlocking. -/
theorem keeps_guarded {Q : S → Prop} (hlock : ∀ s, P s → Q (mtx.setHeld true s))
    (hc : Keeps Q c) (hunlock : ∀ s, Q s → P (mtx.setHeld false s)) :
    Keeps P (guarded mtx c) := by
  intro s hs s' h
  simp only [guarded] at h
  split at h
  · cases h
  · have hbody := hc _ (hlock s hs)
    split at h
    · rename_i a s₁ hcs
      exact Option.some.inj h ▸ hunlock s₁ (hbody s₁ (by rw [hcs]; rfl))
    · rename_i e s₁ hcs
      exact Option.some.inj h ▸ hunlock s₁ (hbody s₁ (by rw [hcs]; rfl))
    · cases h

end Call

end Memnon.Lib
