import Memnon.Lib.Call

/-!
# Calls watched by a ghost state

A watched call has a second component of the state, which no answer depends on: what it
owns, what it has spent. It erases to the plain call when both answer and change the
plain state alike. What is to hold of the ghost state is shown with triples, which have
one postcondition for values and one for exceptions.
-/

namespace Memnon.Lib

variable {E S G A B : Type}

/-- The outcome without the ghost state. -/
def Outcome.erase : Outcome E (S × G) A → Outcome E S A
  | .value a s => .value a s.1
  | .thrown e s => .thrown e s.1
  | .stuck => .stuck

/-- Whichever way the call ends, one of the two holds. -/
def Outcome.Satisfies (Q : A → S → Prop) (R : S → Prop) : Outcome E S A → Prop
  | .value a s => Q a s
  | .thrown _ s => R s
  | .stuck => True

theorem Outcome.state_erase {o : Outcome E (S × G) A} : o.erase.state = o.state.map Prod.fst := by
  cases o <;> rfl

/-- The mutex of the plain state. -/
def Mutex.watched (mtx : Mutex S) (G : Type) : Mutex (S × G) where
  held s := mtx.held s.1
  setHeld b s := (mtx.setHeld b s.1, s.2)
  setHeld_setHeld b b' s := Prod.ext (mtx.setHeld_setHeld b b' s.1) rfl
  setHeld_held s := Prod.ext (mtx.setHeld_held s.1) rfl

namespace Call

/-- A call that leaves the ghost state alone. -/
def watched (c : Call E S A) : Call E (S × G) A := ⟨fun s =>
  match c.run s.1 with
  | .value a s' => .value a (s', s.2)
  | .thrown e s' => .thrown e (s', s.2)
  | .stuck => .stuck⟩

def ghost (f : G → G) : Call E (S × G) Unit := .modify fun s => (s.1, f s.2)

/-! ## 1. Erasure -/

def Erases (d : Call E (S × G) A) (c : Call E S A) : Prop := ∀ s, (d.run s).erase = c.run s.1

section erasure

variable {c : Call E S A} {d : Call E (S × G) A} {f : A → Call E S B} {g : A → Call E (S × G) B}
  {mtx : Mutex S}

theorem erases_watched : Erases (watched c : Call E (S × G) A) c := by
  intro s
  simp only [watched]
  cases c.run s.1 <;> rfl

theorem erases_pure {a : A} : Erases (pure a : Call E (S × G) A) (pure a) := fun _ => rfl

theorem erases_raise {e : E} : Erases (raise e : Call E (S × G) A) (raise e) := fun _ => rfl

theorem Erases.bind (hc : Erases d c) (hf : ∀ a, Erases (g a) (f a)) :
    Erases (d >>= g) (c >>= f) := by
  intro s
  have hs := hc s
  cases hd : d.run s with
  | value a s' =>
    rw [hd] at hs
    rw [run_bind_value hd, run_bind_value hs.symm]
    exact hf a s'
  | thrown e s' =>
    rw [hd] at hs
    rw [run_bind_thrown hd, run_bind_thrown hs.symm]
    rfl
  | stuck =>
    rw [hd] at hs
    rw [run_bind_stuck hd, run_bind_stuck hs.symm]
    rfl

theorem Erases.ghost_bind {h : G → G} {k : Unit → Call E (S × G) A} (hk : Erases (k ()) c) :
    Erases (ghost h >>= k) c := fun s => hk (s.1, h s.2)

theorem Erases.guarded (hc : Erases d c) :
    Erases (guarded (mtx.watched G) d) (guarded mtx c) := by
  intro s
  have hs := hc (mtx.setHeld true s.1, s.2)
  cases hheld : mtx.held s.1 with
  | true => rw [guarded_held hheld, guarded_held (by exact hheld)]; rfl
  | false =>
    simp only [Call.guarded, Mutex.watched, hheld, Bool.false_eq_true, if_false]
    rw [← hs]
    cases d.run (mtx.setHeld true s.1, s.2) <;> rfl

end erasure

/-! ## 2. Triples -/

/-- From `P` the call returns `a` with `Q a`, or is left by an exception with `R`. -/
def Triple (P : S → Prop) (c : Call E S A) (Q : A → S → Prop) (R : S → Prop) : Prop :=
  ∀ s, P s → (c.run s).Satisfies Q R

section triples

variable {P R : S → Prop} {M Q : A → S → Prop} {Q' : B → S → Prop} {c : Call E S A}
  {f : A → Call E S B} {mtx : Mutex S}

theorem triple_pure {a : A} (h : ∀ s, P s → Q a s) : Triple P (pure a : Call E S A) Q R := h

theorem triple_raise {e : E} (h : ∀ s, P s → R s) : Triple P (raise e : Call E S A) Q R := h

theorem Triple.bind (hc : Triple P c M R) (hf : ∀ a, Triple (M a) (f a) Q' R) :
    Triple P (c >>= f) Q' R := by
  intro s hs
  have hm := hc s hs
  cases hcs : c.run s with
  | value a s' =>
    rw [hcs] at hm
    rw [run_bind_value hcs]
    exact hf a s' hm
  | thrown e s' =>
    rw [hcs] at hm
    rw [run_bind_thrown hcs]
    exact hm
  | stuck =>
    rw [run_bind_stuck hcs]
    trivial

/-- A section, when the conditions say nothing of its mutex. -/
theorem Triple.guarded (hc : Triple P c Q R) (hP : ∀ s, P s → P (mtx.setHeld true s))
    (hQ : ∀ a s, Q a s → Q a (mtx.setHeld false s)) (hR : ∀ s, R s → R (mtx.setHeld false s)) :
    Triple P (guarded mtx c) Q R := by
  intro s hs
  have hm := hc _ (hP s hs)
  simp only [Call.guarded]
  split
  · trivial
  · cases hcs : c.run (mtx.setHeld true s) with
    | value a s' =>
      rw [hcs] at hm
      exact hQ a s' hm
    | thrown e s' =>
      rw [hcs] at hm
      exact hR s' hm
    | stuck => trivial

theorem Triple.value {s s' : S} {a : A} (hc : Triple P c Q R) (hs : P s)
    (h : c.run s = .value a s') : Q a s' := by
  have hm := hc s hs
  rw [h] at hm
  exact hm

theorem Triple.thrown {s s' : S} {e : E} (hc : Triple P c Q R) (hs : P s)
    (h : c.run s = .thrown e s') : R s' := by
  have hm := hc s hs
  rw [h] at hm
  exact hm

/-- Where both postconditions are one, it holds however the call ends. -/
theorem Triple.ends {s s' : S} (hc : Triple P c (fun _ => R) R) (hs : P s)
    (h : s' ∈ (c.run s).state) : R s' := by
  cases hcs : c.run s with
  | value a s₁ =>
    rw [hcs] at h
    obtain rfl := Option.some.inj h
    exact hc.value hs hcs
  | thrown e s₁ =>
    rw [hcs] at h
    obtain rfl := Option.some.inj h
    exact hc.thrown hs hcs
  | stuck =>
    rw [hcs] at h
    cases h

end triples

section ghostTriples

variable {P : S × G → Prop} {Q : A → S × G → Prop} {R : S × G → Prop} {c : Call E S A}
  {d : Call E (S × G) A} {h : G → G}

theorem triple_watched (hc : ∀ s g, P (s, g) →
    (c.run s).Satisfies (fun a s' => Q a (s', g)) fun s' => R (s', g)) :
    Triple P (watched c) Q R := by
  intro s hs
  have hm := hc s.1 s.2 hs
  simp only [watched]
  cases hcs : c.run s.1 with
  | value a s' =>
    rw [hcs] at hm
    exact hm
  | thrown e s' =>
    rw [hcs] at hm
    exact hm
  | stuck => trivial

theorem Triple.ghost_bind {P' : S × G → Prop} {k : Unit → Call E (S × G) A}
    (hP : ∀ s g, P (s, g) → P' (s, h g)) (hk : Triple P' (k ()) Q R) :
    Triple P (ghost h >>= k) Q R :=
  fun s hs => hk (s.1, h s.2) (hP s.1 s.2 hs)

end ghostTriples

end Call

end Memnon.Lib
