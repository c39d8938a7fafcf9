import Mathlib.Tactic.Common

/-!
# Programs of atomic actions

A program is a tree of atomic actions on a shared state; what an action returns
chooses the branch. `exec a c s` is the effect of the action `a` on `s`, where
`c` is what the environment chooses for it (the result of an allocation, say).

`wp` is a weakest precondition under interference: before every action and
before the return the state may change by the rely, the invariant is known to
hold, and every action has to keep the invariant and stay inside the guarantee.
-/

namespace Memnon.Lib

inductive Prog (Act : Type) (Resp : Act → Type) (A : Type) : Type
  | ret (a : A) : Prog Act Resp A
  | act (a : Act) (k : Resp a → Prog Act Resp A) : Prog Act Resp A

/-- What a thread may rely on and has to guarantee. -/
structure Context (S : Type) where
  Inv : S → Prop
  Rely : S → S → Prop
  Guar : S → S → Prop
  rely_refl : ∀ s, Rely s s
  rely_trans : ∀ {s₁ s₂ s₃}, Rely s₁ s₂ → Rely s₂ s₃ → Rely s₁ s₃

/-- An assertion that interference does not break. -/
def Context.Stable {S : Type} (Γ : Context S) (A : S → Prop) : Prop :=
  ∀ {s s'}, Γ.Rely s s' → Γ.Inv s' → A s → A s'

variable {Act : Type} {Resp : Act → Type} {A B C S : Type}

namespace Prog

def bind : Prog Act Resp A → (A → Prog Act Resp B) → Prog Act Resp B
  | ret a, f => f a
  | act a k, f => act a fun r => (k r).bind f

instance : Monad (Prog Act Resp) where
  pure := ret
  bind := bind

/-- No path has more than `n` actions. -/
def Within : Nat → Prog Act Resp A → Prop
  | _, ret _ => True
  | 0, act _ _ => False
  | n + 1, act _ k => ∀ r, (k r).Within n

/-- The run without interference. -/
def eval (exec : (a : Act) → C → S → Resp a × S) (pick : S → C) : Prog Act Resp A → S → A × S
  | ret a, s => (a, s)
  | act a k, s => (k (exec a (pick s) s).1).eval exec pick (exec a (pick s) s).2

/-- The actions of that run, in order. -/
def trace (exec : (a : Act) → C → S → Resp a × S) (pick : S → C) : Prog Act Resp A → S → List Act
  | ret _, _ => []
  | act a k, s => a :: (k (exec a (pick s) s).1).trace exec pick (exec a (pick s) s).2

/-- What is left of a program, and the state, after some of its actions without
    interference. -/
inductive Reaches (exec : (a : Act) → C → S → Resp a × S) (p : Prog Act Resp A) (s : S) :
    Prog Act Resp A → S → Prop
  | refl : Reaches exec p s p s
  | act {a : Act} {k : Resp a → Prog Act Resp A} {s' : S} (h : Reaches exec p s (act a k) s')
      (c : C) : Reaches exec p s (k (exec a c s').1) (exec a c s').2

def wp (exec : (a : Act) → C → S → Resp a × S) (Γ : Context S) (Q : A → S → Prop) :
    Prog Act Resp A → S → Prop
  | ret a, s => ∀ s', Γ.Rely s s' → Γ.Inv s' → Q a s'
  | act a k, s => ∀ s', Γ.Rely s s' → Γ.Inv s' → ∀ c,
      Γ.Inv (exec a c s').2 ∧ Γ.Guar s' (exec a c s').2 ∧
        (k (exec a c s').1).wp exec Γ Q (exec a c s').2

/-! ## 1. Sequencing -/

@[simp] theorem pure_eq (a : A) : (pure a : Prog Act Resp A) = ret a := rfl

@[simp] theorem bind_eq (p : Prog Act Resp A) (f : A → Prog Act Resp B) :
    p >>= f = p.bind f := rfl

@[simp] theorem ret_bind (a : A) (f : A → Prog Act Resp B) : (ret a).bind f = f a := rfl

@[simp] theorem act_bind (a : Act) (k : Resp a → Prog Act Resp A) (f : A → Prog Act Resp B) :
    (act a k).bind f = act a fun r => (k r).bind f := rfl

theorem within_ret (n : Nat) (a : A) : (ret a : Prog Act Resp A).Within n := by
  cases n <;> trivial

theorem within_act {a : Act} {k : Resp a → Prog Act Resp A} {n : Nat}
    (h : ∀ r, (k r).Within n) : (act a k).Within (n + 1) := h

theorem Within.mono {p : Prog Act Resp A} {m n : Nat} (h : p.Within m) (hmn : m ≤ n) :
    p.Within n := by
  induction p generalizing m n with
  | ret a => exact within_ret n a
  | act a k ih =>
    cases m with
    | zero => exact h.elim
    | succ m =>
      obtain ⟨n, rfl⟩ : ∃ j, n = j + 1 := ⟨n - 1, by omega⟩
      exact fun r => ih r (h r) (by omega)

theorem Within.bind {p : Prog Act Resp A} {f : A → Prog Act Resp B} {m n : Nat}
    (hp : p.Within m) (hf : ∀ a, (f a).Within n) : (p.bind f).Within (m + n) := by
  induction p generalizing m with
  | ret a => exact (hf a).mono (by omega)
  | act a k ih =>
    cases m with
    | zero => exact hp.elim
    | succ m =>
      rw [act_bind, Nat.add_right_comm]
      exact fun r => ih r (hp r)

/-! ## 2. Rules -/

variable {exec : (a : Act) → C → S → Resp a × S} {Γ : Context S} {Q Q' : A → S → Prop}
  {p : Prog Act Resp A} {s s' : S} {P : S → Prop}

/-- A precondition holds after any interference. -/
theorem wp_rely (h : p.wp exec Γ Q s) (hR : Γ.Rely s s') : p.wp exec Γ Q s' := by
  cases p with
  | ret a => exact fun s₁ h₁ => h s₁ (Γ.rely_trans hR h₁)
  | act a k => exact fun s₁ h₁ => h s₁ (Γ.rely_trans hR h₁)

/-- It is enough to know the precondition after the interference. -/
theorem wp_of_rely (h : ∀ s', Γ.Rely s s' → Γ.Inv s' → p.wp exec Γ Q s') :
    p.wp exec Γ Q s := by
  cases p with
  | ret a => exact fun s₁ h₁ hi => h s₁ h₁ hi s₁ (Γ.rely_refl s₁) hi
  | act a k => exact fun s₁ h₁ hi => h s₁ h₁ hi s₁ (Γ.rely_refl s₁) hi

theorem wp_ret (hstable : Γ.Stable P) (hs : P s) {a : A}
    (h : ∀ s, Γ.Inv s → P s → Q a s) : (ret a : Prog Act Resp A).wp exec Γ Q s :=
  fun s' hR hi => h s' hi (hstable hR hi hs)

/-- The rule for an action: the assertion survives the interference before it. -/
theorem wp_act (hstable : Γ.Stable P) (hs : P s) {a : Act} {k : Resp a → Prog Act Resp A}
    (h : ∀ s, Γ.Inv s → P s → ∀ c, Γ.Inv (exec a c s).2 ∧ Γ.Guar s (exec a c s).2 ∧
      (k (exec a c s).1).wp exec Γ Q (exec a c s).2) :
    (act a k).wp exec Γ Q s :=
  fun s' hR hi c => h s' hi (hstable hR hi hs) c

theorem wp_mono (h : p.wp exec Γ Q s) (hQ : ∀ a s, Γ.Inv s → Q a s → Q' a s) :
    p.wp exec Γ Q' s := by
  induction p generalizing s with
  | ret a => exact fun s₁ h₁ hi => hQ a s₁ hi (h s₁ h₁ hi)
  | act a k ih =>
    intro s₁ h₁ hi c
    obtain ⟨hinv, hguar, hk⟩ := h s₁ h₁ hi c
    exact ⟨hinv, hguar, ih _ hk⟩

theorem wp_bind {f : A → Prog Act Resp B} {Q : B → S → Prop}
    (h : p.wp exec Γ (fun a s => (f a).wp exec Γ Q s) s) : (p.bind f).wp exec Γ Q s := by
  induction p generalizing s with
  | ret a => exact wp_of_rely h
  | act a k ih =>
    intro s₁ h₁ hi c
    obtain ⟨hinv, hguar, hk⟩ := h s₁ h₁ hi c
    exact ⟨hinv, hguar, ih _ hk⟩

/-- A loop over a list: `P` is indexed by the elements that are left. -/
theorem wp_forM {X : Type} {body : X → Prog Act Resp PUnit} {P : List X → S → Prop} {xs : List X}
    (hstep : ∀ x rest s, P (x :: rest) s → (body x).wp exec Γ (fun _ s => P rest s) s)
    (hstable : Γ.Stable (P [])) (hs : P xs s) :
    (xs.forM body).wp exec Γ (fun _ s => P [] s) s := by
  induction xs generalizing s with
  | nil => exact wp_ret hstable hs fun _ _ h => h
  | cons x rest ih => exact wp_bind (wp_mono (hstep x rest s hs) fun _ _ _ h => ih h)

/-- The context of a program that runs alone. -/
def solo (Inv : S → Prop) : Context S where
  Inv := Inv
  Rely s s' := s' = s
  Guar _ _ := True
  rely_refl _ := rfl
  rely_trans h h' := h'.trans h

theorem solo_stable {Inv : S → Prop} : (solo Inv).Stable P := by
  rintro s s' rfl - hs
  exact hs

/-- What `wp` says of the run without interference. -/
theorem eval_of_wp {pick : S → C} (h : p.wp exec Γ Q s) (hinv : Γ.Inv s) :
    Γ.Inv (p.eval exec pick s).2 ∧ Q (p.eval exec pick s).1 (p.eval exec pick s).2 := by
  induction p generalizing s with
  | ret a => exact ⟨hinv, h s (Γ.rely_refl s) hinv⟩
  | act a k ih =>
    obtain ⟨hinv', -, hk⟩ := h s (Γ.rely_refl s) hinv (pick s)
    exact ih _ hk hinv'

theorem eval_bind (pick : S → C) (p : Prog Act Resp A) (f : A → Prog Act Resp B) (s : S) :
    (p.bind f).eval exec pick s =
      (f (p.eval exec pick s).1).eval exec pick (p.eval exec pick s).2 := by
  induction p generalizing s with
  | ret a => rfl
  | act a k ih => exact ih _ _

/-- A loop over a list without interference: `P` is indexed by the elements that
    are done. -/
theorem eval_forM {X : Type} {pick : S → C} {body : X → Prog Act Resp PUnit}
    {P : List X → S → Prop}
    (hstep : ∀ done x s, P done s → P (done ++ [x]) ((body x).eval exec pick s).2)
    (done xs : List X) (hs : P done s) :
    P (done ++ xs) ((xs.forM body).eval exec pick s).2 := by
  induction xs generalizing done s with
  | nil =>
    rw [List.append_nil]
    exact hs
  | cons x xs ih =>
    have hnext : ((x :: xs).forM body).eval exec pick s =
        (xs.forM body).eval exec pick ((body x).eval exec pick s).2 := eval_bind ..
    rw [List.append_cons, hnext]
    exact ih _ (hstep done x s hs)

/-- A loop whose rounds leave the state alone. -/
theorem eval_foldlM {X : Type} {pick : S → C} {body : B → X → Prog Act Resp B} {f : B → X → B}
    (h : ∀ b x, (body b x).eval exec pick s = (f b x, s)) (xs : List X) (b : B) :
    (xs.foldlM body b).eval exec pick s = (xs.foldl f b, s) := by
  induction xs generalizing b with
  | nil => rfl
  | cons x xs ih =>
    rw [List.foldlM_cons, bind_eq, eval_bind, h]
    exact ih (f b x)

theorem trace_bind (pick : S → C) (p : Prog Act Resp A) (f : A → Prog Act Resp B) (s : S) :
    (p.bind f).trace exec pick s =
      p.trace exec pick s ++
        (f (p.eval exec pick s).1).trace exec pick (p.eval exec pick s).2 := by
  induction p generalizing s with
  | ret a => rfl
  | act a k ih => exact congrArg (a :: ·) (ih _ _)

end Prog

end Memnon.Lib
