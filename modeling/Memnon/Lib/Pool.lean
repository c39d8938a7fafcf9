import Memnon.Lib.Prog
import Memnon.Lib.TransitionSystem
import Mathlib.Logic.Function.Basic

/-!
# Pools of threads

Any number of threads call operations of a system and run their programs one
action at a time, in any interleaving. `enter` and `leave` are what happens to
the shared state at a call and at a return; a call that `enter` refuses is not
made.

A proof outline gives every running program a weakest precondition. It is kept
by every step, so it holds in every reachable state; and a thread that is
watched while a predicate holds of every state may rely on that predicate too.
-/

namespace Memnon.Lib

structure System (T Op Act C S Ret : Type) (Resp : Act → Type) where
  exec : T → (a : Act) → C → S → Resp a × S
  body : Op → Prog Act Resp Ret
  enter : T → Op → S → Option S
  leave : T → Op → Ret → S → S

structure Pool (T Op Act S Ret : Type) (Resp : Act → Type) where
  shared : S
  running : T → Option (Op × Prog Act Resp Ret)

inductive PoolLabel (T Op C : Type) where
  | call (t : T) (op : Op)
  | act (t : T) (c : C)
  | ret (t : T)
deriving DecidableEq

variable {T Op Act C S Ret : Type} {Resp : Act → Type}

namespace PoolLabel

/-- The thread that takes the step. -/
def thread : PoolLabel T Op C → T
  | call t _ | act t _ | ret t => t

/-- A call of `op` by `t` for which the environment chooses `cs`, run without
    interruption. -/
def alone (t : T) (op : Op) (cs : List C) : List (PoolLabel T Op C) :=
  call t op :: cs.map (act t) ++ [ret t]

/-- A condition on the calls only. -/
def OnCall (Cond : S → T → Op → Prop) (s : S) : PoolLabel T Op C → Prop
  | call t op => Cond s t op
  | _ => True

instance (Cond : S → T → Op → Prop) [∀ s t op, Decidable (Cond s t op)] (s : S)
    (l : PoolLabel T Op C) : Decidable (l.OnCall Cond s) := by
  cases l <;> unfold OnCall <;> infer_instance

end PoolLabel

namespace Pool

variable [DecidableEq T] (sys : System T Op Act C S Ret Resp)

/-- No thread is running anything. -/
def idle (s : S) : Pool T Op Act S Ret Resp := ⟨s, fun _ => none⟩

def step (p : Pool T Op Act S Ret Resp) :
    PoolLabel T Op C → Option (Pool T Op Act S Ret Resp)
  | .call t op =>
      match p.running t with
      | none => (sys.enter t op p.shared).map fun s =>
          ⟨s, Function.update p.running t (some (op, sys.body op))⟩
      | some _ => none
  | .act t c =>
      match p.running t with
      | some (op, .act a k) =>
          let out := sys.exec t a c p.shared
          some ⟨out.2, Function.update p.running t (some (op, k out.1))⟩
      | _ => none
  | .ret t =>
      match p.running t with
      | some (op, .ret a) =>
          some ⟨sys.leave t op a p.shared, Function.update p.running t none⟩
      | _ => none

omit [DecidableEq T] in
/-- The operation of `t` and its result, when it is about to return. -/
def returned (p : Pool T Op Act S Ret Resp) (t : T) : Option (Op × Ret) :=
  match p.running t with
  | some (op, .ret a) => some (op, a)
  | _ => none

omit [DecidableEq T] in
theorem returned_eq_some {p : Pool T Op Act S Ret Resp} {t : T} {op : Op} {a : Ret}
    (h : p.returned t = some (op, a)) : p.running t = some (op, .ret a) := by
  unfold returned at h
  split at h
  · cases h
    assumption
  · cases h

/-- All that a step can be. -/
theorem step_cases {p p' : Pool T Op Act S Ret Resp} {l : PoolLabel T Op C}
    (h : p.step sys l = some p') :
    (∃ t op s, l = .call t op ∧ p.running t = none ∧ sys.enter t op p.shared = some s ∧
      p' = ⟨s, Function.update p.running t (some (op, sys.body op))⟩) ∨
    (∃ t c op a k, l = .act t c ∧ p.running t = some (op, .act a k) ∧
      p' = ⟨(sys.exec t a c p.shared).2,
        Function.update p.running t (some (op, k (sys.exec t a c p.shared).1))⟩) ∨
    (∃ t op a, l = .ret t ∧ p.running t = some (op, .ret a) ∧
      p' = ⟨sys.leave t op a p.shared, Function.update p.running t none⟩) := by
  cases l with
  | call t op =>
    simp only [step] at h
    split at h
    · obtain ⟨s, hs, rfl⟩ := Option.map_eq_some_iff.mp h
      exact .inl ⟨t, op, s, rfl, ‹_›, hs, rfl⟩
    · cases h
  | act t c =>
    simp only [step] at h
    split at h
    · exact .inr (.inl ⟨t, c, _, _, _, rfl, ‹_›, (Option.some.inj h).symm⟩)
    · cases h
  | ret t =>
    simp only [step] at h
    split at h
    · exact .inr (.inr ⟨t, _, _, rfl, ‹_›, (Option.some.inj h).symm⟩)
    · cases h

theorem step_call {p p' : Pool T Op Act S Ret Resp} {t : T} {op : Op}
    (h : p.step sys (.call t op) = some p') :
    ∃ s, p.running t = none ∧ sys.enter t op p.shared = some s ∧
      p' = ⟨s, Function.update p.running t (some (op, sys.body op))⟩ := by
  obtain ⟨u, op', s, hl, hidle, hs, rfl⟩ | ⟨u, c, op', a, k, hl, -, -⟩ | ⟨u, op', a, hl, -, -⟩ :=
    step_cases sys h
  · cases hl
    exact ⟨s, hidle, hs, rfl⟩
  · cases hl
  · cases hl

/-- A thread that runs stays in its operation until it returns. -/
theorem running_of_step {p p' : Pool T Op Act S Ret Resp} {l : PoolLabel T Op C} {u : T}
    (h : p.step sys l = some p') (hu : l.thread ≠ u) : p'.running u = p.running u := by
  obtain ⟨t, op, s, rfl, -, -, rfl⟩ | ⟨t, c, op, a, k, rfl, -, rfl⟩ | ⟨t, op, a, rfl, -, rfl⟩ :=
    step_cases sys h <;> exact Function.update_of_ne (Ne.symm hu) _ _

/-- A bound on the body of an operation bounds what is left of it. -/
theorem within_of_run {C₀ : Pool T Op Act S Ret Resp → PoolLabel T Op C → Prop} {op : Op} {n : Nat}
    (hn : (sys.body op).Within n) {s : S} {p : Pool T Op Act S Ret Resp}
    (hrun : Steps (step sys) C₀ (idle s) p) {t : T} {prog : Prog Act Resp Ret}
    (h : p.running t = some (op, prog)) : prog.Within n := by
  refine hrun.invariant (fun p => ∀ t prog, p.running t = some (op, prog) → prog.Within n)
    (fun _ _ h => (by cases h)) ?_ t prog h
  intro p l p' hp _ hs u prog hu
  by_cases hl : l.thread = u
  · subst hl
    obtain ⟨t, op', s, rfl, -, -, rfl⟩ | ⟨t, c, op', a, k, rfl, ht, rfl⟩ |
      ⟨t, op', a, rfl, -, rfl⟩ := step_cases sys hs
    · simp only [PoolLabel.thread, Function.update_self, Option.some.injEq, Prod.mk.injEq] at hu
      obtain ⟨rfl, rfl⟩ := hu
      exact hn
    · simp only [PoolLabel.thread, Function.update_self, Option.some.injEq, Prod.mk.injEq] at hu
      obtain ⟨rfl, rfl⟩ := hu
      cases n with
      | zero => exact (hp t _ ht).elim
      | succ n => exact (hp t _ ht _).mono (Nat.le_succ n)
    · simp [PoolLabel.thread] at hu
  · exact hp u prog ((running_of_step sys hs hl).symm.trans hu)

/-- A thread that runs alone returns after as many steps as its program is
    long. -/
theorem returns {n : Nat} {t : T} {op : Op} {prog : Prog Act Resp Ret} (hw : prog.Within n) (c : C)
    {p : Pool T Op Act S Ret Resp} (h : p.running t = some (op, prog)) :
    ∃ k p' a, k ≤ n ∧ replay (step sys) p (List.replicate k (.act t c)) = some p' ∧
      p'.running t = some (op, .ret a) := by
  induction prog generalizing n p with
  | ret a => exact ⟨0, p, a, Nat.zero_le n, rfl, h⟩
  | act a k ih =>
    cases n with
    | zero => exact hw.elim
    | succ n =>
      let out := sys.exec t a c p.shared
      let p₁ : Pool T Op Act S Ret Resp :=
        ⟨out.2, Function.update p.running t (some (op, k out.1))⟩
      have hstep : p.step sys (.act t c) = some p₁ := by simp only [step, h, p₁, out]
      obtain ⟨j, p', b, hj, hreplay, hret⟩ :=
        ih out.1 (hw out.1) (p := p₁) (Function.update_self ..)
      refine ⟨j + 1, p', b, by omega, ?_, hret⟩
      simp only [replay, List.replicate_succ, List.foldlM_cons, hstep]
      exact hreplay

end Pool

/-- The invariant, and what each thread relies on and guarantees. -/
structure Discipline (T Op S : Type) where
  Inv : S → Prop
  Rely : T → S → S → Prop
  Guar : T → Op → S → S → Prop
  rely_refl : ∀ t s, Rely t s s
  rely_trans : ∀ {t s₁ s₂ s₃}, Rely t s₁ s₂ → Rely t s₂ s₃ → Rely t s₁ s₃

def Discipline.context (D : Discipline T Op S) (t : T) (op : Op) : Context S where
  Inv := D.Inv
  Rely := D.Rely t
  Guar := D.Guar t op
  rely_refl := D.rely_refl t
  rely_trans := D.rely_trans

/-- A proof outline of a system whose calls meet `Cond`. `Rest` is what holds of
    a thread between its operations. -/
structure Outline (sys : System T Op Act C S Ret Resp) (D : Discipline T Op S)
    (Cond : S → T → Op → Prop) (Rest : T → S → Prop) (Post : T → Op → Ret → S → Prop) :
    Prop where
  compat : ∀ {t u op s s'}, u ≠ t → D.Inv s → D.Inv s' → D.Guar u op s s' → D.Rely t s s'
  rest : ∀ {t s s'}, D.Rely t s s' → D.Inv s' → Rest t s → Rest t s'
  enter : ∀ {t op s s'}, D.Inv s → Rest t s → Cond s t op → sys.enter t op s = some s' →
    D.Inv s' ∧ (∀ u, t ≠ u → D.Rely u s s') ∧
      (sys.body op).wp (sys.exec t) (D.context t op) (Post t op) s'
  leave : ∀ {t op a s}, D.Inv s → Post t op a s →
    D.Inv (sys.leave t op a s) ∧ (∀ u, t ≠ u → D.Rely u s (sys.leave t op a s)) ∧
      Rest t (sys.leave t op a s)

namespace Outline

variable {sys : System T Op Act C S Ret Resp} {D : Discipline T Op S}
  {Cond : S → T → Op → Prop} {Rest : T → S → Prop} {Post : T → Op → Ret → S → Prop}

/-- What holds of a thread: its program has its precondition, or it rests. -/
def ThreadGood (sys : System T Op Act C S Ret Resp) (D : Discipline T Op S) (Rest : T → S → Prop)
    (Post : T → Op → Ret → S → Prop) (t : T) (s : S) : Option (Op × Prog Act Resp Ret) → Prop
  | some (op, prog) => prog.wp (sys.exec t) (D.context t op) (Post t op) s
  | none => Rest t s

/-- The invariant holds, and the outline of every thread. -/
def Good (sys : System T Op Act C S Ret Resp) (D : Discipline T Op S) (Rest : T → S → Prop)
    (Post : T → Op → Ret → S → Prop) (p : Pool T Op Act S Ret Resp) : Prop :=
  D.Inv p.shared ∧ ∀ t, ThreadGood sys D Rest Post t p.shared (p.running t)

theorem good_idle {s : S} (h : D.Inv s) (hrest : ∀ t, Rest t s) :
    Good sys D Rest Post (Pool.idle s) :=
  ⟨h, hrest⟩

variable [DecidableEq T] (hO : Outline sys D Cond Rest Post)
include hO

omit [DecidableEq T] in
theorem threadGood_rely {t : T} {s s' : S} {x : Option (Op × Prog Act Resp Ret)}
    (h : ThreadGood sys D Rest Post t s x) (hR : D.Rely t s s') (hi : D.Inv s') :
    ThreadGood sys D Rest Post t s' x := by
  cases x with
  | none => exact hO.rest hR hi h
  | some x =>
    have hR' : (D.context t x.1).Rely s s' := hR
    exact Prog.wp_rely (show x.2.wp (sys.exec t) (D.context t x.1) (Post t x.1) s from h) hR'

/-- A step keeps the outline, and is interference to the other threads. -/
theorem good_step {p p' : Pool T Op Act S Ret Resp} {l : PoolLabel T Op C}
    (hgood : Good sys D Rest Post p) (hC : l.OnCall Cond p.shared) (h : p.step sys l = some p') :
    Good sys D Rest Post p' ∧ ∀ u, l.thread ≠ u → D.Rely u p.shared p'.shared := by
  obtain ⟨hinv, hthread⟩ := hgood
  -- the other threads are interfered with, so only the acting one is left
  have hothers : ∀ (t : T) (x : Option (Op × Prog Act Resp Ret)) (s' : S), D.Inv s' →
      (∀ u, t ≠ u → D.Rely u p.shared s') → ThreadGood sys D Rest Post t s' x →
      ∀ u, ThreadGood sys D Rest Post u s' (Function.update p.running t x u) := by
    intro t x s' hi hrely hx u
    by_cases hut : u = t
    · subst hut
      rw [Function.update_self]
      exact hx
    · rw [Function.update_of_ne hut]
      exact hO.threadGood_rely (hthread u) (hrely u (Ne.symm hut)) hi
  obtain ⟨t, op, s, rfl, hidle, hs, rfl⟩ | ⟨t, c, op, a, k, rfl, hrun, rfl⟩ |
    ⟨t, op, a, rfl, hrun, rfl⟩ := Pool.step_cases sys h
  · have hrest := hthread t
    rw [hidle] at hrest
    obtain ⟨hinv', hrely, hbody⟩ := hO.enter hinv hrest hC hs
    exact ⟨⟨hinv', hothers t _ s hinv' hrely hbody⟩, hrely⟩
  · have hwp := hthread t
    rw [hrun] at hwp
    obtain ⟨hinv', hguar, hk⟩ := hwp p.shared (D.rely_refl t p.shared) hinv c
    have hrely : ∀ u, t ≠ u → D.Rely u p.shared (sys.exec t a c p.shared).2 :=
      fun u htu => hO.compat htu hinv hinv' hguar
    exact ⟨⟨hinv', hothers t _ _ hinv' hrely hk⟩, hrely⟩
  · have hwp := hthread t
    rw [hrun] at hwp
    have hpost := hwp p.shared (D.rely_refl t p.shared) hinv
    obtain ⟨hinv', hrely, hrest⟩ := hO.leave hinv hpost
    exact ⟨⟨hinv', hothers t _ _ hinv' hrely hrest⟩, hrely⟩

theorem good_of_run {p p' : Pool T Op Act S Ret Resp} (hgood : Good sys D Rest Post p)
    (hrun : Steps (Pool.step sys) (fun p l => l.OnCall Cond p.shared) p p') :
    Good sys D Rest Post p' :=
  hrun.invariant (Good sys D Rest Post) hgood fun _ _ _ hg hC hs => (hO.good_step hg hC hs).1

/-- One thread watched over a run all of whose states satisfy `K`: its program
    may be proved in the context `Γ` that `K` allows. -/
theorem observe {t : T} (op : Op) (Γ : Context S) {Q : Ret → S → Prop}
    {K : Pool T Op Act S Ret Resp → Prop}
    (hinv : ∀ p, Good sys D Rest Post p → K p → Γ.Inv p.shared)
    (hrely : ∀ p l p', Good sys D Rest Post p → Good sys D Rest Post p' → K p → K p' →
      l.OnCall Cond p.shared → p.step sys l = some p' → l.thread ≠ t →
      Γ.Rely p.shared p'.shared)
    {p₁ p₂ : Pool T Op Act S Ret Resp} (hgood : Good sys D Rest Post p₁)
    (hstart : K p₁ → ∃ prog, p₁.running t = some (op, prog) ∧
      prog.wp (sys.exec t) Γ Q p₁.shared)
    (hrun : Steps (Pool.step sys)
      (fun p l => l.OnCall Cond p.shared ∧ K p ∧ l ≠ .ret t) p₁ p₂) (hK : K p₂) :
    ∃ prog, p₂.running t = some (op, prog) ∧ prog.wp (sys.exec t) Γ Q p₂.shared := by
  have key := hrun.invariant (fun p => Good sys D Rest Post p ∧ (K p →
    ∃ prog, p.running t = some (op, prog) ∧ prog.wp (sys.exec t) Γ Q p.shared))
    ⟨hgood, hstart⟩ ?_
  · exact key.2 hK
  rintro p l p' ⟨hg, hwp⟩ ⟨hC, hKp, hret⟩ hs
  have hg' := (hO.good_step hg hC hs).1
  refine ⟨hg', fun hKp' => ?_⟩
  obtain ⟨prog, hprog, hpre⟩ := hwp hKp
  by_cases hl : l.thread = t
  · -- the thread's own step is an action: it is running and does not return
    obtain ⟨u, op', s, rfl, hu, -, rfl⟩ | ⟨u, c, op', a, k, rfl, hu, rfl⟩ |
      ⟨u, op', a, rfl, hu, rfl⟩ := Pool.step_cases sys hs
    · obtain rfl : u = t := hl
      rw [hprog] at hu
      cases hu
    · obtain rfl : u = t := hl
      rw [hprog] at hu
      cases hu
      obtain ⟨-, -, hk⟩ := hpre p.shared (Γ.rely_refl _) (hinv p hg hKp) c
      exact ⟨_, Function.update_self .., hk⟩
    · obtain rfl : u = t := hl
      exact absurd rfl hret
  · refine ⟨prog, (Pool.running_of_step sys hs hl).trans hprog, ?_⟩
    exact Prog.wp_rely hpre (hrely p l p' hg hg' hKp hKp' hC hs hl)

/-- A thread that does not end as the context of `K` says has passed through a
    state in which `K` does not hold. -/
theorem exists_not {t : T} {op : Op} (Γ : Context S) {Q : Ret → S → Prop}
    {K : Pool T Op Act S Ret Resp → Prop}
    (hinv : ∀ p, Good sys D Rest Post p → K p → Γ.Inv p.shared)
    (hrely : ∀ p l p', Good sys D Rest Post p → Good sys D Rest Post p' → K p → K p' →
      l.OnCall Cond p.shared → p.step sys l = some p' → l.thread ≠ t →
      Γ.Rely p.shared p'.shared)
    {p₁ p₂ : Pool T Op Act S Ret Resp} (hgood : Good sys D Rest Post p₁)
    {prog : Prog Act Resp Ret} (hstart : p₁.running t = some (op, prog))
    (hwp : K p₁ → prog.wp (sys.exec t) Γ Q p₁.shared)
    (hrun : Steps (Pool.step sys) (fun p l => l.OnCall Cond p.shared ∧ l ≠ .ret t) p₁ p₂)
    {a : Ret} (hret : p₂.running t = some (op, .ret a)) (hQ : ¬ Q a p₂.shared) :
    ∃ p, Steps (Pool.step sys) (fun p l => l.OnCall Cond p.shared ∧ l ≠ .ret t) p₁ p ∧
      Steps (Pool.step sys) (fun p l => l.OnCall Cond p.shared ∧ l ≠ .ret t) p p₂ ∧ ¬ K p := by
  by_contra hall
  have hK : ∀ p, Steps (Pool.step sys) (fun p l => l.OnCall Cond p.shared ∧ l ≠ .ret t) p₁ p →
      Steps (Pool.step sys) (fun p l => l.OnCall Cond p.shared ∧ l ≠ .ret t) p p₂ → K p := by
    intro p h₁ h₂
    by_contra hnot
    exact hall ⟨p, h₁, h₂, hnot⟩
  have hwatched := (hrun.strengthen hK).mono
    (D := fun p l => l.OnCall Cond p.shared ∧ K p ∧ l ≠ .ret t)
    fun _ _ h => ⟨h.1.1, h.2, h.1.2⟩
  have hend : K p₂ := hK p₂ hrun (.refl p₂)
  obtain ⟨prog', hprog, hpre⟩ := hO.observe op Γ hinv hrely hgood
    (fun hK => ⟨prog, hstart, hwp hK⟩) hwatched hend
  obtain rfl : prog' = .ret a := (Prod.mk.inj (Option.some.inj (hprog.symm.trans hret))).2
  have hgood₂ := hO.good_of_run hgood (hrun.mono fun _ _ h => h.1)
  exact hQ (hpre p₂.shared (Γ.rely_refl _) (hinv p₂ hgood₂ hend))

omit [DecidableEq T] hO in
/-- What a thread's action guarantees. -/
theorem guar_of_act {p : Pool T Op Act S Ret Resp} {t : T} {c : C} {op : Op} {a : Act}
    {k : Resp a → Prog Act Resp Ret} (hgood : Good sys D Rest Post p)
    (hrun : p.running t = some (op, .act a k)) :
    D.Guar t op p.shared (sys.exec t a c p.shared).2 := by
  have hwp := hgood.2 t
  rw [hrun] at hwp
  exact (hwp p.shared (D.rely_refl t p.shared) hgood.1 c).2.1

end Outline

end Memnon.Lib
