import Memnon.Lib.Pool

/-!
# Wait-freedom

An operation is wait-free when a bounded number of its own actions ends it, whatever the
other threads do in between. For programs of atomic actions a bound on all their paths is
one on the actions that are taken in any run: an action that has been taken is one that
the program had left. No thread ever waits, as its next action can always be taken.
-/

namespace Memnon.Lib

variable {T Op Act C S Ret : Type} {Resp : Act → Type}

namespace Pool

variable [DecidableEq T] {sys : System T Op Act C S Ret Resp}

/-- The actions that `t` has taken since its latest call. -/
def actsInCall (t : T) (past : List (Pool T Op Act S Ret Resp × PoolLabel T Op C)) : Nat :=
  past.foldl (fun n q => match q.2 with
    | .call u _ => if u = t then 0 else n
    | .act u _ => if u = t then n + 1 else n
    | .ret _ => n) 0

theorem actsInCall_concat (t : T) (past : List (Pool T Op Act S Ret Resp × PoolLabel T Op C))
    (p : Pool T Op Act S Ret Resp) (l : PoolLabel T Op C) :
    actsInCall t (past ++ [(p, l)]) =
      match l with
      | .call u _ => if u = t then 0 else actsInCall t past
      | .act u _ => if u = t then actsInCall t past + 1 else actsInCall t past
      | .ret _ => actsInCall t past := by
  simp only [actsInCall, List.foldl_append, List.foldl_cons, List.foldl_nil]

/-- What is left of an operation of at most `n` actions. -/
def LeftOf (op : Op) (n : Nat) (past : List (Pool T Op Act S Ret Resp × PoolLabel T Op C))
    (p : Pool T Op Act S Ret Resp) : Prop :=
  ∀ t prog, p.running t = some (op, prog) → ∃ k, prog.Within k ∧ actsInCall t past + k ≤ n

variable {op : Op} {n : Nat} {p p' : Pool T Op Act S Ret Resp}
  {past : List (Pool T Op Act S Ret Resp × PoolLabel T Op C)} {l : PoolLabel T Op C}

theorem leftOf_step (hn : (sys.body op).Within n) (h : LeftOf op n past p)
    (hs : p.step sys l = some p') : LeftOf op n (past ++ [(p, l)]) p' := by
  intro u prog hu
  rw [actsInCall_concat]
  by_cases hl : l.thread = u
  · subst hl
    obtain ⟨t, op', s, rfl, -, -, rfl⟩ | ⟨t, c, op', a, k, rfl, ht, rfl⟩ |
      ⟨t, op', a, rfl, -, rfl⟩ := step_cases sys hs
    · simp only [PoolLabel.thread, Function.update_self, Option.some.injEq, Prod.mk.injEq] at hu
      obtain ⟨rfl, rfl⟩ := hu
      exact ⟨n, hn, by simp [PoolLabel.thread]⟩
    · simp only [PoolLabel.thread, Function.update_self, Option.some.injEq, Prod.mk.injEq] at hu
      obtain ⟨rfl, rfl⟩ := hu
      obtain ⟨j, hj, hle⟩ := h t _ ht
      cases j with
      | zero => exact hj.elim
      | succ j =>
        refine ⟨j, hj _, ?_⟩
        simp only [PoolLabel.thread, if_true]
        omega
    · simp [PoolLabel.thread] at hu
  · have hold := h u prog ((running_of_step sys hs hl).symm.trans hu)
    cases l with
    | call t op' => simpa [show t ≠ u from hl] using hold
    | act t c => simpa [show t ≠ u from hl] using hold
    | ret t => exact hold

/-- In any run, a thread within an operation whose program has at most `n` actions on
    every path is about to return, or it has taken fewer than `n` actions since its call
    and its next one can be taken. -/
theorem wait_free (hn : (sys.body op).Within n)
    {D : Pool T Op Act S Ret Resp → PoolLabel T Op C → Prop} {s : S}
    (hrun : Steps (logged (step sys) visited) (fun a l => D a.1 l) (idle s, []) (p, past)) {t : T}
    {prog : Prog Act Resp Ret} (h : p.running t = some (op, prog)) :
    actsInCall t past ≤ n ∧
      ((∃ a, prog = .ret a) ∨
        actsInCall t past < n ∧ ∀ c, (p.step sys (.act t c)).isSome = true) := by
  have hleft : LeftOf op n past p := by
    refine hrun.invariant (fun a => LeftOf op n a.2 a.1) (fun _ _ h => (by cases h)) ?_
    intro a l b ha _ hs
    obtain ⟨hs, hpast⟩ := logged_eq_some hs
    rw [hpast]
    exact leftOf_step hn ha hs
  obtain ⟨k, hk, hle⟩ := hleft t prog h
  refine ⟨Nat.le_of_add_right_le hle, ?_⟩
  cases prog with
  | ret a => exact .inl ⟨a, rfl⟩
  | act a next =>
    right
    cases k with
    | zero => exact hk.elim
    | succ k =>
      refine ⟨by omega, fun c => ?_⟩
      simp [step, h]

end Pool

end Memnon.Lib
