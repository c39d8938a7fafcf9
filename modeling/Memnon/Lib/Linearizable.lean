import Memnon.Lib.Pool

/-!
# Linearizability

An object says what each of its operations may answer and what it makes of the
value the object has. A history of calls and returns is linearizable when the
moments at which the calls take effect can be put into it: each one between the
call and the return it belongs to, the return with the answer given then, and all
of them, in their order, one run of the object. A call that has not returned may
have taken effect or not.

The rule: every step of a system is matched by some events of the object that
show the same calls and returns. The threads that take effect in a step need not
be the one that takes it.
-/

namespace Memnon.Lib

inductive HistoryEvent (T Op Ret : Type*) where
  | call (t : T) (op : Op)
  | commit (t : T) (op : Op) (a : Ret)
  | ret (t : T) (op : Op) (a : Ret)
deriving DecidableEq

/-- What the threads see of each other's calls. -/
def HistoryEvent.visible {T Op Ret : Type*} : HistoryEvent T Op Ret → Bool
  | call _ _ | ret _ _ _ => true
  | commit _ _ _ => false

/-- `Allows op x a x'`: at the value `x` the operation may answer `a` and leave `x'`. -/
structure AtomicObject (Op A Ret : Type*) where
  start : A
  Allows : Op → A → Ret → A → Prop

/-- Where a thread stands: outside, in a call that has not taken effect, or in one
    that has, with its answer. -/
abbrev Standing (Op Ret : Type*) := Option (Op × Option Ret)

namespace AtomicObject

variable {T Op A Ret : Type*} [DecidableEq T] (O : AtomicObject Op A Ret)

inductive Step : A × (T → Standing Op Ret) → HistoryEvent T Op Ret →
    A × (T → Standing Op Ret) → Prop
  | call {x : A} {st : T → Standing Op Ret} {t : T} {op : Op} (ht : st t = none) :
      Step (x, st) (.call t op) (x, Function.update st t (some (op, none)))
  | commit {x x' : A} {st : T → Standing Op Ret} {t : T} {op : Op} {a : Ret}
      (ht : st t = some (op, none)) (hx : O.Allows op x a x') :
      Step (x, st) (.commit t op a) (x', Function.update st t (some (op, some a)))
  | ret {x : A} {st : T → Standing Op Ret} {t : T} {op : Op} {a : Ret}
      (ht : st t = some (op, some a)) :
      Step (x, st) (.ret t op a) (x, Function.update st t none)

inductive Run (w : A × (T → Standing Op Ret)) : List (HistoryEvent T Op Ret) →
    A × (T → Standing Op Ret) → Prop
  | refl : Run w [] w
  | tail {es : List (HistoryEvent T Op Ret)} {e : HistoryEvent T Op Ret}
      {w₁ w₂ : A × (T → Standing Op Ret)} (h : Run w es w₁) (he : O.Step w₁ e w₂) :
      Run w (es ++ [e]) w₂

/-- The history, with the moments at which the calls take effect left out, is one of
    the object. -/
def Linearizable (h : List (HistoryEvent T Op Ret)) : Prop :=
  ∃ es w, O.Run (O.start, fun _ => none) es w ∧ es.filter HistoryEvent.visible = h

variable {O} {w w₁ w₂ : A × (T → Standing Op Ret)} {es fs : List (HistoryEvent T Op Ret)}
  {e : HistoryEvent T Op Ret}

theorem Run.trans (h : O.Run w es w₁) (h' : O.Run w₁ fs w₂) : O.Run w (es ++ fs) w₂ := by
  induction h' with
  | refl =>
    rw [List.append_nil]
    exact h
  | tail _ he ih =>
    rw [← List.append_assoc]
    exact ih.tail he

theorem Step.run (h : O.Step w e w₁) : O.Run w [e] w₁ := Run.tail .refl h

variable {S L : Type*} {step : S → L → Option S} {C : S → L → Prop}
  {report : S → L → List (HistoryEvent T Op Ret)}
  {R : S → A × (T → Standing Op Ret) → Prop}

/-- The simulation rule. -/
theorem linearizable_of_simulation {s₀ s : S} {h : List (HistoryEvent T Op Ret)}
    (hstart : R s₀ (O.start, fun _ => none))
    (hstep : ∀ {a l b w}, R a w → C a l → step a l = some b →
      ∃ es w', O.Run w es w' ∧ es.filter HistoryEvent.visible = report a l ∧ R b w')
    (hrun : Steps (logged step report) (fun a l => C a.1 l) (s₀, []) (s, h)) :
    O.Linearizable h := by
  have hmatched := hrun.invariant
    (fun a => ∃ es w, O.Run (O.start, fun _ => none) es w ∧
      es.filter HistoryEvent.visible = a.2 ∧ R a.1 w)
    ⟨[], _, .refl, rfl, hstart⟩ ?_
  · obtain ⟨es, w, hes, hvisible, -⟩ := hmatched
    exact ⟨es, w, hes, hvisible⟩
  · rintro a l b ⟨es, w, hes, hvisible, hsim⟩ hC hs
    obtain ⟨hs, hreport⟩ := logged_eq_some hs
    obtain ⟨fs, w', hfs, hvisible', hsim'⟩ := hstep hsim hC hs
    refine ⟨es ++ fs, w', hes.trans hfs, ?_, hsim'⟩
    rw [List.filter_append, hvisible, hvisible', hreport]

end AtomicObject

/-- The calls and returns of a pool of threads. -/
def Pool.history {T Op Act C S Ret : Type} {Resp : Act → Type} (p : Pool T Op Act S Ret Resp) :
    PoolLabel T Op C → List (HistoryEvent T Op Ret)
  | .call t op => [.call t op]
  | .act _ _ => []
  | .ret t =>
      match p.returned t with
      | some (op, a) => [.ret t op a]
      | none => []

end Memnon.Lib
