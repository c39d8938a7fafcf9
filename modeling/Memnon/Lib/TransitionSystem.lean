import Mathlib.Logic.Function.Basic

/-!
# Guarded transition systems

A system is a guarded, executable step function: `step s l` is `some s'` when
the label `l` is enabled in `s`, and `none` otherwise. A concrete schedule can
therefore be replayed by evaluation, and the same function is what invariants
are proved about.

`Steps step C s s'` is a run from `s` to `s'` every step of which satisfies the
condition `C` on the state before the step and its label. Both the reachable
states (`C` is trivial) and the runs of a restricted environment are instances.
-/

namespace Memnon.Lib

variable {S L : Type*}

/-- A run every step of which meets `C`. -/
inductive Steps (step : S → L → Option S) (C : S → L → Prop) : S → S → Prop
  | refl (s : S) : Steps step C s s
  | tail {s s₁ s₂ : S} {l : L} :
      Steps step C s s₁ → C s₁ l → step s₁ l = some s₂ → Steps step C s s₂

/-- The condition that restricts nothing. -/
def anyStep : S → L → Prop := fun _ _ => True

instance (s : S) (l : L) : Decidable (anyStep s l) := .isTrue trivial

/-- The system that takes a step only when it meets `C`. -/
def restrict (step : S → L → Option S) (C : S → L → Prop) [∀ s l, Decidable (C s l)]
    (s : S) (l : L) : Option S :=
  if C s l then step s l else none

/-- Replay a schedule. -/
def replay (step : S → L → Option S) (s : S) (ls : List L) : Option S :=
  ls.foldlM step s

/-- The system with a list of what its steps report, the latest at the end. -/
def logged {E : Type*} (step : S → L → Option S) (report : S → L → List E) (s : S × List E)
    (l : L) : Option (S × List E) :=
  (step s.1 l).map fun s' => (s', s.2 ++ report s.1 l)

theorem logged_eq_some {E : Type*} {step : S → L → Option S} {report : S → L → List E}
    {s s' : S × List E} {l : L} (h : logged step report s l = some s') :
    step s.1 l = some s'.1 ∧ s'.2 = s.2 ++ report s.1 l := by
  obtain ⟨s₁, hs₁, rfl⟩ := Option.map_eq_some_iff.mp h
  exact ⟨hs₁, rfl⟩

/-- What a step reports of itself: the state before it, and its label. -/
def visited (s : S) (l : L) : List (S × L) := [(s, l)]

theorem eq_some_getD {A : Type*} {o : Option A} (h : o.isSome = true) (d : A) :
    o = some (o.getD d) := by
  obtain ⟨a, rfl⟩ := Option.isSome_iff_exists.mp h
  rfl

namespace Steps

variable {step : S → L → Option S} {C D : S → L → Prop} {s s₁ s₂ : S}

/-- The invariant rule: what holds at the start and is preserved by every step
    that meets the condition holds at the end of the run. -/
theorem invariant (hrun : Steps step C s s₁) (P : S → Prop) (hstart : P s)
    (hstep : ∀ a l b, P a → C a l → step a l = some b → P b) : P s₁ := by
  induction hrun with
  | refl => exact hstart
  | tail _ hC hs ih => exact hstep _ _ _ ih hC hs

theorem trans (h₁ : Steps step C s s₁) (h₂ : Steps step C s₁ s₂) : Steps step C s s₂ := by
  induction h₂ with
  | refl => exact h₁
  | tail _ hC hs ih => exact .tail ih hC hs

theorem single {l : L} (hC : C s l) (hs : step s l = some s₁) : Steps step C s s₁ :=
  .tail (.refl s) hC hs

theorem head {l : L} (hC : C s l) (hs : step s l = some s₁) (h : Steps step C s₁ s₂) :
    Steps step C s s₂ :=
  (single hC hs).trans h

theorem mono (hCD : ∀ a l, C a l → D a l) (h : Steps step C s s₁) : Steps step D s s₁ := by
  induction h with
  | refl => exact .refl _
  | tail _ hC hs ih => exact .tail ih (hCD _ _ hC) hs

/-- What holds of every state of a run may be asked of each of its steps. -/
theorem strengthen {K : S → Prop} (h : Steps step C s s₁)
    (hK : ∀ a, Steps step C s a → Steps step C a s₁ → K a) :
    Steps step (fun a l => C a l ∧ K a) s s₁ := by
  induction h with
  | refl => exact .refl _
  | tail hrun hC hs ih =>
    refine .tail (ih fun a h₁ h₂ => hK a h₁ (h₂.tail hC hs)) ⟨hC, ?_⟩ hs
    exact hK _ hrun (single hC hs)

/-- What comes to hold in a run does so in one of its steps. -/
theorem exists_change {P : S → Prop} (h : Steps step C s s₁) (hstart : ¬ P s) (hend : P s₁) :
    ∃ a l b, Steps step C s a ∧ C a l ∧ step a l = some b ∧ Steps step C b s₁ ∧ ¬ P a ∧ P b := by
  induction h with
  | refl => exact absurd hend hstart
  | @tail a b l hrun hC hs ih =>
    by_cases ha : P a
    · obtain ⟨a', l', b', h₁, hC', hs', h₂, hnot, hP⟩ := ih ha
      exact ⟨a', l', b', h₁, hC', hs', h₂.tail hC hs, hnot, hP⟩
    · exact ⟨a, l, b, hrun, hC, hs, .refl b, ha, hend⟩

/-- The invariant rule for a run that keeps its past: what holds at the start and
    is preserved holds before every step that was taken. -/
theorem invariant_visited {s₀ s : S} {past : List (S × L)}
    (hrun : Steps (logged step visited) (fun a l => C a.1 l) (s₀, []) (s, past)) (P : S → Prop)
    (hstart : P s₀) (hstep : ∀ a l b, P a → C a l → step a l = some b → P b) :
    P s ∧ ∀ q ∈ past, P q.1 ∧ C q.1 q.2 := by
  refine hrun.invariant (fun a => P a.1 ∧ ∀ q ∈ a.2, P q.1 ∧ C q.1 q.2) ⟨hstart, by simp⟩ ?_
  intro a l b ha hC hs
  obtain ⟨hs, hpast⟩ := logged_eq_some hs
  refine ⟨hstep _ _ _ ha.1 hC hs, fun q hq => ?_⟩
  rw [hpast] at hq
  rcases List.mem_append.mp hq with hq | hq
  · exact ha.2 q hq
  · obtain rfl := List.mem_singleton.mp hq
    exact ⟨ha.1, hC⟩

/-- The ranking rule: a run whose steps each bring a measure down has no more steps than
    the measure it starts with. -/
theorem length_visited {s₀ s : S} {past : List (S × L)}
    (hrun : Steps (logged step visited) (fun a l => C a.1 l) (s₀, []) (s, past)) (P : S → Prop)
    (μ : S → Nat) (hstart : P s₀) (hstep : ∀ a l b, P a → C a l → step a l = some b → P b)
    (hless : ∀ a l b, P a → C a l → step a l = some b → μ b < μ a) :
    P s ∧ past.length + μ s ≤ μ s₀ := by
  refine hrun.invariant (fun a => P a.1 ∧ a.2.length + μ a.1 ≤ μ s₀) ⟨hstart, by simp⟩ ?_
  intro a l b ⟨hP, hlength⟩ hC hs
  obtain ⟨hs, hpast⟩ := logged_eq_some hs
  have hdown := hless _ _ _ hP hC hs
  refine ⟨hstep _ _ _ hP hC hs, ?_⟩
  rw [hpast, visited, List.length_append, List.length_singleton]
  omega

/-- When each step from a good state leads to a good state exactly if it meets `D`,
    the steps of a run all lead to good states exactly if they all meet `D`. -/
theorem good_iff_visited {s₀ s : S} {past : List (S × L)}
    (hrun : Steps (logged step visited) (fun a l => C a.1 l) (s₀, []) (s, past)) (P Good : S → Prop)
    (hstart : P s₀) (hgood : Good s₀)
    (hstep : ∀ a l b, P a → C a l → step a l = some b → P b)
    (hiff : ∀ a l b, P a → Good a → C a l → step a l = some b → (Good b ↔ D a l)) :
    (∀ q ∈ past, ∀ b, step q.1 q.2 = some b → Good b) ↔ ∀ q ∈ past, D q.1 q.2 := by
  let Leads (past : List (S × L)) : Prop := ∀ q ∈ past, ∀ b, step q.1 q.2 = some b → Good b
  let Meets (past : List (S × L)) : Prop := ∀ q ∈ past, D q.1 q.2
  have hall := hrun.invariant
    (fun a => P a.1 ∧ (Leads a.2 ↔ Meets a.2) ∧ (Meets a.2 → Good a.1))
    ⟨hstart, iff_of_true nofun nofun, fun _ => hgood⟩ ?_
  · exact hall.2.1
  · intro a l b ⟨hP, hsame, hgood⟩ hC hs
    obtain ⟨hs, hpast⟩ := logged_eq_some hs
    have hleads : Leads b.2 ↔ Leads a.2 ∧ Good b.1 := by
      simp only [Leads, hpast, visited, List.forall_mem_append, List.forall_mem_singleton, hs,
        Option.some.injEq, forall_eq']
    have hmeets : Meets b.2 ↔ Meets a.2 ∧ D a.1 l := by
      simp only [Meets, hpast, visited, List.forall_mem_append, List.forall_mem_singleton]
    refine ⟨hstep _ _ _ hP hC hs, ?_, ?_⟩
    · rw [hleads, hmeets, hsame]
      exact and_congr_right fun h => hiff _ _ _ hP (hgood h) hC hs
    · intro h
      obtain ⟨hold, hD⟩ := hmeets.mp h
      exact (hiff _ _ _ hP (hgood hold) hC hs).mpr hD

/-- A schedule each label of which meets the condition anywhere is a run. -/
theorem of_replay_labels : ∀ (ls : List L) {s s' : S}, (∀ l ∈ ls, ∀ a, C a l) →
    replay step s ls = some s' → Steps step C s s'
  | [], s, s', _, h => by
    have hs : s = s' := by simpa [replay] using h
    exact hs ▸ .refl s
  | l :: ls, s, s', hall, h => by
    rw [replay, List.foldlM_cons] at h
    obtain ⟨s₁, hs₁, hrest⟩ := Option.bind_eq_some_iff.mp h
    obtain ⟨hl, hls⟩ := List.forall_mem_cons.mp hall
    exact head (hl s) hs₁ (of_replay_labels ls hls hrest)

theorem exists_of_replay_labels {p : S → Bool} (ls : List L) (hall : ∀ l ∈ ls, ∀ a, C a l)
    (h : (replay step s ls).any p = true) : ∃ s', Steps step C s s' ∧ p s' = true := by
  obtain ⟨s', hs', hp⟩ := (Option.any_eq_true _ _).mp h
  exact ⟨s', of_replay_labels ls hall hs', hp⟩

section replay

variable [∀ s l, Decidable (C s l)]

/-- A schedule that replays under `C` is a run under `C`. -/
theorem of_replay : ∀ (ls : List L) {s s' : S}, replay (restrict step C) s ls = some s' →
    Steps step C s s'
  | [], s, s', h => by
    have hs : s = s' := by simpa [replay] using h
    exact hs ▸ .refl s
  | l :: ls, s, s', h => by
    rw [replay, List.foldlM_cons] at h
    obtain ⟨s₁, hs₁, hrest⟩ := Option.bind_eq_some_iff.mp h
    unfold restrict at hs₁
    split at hs₁
    · exact head ‹C s l› hs₁ (of_replay ls hrest)
    · cases hs₁

/-- A schedule that replays to a state passing the test `p` witnesses a run to
    such a state. -/
theorem exists_of_replay {p : S → Bool} (ls : List L)
    (h : (replay (restrict step C) s ls).any p = true) :
    ∃ s', Steps step C s s' ∧ p s' = true := by
  cases hs : replay (restrict step C) s ls with
  | none => simp [hs] at h
  | some s' => exact ⟨s', of_replay ls hs, by simpa [hs] using h⟩

/-- The end of a schedule, which is a run when nothing in it is disabled. -/
theorem of_schedule {ls : List L} (h : (replay (restrict step C) s ls).isSome = true) :
    Steps step C s ((replay (restrict step C) s ls).getD s) := by
  obtain ⟨s', hs'⟩ := Option.isSome_iff_exists.mp h
  rw [hs', Option.getD_some]
  exact of_replay ls hs'

/-- A schedule under `C` up to the label `l` and another one under `D` from there
    on, which ends in a state that passes the test. -/
def Watch (step : S → L → Option S) (C D : S → L → Prop) [∀ s l, Decidable (C s l)]
    [∀ s l, Decidable (D s l)] (s : S) (before : List L) (l : L) (during : List L)
    (test : S → Bool) : Bool :=
  (replay (restrict step C) s before).any fun s₀ =>
  (step s₀ l).any fun s₁ => (replay (restrict step D) s₁ during).any test

/-- What such a schedule runs through. -/
theorem of_watch [∀ s l, Decidable (D s l)] {before during : List L} {l : L} {test : S → Bool}
    (h : Watch step C D s before l during test = true) :
    ∃ s₀ s₁ s₂, Steps step C s s₀ ∧ step s₀ l = some s₁ ∧ Steps step D s₁ s₂ ∧
      test s₂ = true := by
  obtain ⟨s₀, h₀, h⟩ := (Option.any_eq_true _ _).mp h
  obtain ⟨s₁, h₁, h⟩ := (Option.any_eq_true _ _).mp h
  obtain ⟨s₂, h₂, h⟩ := (Option.any_eq_true _ _).mp h
  exact ⟨s₀, s₁, s₂, of_replay _ h₀, h₁, of_replay _ h₂, h⟩

end replay

end Steps

end Memnon.Lib
