import Memnon.ManagerThreads

/-!
# Every call on a SHM manager returns

A thread waits for another one only in `grow`, for `grow_mtx_`, and then the other
one is inside a growth that it can go on with. Every section brings a call closer to
its end, so nobody waits forever and no call takes more than six sections. What can
end all of them is an exception that leaves `grow_background`, which is `noexcept`.
-/

namespace Memnon.Threads

open Memnon.Lib

variable {H N T : Type}

/-! ## 1. Sections that are left -/

def Grower.sectionsAfter : Grower → Nat
  | .grow _ (some _) => 1
  | .grow _ none | .background => 0

/-- The sections that a call takes from a point on, at most. -/
def Point.sections : Point → Nat
  | .idle => 0
  | .discover _ => 1
  | .allocate _ again => if again then 1 else 6
  | .growLock g => g.sectionsAfter + 4
  | .growRead g => g.sectionsAfter + 3
  | .growExtend g _ _ => g.sectionsAfter + 2
  | .growPublish g _ _ => g.sectionsAfter + 1

theorem Task.sections_entry (task : Task) : task.entry.sections ≤ 6 := by
  cases task <;> simp [Task.entry, Point.sections, Grower.sectionsAfter]

theorem Grower.sections_done (g : Grower) : g.done.sections = g.sectionsAfter := by
  cases g with
  | grow minBytes request => cases request <;> rfl
  | background => rfl

section sections

variable {P : Platform} {I : InnerManager H N} {env : Env H} {t : T} {m m' : Manager H}
  {growMtx growMtx' : Option T} {p p' : Point}

theorem sections_advance (h : advance P I env t m growMtx p = some (m', growMtx', p')) :
    p'.sections < p.sections := by
  cases p with
  | idle => cases h
  | allocate bytes again =>
    simp only [advance] at h
    split at h
    · cases h
      cases again <;> exact Nat.succ_pos _
    · cases again with
      | true =>
        cases h
        exact Nat.zero_lt_one
      | false =>
        cases h
        exact Nat.lt_succ_self 5
    · cases h
  | growLock g =>
    cases growMtx with
    | none =>
      cases h
      exact Nat.lt_succ_self _
    | some o =>
      cases g with
      | grow minBytes request => cases h
      | background =>
        cases h
        exact Nat.succ_pos _
  | growRead g =>
    simp only [advance] at h
    split at h
    · cases h
      rw [g.sections_done, Point.sections]
      omega
    · cases h
      exact Nat.lt_succ_self _
    · cases h
  | growExtend g newChunkSize currentFileSize =>
    simp only [advance] at h
    split at h
    · cases h
      exact Nat.lt_succ_self _
    · cases h
      exact Nat.succ_pos _
  | growPublish g newChunkSize currentFileSize =>
    cases g with
    | grow minBytes request =>
      simp only [advance] at h
      split at h
      · cases h
        rw [Grower.sections_done, Point.sections]
        exact Nat.lt_succ_self _
      · cases h
        exact Nat.succ_pos _
      · cases h
    | background =>
      simp only [advance] at h
      split at h
      · cases h
        exact Nat.succ_pos _
      · cases h
  | discover required =>
    simp only [advance] at h
    split at h
    · cases h
      exact Nat.zero_lt_one
    · cases h
      exact Nat.zero_lt_one
    · cases h

/-! ## 2. Who holds `grow_mtx_` -/

theorem lock_advance (h : advance P I env t m growMtx p = some (m', growMtx', p')) :
    LockMove growMtx growMtx' t p.holdsGrow p'.holdsGrow := by
  cases p with
  | idle => cases h
  | allocate bytes again =>
    simp only [advance] at h
    split at h
    · cases h
      exact .inl ⟨rfl, rfl⟩
    · split at h
      · cases h
        exact .inl ⟨rfl, rfl⟩
      · cases h
        exact .inl ⟨rfl, rfl⟩
    · cases h
  | growLock g =>
    cases growMtx with
    | none =>
      cases h
      exact .inr (.inl ⟨rfl, rfl, rfl⟩)
    | some o =>
      cases g with
      | grow minBytes request => cases h
      | background =>
        cases h
        exact .inl ⟨rfl, rfl⟩
  | growRead g =>
    simp only [advance] at h
    split at h
    · cases h
      exact .inr (.inr ⟨rfl, rfl, g.done_outside.1⟩)
    · cases h
      exact .inl ⟨rfl, rfl⟩
    · cases h
  | growExtend g newChunkSize currentFileSize =>
    simp only [advance] at h
    split at h
    · cases h
      exact .inl ⟨rfl, rfl⟩
    · cases h
      exact .inr (.inr ⟨rfl, rfl, rfl⟩)
  | growPublish g newChunkSize currentFileSize =>
    cases g with
    | grow minBytes request =>
      simp only [advance] at h
      split at h
      · cases h
        exact .inr (.inr ⟨rfl, rfl, (Grower.done_outside _).1⟩)
      · cases h
        exact .inr (.inr ⟨rfl, rfl, rfl⟩)
      · cases h
    | background =>
      simp only [advance] at h
      split at h
      · cases h
        exact .inr (.inr ⟨rfl, rfl, rfl⟩)
      · cases h
  | discover required =>
    simp only [advance] at h
    split at h
    · cases h
      exact .inl ⟨rfl, rfl⟩
    · cases h
      exact .inl ⟨rfl, rfl⟩
    · cases h

/-! ## 3. Who waits -/

/-- The chunk is mapped or it is not. -/
theorem publish_thrown_iff (P : Platform) (env : Env H) (hm : InStep (Constructed I) m)
    (newChunkSize currentFileSize : Word) :
    (Call.guarded (listMtx H) (publishChunk P I env newChunkSize currentFileSize)).run m =
        .thrown .runtimeError m ↔
      env.openShmChunk newChunkSize currentFileSize = none := by
  constructor
  · intro hthrown
    cases hmap : env.openShmChunk newChunkSize currentFileSize with
    | none => rfl
    | some mapping =>
      -- the list would be longer than it is
      have hends : m ∈ ((Call.guarded (listMtx H)
          (publishChunk P I env newChunkSize currentFileSize)).run m).state := by
        rw [hthrown]
        rfl
      obtain ⟨m₁, hbody, hm₁⟩ := Call.guarded_ends hends
      have hadd := addSegmentShm_maps (P := P) (I := I) (m := (listMtx H).setHeld true m) hmap true
      rw [publishChunk, Call.run_bind_value hadd, publishLastSegment, Call.run_read_bind] at hbody
      have hlonger : m₁.segments.length = m.segments.length + 1 := by
        split at hbody
        · cases hbody
          simp [withChunk]
        · cases hbody
          simp [withChunk]
      have hsame : m.segments = m₁.segments :=
        (congrArg Manager.segments hm₁).trans (listMtx_segments ..)
      rw [hsame] at hlonger
      omega
  · intro hmap
    exact Call.guarded_section_thrown hm.free hm.free
      (Call.run_bind_thrown (addSegmentShm_fails hmap true))

/-- The thread waits for another one that grows, or it ends the process. -/
def Waits (env : Env H) (growMtx : Option T) : Point → Prop
  | .growLock (.grow _ _) => growMtx.isSome = true
  | .growPublish .background newChunkSize currentFileSize =>
      env.openShmChunk newChunkSize currentFileSize = none
  | _ => False

theorem advance_eq_none_iff (hm : InStep (Constructed I) m) (henv : SizesMapped env)
    (hc : ∀ c ∈ p.carried, Carries m c.1 c.2) :
    advance P I env t m growMtx p = none ↔ p = .idle ∨ Waits env growMtx p := by
  cases p with
  | idle => exact iff_of_true rfl (.inl rfl)
  | allocate bytes again =>
    obtain ⟨q, m₁, hrun, -⟩ := hm.tryAllocate .allocate bytes
    simp only [advance, hrun]
    cases q with
    | some q => simp [Waits]
    | none =>
      simp only
      split <;> simp [Waits]
  | growLock g =>
    cases growMtx with
    | none => cases g <;> simp [advance, Waits]
    | some o => cases g <;> simp [advance, Waits]
  | growRead g =>
    obtain ⟨sizes, hrun, -⟩ := g.read_inStep (P := P) hm
    simp only [advance, hrun]
    cases sizes with
    | none => simp [Waits]
    | some c => simp [Waits]
  | growExtend g newChunkSize currentFileSize =>
    simp only [advance]
    split <;> simp [Waits]
  | growPublish g newChunkSize currentFileSize =>
    have hcarries := hc (newChunkSize, currentFileSize) rfl
    have hpublish := hm.publish (P := P) henv .create hcarries
    cases g with
    | grow minBytes request =>
      rcases hpublish with hrun | ⟨m₁, hrun, -⟩
      · simp [advance, hrun, Waits]
      · simp [advance, hrun, Waits]
    | background =>
      have hiff := publish_thrown_iff P env hm newChunkSize currentFileSize
      simp only [advance, publishChunkBackground_eq hcarries, Waits, reduceCtorEq, false_or]
      rw [← hiff]
      rcases hpublish with hrun | ⟨m₁, hrun, -⟩
      · simp [hrun]
      · simp [hrun]
  | discover required =>
    obtain ⟨found, hrun⟩ : ∃ found, (discoverGrowth P I env required).run m =
        .value found m := hm.discover required
    simp [advance, hrun, Waits]

/-- `grow_mtx_` is held exactly by the thread that is within a growth. -/
theorem ownedExactly_step [DecidableEq T] {s s' : State T H} {l : Label T H}
    (howner : OwnedExactly s.growMtx fun t => (s.point t).holdsGrow)
    (h : step P I s l = some s') :
    OwnedExactly s'.growMtx fun t => (s'.point t).holdsGrow := by
  cases l with
  | call t task =>
    simp only [step] at h
    split at h
    · rename_i hidle
      cases h
      apply howner.keep
      rw [hidle, task.entry_outside.1]
      rfl
    · cases h
  | run t env =>
    simp only [step, Option.map_eq_some_iff] at h
    obtain ⟨⟨m', growMtx', p'⟩, hadvance, rfl⟩ := h
    apply howner.move (o := t)
    · intro u hu
      simp only [Function.update_of_ne hu]
    · simp only [Function.update_self]
      exact lock_advance hadvance

end sections

/-! ## 4. Results -/

/-- The sections that `t` has run since its latest call. -/
def sectionsInCall [DecidableEq T] (t : T) (past : List (State T H × Label T H)) : Nat :=
  past.foldl (fun n q => match q.2 with
    | .call u _ => if u = t then 0 else n
    | .run u _ => if u = t then n + 1 else n) 0

section results

variable [DecidableEq T] {P : Platform} {I : InnerManager H N} {env : Env H}
  {s s' : State T H}

theorem sectionsInCall_concat (t : T) (past : List (State T H × Label T H)) (s : State T H)
    (l : Label T H) : sectionsInCall t (past ++ [(s, l)]) =
      match l with
      | .call u _ => if u = t then 0 else sectionsInCall t past
      | .run u _ => if u = t then sectionsInCall t past + 1 else sectionsInCall t past := by
  simp only [sectionsInCall, List.foldl_append, List.foldl_cons, List.foldl_nil]

/-- A section that a thread runs is one that it had left. -/
theorem sectionsInCall_step {past : List (State T H × Label T H)} {l : Label T H}
    (hleft : ∀ t, sectionsInCall t past + (s.point t).sections ≤ 6) (h : step P I s l = some s')
    (t : T) : sectionsInCall t (past ++ [(s, l)]) + (s'.point t).sections ≤ 6 := by
  have ht := hleft t
  rw [sectionsInCall_concat]
  cases l with
  | call u task =>
    simp only [step] at h
    split at h
    · cases h
      by_cases hu : u = t
      · subst hu
        simpa using task.sections_entry
      · simpa [hu, Function.update_of_ne (Ne.symm hu)] using ht
    · cases h
  | run u env =>
    simp only [step, Option.map_eq_some_iff] at h
    obtain ⟨⟨m', growMtx', p'⟩, hadvance, rfl⟩ := h
    by_cases hu : u = t
    · subst hu
      have hless := sections_advance hadvance
      simp only [if_true, Function.update_self]
      omega
    · simpa [hu, Function.update_of_ne (Ne.symm hu)] using ht

/-- What every state of a run satisfies, beside the invariant of the manager. -/
structure Progress (I : InnerManager H N) (s : State T H) (past : List (State T H × Label T H)) :
    Prop where
  inv : Inv I s
  owner : OwnedExactly s.growMtx fun t => (s.point t).holdsGrow
  left : ∀ t, sectionsInCall t past + (s.point t).sections ≤ 6

theorem progress_of_run {m : Manager H} {past : List (State T H × Label T H)}
    (hm : InStep (Constructed I) m)
    (hrun : Steps (logged (step P I) visited) (fun a l => OnPlatform a.1 l) (started m, [])
      (s, past)) : Progress I s past := by
  apply hrun.invariant (fun a => Progress I a.1 a.2)
  · refine ⟨inv_started hm, ?_, ?_⟩
    · intro t
      simp [started, Point.holdsGrow]
    · intro t
      simp [started, Point.sections, sectionsInCall]
  · intro a l b ha henv hstep
    obtain ⟨hs, hpast⟩ := logged_eq_some hstep
    refine ⟨inv_step ha.inv henv hs, ownedExactly_step ha.owner hs, ?_⟩
    intro t
    rw [hpast]
    exact sectionsInCall_step ha.left hs t

theorem step_run_eq_none_iff {t : T} (h : Inv I s) (henv : SizesMapped env) :
    step P I s (.run t env) = none ↔ s.point t = .idle ∨ Waits env s.growMtx (s.point t) := by
  rw [← advance_eq_none_iff (P := P) (t := t) h.manager henv (h.carries t)]
  simp only [step, Option.map_eq_none_iff]

/-- The owner of `grow_mtx_` is within its growth, and there it waits for nobody. -/
theorem Progress.owner_runs {past : List (State T H × Label T H)} {u : T}
    (h : Progress I s past) (henv : SizesMapped env) (hu : s.growMtx = some u) :
    (s.point u).holdsGrow = true ∧ s.point u ≠ .idle ∧
      ((step P I s (.run u env)).isSome = true ∨
        ∃ size offset, s.point u = .growPublish .background size offset ∧
          env.openShmChunk size offset = none) := by
  have hholds : (s.point u).holdsGrow = true := (h.owner u).mp hu
  have hidle : s.point u ≠ .idle := by
    intro hidle
    rw [hidle] at hholds
    cases hholds
  refine ⟨hholds, hidle, ?_⟩
  by_cases hnone : step P I s (.run u env) = none
  · right
    have hwaits := ((step_run_eq_none_iff h.inv henv).mp hnone).resolve_left hidle
    cases hp : s.point u with
    | growPublish g size offset =>
      rw [hp] at hwaits
      cases g with
      | background => exact ⟨size, offset, rfl, hwaits⟩
      | grow minBytes request => exact hwaits.elim
    | growLock g =>
      rw [hp] at hholds
      cases hholds
    | _ =>
      rw [hp] at hwaits
      exact hwaits.elim
  · left
    exact Option.isSome_iff_ne_none.mpr hnone

/-- No call on a SHM manager takes more than six sections. A thread inside of one cannot
    go on just when another thread is in a growth and it wants to grow itself, or when the
    mapping fails in `grow_background`, whose exception ends the process. So as long as any
    call is under way, one of those can go on, or ends the process. -/
theorem every_call_returns {table : SegmentTable} {registry : Word → Option Word}
    {initialSize : Word} {m : Manager H} {past : List (State T H × Label T H)}
    (henv : SizesMapped env)
    (hcreate : (constructCreator P I env initialSize).run (.empty false table registry) =
      .value () m)
    (hrun : Steps (logged (step P I) visited) (fun a l => OnPlatform a.1 l) (started m, [])
      (s, past)) :
    (∀ t, sectionsInCall t past ≤ 6) ∧
    (∀ (t : T) (env : Env H), SizesMapped env → (step P I s (.run t env) = none ↔
      s.point t = .idle ∨
      (∃ u minBytes request, u ≠ t ∧ s.point t = .growLock (.grow minBytes request) ∧
        s.growMtx = some u ∧ (s.point u).holdsGrow = true) ∨
      ∃ size offset, s.point t = .growPublish .background size offset ∧
        env.openShmChunk size offset = none)) ∧
    (∀ (t : T) (env : Env H), SizesMapped env → s.point t ≠ .idle →
      ∃ u, s.point u ≠ .idle ∧ ((step P I s (.run u env)).isSome = true ∨
        ∃ size offset, s.point u = .growPublish .background size offset ∧
          env.openShmChunk size offset = none)) := by
  have h : Progress I s past := progress_of_run (.created henv .create hcreate) hrun
  have hiff : ∀ (t : T) (env : Env H), SizesMapped env → (step P I s (.run t env) = none ↔
      s.point t = .idle ∨
      (∃ u minBytes request, u ≠ t ∧ s.point t = .growLock (.grow minBytes request) ∧
        s.growMtx = some u ∧ (s.point u).holdsGrow = true) ∨
      ∃ size offset, s.point t = .growPublish .background size offset ∧
        env.openShmChunk size offset = none) := by
    intro t env henv
    rw [step_run_eq_none_iff h.inv henv]
    apply or_congr_right
    cases hp : s.point t with
    | growLock g =>
      cases g with
      | background => simp [Waits]
      | grow minBytes request =>
        have howner : ∀ u, s.growMtx = some u → u ≠ t ∧ (s.point u).holdsGrow = true := by
          intro u hu
          have hholds : (s.point u).holdsGrow = true := (h.owner u).mp hu
          refine ⟨?_, hholds⟩
          rintro rfl
          rw [hp] at hholds
          cases hholds
        simp only [Waits, Option.isSome_iff_exists]
        constructor
        · rintro ⟨u, hu⟩
          exact .inl ⟨u, minBytes, request, (howner u hu).1, rfl, hu, (howner u hu).2⟩
        · rintro (⟨u, _, _, -, -, hu, -⟩ | ⟨_, _, hpublish, -⟩)
          · exact ⟨u, hu⟩
          · cases hpublish
    | growPublish g size offset => cases g <;> simp [Waits]
    | _ => simp [Waits]
  refine ⟨fun t => Nat.le_of_add_right_le (h.left t), hiff, ?_⟩
  intro t env henv hidle
  by_cases hnone : step P I s (.run t env) = none
  · rcases (hiff t env henv).mp hnone with hp | ⟨u, _, _, -, -, hu, -⟩ | hpublish
    · exact absurd hp hidle
    · exact ⟨u, (h.owner_runs henv hu).2⟩
    · exact ⟨t, hidle, .inr hpublish⟩
  · exact ⟨t, hidle, .inl (Option.isSome_iff_ne_none.mpr hnone)⟩

end results

/-- One thread is within its growth and another one waits for it. -/
theorem one_thread_waits : ∃ s : State Bool Arena, s.point false ≠ .idle ∧
    step fourKiBPages arena s (.run false boundedEnv) = none ∧
    ∃ u, s.point u ≠ .idle ∧ ((step fourKiBPages arena s (.run u boundedEnv)).isSome = true ∨
      ∃ size offset, s.point u = .growPublish .background size offset ∧
        boundedEnv.openShmChunk size offset = none) := by
  let run (t : Bool) : Label Bool Arena := .run t boundedEnv
  let schedule : List (Label Bool Arena) :=
    [.call true (.allocate 0x180000), run true, run true, .call false (.grow 0x400000)]
  let empty : Manager Arena := .empty false .blank fun _ => none
  have hcreate : ∃ m, (constructCreator fourKiBPages arena boundedEnv 0x100000).run empty =
      .value () m := ⟨_, rfl⟩
  obtain ⟨m, hm⟩ := hcreate
  have hex : ∃ a : State Bool Arena × List (State Bool Arena × Label Bool Arena),
      Steps (logged (step fourKiBPages arena) visited) (fun a l => OnPlatform a.1 l)
        (started m, []) a ∧
      (!decide (a.1.point false = .idle) &&
        (step fourKiBPages arena a.1 (.run false boundedEnv)).isNone) = true := by
    apply Steps.exists_of_replay_labels schedule
    · intro l hl a
      simp only [schedule, run, List.mem_cons, List.not_mem_nil, or_false] at hl
      rcases hl with rfl | rfl | rfl | rfl <;> first | exact boundedEnv_sizesMapped | trivial
    · cases hm
      decide +kernel
  obtain ⟨⟨s, past⟩, hrun, hpoint⟩ := hex
  simp only [Bool.and_eq_true, Bool.not_eq_true', decide_eq_false_iff_not,
    Option.isNone_iff_eq_none] at hpoint
  obtain ⟨-, -, hprogress⟩ := every_call_returns boundedEnv_sizesMapped hm hrun
  exact ⟨s, hpoint.1, hpoint.2, hprogress false boundedEnv boundedEnv_sizesMapped hpoint.1⟩

end Memnon.Threads
