import Memnon.PrefetchWorker

/-!
# Growth hints wake the worker

`hint_growth` pushes under `queue_lock_`, then locks and unlocks `sleep_mtx_`
and notifies. The worker evaluates its wait predicate and blocks under
`sleep_mtx_`, so a push that the predicate has not seen is followed by a
notification only once the worker is blocked. A hint that finds its manager at
the back of the queue pushes nothing: whoever pushed what is there notifies.
-/

namespace Memnon.PrefetchWorker

open Memnon.Lib

variable {T M : Type}

/-! ## 1. What must not be reached -/

/-- In `hint_growth`, behind a push and not behind its `notify_one`. -/
def ThreadPc.pushed : ThreadPc M → Bool
  | .hintUnlockQueue _ pushed => pushed
  | .hintLockSleep _ | .hintUnlockSleep _ | .hintNotify _ => true
  | _ => false

/-- Behind a push and not yet past `sleep_mtx_`. -/
def ThreadPc.beforeSleep : ThreadPc M → Bool
  | .hintUnlockQueue _ pushed => pushed
  | .hintLockSleep _ => true
  | _ => false

/-- There is work, the worker sleeps, and nobody is about to wake it. -/
def LostHint (s : State T M) : Prop :=
  s.queue ≠ [] ∧ s.worker = .blocked ∧ ∀ t, (s.pc t).pushed = false

/-- The predicate was false and the worker is about to block. -/
def WorkerPc.committed : WorkerPc M → Bool
  | .predStop hasWork => !hasWork
  | .block => true
  | _ => false

theorem ThreadPc.pushed_of_beforeSleep {p : ThreadPc M} (h : p.beforeSleep = true) :
    p.pushed = true := by
  cases p with
  | hintUnlockQueue m pushed => exact h
  | hintLockSleep m => rfl
  | _ => cases h

theorem WorkerPc.holdsSleep_of_committed {w : WorkerPc M} (h : w.committed = true) :
    w.holdsSleep = true := by
  cases w with
  | predStop hasWork => rfl
  | block => rfl
  | _ => cases h

/-! ## 2. What one step does to the queue and to the worker -/

/-- The worker comes to block only by way of a predicate that saw no work. -/
theorem workerStep_hints {s s' : State T M} (h : workerStep s = some s') :
    (s'.worker = .predUnlock false → s'.queue = []) ∧
      (s'.worker.committed = true → s'.queue = s.queue ∧
        (s.worker = .predUnlock false ∨ s.worker.committed = true)) ∧
      (s'.worker = .blocked → s'.queue = s.queue ∧ s.worker.committed = true) := by
  cases hw : s.worker with
  | unlockQueue mgr =>
    cases mgr <;> simp only [workerStep, hw, Option.some.injEq] at h <;> subst h <;>
      simp [WorkerPc.committed]
  | predUnlock hasWork =>
    simp only [workerStep, hw, Option.some.injEq] at h
    subst h
    cases hasWork <;> simp [WorkerPc.committed]
  | predStop hasWork =>
    simp only [workerStep, hw, Option.some.injEq] at h
    subst h
    cases hasWork <;> cases s.stop <;> simp [WorkerPc.committed]
  | _ =>
    simp only [workerStep, hw] at h
    (try split at h) <;> cases h <;> simp_all [WorkerPc.committed]

variable [DecidableEq T] [DecidableEq M]

omit [DecidableEq T] in
theorem rebuildQueue_nil (mgr : M) (queue : List M) {newQ : List M}
    (h : rebuildQueue mgr queue newQ ≠ []) : queue ≠ [] ∨ newQ ≠ [] := by
  cases queue with
  | nil => exact .inr h
  | cons m queue => exact .inl (List.cons_ne_nil _ _)

/-- A thread changes the queue under its lock, and fills an empty one only by a
    push. It gets past `sleep_mtx_` only when that is free, and past the
    notification only when the worker is not left blocked. -/
theorem threadStep_hints {s s' : State T M} {t : T} (h : threadStep s t = some s') :
    (s'.queue = s.queue ∨ (s.pc t).holdsQueueLock = true) ∧
      (s'.queue ≠ [] → s.queue ≠ [] ∨ (s'.pc t).beforeSleep = true) ∧
      ((s.pc t).beforeSleep = true → (s'.pc t).beforeSleep = true ∨ s.sleepMtx = none) ∧
      ((s.pc t).pushed = true → (s'.pc t).pushed = true ∨ s'.worker ≠ .blocked) ∧
      (s'.worker = .predUnlock false → s'.worker = s.worker) ∧
      (s'.worker.committed = true → s'.worker = s.worker) ∧
      (s'.worker = .blocked → s'.worker = s.worker) := by
  cases hpc : s.pc t with
  | unregRebuild m =>
    simp only [threadStep, hpc, Option.some.injEq] at h
    subst h
    have hnil : rebuildQueue m s.queue [] ≠ [] → s.queue ≠ [] := fun hne =>
      (rebuildQueue_nil m s.queue hne).resolve_right fun h => h rfl
    simp [ThreadPc.holdsQueueLock, ThreadPc.beforeSleep, ThreadPc.pushed]
    exact hnil
  | unregNotify m | hintNotify m =>
    simp only [threadStep, hpc, Option.some.injEq] at h
    subst h
    cases hw : s.worker <;>
      simp_all [notifyOne, ThreadPc.beforeSleep, ThreadPc.pushed, WorkerPc.committed]
  | _ =>
    simp only [threadStep, hpc] at h
    (try split at h) <;> cases h <;>
      simp_all [ThreadPc.holdsQueueLock, ThreadPc.beforeSleep, ThreadPc.pushed,
        WorkerPc.committed]

/-! ## 3. The run invariant -/

/-- What is in the queue while the worker is on its way to sleep has been pushed
    by a thread that still has to take `sleep_mtx_`, and while it sleeps by one
    that still has to notify. -/
structure HintInv (s : State T M) : Prop where
  locks : LockInv s
  seen : s.worker = .predUnlock false → s.queue = []
  window : s.worker.committed = true → s.queue ≠ [] → ∃ t, (s.pc t).beforeSleep = true
  asleep : s.worker = .blocked → s.queue ≠ [] → ∃ t, (s.pc t).pushed = true

omit [DecidableEq T] [DecidableEq M] in
theorem hintInv_initial : HintInv (State.initial : State T M) :=
  ⟨lockInv_initial, fun _ => rfl, nofun, nofun⟩

theorem HintInv.worker {s s' : State T M} (hinv : HintInv s) (h : workerStep s = some s') :
    HintInv s' := by
  have hlocks : LockInv s' := lockInv_step hinv.locks (l := .worker) h
  obtain ⟨hpc, -⟩ := workerStep_locks h
  obtain ⟨hseen, hcommitted, hblocked⟩ := workerStep_hints h
  constructor
  · exact hlocks
  · exact hseen
  · intro hw hne
    obtain ⟨hqueue, hunlock | hwindow⟩ := hcommitted hw
    · exact absurd (hqueue.trans (hinv.seen hunlock)) hne
    · rw [hpc]
      exact hinv.window hwindow (hqueue ▸ hne)
  · intro hw hne
    obtain ⟨hqueue, hwindow⟩ := hblocked hw
    obtain ⟨t, ht⟩ := hinv.window hwindow (hqueue ▸ hne)
    exact ⟨t, hpc ▸ ThreadPc.pushed_of_beforeSleep ht⟩

omit [DecidableEq M] in
/-- A thread that only moves on, from outside the part behind a push. -/
theorem HintInv.goto {s : State T M} {t : T} {p : ThreadPc M} (hinv : HintInv s)
    (hlocks : LockInv (s.goto t p)) (hpushed : (s.pc t).pushed = false) :
    HintInv (s.goto t p) := by
  have hother : ∀ {u}, (s.pc u).pushed = true → (s.goto t p).pc u = s.pc u := by
    intro u hu
    have hut : u ≠ t := by
      rintro rfl
      rw [hpushed] at hu
      cases hu
    rw [State.goto_pc, if_neg hut]
  refine ⟨hlocks, hinv.seen, fun hw hne => ?_, fun hw hne => ?_⟩
  · obtain ⟨u, hu⟩ := hinv.window hw hne
    exact ⟨u, by rwa [hother (ThreadPc.pushed_of_beforeSleep hu)]⟩
  · obtain ⟨u, hu⟩ := hinv.asleep hw hne
    exact ⟨u, by rwa [hother hu]⟩

theorem HintInv.thread {s s' : State T M} {t : T} (hinv : HintInv s)
    (h : threadStep s t = some s') : HintInv s' := by
  have hlocks : LockInv s' := lockInv_step hinv.locks (l := .thread t) h
  obtain ⟨hpc, -⟩ := threadStep_locks h
  obtain ⟨hqueue, hpush, hsleep, hnotify, hunlock, hcommitted, hblocked⟩ := threadStep_hints h
  constructor
  · exact hlocks
  · intro hw
    have hold : s.worker = .predUnlock false := hunlock hw ▸ hw
    rcases hqueue with hsame | hlock
    · exact hsame.trans (hinv.seen hold)
    · -- both the worker and `t` would hold `queue_lock_`
      have hworker : s.holdsQueueLock .worker = true := by
        rw [State.holdsQueueLock, hold]
        rfl
      cases hinv.locks.queue.exclusive (o := .worker) (p := .thread t) hworker hlock
  · intro hw hne
    have hold : s.worker.committed = true := hcommitted hw ▸ hw
    rcases hpush hne with hne | ht
    · obtain ⟨u, hu⟩ := hinv.window hold hne
      by_cases hut : u = t
      · subst hut
        -- `sleep_mtx_` is the worker's
        have howner := hinv.locks.sleep .worker (WorkerPc.holdsSleep_of_committed hold)
        rcases hsleep hu with hu' | hfree
        · exact ⟨u, hu'⟩
        · rw [hfree] at howner
          cases howner
      · exact ⟨u, by rw [hpc u hut]; exact hu⟩
    · exact ⟨t, ht⟩
  · intro hw hne
    rcases hpush hne with hne | ht
    · obtain ⟨u, hu⟩ := hinv.asleep (hblocked hw ▸ hw) hne
      by_cases hut : u = t
      · subst hut
        exact ⟨u, (hnotify hu).resolve_right fun hawake => hawake hw⟩
      · exact ⟨u, by rw [hpc u hut]; exact hu⟩
    · exact ⟨t, ThreadPc.pushed_of_beforeSleep ht⟩

theorem hintInv_step {s s' : State T M} {l : Label T M} (hinv : HintInv s)
    (h : step s l = some s') : HintInv s' := by
  cases l with
  | worker => exact hinv.worker h
  | call t op m =>
    have hlocks : LockInv s' := lockInv_step hinv.locks h
    obtain ⟨hidle, rfl⟩ := callStep_eq_some h
    exact hinv.goto hlocks (by rw [hidle]; rfl)
  | spawnFails t =>
    have hlocks : LockInv s' := lockInv_step hinv.locks h
    obtain ⟨m, hpc, rfl⟩ := spawnFails_eq_some h
    exact hinv.goto hlocks (by rw [hpc]; rfl)
  | thread t => exact hinv.thread h
  | spurious =>
    have hlocks : LockInv s' := lockInv_step hinv.locks h
    simp only [step] at h
    split at h
    · cases h
      constructor
      · exact hlocks
      · intro hw
        cases hw
      · intro hw
        cases hw
      · intro hw
        cases hw
    · cases h

/-! ## 4. Result -/

/-- In no reachable state is there work in the queue while the worker sleeps
    without a notification and no `hint_growth` is between its push and its
    `notify_one`; whether `stop_` is ever set does not matter. -/
theorem hints_wake_worker {s : State T M} (hrun : Steps step anyStep State.initial s) :
    ¬ LostHint s := by
  have hinv : HintInv s :=
    hrun.invariant HintInv hintInv_initial fun _ _ _ hi _ hs => hintInv_step hi hs
  rintro ⟨hqueue, hw, hnone⟩
  obtain ⟨t, ht⟩ := hinv.asleep hw hqueue
  rw [hnone t] at ht
  cases ht

/-- A hint to a worker that has gone to sleep, up to its `notify_one`. -/
theorem hints_wake_worker_asleep : ∃ s : State Unit Unit,
    s.queue = [()] ∧ s.worker = .blocked ∧ s.pc () = .hintNotify () ∧ ¬ LostHint s := by
  let schedule : List (Label Unit Unit) :=
    [.call () .register ()] ++ List.replicate 5 (.thread ()) ++ List.replicate 9 .worker ++
      [.call () .hint ()] ++ List.replicate 5 (.thread ())
  have hex : ∃ s : State Unit Unit, Steps step anyStep State.initial s ∧
      decide (s.queue = [()] ∧ s.worker = .blocked ∧ s.pc () = .hintNotify ()) = true :=
    Steps.exists_of_replay schedule (by decide)
  obtain ⟨s, hrun, hs⟩ := hex
  obtain ⟨hqueue, hw, hpc⟩ := of_decide_eq_true hs
  exact ⟨s, hqueue, hw, hpc, hints_wake_worker hrun⟩

end Memnon.PrefetchWorker
