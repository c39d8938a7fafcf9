import Memnon.PrefetchWorker

/-!
# Stopping the prefetch worker

The last `unregister_manager` stores `stop_`, notifies and joins without ever
taking `sleep_mtx_`. A notification wakes only a thread that is already
blocked, so it is lost when it falls between the evaluation of the wait
predicate and the blocking of the worker. Outside that window nothing is lost:
from the notification on `stop_` stays true, because only a holder of `mtx_`
clears it, and a worker that sees `stop_` never blocks again.
-/

namespace Memnon.PrefetchWorker

open Memnon.Lib

variable {T M : Type}

/-! ## 1. The lost wake-up and the window -/

/-- The shutdown hangs: `stop_` is set, the unregistering thread is past its
    `notify_one` and waits in `join`, and the worker is blocked with no
    notification pending. -/
def LostWakeup (s : State T M) : Prop :=
  s.stop = true ∧ s.worker = .blocked ∧ ∃ t m, s.pc t = .unregJoin m

/-- The `notify_one` of `unregister_manager` does not fall between the worker's
    predicate check and its blocking. -/
def NotifiesOutsideWindow (s : State T M) : Label T M → Prop
  | .thread t =>
      match s.pc t with
      | .unregNotify _ => s.worker ≠ .block
      | _ => True
  | _ => True

instance [DecidableEq M] (s : State T M) (l : Label T M) :
    Decidable (NotifiesOutsideWindow s l) := by
  unfold NotifiesOutsideWindow
  split
  · split <;> infer_instance
  · infer_instance

def ThreadPc.pastStop : ThreadPc M → Bool
  | .unregNotify _ | .unregJoinable _ | .unregJoin _ => true
  | _ => false

def ThreadPc.pastNotify : ThreadPc M → Bool
  | .unregJoinable _ | .unregJoin _ => true
  | _ => false

/-- The worker is neither blocked nor committed to blocking. -/
def WorkerPc.awake : WorkerPc M → Bool
  | .block | .blocked => false
  | _ => true

theorem ThreadPc.holdsMtx_of_pastStop {p : ThreadPc M} (h : p.pastStop = true) :
    p.holdsMtx = true := by
  cases p <;> first | rfl | cases h

theorem ThreadPc.pastStop_of_pastNotify {p : ThreadPc M} (h : p.pastNotify = true) :
    p.pastStop = true := by
  cases p <;> first | rfl | cases h

theorem notifyOne_awake {w : WorkerPc M} (h : w ≠ .block) : (notifyOne w).awake = true := by
  cases w <;> first | rfl | exact absurd rfl h

/-! ## 2. What one step does to `stop_` and to the worker -/

theorem workerStep_stop {s s' : State T M} (h : workerStep s = some s') :
    s'.stop = s.stop ∧
      (s.stop = true → s.worker.awake = true → s'.worker.awake = true) := by
  cases hw : s.worker with
  | unlockQueue mgr =>
    cases mgr <;> simp only [workerStep, hw, Option.some.injEq] at h <;> subst h <;>
      exact ⟨rfl, fun _ _ => rfl⟩
  | predStop hasWork =>
    simp only [workerStep, hw, Option.some.injEq] at h
    subst h
    exact ⟨rfl, fun hstop _ => by simp [hstop, WorkerPc.awake]⟩
  | _ =>
    simp only [workerStep, hw] at h
    (try split at h) <;> cases h <;> simp_all [WorkerPc.awake]

variable [DecidableEq T] [DecidableEq M]

/-- `stop_` moves only under `mtx_`, it is true from its store to the join, and
    only the notification may leave the worker in the window. -/
theorem threadStep_stop {s s' : State T M} {t : T} (h : threadStep s t = some s') :
    (s'.stop = s.stop ∨ (s.pc t).holdsMtx = true) ∧
      ((s'.pc t).pastStop = true → s'.stop = true ∨
        (s'.stop = s.stop ∧ (s.pc t).pastStop = true)) ∧
      (s.worker.awake = true → s'.worker.awake = true) ∧
      ((s'.pc t).pastNotify = true → (s'.worker = s.worker ∧ (s.pc t).pastNotify = true) ∨
        (s'.worker = notifyOne s.worker ∧ ∃ m, s.pc t = .unregNotify m)) := by
  cases hpc : s.pc t with
  | unregNotify m | hintNotify m =>
    simp only [threadStep, hpc, Option.some.injEq] at h
    subst h
    simp only [State.goto_pc, if_true, State.goto_stop, State.goto_worker]
    refine ⟨.inl trivial, ?_, fun ha => notifyOne_awake ?_, ?_⟩
    · simp [ThreadPc.pastStop]
    · rintro hb
      simp [hb, WorkerPc.awake] at ha
    · simp [ThreadPc.pastNotify]
  | _ =>
    simp only [threadStep, hpc] at h
    (try split at h) <;> cases h <;>
      simp_all [ThreadPc.holdsMtx, ThreadPc.pastStop, ThreadPc.pastNotify, WorkerPc.awake]

omit [DecidableEq M] in
/-- A thread that only moves on, and not behind the store of `stop_`. -/
theorem goto_pastStop {s : State T M} {t u : T} {p : ThreadPc M} (hp : p.pastStop = false)
    (hu : ((s.goto t p).pc u).pastStop = true) : (s.pc u).pastStop = true := by
  rw [State.goto_pc] at hu
  split at hu
  · rw [hp] at hu
    cases hu
  · exact hu

omit [DecidableEq T] [DecidableEq M] in
theorem Op.entry_pastStop (op : Op) (m : M) : (op.entry m).pastStop = false := by
  cases op <;> rfl

/-! ## 3. The run invariant -/

/-- Once `unregister_manager` has stored `stop_` it stays true until the join
    is over; this holds in every run. -/
structure StopInv (s : State T M) : Prop where
  locks : LockInv s
  stopped : ∀ t, (s.pc t).pastStop = true → s.stop = true

omit [DecidableEq T] [DecidableEq M] in
theorem stopInv_initial : StopInv (State.initial : State T M) :=
  ⟨lockInv_initial, fun _ h => by cases h⟩

theorem stopInv_step {s s' : State T M} {l : Label T M} (hinv : StopInv s)
    (h : step s l = some s') : StopInv s' := by
  refine ⟨lockInv_step hinv.locks h, ?_⟩
  obtain ⟨hl, hstop⟩ := hinv
  cases l with
  | worker =>
    obtain ⟨hpc, -⟩ := workerStep_locks h
    intro t ht
    rw [hpc] at ht
    exact (workerStep_stop h).1.trans (hstop t ht)
  | spurious =>
    simp only [step] at h
    split at h
    · cases h
      exact hstop
    · cases h
  | call t op m =>
    obtain ⟨-, rfl⟩ := callStep_eq_some h
    exact fun u hu => hstop u (goto_pastStop (op.entry_pastStop m) hu)
  | spawnFails t =>
    obtain ⟨m, -, rfl⟩ := spawnFails_eq_some h
    exact fun u hu => hstop u (goto_pastStop rfl hu)
  | thread t =>
    obtain ⟨hpc, -⟩ := threadStep_locks h
    obtain ⟨hmove, hpast, -⟩ := threadStep_stop h
    intro u hu
    by_cases hut : u = t
    · subst hut
      rcases hpast hu with hs | ⟨hs, hu'⟩
      · exact hs
      · exact hs.trans (hstop u hu')
    · rw [hpc u hut] at hu
      rcases hmove with hs | hmtx
      · exact hs.trans (hstop u hu)
      · -- both `t` and `u` would hold `mtx_`
        exact absurd (hl.mtx.exclusive (ThreadPc.holdsMtx_of_pastStop hu) hmtx) hut

/-- Past the notification the worker is awake, if no notification fell into
    the window. -/
def AwakeInv (s : State T M) : Prop :=
  ∀ t, (s.pc t).pastNotify = true → s.worker.awake = true

omit [DecidableEq M] in
theorem AwakeInv.goto {s : State T M} {t : T} {p : ThreadPc M} (hawake : AwakeInv s)
    (hp : p.pastNotify = false) : AwakeInv (s.goto t p) := by
  intro u hu
  rw [State.goto_pc] at hu
  split at hu
  · rw [hp] at hu
    cases hu
  · exact hawake u hu

theorem awakeInv_step {s s' : State T M} {l : Label T M} (hinv : StopInv s)
    (hawake : AwakeInv s) (hC : NotifiesOutsideWindow s l) (h : step s l = some s') :
    AwakeInv s' := by
  cases l with
  | worker =>
    obtain ⟨hpc, -⟩ := workerStep_locks h
    intro u hu
    rw [hpc] at hu
    exact (workerStep_stop h).2 (hinv.stopped u (ThreadPc.pastStop_of_pastNotify hu))
      (hawake u hu)
  | spurious =>
    simp only [step] at h
    split at h
    · cases h
      exact fun _ _ => rfl
    · cases h
  | call t op m =>
    obtain ⟨-, rfl⟩ := callStep_eq_some h
    refine hawake.goto ?_
    cases op <;> rfl
  | spawnFails t =>
    obtain ⟨m, -, rfl⟩ := spawnFails_eq_some h
    exact hawake.goto rfl
  | thread t =>
    obtain ⟨hpc, -⟩ := threadStep_locks h
    obtain ⟨-, -, hkeep, hnotify⟩ := threadStep_stop h
    intro u hu
    by_cases hut : u = t
    · subst hut
      rcases hnotify hu with ⟨hw, hu'⟩ | ⟨hw, m, hm⟩
      · exact hw ▸ hawake u hu'
      · have hblock : s.worker ≠ .block := by simpa only [NotifiesOutsideWindow, hm] using hC
        exact hw ▸ notifyOne_awake hblock
    · rw [hpc u hut] at hu
      exact hkeep (hawake u hu)

/-! ## 4. Results -/

/-- A shutdown whose notification falls outside the window loses no wake-up,
    whatever else is interleaved with it. -/
theorem shutdown_wakes_worker {s : State T M}
    (hrun : Steps step NotifiesOutsideWindow State.initial s) : ¬ LostWakeup s := by
  have hstart : StopInv (State.initial : State T M) ∧ AwakeInv (State.initial : State T M) :=
    ⟨stopInv_initial, fun _ h => by cases h⟩
  have hinv : StopInv s ∧ AwakeInv s := by
    refine hrun.invariant (fun a => StopInv a ∧ AwakeInv a) hstart ?_
    intro a l b hab hC hs
    exact ⟨stopInv_step hab.1 hs, awakeInv_step hab.1 hab.2 hC hs⟩
  rintro ⟨-, hw, t, m, hpc⟩
  have ha := hinv.2 t (by rw [hpc]; rfl)
  simp [hw, WorkerPc.awake] at ha

/-- A manager destroyed while the worker is asleep. -/
theorem shutdown_wakes_worker_asleep :
    ∃ s : State Unit Unit, s.pc () = .unregJoin () ∧ s.stop = true ∧ ¬ LostWakeup s := by
  let schedule : List (Label Unit Unit) :=
    [.call () .register ()] ++ List.replicate 5 (.thread ()) ++ List.replicate 9 .worker ++
      [.call () .unregister ()] ++ List.replicate 9 (.thread ())
  have hex : ∃ s : State Unit Unit, Steps step NotifiesOutsideWindow State.initial s ∧
      decide (s.pc () = .unregJoin () ∧ s.stop = true) = true :=
    Steps.exists_of_replay schedule (by decide)
  obtain ⟨s, hrun, hs⟩ := hex
  obtain ⟨hpc, hstop⟩ := of_decide_eq_true hs
  exact ⟨s, hpc, hstop, shutdown_wakes_worker hrun⟩

/-- The window is real: a notification that falls into it, in any reachable
    state, lets the worker and the unregistering thread wait for each other. -/
theorem notify_in_window_hangs {s : State T M} (hrun : Steps step anyStep State.initial s)
    {t : T} {m : M} (hpc : s.pc t = .unregNotify m) (hw : s.worker = .block) :
    ∃ s', Steps step anyStep s s' ∧ LostWakeup s' := by
  have hinv : StopInv s :=
    hrun.invariant StopInv stopInv_initial fun _ _ _ hi _ hs => stopInv_step hi hs
  have hstop : s.stop = true := hinv.stopped t (by rw [hpc]; rfl)
  let s₁ : State T M := { s with worker := notifyOne s.worker }.goto t (.unregJoinable m)
  let s₂ : State T M := { s₁ with sleepMtx := none, worker := .blocked }
  have h₁ : step s (.thread t) = some s₁ := by simp only [step, threadStep, hpc, s₁]
  have h₂ : step s₁ .worker = some s₂ := by
    simp [step, workerStep, s₁, s₂, hw, notifyOne]
  have h₃ : step s₂ (.thread t) = some (s₂.goto t (.unregJoin m)) := by
    simp [step, threadStep, s₁, s₂]
  refine ⟨s₂.goto t (.unregJoin m), ?_, ?_, rfl, t, m, ?_⟩
  · exact .head trivial h₁ (.head trivial h₂ (.single trivial h₃))
  · simpa [s₁, s₂] using hstop
  · simp

/-- One manager, created and destroyed while the worker is about to sleep for
    the first time: the constructor and the destructor of a manager suffice. -/
theorem shutdown_can_hang :
    ¬ ∀ s : State Unit Unit, Steps step anyStep State.initial s → ¬ LostWakeup s := by
  intro hall
  let schedule : List (Label Unit Unit) :=
    [.call () .register ()] ++ List.replicate 5 (.thread ()) ++ List.replicate 8 .worker ++
      [.call () .unregister ()] ++ List.replicate 8 (.thread ()) ++ [.worker, .thread ()]
  have hex : ∃ s : State Unit Unit, Steps step anyStep State.initial s ∧
      decide (s.stop = true ∧ s.worker = .blocked ∧ s.pc () = .unregJoin ()) = true :=
    Steps.exists_of_replay schedule (by decide)
  obtain ⟨s, hrun, hs⟩ := hex
  obtain ⟨hstop, hw, hpc⟩ := of_decide_eq_true hs
  exact hall s hrun ⟨hstop, hw, (), (), hpc⟩

end Memnon.PrefetchWorker
