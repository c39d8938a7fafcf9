import Memnon.PrefetchWorkerTermination

/-!
# The end of the process

The destructor of the prefetch worker stops the thread as `unregister_manager` does, but it
locks and unlocks `sleep_mtx_` between its store of `stop_` and its notification. Whoever
has the mutex then is past the predicate or has not evaluated it, so the notification finds
the worker blocked or awake, never on its way to sleep. No call is under way when the
process ends; managers that are never destroyed may still be registered.
-/

namespace Memnon.PrefetchWorker

open Memnon.Lib

variable {T M : Type}

/-! ## 1. The destructor -/

/-- Where `~prefetch_worker` stands. -/
inductive DestructorPc where
  | joinable                             -- `if (thread_.joinable())`
  | stop
  | lockSleep
  | unlockSleep                          -- `sleep_mtx_` held
  | notify
  | join
  | done
deriving DecidableEq

/-- The process while thread `t` runs the destructor. -/
structure Teardown (T M : Type) where
  state : State T M
  pc : DestructorPc

def destructorStep [DecidableEq M] (t : T) (a : Teardown T M) : Option (Teardown T M) :=
  match a with
  | ⟨s, .joinable⟩ => some ⟨s, if s.worker = .absent then .done else .stop⟩
  | ⟨s, .stop⟩ => some ⟨{ s with stop := true }, .lockSleep⟩
  | ⟨s, .lockSleep⟩ =>
      if s.sleepMtx.isNone then
        some ⟨{ s with sleepMtx := some (.thread t) }, .unlockSleep⟩
      else none
  | ⟨s, .unlockSleep⟩ => some ⟨{ s with sleepMtx := none }, .notify⟩
  | ⟨s, .notify⟩ => some ⟨{ s with worker := notifyOne s.worker }, .join⟩
  | ⟨s, .join⟩ =>
      if s.worker = .exited then some ⟨{ s with worker := .absent }, .done⟩ else none
  | ⟨_, .done⟩ => none

inductive TeardownLabel where
  | worker
  | spurious
  | destructor
deriving DecidableEq

/-- The worker and the destructor are all that still runs. -/
def teardownStep [DecidableEq M] (t : T) (a : Teardown T M) :
    TeardownLabel → Option (Teardown T M)
  | .worker => (workerStep a.state).map fun s => { a with state := s }
  | .spurious =>
      if a.state.worker = .blocked then
        some { a with state := { a.state with worker := .woken } }
      else none
  | .destructor => destructorStep t a

/-! ## 2. The invariant -/

/-- The worker has decided to leave its loop, or has left it. -/
def WorkerPc.gone : WorkerPc M → Bool
  | .exitUnlock hasWork => !hasWork
  | .unlockSleep leave => leave
  | .exited | .absent => true
  | _ => false

/-- What the destructor knows of the worker where it stands. -/
def Stands (s : State T M) : DestructorPc → Prop
  | .joinable => True
  | .stop => s.worker ≠ .absent
  | .lockSleep => s.worker ≠ .absent ∧ s.stop = true
  | .unlockSleep | .notify => s.worker ≠ .absent ∧ s.stop = true ∧ s.worker ≠ .block
  | .join => s.worker ≠ .absent ∧ s.stop = true ∧ s.worker.awake = true
  | .done => s.worker = .absent

section invariant

variable [DecidableEq T]

/-- Whether a party stands at a point where it has `sleep_mtx_`. -/
def Teardown.holdsSleep (t : T) (a : Teardown T M) : Owner T → Bool
  | .worker => a.state.worker.holdsSleep
  | .thread u => decide (u = t ∧ a.pc = .unlockSleep)

/-- `started` tells whether there was a worker at the beginning. -/
structure TeardownInv (t : T) (started : Prop) (a : Teardown T M) : Prop where
  outside : ∀ u, a.state.pc u = .idle
  queue : OwnedExactly a.state.queueLock a.state.holdsQueueLock
  sleep : OwnedExactly a.state.sleepMtx (a.holdsSleep t)
  stands : Stands a.state a.pc
  emptied : started → a.state.worker.gone = true → a.state.queue = []

variable {s s' : State T M} {a b : Teardown T M} {t : T} {started : Prop} {p : DestructorPc}

omit [DecidableEq T] in
/-- The worker leaves its loop only with an empty queue. -/
theorem workerStep_gone (h : workerStep s = some s') (hgone : s'.worker.gone = true) :
    s'.queue = s.queue ∧ (s.worker.gone = true ∨ s.queue = []) := by
  cases hw : s.worker with
  | unlockQueue mgr =>
    cases mgr <;> simp only [workerStep, hw, Option.some.injEq] at h <;> subst h <;> cases hgone
  | predStop hasWork | checkStop =>
    simp only [workerStep, hw, Option.some.injEq] at h
    subst h
    simp only at hgone
    split at hgone <;> cases hgone
  | unlockSleep leave =>
    simp only [workerStep, hw, Option.some.injEq] at h
    subst h
    cases leave with
    | true => exact ⟨rfl, .inl rfl⟩
    | false => cases hgone
  | _ =>
    simp only [workerStep, hw] at h
    (try split at h) <;> cases h <;> simp_all [WorkerPc.gone]

omit [DecidableEq T] in
/-- With `stop_` set the worker does not go to sleep any more. -/
theorem workerStep_stands (h : workerStep s = some s') (hstands : Stands s p) : Stands s' p := by
  obtain ⟨-, hstop, habsent, -⟩ := sameLife_workerStep h
  obtain ⟨-, hawake⟩ := workerStep_stop h
  have hworker : s.worker ≠ .absent → s'.worker ≠ .absent := fun hne hw => hne (habsent.mp hw)
  cases p with
  | joinable => trivial
  | stop => exact hworker hstands
  | lockSleep => exact ⟨hworker hstands.1, hstop.trans hstands.2⟩
  | unlockSleep | notify =>
    obtain ⟨hne, hset, hblock⟩ := hstands
    refine ⟨hworker hne, hstop.trans hset, fun hw => ?_⟩
    have hbefore : s.worker.awake = true := by
      cases hs : s.worker with
      | block => exact absurd hs hblock
      | blocked =>
        simp only [workerStep, hs] at h
        cases h
      | _ => rfl
    have hafter := hawake hset hbefore
    rw [hw] at hafter
    cases hafter
  | join => exact ⟨hworker hstands.1, hstop.trans hstands.2.1, hawake hstands.2.1 hstands.2.2⟩
  | done => exact habsent.mpr hstands

theorem TeardownInv.worker (h : TeardownInv t started a) (hs : workerStep a.state = some s') :
    TeardownInv t started { a with state := s' } := by
  obtain ⟨hpc, -⟩ := workerStep_locks hs
  obtain ⟨hq, hsleep⟩ := workerStep_moves hs
  refine ⟨fun u => by rw [hpc]; exact h.outside u, h.queue.move (o := .worker) (fun o ho => ?_) hq,
    h.sleep.move (o := .worker) (fun o ho => ?_) hsleep, workerStep_stands hs h.stands,
    fun hstart hgone => ?_⟩
  · cases o with
    | worker => exact absurd rfl ho
    | thread u => simp only [State.holdsQueueLock, hpc]
  · cases o with
    | worker => exact absurd rfl ho
    | thread u => rfl
  · obtain ⟨hqueue, hbefore | hempty⟩ := workerStep_gone hs hgone
    · exact hqueue.trans (h.emptied hstart hbefore)
    · exact hqueue.trans hempty

/-- A step of the destructor, with what it leaves alone. -/
theorem TeardownInv.destructor (h : TeardownInv t started a) {sleepMtx : Option (Owner T)}
    {stop : Bool} {w : WorkerPc M}
    (hlocks : w.holdsQueueLock = a.state.worker.holdsQueueLock ∧
      w.holdsSleep = a.state.worker.holdsSleep)
    (hsleep : LockMove a.state.sleepMtx sleepMtx (.thread t) (decide (a.pc = .unlockSleep))
      (decide (p = .unlockSleep)))
    (hstands : Stands { a.state with sleepMtx := sleepMtx, stop := stop, worker := w } p)
    (hgone : w.gone = true → a.state.worker.gone = true) :
    TeardownInv t started
      ⟨{ a.state with sleepMtx := sleepMtx, stop := stop, worker := w }, p⟩ := by
  refine ⟨h.outside, fun o => (h.queue o).trans ?_, h.sleep.move (o := .thread t) ?_ ?_, hstands,
    fun hstart hw => h.emptied hstart (hgone hw)⟩
  · cases o with
    | worker => simp only [State.holdsQueueLock, hlocks.1]
    | thread u => rfl
  · intro o ho
    cases o with
    | worker => exact hlocks.2
    | thread u =>
      have hu : u ≠ t := fun hu => ho (congrArg _ hu)
      simp [Teardown.holdsSleep, hu]
  · simpa [Teardown.holdsSleep] using hsleep

variable [DecidableEq M] {l : TeardownLabel}

omit [DecidableEq T] [DecidableEq M] in
theorem notifyOne_gone {w : WorkerPc M} (h : (notifyOne w).gone = true) : w.gone = true := by
  cases w with
  | blocked => cases h
  | _ => exact h

theorem TeardownInv.destroy (h : TeardownInv t started a)
    (hs : destructorStep t a = some b) : TeardownInv t started b := by
  have hstands := h.stands
  obtain ⟨s, p⟩ := a
  cases p with
  | joinable =>
    cases hs
    refine h.destructor ⟨rfl, rfl⟩ (.inl ⟨rfl, ?_⟩) ?_ id
    · split <;> rfl
    · split
      · assumption
      · assumption
  | stop =>
    cases hs
    exact h.destructor ⟨rfl, rfl⟩ (.inl ⟨rfl, rfl⟩) ⟨hstands, rfl⟩ id
  | lockSleep =>
    simp only [destructorStep] at hs
    split at hs
    · rename_i hfree
      cases hs
      have hnone : s.sleepMtx = none := Option.isNone_iff_eq_none.mp hfree
      refine h.destructor ⟨rfl, rfl⟩ (.inr (.inl ⟨hnone, rfl, rfl⟩)) ?_ id
      refine ⟨hstands.1, hstands.2, fun hw => ?_⟩
      -- on its way to sleep the worker would have the mutex
      have hheld : s.sleepMtx = some .worker :=
        (h.sleep .worker).mpr (by simp only [Teardown.holdsSleep]; rw [hw]; rfl)
      rw [hnone] at hheld
      cases hheld
    · cases hs
  | unlockSleep =>
    cases hs
    exact h.destructor ⟨rfl, rfl⟩ (.inr (.inr ⟨rfl, rfl, rfl⟩)) hstands id
  | notify =>
    cases hs
    obtain ⟨hne, hstop, hblock⟩ := hstands
    refine h.destructor ⟨notifyOne_holdsQueueLock _, notifyOne_holdsSleep _⟩ (.inl ⟨rfl, rfl⟩) ?_
      notifyOne_gone
    exact ⟨fun hw => hne (notifyOne_absent.mp hw), hstop, notifyOne_awake hblock⟩
  | join =>
    simp only [destructorStep] at hs
    split at hs
    · rename_i hw
      cases hs
      refine h.destructor ?_ (.inl ⟨rfl, rfl⟩) rfl fun _ => ?_
      · simp only [hw]
        exact ⟨rfl, rfl⟩
      · simp only [hw]
        rfl
    · cases hs
  | done => cases hs

theorem teardownInv_step (h : TeardownInv t started a) (hs : teardownStep t a l = some b) :
    TeardownInv t started b := by
  cases l with
  | worker =>
    obtain ⟨s', hs', rfl⟩ := Option.map_eq_some_iff.mp hs
    exact h.worker hs'
  | spurious =>
    simp only [teardownStep] at hs
    split at hs
    · rename_i hw
      cases hs
      refine h.destructor ?_ (.inl ⟨rfl, rfl⟩) ?_ nofun
      · simp only [hw]
        exact ⟨rfl, rfl⟩
      · have hstands := h.stands
        cases hp : a.pc with
        | joinable => trivial
        | stop => nofun
        | lockSleep =>
          rw [hp] at hstands
          exact ⟨nofun, hstands.2⟩
        | unlockSleep | notify =>
          rw [hp] at hstands
          exact ⟨nofun, hstands.2.1, nofun⟩
        | join =>
          rw [hp] at hstands
          exact ⟨nofun, hstands.2.1, rfl⟩
        | done =>
          rw [hp] at hstands
          exact absurd (hw.symm.trans hstands) nofun
    · cases hs
  | destructor => exact h.destroy hs

/-! ## 3. The end -/

def DestructorPc.left : DestructorPc → Nat
  | .joinable => 6
  | .stop => 5
  | .lockSleep => 4
  | .unlockSleep => 3
  | .notify => 2
  | .join => 1
  | .done => 0

def Teardown.left (a : Teardown T M) : Nat := a.state.workerLeft + 27 * a.pc.left

/-- Nobody wakes without a reason. -/
def Awaited (_ : Teardown T M) (l : TeardownLabel) : Prop := l ≠ .spurious

omit [DecidableEq T] [DecidableEq M] in
/-- What a step of the destructor may give the worker to do. -/
theorem left_lt (hworker : 13 * s'.queue.length + s'.worker.left ≤
      13 * s.queue.length + s.worker.left + 13) {q : DestructorPc} (hless : q.left < p.left) :
    Teardown.left ⟨s', q⟩ < Teardown.left ⟨s, p⟩ := by
  have hbound := workerLeft_le hworker
  simp only [Teardown.left]
  omega

omit [DecidableEq T] in
theorem destructorStep_left (hs : destructorStep t a = some b) : b.left < a.left := by
  obtain ⟨s, p⟩ := a
  cases p with
  | joinable =>
    cases hs
    refine left_lt (s := s) (Nat.le_add_right _ _) ?_
    split <;> simp [DestructorPc.left]
  | stop | unlockSleep =>
    cases hs
    refine left_lt (s := s) ?_ (Nat.lt_succ_self _)
    exact Nat.le_add_right _ _
  | lockSleep =>
    simp only [destructorStep] at hs
    split at hs
    · cases hs
      refine left_lt (s := s) ?_ (Nat.lt_succ_self _)
      exact Nat.le_add_right _ _
    · cases hs
  | notify =>
    cases hs
    have hwoken := notifyOne_left s.worker
    refine left_lt ?_ (Nat.lt_succ_self _)
    simp only
    omega
  | join =>
    simp only [destructorStep] at hs
    split at hs
    · cases hs
      refine left_lt ?_ Nat.one_pos
      simp only [WorkerPc.left]
      omega
    · cases hs
  | done => cases hs

omit [DecidableEq T] in
theorem teardownStep_left (hl : Awaited a l) (hs : teardownStep t a l = some b) :
    b.left < a.left := by
  cases l with
  | worker =>
    obtain ⟨s', hs', rfl⟩ := Option.map_eq_some_iff.mp hs
    have hless := workerStep_left hs'
    simp only [Teardown.left]
    omega
  | spurious => exact absurd rfl hl
  | destructor => exact destructorStep_left hs

/-- Where neither the worker nor the destructor can go on, the destructor is over. -/
theorem TeardownInv.rest (h : TeardownInv t started a)
    (hworker : workerStep a.state = none) (hdestructor : destructorStep t a = none) :
    a.pc = .done ∧ a.state.worker = .absent ∧ (started → a.state.queue = []) := by
  have hqueue : a.state.queueLock = none := by
    rw [Option.eq_none_iff_forall_ne_some]
    intro o ho
    have hholds := (h.queue o).mp ho
    cases o with
    | worker => exact workerStep_holding (.inl hholds) hworker
    | thread u =>
      simp only [State.holdsQueueLock, h.outside u] at hholds
      cases hholds
  have hsleep : a.pc ≠ .unlockSleep → a.state.sleepMtx = none := by
    intro hp
    rw [Option.eq_none_iff_forall_ne_some]
    intro o ho
    have hholds := (h.sleep o).mp ho
    cases o with
    | worker => exact workerStep_holding (.inr ⟨hholds, hqueue⟩) hworker
    | thread u => exact hp (of_decide_eq_true hholds).2
  have hstands := h.stands
  have hemptied := h.emptied
  obtain ⟨s, p⟩ := a
  cases p with
  | joinable | stop | unlockSleep | notify => cases hdestructor
  | lockSleep =>
    have hfree : s.sleepMtx = none := hsleep fun hp => by cases hp
    simp [destructorStep, hfree] at hdestructor
  | join =>
    obtain ⟨hne, -, hawake⟩ := hstands
    rcases worker_rests hqueue (hsleep fun hp => by cases hp) hworker with hw | hw | hw
    · exact absurd hw hne
    · simp only at hw hawake
      rw [hw] at hawake
      cases hawake
    · simp only at hw
      simp [destructorStep, hw] at hdestructor
  | done =>
    refine ⟨rfl, hstands, fun hstart => hemptied hstart ?_⟩
    simp only [Stands] at hstands
    rw [hstands]
    rfl

end invariant

/-! ## 4. Result -/

section result

variable [DecidableEq T] [DecidableEq M] {a : Life T M} {b : Teardown T M} {t : T}

theorem teardownInv_start (h : LifeInv a) (hidle : ∀ u, a.state.pc u = .idle) :
    TeardownInv t (a.failed = 0 ∧ 0 < a.registered) ⟨a.state, .joinable⟩ := by
  refine ⟨hidle, h.locks.queue, fun o => (h.locks.sleep o).trans ?_, trivial,
    fun hstarted hgone => ?_⟩
  · cases o with
    | worker => rfl
    | thread u => simp [State.holdsSleep, Teardown.holdsSleep, hidle u, ThreadPc.holdsSleep]
  · obtain ⟨hrun, -⟩ := h.running hstarted.1 hstarted.2
    cases hw : a.state.worker with
    | exitUnlock hasWork =>
      rw [hw] at hrun
      cases hrun
    | unlockSleep leave =>
      simp only [hw] at hrun hgone
      cases leave with
      | true => cases hrun
      | false => cases hgone
    | absent | exited =>
      rw [hw] at hrun
      cases hrun
    | _ =>
      simp only [hw] at hgone
      cases hgone

/-- The destructor may run in any state in which no call is under way, also with managers
    that are still registered. It never waits for a worker that sleeps. From every state that
    it comes to, together with the worker, in any order of their steps, these come to an end,
    and then the worker is joined; if managers were registered and no start of the worker
    had failed, the hints that were in the queue have been worked off. -/
theorem destructor_joins_worker (hrun : Steps lifeStep Balanced Life.initial a)
    (hidle : ∀ u, a.state.pc u = .idle)
    (hdown : Steps (teardownStep t) anyStep ⟨a.state, .joinable⟩ b) :
    (b.pc = .join → b.state.worker ≠ .blocked) ∧
      ∀ c past, Steps (logged (teardownStep t) visited) (fun a l => Awaited a.1 l) (b, [])
          (c, past) →
        past.length ≤ b.left ∧
          ((∀ l, Awaited c l → teardownStep t c l = none) →
            c.pc = .done ∧ c.state.worker = .absent ∧
              (a.failed = 0 ∧ 0 < a.registered → c.state.queue = [])) := by
  have hinv : TeardownInv t (a.failed = 0 ∧ 0 < a.registered) b :=
    hdown.invariant _ (teardownInv_start (lifeInv_of_steps hrun) hidle)
      fun _ _ _ h _ hs => teardownInv_step h hs
  constructor
  · intro hp hw
    have hstands := hinv.stands
    rw [hp] at hstands
    obtain ⟨-, -, hawake⟩ := hstands
    rw [hw] at hawake
    cases hawake
  · intro c past hon
    obtain ⟨hc, hlength⟩ := Steps.length_visited (C := Awaited) hon
      (TeardownInv t (a.failed = 0 ∧ 0 < a.registered)) Teardown.left hinv
      (fun _ _ _ h _ hs => teardownInv_step h hs) fun _ _ _ _ hl hs => teardownStep_left hl hs
    refine ⟨Nat.le_of_add_right_le hlength, fun hrest => ?_⟩
    have hworker : (workerStep c.state).map _ = none := hrest .worker nofun
    exact hc.rest (Option.map_eq_none_iff.mp hworker) (hrest .destructor nofun)

end result

/-- A manager is still registered, and its hint has just woken the worker. -/
theorem destructor_joins_worker_registered : ∃ b : Teardown Unit Unit,
    b.pc = .join ∧ b.state.queue = [()] ∧ b.state.worker ≠ .blocked := by
  let run (n : Nat) : List (Label Unit Unit) := List.replicate n (.thread ())
  let hinted : List (Label Unit Unit) :=
    [.call () .register ()] ++ run 5 ++ List.replicate 9 .worker ++ [.call () .hint ()] ++ run 6
  let a : Life Unit Unit :=
    (replay (restrict lifeStep Balanced) Life.initial hinted).getD Life.initial
  let b : Teardown Unit Unit :=
    (replay (restrict (teardownStep ()) anyStep) ⟨a.state, .joinable⟩
      (List.replicate 5 .destructor)).getD ⟨a.state, .joinable⟩
  have hidle : ∀ u, a.state.pc u = .idle := by decide
  have hjoin : b.pc = .join := by decide
  have hrun : Steps lifeStep Balanced Life.initial a := Steps.of_schedule (by decide)
  have hdown : Steps (teardownStep ()) anyStep ⟨a.state, .joinable⟩ b :=
    Steps.of_schedule (by decide)
  obtain ⟨hawake, -⟩ := destructor_joins_worker hrun hidle hdown
  exact ⟨b, hjoin, by decide, hawake hjoin⟩

end Memnon.PrefetchWorker
