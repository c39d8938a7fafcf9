import Memnon.PrefetchWorkerLifecycle
import Memnon.PrefetchWorkerUnregister
import Memnon.PrefetchWorkerHints
import Mathlib.Algebra.BigOperators.Group.Finset.Basic
import Mathlib.Algebra.Order.BigOperators.Group.Finset

/-!
# Every call on the worker returns

Once no further call begins, every step brings the system closer to its end. A call has a
bounded number of steps before it, and the worker goes once more round its loop only for
an entry of the queue, or for one that was pushed after it had looked. So there is an end,
and what waits there for somebody else waits for the worker to leave its loop: it has
missed the notification of a shutdown.
-/

namespace Memnon.PrefetchWorker

open Memnon.Lib

variable {T M : Type}

/-! ## 1. What is left to do -/

/-- The steps to the end of this round of `worker_loop`. -/
def WorkerPc.left : WorkerPc M → Nat
  | .lockQueue => 13
  | .pop => 12
  | .unlockQueue none => 11
  | .lockSleep | .woken => 10
  | .predLock => 9
  | .predEmpty => 8
  | .predUnlock _ => 7
  | .predStop _ => 6
  | .checkStop => 5
  | .setWorkingOn _ | .exitLock => 4
  | .unlockQueue (some _) | .exitEmpty => 3
  | .grow _ | .exitUnlock _ => 2
  | .clearWorkingOn _ | .unlockSleep _ | .block => 1
  | .absent | .blocked | .exited => 0

/-- Another round follows, as far as the worker knows or is about to see. -/
def WorkerPc.again (stop work : Bool) : WorkerPc M → Bool
  | .setWorkingOn _ | .unlockQueue (some _) | .grow _ | .clearWorkingOn _ => true
  | .unlockQueue none | .lockSleep | .woken | .predLock | .predEmpty => work
  | .predUnlock hasWork | .predStop hasWork => hasWork || work
  | .checkStop => !stop || work
  | .exitLock | .exitEmpty => work
  | .exitUnlock hasWork => hasWork
  | .unlockSleep leave => !leave
  | .lockQueue | .pop | .block | .absent | .blocked | .exited => false

/-- The steps that the worker can take before it sleeps or ends, at most. -/
def State.workerLeft (s : State T M) : Nat :=
  13 * s.queue.length + s.worker.left +
    if s.worker.again s.stop (!s.queue.isEmpty) then 13 else 0

/-- The steps of a call from a point on, at most. -/
def ThreadPc.left : ThreadPc M → Nat
  | .idle => 0
  | .regThrow _ | .regUnlock _ | .unregUnlock _ | .hintNotify _ => 1
  | .regSpawn _ | .unregJoin _ | .hintUnlockSleep _ => 2
  | .regStop _ | .unregJoinable _ | .hintLockSleep _ => 3
  | .regCount _ | .unregNotify _ | .hintUnlockQueue _ _ => 4
  | .regLock _ | .unregStop _ | .hintCheck _ => 5
  | .unregCount _ | .hintLockQueue _ => 6
  | .unregLock _ => 7
  | .unregSpin _ => 8
  | .unregUnlockQueue _ => 9
  | .unregRebuild _ => 10
  | .unregLockQueue _ => 11

section steps

variable {s s' : State T M} {t : T}

theorem workerStep_left (h : workerStep s = some s') : s'.workerLeft < s.workerLeft := by
  cases hw : s.worker with
  | unlockQueue mgr =>
    cases mgr <;> simp only [workerStep, hw, Option.some.injEq] at h <;> subst h <;>
      simp [State.workerLeft, hw, WorkerPc.left, WorkerPc.again]
  | pop =>
    simp only [workerStep, hw] at h
    split at h <;> cases h <;>
      simp_all [State.workerLeft, WorkerPc.left, WorkerPc.again]
    omega
  | predStop hasWork =>
    simp only [workerStep, hw, Option.some.injEq] at h
    subst h
    cases s.stop <;> cases hasWork <;> cases hq : s.queue.isEmpty <;>
      simp [State.workerLeft, hw, hq, WorkerPc.left, WorkerPc.again]
  | checkStop =>
    simp only [workerStep, hw, Option.some.injEq] at h
    subst h
    cases hstop : s.stop <;> cases hq : s.queue.isEmpty <;>
      simp [State.workerLeft, hw, hstop, hq, WorkerPc.left, WorkerPc.again]
  | predEmpty | exitEmpty =>
    simp only [workerStep, hw, Option.some.injEq] at h
    subst h
    cases hq : s.queue.isEmpty <;>
      simp [State.workerLeft, hw, hq, WorkerPc.left, WorkerPc.again]
  | exitUnlock hasWork =>
    simp only [workerStep, hw, Option.some.injEq] at h
    subst h
    cases hasWork <;> simp [State.workerLeft, hw, WorkerPc.left, WorkerPc.again]
  | unlockSleep leave =>
    simp only [workerStep, hw, Option.some.injEq] at h
    subst h
    cases leave <;> simp [State.workerLeft, hw, WorkerPc.left, WorkerPc.again]
  | _ =>
    simp only [workerStep, hw] at h
    (try split at h) <;> cases h <;>
      simp_all [State.workerLeft, WorkerPc.left, WorkerPc.again]

theorem workerLeft_le (h : 13 * s'.queue.length + s'.worker.left ≤
    13 * s.queue.length + s.worker.left + 13) : s'.workerLeft ≤ s.workerLeft + 26 := by
  simp only [State.workerLeft]
  split <;> omega

theorem notifyOne_left (w : WorkerPc M) : (notifyOne w).left ≤ w.left + 10 := by
  cases w <;> simp [notifyOne, WorkerPc.left]

variable [DecidableEq T] [DecidableEq M]

theorem threadStep_left (h : threadStep s t = some s') :
    13 * s'.queue.length + s'.worker.left ≤ 13 * s.queue.length + s.worker.left + 13 ∧
      (s'.pc t).left < (s.pc t).left := by
  cases hpc : s.pc t with
  | unregRebuild m =>
    simp only [threadStep, hpc, Option.some.injEq] at h
    subst h
    have hshorter := List.length_filter_le (· ≠ m) s.queue
    rw [← List.nil_append (s.queue.filter _), ← rebuildQueue_eq] at hshorter
    simp only [State.goto_queue, State.goto_worker, State.goto_pc, if_true, ThreadPc.left]
    omega
  | unregNotify m | hintNotify m =>
    simp only [threadStep, hpc, Option.some.injEq] at h
    subst h
    have hwoken := notifyOne_left s.worker
    simp only [State.goto_queue, State.goto_worker, State.goto_pc, if_true, ThreadPc.left]
    omega
  | regCount m | unregCount m | unregJoinable m =>
    simp only [threadStep, hpc, Option.some.injEq] at h
    subst h
    simp only [State.goto_queue, State.goto_worker, State.goto_pc, if_true]
    split <;> simp [ThreadPc.left]
  | hintUnlockQueue m pushed =>
    simp only [threadStep, hpc, Option.some.injEq] at h
    subst h
    cases pushed <;> simp [ThreadPc.left]
  | hintCheck m =>
    simp only [threadStep, hpc] at h
    split at h <;> cases h <;> simp [ThreadPc.left]
    omega
  | _ =>
    simp only [threadStep, hpc] at h
    (try split at h) <;> cases h <;> simp_all [WorkerPc.left, ThreadPc.left]

end steps

/-! ## 2. The measure -/

/-- A step within a call or of the worker. -/
def Label.inside : Label T M → Bool
  | .worker | .thread _ | .spawnFails _ => true
  | .spurious | .call _ _ _ => false

/-- No call begins, and nobody wakes without a reason. -/
def Inside (a : Life T M) (l : Label T M) : Prop := l.inside = true ∧ Balanced a l

/-- All that is left to do while no further call begins; `calls` are the threads that are
    inside one. -/
def State.left (calls : Finset T) (s : State T M) : Nat :=
  s.workerLeft + 27 * ∑ t ∈ calls, (s.pc t).left

/-- Every other thread is outside. -/
def Within (calls : Finset T) (s : State T M) : Prop := ∀ t, t ∉ calls → s.pc t = .idle

section measure

variable [DecidableEq T] [DecidableEq M] {s s' : State T M} {t : T} {l : Label T M}
  {calls : Finset T}

omit [DecidableEq M] in
/-- A thread that comes closer to the end of its call; it may give the worker one more
    round, by a push, by its start or by a notification. -/
theorem left_lt_of_thread (hcalls : Within calls s) (hothers : ∀ u, u ≠ t → s'.pc u = s.pc u)
    (hless : (s'.pc t).left < (s.pc t).left)
    (hworker : 13 * s'.queue.length + s'.worker.left ≤
      13 * s.queue.length + s.worker.left + 13) : s'.left calls < s.left calls := by
  have ht : t ∈ calls := by
    by_contra ht
    rw [hcalls t ht] at hless
    exact absurd hless (Nat.not_lt_zero _)
  have hrest : ∑ u ∈ calls.erase t, (s'.pc u).left = ∑ u ∈ calls.erase t, (s.pc u).left :=
    Finset.sum_congr rfl fun u hu => by rw [hothers u (Finset.ne_of_mem_erase hu)]
  have hbefore := Finset.add_sum_erase calls (fun u => (s.pc u).left) ht
  have hafter := Finset.add_sum_erase calls (fun u => (s'.pc u).left) ht
  rw [hrest] at hafter
  have hbound := workerLeft_le hworker
  simp only [State.left]
  omega

theorem step_left (hcalls : Within calls s) (hl : l.inside = true) (h : step s l = some s') :
    s'.left calls < s.left calls := by
  cases l with
  | worker =>
    have hpc : s'.pc = s.pc := (workerStep_locks h).1
    have hless := workerStep_left h
    simp only [State.left, hpc]
    omega
  | thread t =>
    obtain ⟨hworker, hless⟩ := threadStep_left h
    exact left_lt_of_thread hcalls (threadStep_locks h).1 hless hworker
  | spawnFails t =>
    obtain ⟨m, hpc, rfl⟩ := spawnFails_eq_some h
    refine left_lt_of_thread (t := t) hcalls (fun u hu => by rw [State.goto_pc, if_neg hu]) ?_
      (Nat.le_add_right _ _)
    rw [State.goto_pc, if_pos rfl, hpc]
    exact Nat.one_lt_two
  | spurious => cases hl
  | call t op m => cases hl

omit [DecidableEq M] in
theorem within_insert (h : Within calls s) (hpc : ∀ u, u ≠ t → s'.pc u = s.pc u) :
    Within (insert t calls) s' := by
  intro u hu
  rw [Finset.mem_insert, not_or] at hu
  exact (hpc u hu.1).trans (h u hu.2)

/-- Only finitely many threads have made a call. -/
theorem exists_within_step (h : ∃ calls, Within calls s) (hs : step s l = some s') :
    ∃ calls, Within calls s' := by
  obtain ⟨calls, hcalls⟩ := h
  cases l with
  | worker => exact ⟨calls, fun t ht => by rw [(workerStep_locks hs).1]; exact hcalls t ht⟩
  | spurious =>
    simp only [step] at hs
    split at hs
    · cases hs
      exact ⟨calls, hcalls⟩
    · cases hs
  | call t op m =>
    obtain ⟨-, rfl⟩ := callStep_eq_some hs
    exact ⟨insert t calls, within_insert hcalls fun u hu => by rw [State.goto_pc, if_neg hu]⟩
  | spawnFails t =>
    obtain ⟨m, -, rfl⟩ := spawnFails_eq_some hs
    exact ⟨insert t calls, within_insert hcalls fun u hu => by rw [State.goto_pc, if_neg hu]⟩
  | thread t => exact ⟨insert t calls, within_insert hcalls (threadStep_locks hs).1⟩

/-- No call begins by a step inside of one. -/
theorem within_step (hcalls : Within calls s) (hl : l.inside = true) (h : step s l = some s') :
    Within calls s' := by
  cases l with
  | worker => exact fun t ht => by rw [(workerStep_locks h).1]; exact hcalls t ht
  | thread t =>
    intro u hu
    have hut : u ≠ t := by
      rintro rfl
      simp [step, threadStep, hcalls u hu] at h
    exact ((threadStep_locks h).1 u hut).trans (hcalls u hu)
  | spawnFails t =>
    obtain ⟨m, hpc, rfl⟩ := spawnFails_eq_some h
    intro u hu
    have hut : u ≠ t := by
      rintro rfl
      rw [hcalls u hu] at hpc
      cases hpc
    rw [State.goto_pc, if_neg hut]
    exact hcalls u hu
  | spurious => cases hl
  | call t op m => cases hl

end measure

/-! ## 3. Who waits -/

section waiting

variable [DecidableEq T] [DecidableEq M] {a b : Life T M} {s s' : State T M} {t : T} {m : M}

omit [DecidableEq T] [DecidableEq M] in
/-- With a lock in its hands the worker goes on, unless it wants the spinlock as well. -/
theorem workerStep_holding (hholds : s.worker.holdsQueueLock = true ∨
    s.worker.holdsSleep = true ∧ s.queueLock = none) : workerStep s ≠ none := by
  cases hw : s.worker with
  | unlockQueue mgr => cases mgr <;> simp [workerStep, hw]
  | pop => cases hqueue : s.queue <;> simp [workerStep, hw, hqueue]
  | predLock | exitLock =>
    rw [hw] at hholds
    rcases hholds with hholds | ⟨-, hfree⟩
    · cases hholds
    · simp [workerStep, hw, hfree]
  | _ =>
    rw [hw] at hholds
    simp_all [workerStep, WorkerPc.holdsQueueLock, WorkerPc.holdsSleep]

/-- With the spinlock or `sleep_mtx_` in its hands a call goes on. -/
theorem threadStep_holding
    (hholds : (s.pc t).holdsQueueLock = true ∨ (s.pc t).holdsSleep = true) :
    threadStep s t ≠ none := by
  cases hpc : s.pc t with
  | hintCheck m => by_cases hback : s.queue.getLast? = some m <;> simp [threadStep, hpc, hback]
  | _ =>
    rw [hpc] at hholds
    simp_all [threadStep, ThreadPc.holdsQueueLock, ThreadPc.holdsSleep]

theorem LocksExact.queueLock_free (h : LocksExact s) (hworker : workerStep s = none)
    (hthread : ∀ t, threadStep s t = none) : s.queueLock = none := by
  rw [Option.eq_none_iff_forall_ne_some]
  intro o ho
  have hholds : s.holdsQueueLock o = true := (h.queue o).mp ho
  cases o with
  | worker => exact workerStep_holding (.inl hholds) hworker
  | thread t => exact threadStep_holding (.inl hholds) (hthread t)

theorem LocksExact.sleepMtx_free (h : LocksExact s) (hqueue : s.queueLock = none)
    (hworker : workerStep s = none) (hthread : ∀ t, threadStep s t = none) :
    s.sleepMtx = none := by
  rw [Option.eq_none_iff_forall_ne_some]
  intro o ho
  have hholds : s.holdsSleep o = true := (h.sleep o).mp ho
  cases o with
  | worker => exact workerStep_holding (.inr ⟨hholds, hqueue⟩) hworker
  | thread t => exact threadStep_holding (.inr hholds) (hthread t)

omit [DecidableEq T] [DecidableEq M] in
theorem worker_rests (hqueue : s.queueLock = none) (hsleep : s.sleepMtx = none)
    (hworker : workerStep s = none) :
    s.worker = .absent ∨ s.worker = .blocked ∨ s.worker = .exited := by
  simp only [workerStep] at hworker
  split at hworker <;> simp_all
  split at hworker <;> cases hworker

/-- A system that has come to rest with a call in it has lost the wake-up of a shutdown. -/
theorem LifeInv.lost_of_rest (h : LifeInv a) (hworker : workerStep a.state = none)
    (hthread : ∀ t, threadStep a.state t = none) (ht : a.state.pc t ≠ .idle) :
    LostWakeup a.state := by
  have hqueue := h.locks.queueLock_free hworker hthread
  have hsleep := h.locks.sleepMtx_free hqueue hworker hthread
  have hrests := worker_rests hqueue hsleep hworker
  have hidle : a.state.workingOn = none := by
    rw [Option.eq_none_iff_forall_ne_some]
    intro m hm
    have hworks := h.worksOn m hm
    rcases hrests with hw | hw | hw <;>
    · rw [hw] at hworks
      cases hworks
  -- the holder of `mtx_` waits for the worker to end
  have hjoins : ∀ u, (a.state.pc u).holdsMtx = true → LostWakeup a.state := by
    intro u hu
    obtain ⟨-, howner⟩ := h.locks.owner_eq hu
    have hphase := h.phase
    have hstuck := hthread u
    rw [howner] at hphase
    cases hpc : a.state.pc u with
    | regSpawn m =>
      rw [hpc] at hphase
      simp [threadStep, hpc, hphase.2.2.1] at hstuck
    | unregJoin m =>
      rw [hpc] at hphase
      obtain ⟨-, hne, hstop⟩ := hphase
      refine ⟨hstop, ?_, u, m, hpc⟩
      rcases hrests with hw | hw | hw
      · exact absurd hw hne
      · exact hw
      · simp [threadStep, hpc, hw] at hstuck
    | regCount m | regStop m | regThrow m | regUnlock m | unregCount m | unregStop m
    | unregNotify m | unregJoinable m | unregUnlock m => simp [threadStep, hpc] at hstuck
    | _ =>
      rw [hpc] at hu
      cases hu
  have hstuck := hthread t
  cases hpc : a.state.pc t with
  | regLock m | unregLock m =>
    cases hmtx : a.state.mtx with
    | none => simp [threadStep, hpc, hmtx] at hstuck
    | some u => exact hjoins u ((h.locks.mtx u).mp hmtx)
  | regSpawn m | unregJoin m => exact hjoins t (by rw [hpc]; rfl)
  | idle => exact absurd hpc ht
  | hintCheck m =>
    simp only [threadStep, hpc] at hstuck
    split at hstuck <;> cases hstuck
  | unregLockQueue m | hintLockQueue m => simp [threadStep, hpc, hqueue] at hstuck
  | unregSpin m => simp [threadStep, hpc, hidle] at hstuck
  | hintLockSleep m => simp [threadStep, hpc, hsleep] at hstuck
  | _ => simp [threadStep, hpc] at hstuck

end waiting

/-! ## 4. Results -/

/-- Nobody who is inside a call can go on, and neither can the worker. -/
def AtRest [DecidableEq T] [DecidableEq M] (a : Life T M) : Prop :=
  ∀ l, l.inside = true → lifeStep a l = none

section results

variable [DecidableEq T] [DecidableEq M] {a b : Life T M} {l : Label T M}

/-- What every state of a run satisfies. -/
structure Underway (a : Life T M) : Prop where
  life : LifeInv a
  hints : HintInv a.state

theorem underway_step (h : Underway a) (hbal : Balanced a l) (hs : lifeStep a l = some b) :
    Underway b := by
  obtain ⟨s', hs', hb⟩ := Option.map_eq_some_iff.mp hs
  refine ⟨lifeInv_step h.life hbal hs, ?_⟩
  rw [← hb, Life.next_state]
  exact hintInv_step h.hints hs'

theorem underway_of_steps (hrun : Steps lifeStep Balanced Life.initial a) :
    Underway a ∧ ∃ calls, Within calls a.state := by
  apply hrun.invariant (fun a => Underway a ∧ ∃ calls, Within calls a.state)
  · exact ⟨⟨lifeInv_initial, hintInv_initial⟩, ∅, fun t _ => rfl⟩
  · intro a l b ⟨h, hcalls⟩ hbal hs
    obtain ⟨s', hs', hb⟩ := Option.map_eq_some_iff.mp hs
    refine ⟨underway_step h hbal hs, ?_⟩
    rw [← hb, Life.next_state]
    exact exists_within_step hcalls hs'

/-- Where the system comes to rest, every call has returned and the queue is worked off,
    or the wake-up of a shutdown is lost. -/
theorem Underway.rest (h : Underway a) (hrest : AtRest a) :
    LostWakeup a.state ∨
      (∀ t, a.state.pc t = .idle) ∧
        (a.failed = 0 → 0 < a.registered → a.state.queue = []) := by
  have hworker : workerStep a.state = none := Option.map_eq_none_iff.mp (hrest .worker rfl)
  have hthread : ∀ t, threadStep a.state t = none := fun t =>
    Option.map_eq_none_iff.mp (hrest (.thread t) rfl)
  by_cases hidle : ∀ t, a.state.pc t = .idle
  · right
    refine ⟨hidle, fun hstarted hpos => ?_⟩
    have hqueue := h.life.locks.queueLock_free hworker hthread
    have hsleep := h.life.locks.sleepMtx_free hqueue hworker hthread
    obtain ⟨hloop, -⟩ := h.life.running hstarted hpos
    by_contra hwork
    rcases worker_rests hqueue hsleep hworker with hw | hw | hw
    · exact WorkerPc.running_ne_absent hloop hw
    · obtain ⟨t, ht⟩ := h.hints.asleep hw hwork
      rw [hidle t] at ht
      cases ht
    · rw [hw] at hloop
      cases hloop
  · left
    obtain ⟨t, ht⟩ := not_forall.mp hidle
    exact h.life.lost_of_rest hworker hthread ht

/-- From any state that can be reached, the steps of the worker and of the calls under way
    come to an end, whatever their order. Where none of them is left, every call has
    returned, and as long as a manager is registered and no start of the worker has failed
    every hint has been worked off; or else a shutdown has lost its wake-up. -/
theorem calls_return (hrun : Steps lifeStep Balanced Life.initial a) :
    ∃ n, ∀ b past, Steps (logged lifeStep visited) (fun a l => Inside a.1 l) (a, [])
        (b, past) →
      past.length ≤ n ∧ (AtRest b → LostWakeup b.state ∨
        (∀ t, b.state.pc t = .idle) ∧
          (b.failed = 0 → 0 < b.registered → b.state.queue = [])) := by
  obtain ⟨h, calls, hcalls⟩ := underway_of_steps hrun
  refine ⟨a.state.left calls, fun b past hon => ?_⟩
  have hend := Steps.length_visited (C := Inside) hon
    (fun a => Underway a ∧ Within calls a.state) (fun a => a.state.left calls) ⟨h, hcalls⟩ ?_ ?_
  · exact ⟨Nat.le_of_add_right_le hend.2, hend.1.1.rest⟩
  · intro a l b ⟨h, hcalls⟩ hl hs
    obtain ⟨s', hs', hb⟩ := Option.map_eq_some_iff.mp hs
    refine ⟨underway_step h hl.2 hs, ?_⟩
    rw [← hb, Life.next_state]
    exact within_step hcalls hl.1 hs'
  · intro a l b ⟨_, hcalls⟩ hl hs
    obtain ⟨s', hs', hb⟩ := Option.map_eq_some_iff.mp hs
    rw [← hb, Life.next_state]
    exact step_left hcalls hl.1 hs'

end results

/-- One thread hints while another one unregisters its manager. -/
theorem calls_return_two : ∃ a : Life Bool Bool,
    (a.state.pc true ≠ .idle ∧ a.state.pc false ≠ .idle) ∧
    ∃ n, ∀ b past, Steps (logged lifeStep visited) (fun a l => Inside a.1 l) (a, [])
        (b, past) →
      past.length ≤ n ∧ (AtRest b → LostWakeup b.state ∨
        (∀ t, b.state.pc t = .idle) ∧
          (b.failed = 0 → 0 < b.registered → b.state.queue = [])) := by
  let run (t : Bool) (n : Nat) : List (Label Bool Bool) := List.replicate n (.thread t)
  let schedule : List (Label Bool Bool) :=
    [.call true .register true] ++ run true 5 ++ [.call false .register false] ++ run false 3 ++
      [.call true .hint true] ++ run true 3 ++ [.call false .unregister false] ++ run false 4
  have hex : ∃ a : Life Bool Bool, Steps lifeStep Balanced Life.initial a ∧
      decide (a.state.pc true ≠ .idle ∧ a.state.pc false ≠ .idle) = true :=
    Steps.exists_of_replay schedule (by decide)
  obtain ⟨a, hrun, ha⟩ := hex
  exact ⟨a, of_decide_eq_true ha, calls_return hrun⟩

end Memnon.PrefetchWorker
