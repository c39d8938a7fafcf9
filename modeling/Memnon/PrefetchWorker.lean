import Memnon.Lib.TransitionSystem
import Memnon.Lib.Lock
import Mathlib.Data.List.Basic

/-!
# The prefetch worker

`prefetch_worker` is one background thread fed by a queue of managers. Its
three locks are kept apart here because the protocol rests on which of them
each party holds: the spinlock `queue_lock_` guards `queue_`, the mutex
`sleep_mtx_` belongs to the condition variable `cv_`, and `mtx_` guards
`active_managers_` and `thread_`.

Every party is a program counter, one value for each point between two shared
accesses of the source, so a run is an arbitrary interleaving of the worker,
of any number of threads inside `register_manager`, `unregister_manager` and
`hint_growth`, and of spurious wake-ups. Who has entered a call and still waits for
its first lock is inside it already. `std::thread` may fail to start; the exception
then leaves `register_manager` with the manager counted.
-/

namespace Memnon.PrefetchWorker

open Memnon.Lib

/-! ## 1. States -/

/-- Who holds `queue_lock_` or `sleep_mtx_`. -/
inductive Owner (T : Type) where
  | worker
  | thread (t : T)
deriving DecidableEq

/-- Where `worker_loop` stands. -/
inductive WorkerPc (M : Type) where
  | absent                               -- `thread_` is not joinable
  | lockQueue                            -- top of `while (true)`
  | pop                                  -- `queue_lock_` held
  | setWorkingOn (m : M)                 -- popped `m`, `queue_lock_` still held
  | unlockQueue (mgrToGrow : Option M)
  | grow (m : M)                         -- `mgr_to_grow->grow_background()`
  | clearWorkingOn (m : M)
  | lockSleep
  | predLock                             -- the predicate, under `sleep_mtx_`
  | predEmpty
  | predUnlock (hasWork : Bool)
  | predStop (hasWork : Bool)
  | block                                -- predicate false, not yet blocked
  | blocked                              -- in `cv_.wait`, no notification pending
  | woken                                -- notified, must take `sleep_mtx_` back
  | checkStop                            -- `cv_.wait` has returned
  | exitLock
  | exitEmpty
  | exitUnlock (hasWork : Bool)
  | unlockSleep (leave : Bool)           -- end of the scope of `slk`
  | exited
deriving DecidableEq

/-- Where a client thread stands in the call it is making. -/
inductive ThreadPc (M : Type) where
  | idle
  | regLock (m : M)                      -- `register_manager`
  | regCount (m : M)                     -- `mtx_` held from here on
  | regStop (m : M)
  | regSpawn (m : M)
  | regThrow (m : M)                     -- `std::thread` has thrown
  | regUnlock (m : M)
  | unregLockQueue (m : M)               -- `unregister_manager`
  | unregRebuild (m : M)                 -- `queue_lock_` held
  | unregUnlockQueue (m : M)
  | unregSpin (m : M)
  | unregLock (m : M)
  | unregCount (m : M)                   -- `mtx_` held from here on
  | unregStop (m : M)
  | unregNotify (m : M)
  | unregJoinable (m : M)
  | unregJoin (m : M)
  | unregUnlock (m : M)
  | hintLockQueue (m : M)                -- `hint_growth`
  | hintCheck (m : M)                    -- `queue_lock_` held
  | hintUnlockQueue (m : M) (pushed : Bool)
  | hintLockSleep (m : M)
  | hintUnlockSleep (m : M)
  | hintNotify (m : M)
deriving DecidableEq

structure State (T M : Type) where
  queue : List M
  queueLock : Option (Owner T)
  workingOn : Option M
  sleepMtx : Option (Owner T)
  mtx : Option T
  activeManagers : BitVec 64
  stop : Bool
  worker : WorkerPc M
  pc : T → ThreadPc M

variable {T M : Type}

/-- `prefetch_worker() = default`, with no client inside a call. -/
def State.initial : State T M where
  queue := []
  queueLock := none
  workingOn := none
  sleepMtx := none
  mtx := none
  activeManagers := 0
  stop := false
  worker := .absent
  pc := fun _ => .idle

/-! ## 2. The worker -/

/-- One step of `worker_loop`; `none` while it waits for a lock or is blocked. -/
def workerStep (s : State T M) : Option (State T M) :=
  match s.worker with
  | .absent | .blocked | .exited => none
  | .lockQueue =>
      if s.queueLock.isNone then
        some { s with queueLock := some .worker, worker := .pop }
      else none
  | .pop =>
      match s.queue with
      | [] => some { s with worker := .unlockQueue none }
      | m :: rest => some { s with queue := rest, worker := .setWorkingOn m }
  | .setWorkingOn m =>
      some { s with workingOn := some m, worker := .unlockQueue (some m) }
  | .unlockQueue (some m) => some { s with queueLock := none, worker := .grow m }
  | .unlockQueue none => some { s with queueLock := none, worker := .lockSleep }
  | .grow m => some { s with worker := .clearWorkingOn m }
  | .clearWorkingOn _ => some { s with workingOn := none, worker := .lockQueue }
  | .lockSleep | .woken =>
      if s.sleepMtx.isNone then
        some { s with sleepMtx := some .worker, worker := .predLock }
      else none
  | .predLock =>
      if s.queueLock.isNone then
        some { s with queueLock := some .worker, worker := .predEmpty }
      else none
  | .predEmpty => some { s with worker := .predUnlock (!s.queue.isEmpty) }
  | .predUnlock hasWork => some { s with queueLock := none, worker := .predStop hasWork }
  | .predStop hasWork =>
      some { s with worker := if s.stop || hasWork then .checkStop else .block }
  | .block => some { s with sleepMtx := none, worker := .blocked }
  | .checkStop =>
      some { s with worker := if s.stop then .exitLock else .unlockSleep false }
  | .exitLock =>
      if s.queueLock.isNone then
        some { s with queueLock := some .worker, worker := .exitEmpty }
      else none
  | .exitEmpty => some { s with worker := .exitUnlock (!s.queue.isEmpty) }
  | .exitUnlock hasWork =>
      some { s with queueLock := none, worker := .unlockSleep (!hasWork) }
  | .unlockSleep leave =>
      some { s with sleepMtx := none, worker := if leave then .exited else .lockQueue }

/-- `cv_.notify_one()`: only a thread already blocked is woken. -/
def notifyOne : WorkerPc M → WorkerPc M
  | .blocked => .woken
  | w => w

/-! ## 3. The clients -/

/-- The loop of `unregister_manager` that moves `queue_` into `new_q`. -/
def rebuildQueue [DecidableEq M] (mgr : M) : List M → List M → List M
  | [], newQ => newQ
  | m :: queue, newQ => rebuildQueue mgr queue (if m ≠ mgr then newQ ++ [m] else newQ)

variable [DecidableEq T]

def State.goto (s : State T M) (t : T) (p : ThreadPc M) : State T M :=
  { s with pc := Function.update s.pc t p }

section goto

variable (s : State T M) (t : T) (p : ThreadPc M)

@[simp, grind =] theorem State.goto_pc (u : T) :
    (s.goto t p).pc u = if u = t then p else s.pc u := by
  simp only [State.goto, Function.update_apply]

@[simp, grind =] theorem State.goto_queue : (s.goto t p).queue = s.queue := rfl
@[simp, grind =] theorem State.goto_queueLock : (s.goto t p).queueLock = s.queueLock := rfl
@[simp, grind =] theorem State.goto_workingOn : (s.goto t p).workingOn = s.workingOn := rfl
@[simp, grind =] theorem State.goto_sleepMtx : (s.goto t p).sleepMtx = s.sleepMtx := rfl
@[simp, grind =] theorem State.goto_mtx : (s.goto t p).mtx = s.mtx := rfl
@[simp, grind =] theorem State.goto_stop : (s.goto t p).stop = s.stop := rfl
@[simp, grind =] theorem State.goto_worker : (s.goto t p).worker = s.worker := rfl

end goto

variable [DecidableEq M]

/-- One step of thread `t` inside its call. Assigning to a joinable `thread_`
    ends the process, so that step is disabled. -/
def threadStep (s : State T M) (t : T) : Option (State T M) :=
  match s.pc t with
  | .idle => none
  | .regLock m =>
      if s.mtx.isNone then some ({ s with mtx := some t }.goto t (.regCount m)) else none
  | .regCount m =>
      some ({ s with activeManagers := s.activeManagers + 1 }.goto t
        (if s.activeManagers = 0 then .regStop m else .regUnlock m))
  | .regStop m => some ({ s with stop := false }.goto t (.regSpawn m))
  | .regSpawn m =>
      if s.worker = .absent then
        some ({ s with worker := .lockQueue }.goto t (.regUnlock m))
      else none
  | .regThrow _ | .regUnlock _ | .unregUnlock _ => some ({ s with mtx := none }.goto t .idle)
  | .unregLockQueue m =>
      if s.queueLock.isNone then
        some ({ s with queueLock := some (.thread t) }.goto t (.unregRebuild m))
      else none
  | .unregRebuild m =>
      some ({ s with queue := rebuildQueue m s.queue [] }.goto t (.unregUnlockQueue m))
  | .unregUnlockQueue m => some ({ s with queueLock := none }.goto t (.unregSpin m))
  | .unregSpin m =>
      if s.workingOn = some m then none else some (s.goto t (.unregLock m))
  | .unregLock m =>
      if s.mtx.isNone then some ({ s with mtx := some t }.goto t (.unregCount m)) else none
  | .unregCount m =>
      some ({ s with activeManagers := s.activeManagers - 1 }.goto t
        (if s.activeManagers - 1 = 0 then .unregStop m else .unregUnlock m))
  | .unregStop m => some ({ s with stop := true }.goto t (.unregNotify m))
  | .unregNotify m =>
      some ({ s with worker := notifyOne s.worker }.goto t (.unregJoinable m))
  | .unregJoinable m =>
      some (s.goto t (if s.worker = .absent then .unregUnlock m else .unregJoin m))
  | .unregJoin m =>
      if s.worker = .exited then
        some ({ s with worker := .absent }.goto t (.unregUnlock m))
      else none
  | .hintLockQueue m =>
      if s.queueLock.isNone then
        some ({ s with queueLock := some (.thread t) }.goto t (.hintCheck m))
      else none
  | .hintCheck m =>
      if s.queue.getLast? = some m then some (s.goto t (.hintUnlockQueue m false))
      else some ({ s with queue := s.queue ++ [m] }.goto t (.hintUnlockQueue m true))
  | .hintUnlockQueue m pushed =>
      some ({ s with queueLock := none }.goto t
        (if pushed then .hintLockSleep m else .idle))
  | .hintLockSleep m =>
      if s.sleepMtx.isNone then
        some ({ s with sleepMtx := some (.thread t) }.goto t (.hintUnlockSleep m))
      else none
  | .hintUnlockSleep m => some ({ s with sleepMtx := none }.goto t (.hintNotify m))
  | .hintNotify _ => some ({ s with worker := notifyOne s.worker }.goto t .idle)

inductive Op where
  | register
  | unregister
  | hint
deriving DecidableEq

/-- Where a call begins. -/
def Op.entry : Op → M → ThreadPc M
  | .register => .regLock
  | .unregister => .unregLockQueue
  | .hint => .hintLockQueue

/-- Thread `t` enters `op` on manager `m`. -/
def callStep (s : State T M) (t : T) (op : Op) (m : M) : Option (State T M) :=
  if s.pc t = .idle then some (s.goto t (op.entry m)) else none

/-- The constructor of `std::thread` throws in thread `t`. -/
def spawnFails (s : State T M) (t : T) : Option (State T M) :=
  match s.pc t with
  | .regSpawn m => some (s.goto t (.regThrow m))
  | _ => none

/-! ## 4. The system -/

inductive Label (T M : Type) where
  | worker
  | spurious                             -- `cv_.wait` wakes without a notification
  | call (t : T) (op : Op) (m : M)
  | thread (t : T)
  | spawnFails (t : T)
deriving DecidableEq

def step (s : State T M) : Label T M → Option (State T M)
  | .worker => workerStep s
  | .spurious => if s.worker = .blocked then some { s with worker := .woken } else none
  | .call t op m => callStep s t op m
  | .thread t => threadStep s t
  | .spawnFails t => spawnFails s t

/-! ## 5. Lock ownership -/

def ThreadPc.holdsMtx : ThreadPc M → Bool
  | .regCount _ | .regStop _ | .regSpawn _ | .regThrow _ | .regUnlock _ => true
  | .unregCount _ | .unregStop _ | .unregNotify _ => true
  | .unregJoinable _ | .unregJoin _ | .unregUnlock _ => true
  | _ => false

def ThreadPc.holdsQueueLock : ThreadPc M → Bool
  | .unregRebuild _ | .unregUnlockQueue _ | .hintCheck _ | .hintUnlockQueue _ _ => true
  | _ => false

def ThreadPc.holdsSleep : ThreadPc M → Bool
  | .hintUnlockSleep _ => true
  | _ => false

def WorkerPc.holdsQueueLock : WorkerPc M → Bool
  | .pop | .setWorkingOn _ | .unlockQueue _ | .predEmpty | .predUnlock _ => true
  | .exitEmpty | .exitUnlock _ => true
  | _ => false

def WorkerPc.holdsSleep : WorkerPc M → Bool
  | .predLock | .predEmpty | .predUnlock _ | .predStop _ | .block | .checkStop => true
  | .exitLock | .exitEmpty | .exitUnlock _ | .unlockSleep _ => true
  | _ => false

omit [DecidableEq T] [DecidableEq M] in
@[simp] theorem notifyOne_holdsQueueLock (w : WorkerPc M) :
    (notifyOne w).holdsQueueLock = w.holdsQueueLock := by
  cases w <;> rfl

omit [DecidableEq T] [DecidableEq M] in
@[simp] theorem notifyOne_holdsSleep (w : WorkerPc M) :
    (notifyOne w).holdsSleep = w.holdsSleep := by
  cases w <;> rfl

def State.holdsQueueLock (s : State T M) : Owner T → Bool
  | .worker => s.worker.holdsQueueLock
  | .thread t => (s.pc t).holdsQueueLock

def State.holdsSleep (s : State T M) : Owner T → Bool
  | .worker => s.worker.holdsSleep
  | .thread t => (s.pc t).holdsSleep

/-- Each lock is owned by whoever stands at a point where it is held. -/
structure LockInv (s : State T M) : Prop where
  mtx : Owned s.mtx fun t => (s.pc t).holdsMtx
  queue : Owned s.queueLock s.holdsQueueLock
  sleep : Owned s.sleepMtx s.holdsSleep

section locks

variable {s s' : State T M} {t : T}

omit [DecidableEq T] [DecidableEq M] in
theorem lockInv_initial : LockInv (State.initial : State T M) := by
  refine ⟨?_, ?_, ?_⟩
  · intro t ht
    cases ht
  · rintro (_ | t) ho <;> cases ho
  · rintro (_ | t) ho <;> cases ho

omit [DecidableEq T] [DecidableEq M] in
theorem workerStep_locks (h : workerStep s = some s') :
    s'.pc = s.pc ∧ s'.mtx = s.mtx ∧
      LockStep s.queueLock s'.queueLock .worker
        s.worker.holdsQueueLock s'.worker.holdsQueueLock ∧
      LockStep s.sleepMtx s'.sleepMtx .worker
        s.worker.holdsSleep s'.worker.holdsSleep := by
  cases hw : s.worker with
  | unlockQueue mgr =>
    cases mgr <;> simp only [workerStep, hw, Option.some.injEq] at h <;> subst h <;>
      simp [LockStep, WorkerPc.holdsQueueLock, WorkerPc.holdsSleep]
  | _ =>
    simp only [workerStep, hw] at h
    (try split at h) <;> cases h <;>
      simp_all [LockStep, WorkerPc.holdsQueueLock, WorkerPc.holdsSleep]

theorem threadStep_locks (h : threadStep s t = some s') :
    (∀ u, u ≠ t → s'.pc u = s.pc u) ∧
      s'.worker.holdsQueueLock = s.worker.holdsQueueLock ∧
      s'.worker.holdsSleep = s.worker.holdsSleep ∧
      LockStep s.mtx s'.mtx t (s.pc t).holdsMtx (s'.pc t).holdsMtx ∧
      LockStep s.queueLock s'.queueLock (.thread t)
        (s.pc t).holdsQueueLock (s'.pc t).holdsQueueLock ∧
      LockStep s.sleepMtx s'.sleepMtx (.thread t)
        (s.pc t).holdsSleep (s'.pc t).holdsSleep := by
  cases hpc : s.pc t with
  | _ =>
    simp only [threadStep, hpc] at h
    (try split at h) <;> cases h <;>
      simp_all [LockStep, ThreadPc.holdsMtx, ThreadPc.holdsQueueLock,
        ThreadPc.holdsSleep] <;>
      exact ⟨rfl, rfl⟩

omit [DecidableEq M] in
theorem Op.entry_holds (op : Op) (m : M) : (op.entry m).holdsMtx = false ∧
    (op.entry m).holdsQueueLock = false ∧ (op.entry m).holdsSleep = false := by
  cases op <;> exact ⟨rfl, rfl, rfl⟩

theorem callStep_eq_some {op : Op} {m : M} (h : callStep s t op m = some s') :
    s.pc t = .idle ∧ s' = s.goto t (op.entry m) := by
  unfold callStep at h
  split at h
  · cases h
    exact ⟨‹_›, rfl⟩
  · cases h

omit [DecidableEq M] in
theorem spawnFails_eq_some (h : spawnFails s t = some s') :
    ∃ m, s.pc t = .regSpawn m ∧ s' = s.goto t (.regThrow m) := by
  unfold spawnFails at h
  split at h
  · cases h
    exact ⟨_, ‹_›, rfl⟩
  · cases h

/-! A thread that only moves on, to a point with the same locks. -/

section moves

variable {p : ThreadPc M}

omit [DecidableEq M] in
theorem State.goto_holdsMtx (hmtx : p.holdsMtx = (s.pc t).holdsMtx) (u : T) :
    ((s.goto t p).pc u).holdsMtx = (s.pc u).holdsMtx := by
  rw [State.goto_pc]
  split
  · rename_i hut
    rw [hut, hmtx]
  · rfl

omit [DecidableEq M] in
theorem State.goto_holdsQueueLock (hqueue : p.holdsQueueLock = (s.pc t).holdsQueueLock) :
    (s.goto t p).holdsQueueLock = s.holdsQueueLock := by
  funext o
  cases o with
  | worker => rfl
  | thread u =>
    simp only [State.holdsQueueLock, State.goto_pc]
    split
    · rename_i hut
      rw [hut, hqueue]
    · rfl

omit [DecidableEq M] in
theorem State.goto_holdsSleep (hsleep : p.holdsSleep = (s.pc t).holdsSleep) :
    (s.goto t p).holdsSleep = s.holdsSleep := by
  funext o
  cases o with
  | worker => rfl
  | thread u =>
    simp only [State.holdsSleep, State.goto_pc]
    split
    · rename_i hut
      rw [hut, hsleep]
    · rfl

omit [DecidableEq M] in
theorem LockInv.goto (hinv : LockInv s) (hmtx : p.holdsMtx = (s.pc t).holdsMtx)
    (hqueue : p.holdsQueueLock = (s.pc t).holdsQueueLock)
    (hsleep : p.holdsSleep = (s.pc t).holdsSleep) : LockInv (s.goto t p) := by
  refine ⟨fun u hu => hinv.mtx u ?_, ?_, ?_⟩
  · exact (State.goto_holdsMtx hmtx u).symm.trans hu
  · rw [State.goto_holdsQueueLock hqueue]
    exact hinv.queue
  · rw [State.goto_holdsSleep hsleep]
    exact hinv.sleep

end moves

theorem lockInv_step {l : Label T M} (hinv : LockInv s) (h : step s l = some s') :
    LockInv s' := by
  cases l with
  | worker =>
    obtain ⟨hm, hq, hs⟩ := hinv
    obtain ⟨hpc, hmtx, hqueue, hsleep⟩ := workerStep_locks h
    refine ⟨by rw [hpc, hmtx]; exact hm, hq.step ?_ hqueue, hs.step ?_ hsleep⟩ <;>
    · rintro (_ | u) hne
      · exact absurd rfl hne
      · simp only [State.holdsQueueLock, State.holdsSleep, hpc]
  | spurious =>
    obtain ⟨hm, hq, hs⟩ := hinv
    simp only [step] at h
    split at h
    · rename_i hw
      cases h
      refine ⟨hm, ?_, ?_⟩
      · rintro (_ | u) ho
        · cases ho
        · exact hq (.thread u) ho
      · rintro (_ | u) ho
        · cases ho
        · exact hs (.thread u) ho
    · cases h
  | call t op m =>
    obtain ⟨hidle, rfl⟩ := callStep_eq_some h
    obtain ⟨hmtx, hqueue, hsleep⟩ := op.entry_holds m
    exact hinv.goto (by rw [hmtx, hidle]; rfl) (by rw [hqueue, hidle]; rfl)
      (by rw [hsleep, hidle]; rfl)
  | spawnFails t =>
    obtain ⟨m, hpc, rfl⟩ := spawnFails_eq_some h
    exact hinv.goto (by rw [hpc]; rfl) (by rw [hpc]; rfl) (by rw [hpc]; rfl)
  | thread t =>
    obtain ⟨hm, hq, hs⟩ := hinv
    obtain ⟨hpc, hwq, hws, hmtx, hqueue, hsleep⟩ := threadStep_locks h
    refine ⟨hm.step (fun u hu => by rw [hpc u hu]) hmtx, hq.step ?_ hqueue, hs.step ?_ hsleep⟩ <;>
    · rintro (_ | u) hne
      · first | exact hwq | exact hws
      · have hut : u ≠ t := fun hut => hne (hut ▸ rfl)
        simp only [State.holdsQueueLock, State.holdsSleep, hpc u hut]

end locks

end Memnon.PrefetchWorker
