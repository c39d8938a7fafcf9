import Memnon.PrefetchWorkerShutdown
import Mathlib.Algebra.GroupWithZero.Nat
import Mathlib.Data.Finset.Card

/-!
# The life of the worker thread

Managers register when they are constructed and unregister when they are destroyed. The
first one starts the worker and the last one joins it, both under `mtx_`. So `thread_` is
never assigned while it is joinable, and there is a worker just when managers are
registered, unless it could not be started: then the manager that failed stays counted,
and none is ever started again. The only way for all of them to wait for each other is
the wake-up that a shutdown loses.
-/

namespace Memnon.PrefetchWorker

open Memnon.Lib

variable {T M : Type}

/-! ## 1. Who holds which lock -/

/-- Each lock is held just at the points where it is. -/
structure LocksExact (s : State T M) : Prop where
  mtx : OwnedExactly s.mtx fun t => (s.pc t).holdsMtx
  queue : OwnedExactly s.queueLock s.holdsQueueLock
  sleep : OwnedExactly s.sleepMtx s.holdsSleep

theorem locksExact_initial : LocksExact (State.initial : State T M) := by
  refine ⟨fun t => ?_, fun o => ?_, fun o => ?_⟩
  · simp [State.initial, ThreadPc.holdsMtx]
  · cases o <;> simp [State.initial, State.holdsQueueLock, WorkerPc.holdsQueueLock,
      ThreadPc.holdsQueueLock]
  · cases o <;> simp [State.initial, State.holdsSleep, WorkerPc.holdsSleep, ThreadPc.holdsSleep]

section locks

variable {s s' : State T M} {t : T} {op : Op} {m : M}

theorem workerStep_moves (h : workerStep s = some s') :
    LockMove s.queueLock s'.queueLock .worker
        s.worker.holdsQueueLock s'.worker.holdsQueueLock ∧
      LockMove s.sleepMtx s'.sleepMtx .worker s.worker.holdsSleep s'.worker.holdsSleep := by
  cases hw : s.worker with
  | unlockQueue mgr =>
    cases mgr <;> simp only [workerStep, hw, Option.some.injEq] at h <;> subst h <;>
      simp [LockMove, WorkerPc.holdsQueueLock, WorkerPc.holdsSleep]
  | predStop hasWork =>
    simp only [workerStep, hw, Option.some.injEq] at h
    subst h
    cases s.stop || hasWork <;> simp [LockMove, WorkerPc.holdsQueueLock, WorkerPc.holdsSleep]
  | checkStop =>
    simp only [workerStep, hw, Option.some.injEq] at h
    subst h
    cases s.stop <;> simp [LockMove, WorkerPc.holdsQueueLock, WorkerPc.holdsSleep]
  | unlockSleep leave =>
    simp only [workerStep, hw, Option.some.injEq] at h
    subst h
    cases leave <;> simp [LockMove, WorkerPc.holdsQueueLock, WorkerPc.holdsSleep]
  | _ =>
    simp only [workerStep, hw] at h
    (try split at h) <;> cases h <;>
      simp_all [LockMove, WorkerPc.holdsQueueLock, WorkerPc.holdsSleep]

variable [DecidableEq T] [DecidableEq M]

theorem threadStep_moves (h : threadStep s t = some s') :
    LockMove s.mtx s'.mtx t (s.pc t).holdsMtx (s'.pc t).holdsMtx ∧
      LockMove s.queueLock s'.queueLock (.thread t)
        (s.pc t).holdsQueueLock (s'.pc t).holdsQueueLock ∧
      LockMove s.sleepMtx s'.sleepMtx (.thread t)
        (s.pc t).holdsSleep (s'.pc t).holdsSleep := by
  cases hpc : s.pc t with
  | regCount m | unregCount m | unregJoinable m =>
    simp only [threadStep, hpc, Option.some.injEq] at h
    subst h
    simp only [State.goto_pc, if_true, LockMove, State.goto_mtx, State.goto_queueLock,
      State.goto_sleepMtx]
    split <;> simp [ThreadPc.holdsMtx, ThreadPc.holdsQueueLock, ThreadPc.holdsSleep]
  | hintUnlockQueue m pushed =>
    simp only [threadStep, hpc, Option.some.injEq] at h
    subst h
    cases pushed <;>
      simp [LockMove, ThreadPc.holdsMtx, ThreadPc.holdsQueueLock, ThreadPc.holdsSleep]
  | _ =>
    simp only [threadStep, hpc] at h
    (try split at h) <;> cases h <;>
      simp_all [LockMove, ThreadPc.holdsMtx, ThreadPc.holdsQueueLock, ThreadPc.holdsSleep]

omit [DecidableEq M] in
theorem LocksExact.goto {p : ThreadPc M} (hinv : LocksExact s)
    (hmtx : p.holdsMtx = (s.pc t).holdsMtx) (hqueue : p.holdsQueueLock = (s.pc t).holdsQueueLock)
    (hsleep : p.holdsSleep = (s.pc t).holdsSleep) : LocksExact (s.goto t p) := by
  refine ⟨fun u => ?_, ?_, ?_⟩
  · show s.mtx = some u ↔ ((s.goto t p).pc u).holdsMtx = true
    rw [State.goto_holdsMtx hmtx]
    exact hinv.mtx u
  · rw [State.goto_holdsQueueLock hqueue]
    exact hinv.queue
  · rw [State.goto_holdsSleep hsleep]
    exact hinv.sleep

omit [DecidableEq T] [DecidableEq M] in
/-- A thread that moves among others, none of which does, and leaves the worker at its
    locks. -/
theorem LocksExact.thread (hinv : LocksExact s) (hpc : ∀ u, u ≠ t → s'.pc u = s.pc u)
    (hqueue : s'.worker.holdsQueueLock = s.worker.holdsQueueLock)
    (hsleep : s'.worker.holdsSleep = s.worker.holdsSleep)
    (hmoves : LockMove s.mtx s'.mtx t (s.pc t).holdsMtx (s'.pc t).holdsMtx ∧
      LockMove s.queueLock s'.queueLock (.thread t)
        (s.pc t).holdsQueueLock (s'.pc t).holdsQueueLock ∧
      LockMove s.sleepMtx s'.sleepMtx (.thread t)
        (s.pc t).holdsSleep (s'.pc t).holdsSleep) : LocksExact s' := by
  obtain ⟨hm, hq, hs⟩ := hmoves
  refine ⟨hinv.mtx.move (fun u hu => by rw [hpc u hu]) hm,
    hinv.queue.move (o := .thread t) (fun o ho => ?_) hq,
    hinv.sleep.move (o := .thread t) (fun o ho => ?_) hs⟩
  · cases o with
    | worker => exact hqueue
    | thread u =>
      have hu : u ≠ t := fun hu => ho (congrArg _ hu)
      simp only [State.holdsQueueLock, hpc u hu]
  · cases o with
    | worker => exact hsleep
    | thread u =>
      have hu : u ≠ t := fun hu => ho (congrArg _ hu)
      simp only [State.holdsSleep, hpc u hu]

theorem locksExact_step {l : Label T M} (hinv : LocksExact s) (h : step s l = some s') :
    LocksExact s' := by
  cases l with
  | worker =>
    obtain ⟨hpc, hmtx, -⟩ := workerStep_locks h
    obtain ⟨hq, hs⟩ := workerStep_moves h
    refine ⟨by rw [hpc, hmtx]; exact hinv.mtx, hinv.queue.move (o := .worker) (fun o ho => ?_) hq,
      hinv.sleep.move (o := .worker) (fun o ho => ?_) hs⟩
    · cases o with
      | worker => exact absurd rfl ho
      | thread u => simp only [State.holdsQueueLock, hpc]
    · cases o with
      | worker => exact absurd rfl ho
      | thread u => simp only [State.holdsSleep, hpc]
  | spurious =>
    simp only [step] at h
    split at h
    · rename_i hw
      cases h
      refine ⟨hinv.mtx, fun o => (hinv.queue o).trans ?_, fun o => (hinv.sleep o).trans ?_⟩
      · cases o <;> simp [State.holdsQueueLock, WorkerPc.holdsQueueLock, hw]
      · cases o <;> simp [State.holdsSleep, WorkerPc.holdsSleep, hw]
    · cases h
  | call t op m =>
    obtain ⟨hidle, rfl⟩ := callStep_eq_some h
    obtain ⟨hmtx, hqueue, hsleep⟩ := op.entry_holds m
    exact hinv.goto (by rw [hmtx, hidle]; rfl) (by rw [hqueue, hidle]; rfl)
      (by rw [hsleep, hidle]; rfl)
  | spawnFails t =>
    obtain ⟨m, hpc, rfl⟩ := spawnFails_eq_some h
    exact hinv.goto (by rw [hpc]; rfl) (by rw [hpc]; rfl) (by rw [hpc]; rfl)
  | thread t =>
    obtain ⟨hpc, hqueue, hsleep, -⟩ := threadStep_locks h
    exact hinv.thread hpc hqueue hsleep (threadStep_moves h)

end locks

/-! ## 2. Managers that are registered -/

/-- Within `unregister_manager`, before the manager is counted off. -/
def ThreadPc.leaving : ThreadPc M → Bool
  | .unregLockQueue _ | .unregRebuild _ | .unregUnlockQueue _ | .unregSpin _ => true
  | .unregLock _ | .unregCount _ => true
  | _ => false

/-- The thread is about to count a manager that has just been constructed. -/
def ThreadPc.counts : ThreadPc M → Bool
  | .regCount _ => true
  | _ => false

/-- The state with the number of managers that live registered, the threads that are
    about to count one off, and how often the worker could not be started. -/
structure Life (T M : Type) where
  state : State T M
  registered : Nat
  leaving : Finset T
  failed : Nat

def Life.initial : Life T M := ⟨State.initial, 0, ∅, 0⟩

section life

variable [DecidableEq T] [DecidableEq M]

/-- A constructor has registered its manager when it returns; a destructor starts with
    the call of `unregister_manager`. A constructor that throws leaves no manager. -/
def Life.next (a : Life T M) (l : Label T M) (s : State T M) : Life T M :=
  match l with
  | .call t .unregister _ =>
      { a with state := s, registered := a.registered - 1, leaving := insert t a.leaving }
  | .thread t =>
      match a.state.pc t with
      | .regUnlock _ => { a with state := s, registered := a.registered + 1 }
      | .unregCount _ => { a with state := s, leaving := a.leaving.erase t }
      | _ => { a with state := s }
  | .spawnFails _ => { a with state := s, failed := a.failed + 1 }
  | _ => { a with state := s }

omit [DecidableEq M] in
theorem Life.next_state (a : Life T M) (l : Label T M) (s : State T M) :
    (a.next l s).state = s := by
  unfold Life.next
  split
  · rfl
  · split <;> rfl
  · rfl
  · rfl

def lifeStep (a : Life T M) (l : Label T M) : Option (Life T M) := (step a.state l).map (a.next l)

omit [DecidableEq T] [DecidableEq M] in
/-- Only registered managers are unregistered, and fewer than `2 ^ 64` are counted. -/
def Balanced (a : Life T M) : Label T M → Prop
  | .call _ .unregister _ => 0 < a.registered
  | .thread t =>
      (a.state.pc t).counts = true → a.registered + a.leaving.card + a.failed + 1 < 2 ^ 64
  | _ => True

instance (a : Life T M) : (l : Label T M) → Decidable (Balanced a l)
  | .call _ .unregister _ => inferInstanceAs (Decidable (0 < a.registered))
  | .thread t => inferInstanceAs (Decidable ((a.state.pc t).counts = true →
      a.registered + a.leaving.card + a.failed + 1 < 2 ^ 64))
  | .call _ .register _ | .call _ .hint _ | .worker | .spurious | .spawnFails _ =>
      .isTrue trivial

end life

/-! ## 3. The phases of the worker -/

/-- Where the holder of `mtx_` stands. -/
def State.owner (s : State T M) : ThreadPc M := (s.mtx.map s.pc).getD .idle

/-- Its manager is counted, but has not been registered yet. -/
def ThreadPc.counted : ThreadPc M → Nat
  | .regStop _ | .regSpawn _ | .regUnlock _ => 1
  | _ => 0

/-- It is about to take `mtx_`. -/
def ThreadPc.takesMtx : ThreadPc M → Bool
  | .regLock _ | .unregLock _ => true
  | _ => false

/-- The worker is in its loop and does not leave it unless `stop_` is set. -/
def WorkerPc.running : WorkerPc M → Bool
  | .absent | .exitLock | .exitEmpty | .exitUnlock _ | .unlockSleep true | .exited => false
  | _ => true

/-- There is a worker just when managers are counted and none could not be started. -/
def Settled (failed : Nat) (s : State T M) : Prop :=
  (s.activeManagers = 0 ∧ s.worker = .absent) ∨ (failed ≠ 0 ∧ s.worker = .absent) ∨
    (s.activeManagers ≠ 0 ∧ failed = 0 ∧ s.worker.running = true ∧ s.stop = false)

/-- What holds while the holder of `mtx_` stands at a point. -/
def Phase (failed : Nat) (s : State T M) : ThreadPc M → Prop
  | .regStop _ => s.activeManagers = 1 ∧ failed = 0 ∧ s.worker = .absent
  | .regSpawn _ => s.activeManagers = 1 ∧ failed = 0 ∧ s.worker = .absent ∧ s.stop = false
  | .unregStop _ => s.activeManagers = 0 ∧ s.worker.running = true ∧ s.stop = false
  | .unregNotify _ | .unregJoinable _ | .unregJoin _ =>
      s.activeManagers = 0 ∧ s.worker ≠ .absent ∧ s.stop = true
  | _ => Settled failed s

/-- The count and `stop_` stay, and the worker neither starts nor ends. -/
structure SameLife (s s' : State T M) : Prop where
  active : s'.activeManagers = s.activeManagers
  stop : s'.stop = s.stop
  absent : s'.worker = .absent ↔ s.worker = .absent
  running : s.stop = false → s.worker.running = true → s'.worker.running = true

section phases

variable {s s' : State T M} {t : T} {op : Op} {m : M} {p : ThreadPc M} {failed : Nat}

theorem WorkerPc.running_ne_absent {w : WorkerPc M} (h : w.running = true) : w ≠ .absent := by
  rintro rfl
  cases h

theorem Settled.mono (h : Settled failed s) (hsame : SameLife s s') : Settled failed s' := by
  rcases h with ⟨hactive, hw⟩ | ⟨hfailed, hw⟩ | ⟨hactive, hfailed, hw, hstop⟩
  · exact .inl ⟨hsame.active.trans hactive, hsame.absent.mpr hw⟩
  · exact .inr (.inl ⟨hfailed, hsame.absent.mpr hw⟩)
  · exact .inr (.inr ⟨hsame.active ▸ hactive, hfailed, hsame.running hstop hw,
      hsame.stop.trans hstop⟩)

theorem Phase.mono (h : Phase failed s p) (hsame : SameLife s s') : Phase failed s' p := by
  have hworker : s.worker ≠ .absent → s'.worker ≠ .absent := fun hne hw => hne (hsame.absent.mp hw)
  cases p with
  | regStop m => exact ⟨hsame.active.trans h.1, h.2.1, hsame.absent.mpr h.2.2⟩
  | regSpawn m =>
    exact ⟨hsame.active.trans h.1, h.2.1, hsame.absent.mpr h.2.2.1, hsame.stop.trans h.2.2.2⟩
  | unregStop m =>
    exact ⟨hsame.active.trans h.1, hsame.running h.2.2 h.2.1, hsame.stop.trans h.2.2⟩
  | unregNotify m | unregJoinable m | unregJoin m =>
    exact ⟨hsame.active.trans h.1, hworker h.2.1, hsame.stop.trans h.2.2⟩
  | _ => exact Settled.mono h hsame

theorem sameLife_workerStep (h : workerStep s = some s') : SameLife s s' := by
  cases hw : s.worker with
  | unlockQueue mgr =>
    cases mgr <;> simp only [workerStep, hw, Option.some.injEq] at h <;> subst h <;>
      constructor <;> simp [hw, WorkerPc.running]
  | predStop hasWork =>
    simp only [workerStep, hw, Option.some.injEq] at h
    subst h
    constructor <;> cases s.stop <;> cases hasWork <;> simp [hw, WorkerPc.running]
  | checkStop =>
    simp only [workerStep, hw, Option.some.injEq] at h
    subst h
    constructor <;> cases s.stop <;> simp [hw, WorkerPc.running]
  | unlockSleep leave =>
    simp only [workerStep, hw, Option.some.injEq] at h
    subst h
    constructor <;> cases leave <;> simp [hw, WorkerPc.running]
  | _ =>
    simp only [workerStep, hw] at h
    (try split at h) <;> cases h <;> constructor <;> simp_all [WorkerPc.running]

theorem notifyOne_absent {w : WorkerPc M} : notifyOne w = .absent ↔ w = .absent := by
  cases w <;> simp [notifyOne]

theorem sameLife_notifyOne (hactive : s'.activeManagers = s.activeManagers)
    (hstop : s'.stop = s.stop) (hw : s'.worker = notifyOne s.worker) : SameLife s s' := by
  refine ⟨hactive, hstop, by rw [hw, notifyOne_absent], fun _ => ?_⟩
  rw [hw]
  cases s.worker <;> simp [notifyOne, WorkerPc.running]

theorem sameLife_same (hactive : s'.activeManagers = s.activeManagers) (hstop : s'.stop = s.stop)
    (hw : s'.worker = s.worker) : SameLife s s' :=
  ⟨hactive, hstop, by rw [hw], fun _ hrun => by rwa [hw]⟩

/-- The holder of `mtx_`. -/
theorem LocksExact.owner_eq (h : LocksExact s) (ht : (s.pc t).holdsMtx = true) :
    s.mtx = some t ∧ s.owner = s.pc t := by
  have hmtx := (h.mtx t).mpr ht
  exact ⟨hmtx, by rw [State.owner, hmtx]; rfl⟩

/-- A thread without `mtx_` moves on without it. -/
theorem LocksExact.owner_keeps (h : LocksExact s) (ht : (s.pc t).holdsMtx = false)
    (hmtx : s'.mtx = s.mtx) (hpc : ∀ u, u ≠ t → s'.pc u = s.pc u) : s'.owner = s.owner := by
  rw [State.owner, State.owner, hmtx]
  cases howner : s.mtx with
  | none => rfl
  | some u =>
    have hu : (s.pc u).holdsMtx = true := (h.mtx u).mp howner
    have hne : u ≠ t := by
      rintro rfl
      rw [ht] at hu
      cases hu
    simp only [Option.map_some, Option.getD_some, hpc u hne]

variable [DecidableEq T] [DecidableEq M]

omit [DecidableEq M] in
theorem LocksExact.owner_goto_outside (h : LocksExact s) (ht : (s.pc t).holdsMtx = false) :
    (s.goto t p).owner = s.owner :=
  h.owner_keeps ht rfl fun u hu => by rw [State.goto_pc, if_neg hu]

/-- What a thread does that neither has `mtx_` nor takes it. -/
theorem threadStep_outside (h : threadStep s t = some s') (ht : (s.pc t).holdsMtx = false)
    (hlock : (s.pc t).takesMtx = false) :
    s'.mtx = s.mtx ∧ SameLife s s' ∧ s'.workingOn = s.workingOn ∧
      (s'.pc t).leaving = (s.pc t).leaving := by
  cases hpc : s.pc t with
  | hintNotify m =>
    simp only [threadStep, hpc, Option.some.injEq] at h
    subst h
    refine ⟨rfl, sameLife_notifyOne rfl rfl rfl, rfl, ?_⟩
    simp [ThreadPc.leaving]
  | regLock m | unregLock m =>
    rw [hpc] at hlock
    cases hlock
  | regCount m | regStop m | regSpawn m | regThrow m | regUnlock m | unregCount m | unregStop m
  | unregNotify m | unregJoinable m | unregJoin m | unregUnlock m =>
    rw [hpc] at ht
    cases ht
  | hintUnlockQueue m pushed =>
    simp only [threadStep, hpc, Option.some.injEq] at h
    subst h
    refine ⟨rfl, sameLife_same rfl rfl rfl, rfl, ?_⟩
    cases pushed <;> simp [ThreadPc.leaving]
  | _ =>
    simp only [threadStep, hpc] at h
    (try split at h) <;> cases h <;>
      exact ⟨rfl, sameLife_same rfl rfl rfl, rfl, by simp [ThreadPc.leaving]⟩

end phases

/-! ## 4. The invariant -/

/-- The worker has popped `m` and stored it in `working_on_`. -/
def WorkerPc.worksOn [DecidableEq M] (m : M) : WorkerPc M → Bool
  | .unlockQueue (some m') | .grow m' | .clearWorkingOn m' => m' = m
  | _ => false

structure LifeInv [DecidableEq M] (a : Life T M) : Prop where
  locks : LocksExact a.state
  leaving : ∀ t, t ∈ a.leaving ↔ (a.state.pc t).leaving = true
  active : a.state.activeManagers.toNat =
    a.registered + a.leaving.card + a.failed + a.state.owner.counted
  once : a.failed ≤ 1
  phase : Phase a.failed a.state a.state.owner
  worksOn : ∀ m, a.state.workingOn = some m → a.state.worker.worksOn m = true

section invariant

variable [DecidableEq M] {a b : Life T M} {s s' : State T M} {t : T} {op : Op} {m : M}

theorem lifeInv_initial : LifeInv (Life.initial : Life T M) := by
  refine ⟨locksExact_initial, fun t => ?_, rfl, Nat.zero_le 1, .inl ⟨rfl, rfl⟩, nofun⟩
  simp [Life.initial, State.initial, ThreadPc.leaving]

theorem workerStep_worksOn (hold : ∀ m, s.workingOn = some m → s.worker.worksOn m = true)
    (h : workerStep s = some s') : ∀ m, s'.workingOn = some m → s'.worker.worksOn m = true := by
  intro m
  have hm := hold m
  cases hw : s.worker with
  | unlockQueue mgr =>
    cases mgr <;> simp only [workerStep, hw, Option.some.injEq] at h <;> subst h <;>
      simpa [hw, WorkerPc.worksOn] using hm
  | setWorkingOn m' =>
    simp only [workerStep, hw, Option.some.injEq] at h
    subst h
    intro heq
    exact decide_eq_true (Option.some.inj heq)
  | clearWorkingOn m' =>
    simp only [workerStep, hw, Option.some.injEq] at h
    subst h
    intro heq
    cases heq
  | _ =>
    simp only [workerStep, hw] at h
    (try split at h) <;> cases h <;> simp_all [WorkerPc.worksOn]

theorem notifyOne_worksOn (m : M) (w : WorkerPc M) :
    (notifyOne w).worksOn m = w.worksOn m := by
  cases w <;> rfl

variable [DecidableEq T]

theorem threadStep_worksOn (h : threadStep s t = some s') :
    s'.workingOn = s.workingOn ∧
      ∀ m, s.worker.worksOn m = true → s'.worker.worksOn m = true := by
  cases hpc : s.pc t with
  | unregNotify m | hintNotify m =>
    simp only [threadStep, hpc, Option.some.injEq] at h
    subst h
    exact ⟨rfl, fun m hm => (notifyOne_worksOn m _).trans hm⟩
  | regSpawn m | unregJoin m =>
    simp only [threadStep, hpc] at h
    split at h
    · rename_i hw
      cases h
      refine ⟨rfl, fun m hm => ?_⟩
      rw [hw] at hm
      cases hm
    · cases h
  | _ =>
    simp only [threadStep, hpc] at h
    (try split at h) <;> cases h <;> exact ⟨rfl, fun _ hm => hm⟩

/-- A thread that neither has `mtx_` nor takes it keeps the invariant. -/
theorem LifeInv.outside (h : LifeInv a) (ht : (a.state.pc t).holdsMtx = false)
    (hlock : (a.state.pc t).takesMtx = false) (hs : threadStep a.state t = some s') :
    LifeInv { a with state := s' } := by
  obtain ⟨hpc, -⟩ := threadStep_locks hs
  obtain ⟨hmtx, hsame, hworking, hleaving⟩ := threadStep_outside hs ht hlock
  have howner := h.locks.owner_keeps ht hmtx hpc
  refine ⟨locksExact_step (l := .thread t) h.locks hs, fun u => ?_, ?_, h.once, ?_,
    fun m hm => ?_⟩
  · rw [h.leaving u]
    by_cases hu : u = t
    · rw [hu, hleaving]
    · rw [hpc u hu]
  · rw [hsame.active, howner]
    exact h.active
  · rw [howner]
    exact h.phase.mono hsame
  · exact (threadStep_worksOn hs).2 m (h.worksOn m (hworking ▸ hm))

/-- Who is leaving, when a thread moves on that stays as it is in this respect. -/
theorem LifeInv.leaving_goto (h : LifeInv a) {r : State T M} {p : ThreadPc M}
    (hr : r.pc = a.state.pc) (hp : p.leaving = (a.state.pc t).leaving) (u : T) :
    u ∈ a.leaving ↔ ((r.goto t p).pc u).leaving = true := by
  rw [h.leaving u, State.goto_pc, hr]
  split
  · rename_i hu
    rw [hu, hp]
  · rfl

omit [DecidableEq M] in
theorem owner_goto {r : State T M} {p : ThreadPc M} (hmtx : r.mtx = some t) :
    (r.goto t p).owner = p := by
  simp [State.owner, hmtx]

omit [DecidableEq M] in
theorem owner_goto_free {r : State T M} {p : ThreadPc M} (hmtx : r.mtx = none) :
    (r.goto t p).owner = .idle := by
  simp [State.owner, hmtx]

/-- A step of the holder of `mtx_`, or one that takes it, with what is left to show; `q` is
    where the holder stands afterwards. -/
theorem LifeInv.move {registered : Nat} {leaving : Finset T} {r : State T M} {p q : ThreadPc M}
    (h : LifeInv a) (hs : threadStep a.state t = some (r.goto t p))
    (howner : (r.goto t p).owner = q)
    (hleaving : ∀ u, u ∈ leaving ↔ ((r.goto t p).pc u).leaving = true)
    (hactive : r.activeManagers.toNat = registered + leaving.card + a.failed + q.counted)
    (hphase : Phase a.failed r q) :
    LifeInv ⟨r.goto t p, registered, leaving, a.failed⟩ := by
  obtain ⟨hworking, hworks⟩ := threadStep_worksOn hs
  refine ⟨locksExact_step (l := .thread t) h.locks hs, hleaving, ?_, h.once, ?_, fun m hm => ?_⟩
  · rw [howner]
    exact hactive
  · rw [howner]
    exact hphase.mono (sameLife_same rfl rfl rfl)
  · exact hworks m (h.worksOn m (hworking ▸ hm))

omit [DecidableEq M] [DecidableEq T] in
theorem succ_toNat {n : BitVec 64} (h : n.toNat + 1 < 2 ^ 64) : (n + 1).toNat = n.toNat + 1 := by
  rw [BitVec.toNat_add]
  exact Nat.mod_eq_of_lt h

omit [DecidableEq M] [DecidableEq T] in
theorem pred_toNat {n : BitVec 64} (h : 0 < n.toNat) : (n - 1).toNat = n.toNat - 1 := by
  rw [BitVec.toNat_sub_of_le]
  · rfl
  · rw [BitVec.le_def]
    exact h

omit [DecidableEq M] [DecidableEq T] in
theorem ne_zero_of_pos {n : BitVec 64} (h : 0 < n.toNat) : n ≠ 0 := by
  rintro rfl
  cases h

theorem LifeInv.regCount (h : LifeInv a) (hpc : a.state.pc t = .regCount m)
    (hroom : a.registered + a.leaving.card + a.failed + 1 < 2 ^ 64)
    (hs : threadStep a.state t = some s') : LifeInv { a with state := s' } := by
  obtain ⟨hmtx, howner⟩ := h.locks.owner_eq (t := t) (by rw [hpc]; rfl)
  rw [hpc] at howner
  have hactive := h.active
  have hphase := h.phase
  rw [howner] at hactive hphase
  have hold : a.state.activeManagers.toNat = a.registered + a.leaving.card + a.failed := hactive
  have hnext := succ_toNat (n := a.state.activeManagers) (by rw [hold]; exact hroom)
  have hpos : a.state.activeManagers + 1 ≠ 0 := ne_zero_of_pos (by omega)
  have hrun := hs
  simp only [threadStep, hpc, Option.some.injEq] at hs
  subst hs
  by_cases hzero : a.state.activeManagers = 0
  · rw [if_pos hzero] at hrun ⊢
    have hnone : a.failed = 0 := by
      rw [hzero] at hold
      have : (0 : BitVec 64).toNat = 0 := rfl
      omega
    refine h.move hrun (owner_goto hmtx) (h.leaving_goto rfl (by rw [hpc]; rfl))
      (hnext.trans (by rw [hold]; rfl)) ⟨by rw [hzero]; rfl, hnone, ?_⟩
    rcases hphase with ⟨-, hw⟩ | ⟨-, hw⟩ | ⟨hne, -⟩
    · exact hw
    · exact hw
    · exact absurd hzero hne
  · rw [if_neg hzero] at hrun ⊢
    refine h.move hrun (owner_goto hmtx) (h.leaving_goto rfl (by rw [hpc]; rfl))
      (hnext.trans (by rw [hold]; rfl)) ?_
    rcases hphase with ⟨hzero', -⟩ | ⟨hfailed, hw⟩ | ⟨-, hfailed, hw, hstop⟩
    · exact absurd hzero' hzero
    · exact .inr (.inl ⟨hfailed, hw⟩)
    · exact .inr (.inr ⟨hpos, hfailed, hw, hstop⟩)

theorem LifeInv.unregCount (h : LifeInv a) (hpc : a.state.pc t = .unregCount m)
    (hs : threadStep a.state t = some s') :
    LifeInv { a with state := s', leaving := a.leaving.erase t } := by
  obtain ⟨hmtx, howner⟩ := h.locks.owner_eq (t := t) (by rw [hpc]; rfl)
  rw [hpc] at howner
  have hactive := h.active
  have hphase := h.phase
  rw [howner] at hactive hphase
  have hold : a.state.activeManagers.toNat = a.registered + a.leaving.card + a.failed := hactive
  have hmem : t ∈ a.leaving := (h.leaving t).mpr (by rw [hpc]; rfl)
  have hcard := Finset.card_erase_of_mem hmem
  have hsome : 0 < a.leaving.card := Finset.card_pos.mpr ⟨t, hmem⟩
  have hprev := pred_toNat (n := a.state.activeManagers) (by omega)
  have hleft : (a.state.activeManagers - 1).toNat =
      a.registered + (a.leaving.erase t).card + a.failed := by
    omega
  have hothers : ∀ {r : State T M} {p : ThreadPc M}, r.pc = a.state.pc → p.leaving = false →
      ∀ u, u ∈ a.leaving.erase t ↔ ((r.goto t p).pc u).leaving = true := by
    intro r p hr hp u
    rw [Finset.mem_erase, h.leaving u, State.goto_pc, hr]
    split
    · rename_i hu
      simp [hu, hp]
    · rename_i hu
      simp [hu]
  have hrun := hs
  simp only [threadStep, hpc, Option.some.injEq] at hs
  subst hs
  by_cases hlast : a.state.activeManagers - 1 = 0
  · rw [if_pos hlast] at hrun ⊢
    rw [hlast] at hleft
    have hnone : (0 : BitVec 64).toNat = 0 := rfl
    rcases hphase with ⟨hzero, -⟩ | ⟨hfailed, -⟩ | ⟨-, -, hw, hstop⟩
    · rw [hzero] at hold
      omega
    · omega
    · refine h.move hrun (owner_goto hmtx) (hothers rfl rfl) ?_ ⟨hlast, hw, hstop⟩
      exact (congrArg BitVec.toNat hlast).trans hleft
  · rw [if_neg hlast] at hrun ⊢
    refine h.move hrun (owner_goto hmtx) (hothers rfl rfl) hleft ?_
    rcases hphase with ⟨hzero, -⟩ | ⟨hfailed, hw⟩ | ⟨-, hfailed, hw, hstop⟩
    · have hnone : (0 : BitVec 64).toNat = 0 := rfl
      rw [hzero] at hold
      omega
    · exact .inr (.inl ⟨hfailed, hw⟩)
    · exact .inr (.inr ⟨hlast, hfailed, hw, hstop⟩)

/-- A thread takes `mtx_`. -/
theorem LifeInv.take (h : LifeInv a) (hfree : a.state.mtx = none) {p : ThreadPc M}
    (hs : threadStep a.state t = some ({ a.state with mtx := some t }.goto t p))
    (hp : p.leaving = (a.state.pc t).leaving) (hcounted : p.counted = 0)
    (hphase : Settled a.failed a.state → Phase a.failed a.state p) :
    LifeInv { a with state := { a.state with mtx := some t }.goto t p } := by
  have howner : a.state.owner = .idle := by
    rw [State.owner, hfree]
    rfl
  have hactive := h.active
  have hold := h.phase
  rw [howner] at hactive hold
  refine h.move hs (owner_goto rfl) (h.leaving_goto rfl hp) ?_ ?_
  · rw [hcounted]
    exact hactive
  · exact (hphase hold).mono (sameLife_same rfl rfl rfl)

theorem LifeInv.thread (h : LifeInv a) (hbal : Balanced a (.thread t))
    (hstep : threadStep a.state t = some s') : LifeInv (a.next (.thread t) s') := by
  have hrun := hstep
  have hown : ∀ {p : ThreadPc M}, a.state.pc t = p → p.holdsMtx = true →
      a.state.mtx = some t ∧
        a.state.activeManagers.toNat =
          a.registered + a.leaving.card + a.failed + p.counted ∧
        Phase a.failed a.state p := by
    intro p hp hholds
    obtain ⟨hmtx, howner⟩ := h.locks.owner_eq (t := t) (by rw [hp]; exact hholds)
    have hactive := h.active
    have hphase := h.phase
    rw [howner, hp] at hactive hphase
    exact ⟨hmtx, hactive, hphase⟩
  simp only [Life.next]
  cases hpc : a.state.pc t with
  | regLock m =>
    simp only [threadStep, hpc] at hstep
    split at hstep
    · cases hstep
      exact h.take (Option.isNone_iff_eq_none.mp ‹_›) hrun (by rw [hpc]; rfl) rfl id
    · cases hstep
  | regCount m => exact h.regCount hpc (hbal (by rw [hpc]; rfl)) hstep
  | unregCount m => exact h.unregCount hpc hstep
  | regStop m =>
    obtain ⟨hmtx, hactive, hone, hfailed, hw⟩ := hown hpc rfl
    simp only [threadStep, hpc, Option.some.injEq] at hstep
    subst hstep
    exact h.move hrun (owner_goto hmtx) (h.leaving_goto rfl (by rw [hpc]; rfl)) hactive
      ⟨hone, hfailed, hw, rfl⟩
  | regSpawn m =>
    obtain ⟨hmtx, hactive, hone, hfailed, hw, hstop⟩ := hown hpc rfl
    simp only [threadStep, hpc, hw, if_true, Option.some.injEq] at hstep
    subst hstep
    exact h.move hrun (owner_goto hmtx) (h.leaving_goto rfl (by rw [hpc]; rfl)) hactive
      (.inr (.inr ⟨ne_zero_of_pos (by rw [hone]; exact Nat.one_pos), hfailed, rfl, hstop⟩))
  | regThrow m =>
    obtain ⟨-, hactive, hsettled⟩ := hown hpc rfl
    simp only [threadStep, hpc, Option.some.injEq] at hstep
    subst hstep
    exact h.move hrun (owner_goto_free rfl) (h.leaving_goto rfl (by rw [hpc]; rfl)) hactive
      hsettled
  | regUnlock m =>
    obtain ⟨-, hactive, hsettled⟩ := hown hpc rfl
    simp only [threadStep, hpc, Option.some.injEq] at hstep
    subst hstep
    refine h.move hrun (owner_goto_free rfl) (h.leaving_goto rfl (by rw [hpc]; rfl))
      (hactive.trans ?_) hsettled
    simp only [ThreadPc.counted]
    omega
  | unregLock m =>
    simp only [threadStep, hpc] at hstep
    split at hstep
    · cases hstep
      exact h.take (Option.isNone_iff_eq_none.mp ‹_›) hrun (by rw [hpc]; rfl) rfl id
    · cases hstep
  | unregStop m =>
    obtain ⟨hmtx, hactive, hzero, hw, -⟩ := hown hpc rfl
    simp only [threadStep, hpc, Option.some.injEq] at hstep
    subst hstep
    exact h.move hrun (owner_goto hmtx) (h.leaving_goto rfl (by rw [hpc]; rfl)) hactive
      ⟨hzero, WorkerPc.running_ne_absent hw, rfl⟩
  | unregNotify m =>
    obtain ⟨hmtx, hactive, hzero, hw, hstop⟩ := hown hpc rfl
    simp only [threadStep, hpc, Option.some.injEq] at hstep
    subst hstep
    refine h.move hrun (owner_goto hmtx) (h.leaving_goto rfl (by rw [hpc]; rfl)) hactive
      ⟨hzero, fun hnone => hw (notifyOne_absent.mp hnone), hstop⟩
  | unregJoinable m =>
    obtain ⟨hmtx, hactive, hzero, hw, hstop⟩ := hown hpc rfl
    simp only [threadStep, hpc, if_neg hw, Option.some.injEq] at hstep
    subst hstep
    exact h.move hrun (owner_goto hmtx) (h.leaving_goto rfl (by rw [hpc]; rfl)) hactive
      ⟨hzero, hw, hstop⟩
  | unregJoin m =>
    obtain ⟨hmtx, hactive, hzero, -, -⟩ := hown hpc rfl
    simp only [threadStep, hpc] at hstep
    split at hstep
    · cases hstep
      exact h.move hrun (owner_goto hmtx) (h.leaving_goto rfl (by rw [hpc]; rfl)) hactive
        (.inl ⟨hzero, rfl⟩)
    · cases hstep
  | unregUnlock m =>
    obtain ⟨-, hactive, hsettled⟩ := hown hpc rfl
    simp only [threadStep, hpc, Option.some.injEq] at hstep
    subst hstep
    exact h.move hrun (owner_goto_free rfl) (h.leaving_goto rfl (by rw [hpc]; rfl)) hactive
      hsettled
  | _ => exact h.outside (by rw [hpc]; rfl) (by rw [hpc]; rfl) hstep

/-- The exception leaves the manager counted, and no worker. -/
theorem LifeInv.spawnFails (h : LifeInv a) (hs : spawnFails a.state t = some s') :
    LifeInv { a with state := s', failed := a.failed + 1 } := by
  have hlocks := locksExact_step (l := .spawnFails t) h.locks hs
  obtain ⟨m, hpc, rfl⟩ := spawnFails_eq_some hs
  obtain ⟨hmtx, howner⟩ := h.locks.owner_eq (t := t) (by rw [hpc]; rfl)
  have hactive := h.active
  have hphase := h.phase
  rw [howner, hpc] at hactive hphase
  obtain ⟨-, hfailed, hw, -⟩ := hphase
  have howner' : (a.state.goto t (.regThrow m)).owner = .regThrow m := owner_goto hmtx
  refine ⟨hlocks, h.leaving_goto rfl (by rw [hpc]; rfl), ?_, ?_, ?_, h.worksOn⟩
  · rw [howner']
    exact hactive
  · simp only [hfailed]
    exact Nat.le_refl 1
  · rw [howner']
    exact .inr (.inl ⟨Nat.succ_ne_zero _, hw⟩)

theorem LifeInv.worker (h : LifeInv a) (hs : workerStep a.state = some s') :
    LifeInv { a with state := s' } := by
  obtain ⟨hpc, hmtx, -⟩ := workerStep_locks hs
  have howner : s'.owner = a.state.owner := by
    rw [State.owner, State.owner, hpc, hmtx]
  have hsame := sameLife_workerStep hs
  refine ⟨locksExact_step (l := .worker) h.locks hs, fun t => ?_, ?_, h.once, ?_,
    fun m => workerStep_worksOn h.worksOn hs m⟩
  · rw [hpc]
    exact h.leaving t
  · rw [hsame.active, howner]
    exact h.active
  · rw [howner]
    exact h.phase.mono hsame

/-- A thread enters a call, with what that does to the number of managers. -/
theorem LifeInv.enter (h : LifeInv a) (hidle : a.state.pc t = .idle) {registered : Nat}
    {leaving : Finset T}
    (hleaving : ∀ u, u ∈ leaving ↔ ((a.state.goto t (op.entry m)).pc u).leaving = true)
    (hcount : registered + leaving.card = a.registered + a.leaving.card) :
    LifeInv { a with
      state := a.state.goto t (op.entry m), registered := registered, leaving := leaving } := by
  obtain ⟨hmtx, hqueue, hsleep⟩ := op.entry_holds m
  have howner : (a.state.goto t (op.entry m)).owner = a.state.owner :=
    h.locks.owner_goto_outside (by rw [hidle]; rfl)
  refine ⟨h.locks.goto ?_ ?_ ?_, hleaving, ?_, h.once, ?_, h.worksOn⟩
  · rw [hmtx, hidle]
    rfl
  · rw [hqueue, hidle]
    rfl
  · rw [hsleep, hidle]
    rfl
  · rw [howner, hcount]
    exact h.active
  · rw [howner]
    exact h.phase.mono (sameLife_same rfl rfl rfl)

theorem LifeInv.call (h : LifeInv a) (hbal : Balanced a (.call t op m))
    (hs : callStep a.state t op m = some s') : LifeInv (a.next (.call t op m) s') := by
  obtain ⟨hidle, rfl⟩ := callStep_eq_some hs
  cases op with
  | register | hint => exact h.enter hidle (h.leaving_goto rfl (by rw [hidle]; rfl)) rfl
  | unregister =>
    have hnot : t ∉ a.leaving := by
      rw [h.leaving t, hidle]
      simp [ThreadPc.leaving]
    have hpos : 0 < a.registered := hbal
    refine h.enter hidle (fun u => ?_) ?_
    · by_cases hu : u = t
      · simp [hu, Op.entry, ThreadPc.leaving]
      · simp [hu, h.leaving u]
    · rw [Finset.card_insert_of_notMem hnot]
      omega

theorem lifeInv_step {l : Label T M} (h : LifeInv a) (hbal : Balanced a l)
    (hs : lifeStep a l = some b) : LifeInv b := by
  obtain ⟨s', hs', rfl⟩ := Option.map_eq_some_iff.mp hs
  cases l with
  | worker => exact h.worker hs'
  | spurious =>
    have hlocks := locksExact_step h.locks hs'
    simp only [step] at hs'
    split at hs'
    · rename_i hw
      cases hs'
      have hsame : SameLife a.state { a.state with worker := .woken } :=
        ⟨rfl, rfl, by simp [hw], fun _ _ => rfl⟩
      refine ⟨hlocks, h.leaving, h.active, h.once, h.phase.mono hsame, fun m hm => ?_⟩
      have hworks := h.worksOn m hm
      rw [hw] at hworks
      cases hworks
    · cases hs'
  | call t op m => exact h.call hbal hs'
  | spawnFails t => exact h.spawnFails hs'
  | thread t => exact h.thread hbal hs'

theorem lifeInv_of_steps (hrun : Steps lifeStep Balanced Life.initial a) : LifeInv a :=
  hrun.invariant LifeInv lifeInv_initial fun _ _ _ ha hbal hs => lifeInv_step ha hbal hs

/-! ## 5. Results -/

omit [DecidableEq T] in
/-- While a manager is registered the worker is in its loop: one was started, and none has
    been stopped since. -/
theorem LifeInv.running (h : LifeInv a) (hstarted : a.failed = 0) (hpos : 0 < a.registered) :
    a.state.worker.running = true ∧ a.state.stop = false := by
  have hactive := h.active
  have hphase := h.phase
  have hsome : 0 < a.state.activeManagers.toNat := by omega
  have hsettled : Settled a.failed a.state →
      a.state.worker.running = true ∧ a.state.stop = false := by
    rintro (⟨hzero, -⟩ | ⟨hfailed, -⟩ | ⟨-, -, hrun⟩)
    · exact absurd hzero (ne_zero_of_pos hsome)
    · exact absurd hstarted hfailed
    · exact hrun
  cases howner : a.state.owner with
  | regStop m | regSpawn m =>
    rw [howner] at hactive hphase
    rw [hphase.1] at hactive
    simp only [ThreadPc.counted] at hactive
    have hone : (1 : BitVec 64).toNat = 1 := rfl
    omega
  | unregStop m | unregNotify m | unregJoinable m | unregJoin m =>
    rw [howner] at hphase
    exact absurd hphase.1 (ne_zero_of_pos hsome)
  | _ =>
    rw [howner] at hphase
    exact hsettled hphase

omit [DecidableEq T] in
/-- After a start that has failed there is no worker, and none will be started. -/
theorem LifeInv.none_started (h : LifeInv a) (hfailed : a.failed ≠ 0) :
    a.state.worker = .absent ∧ ∀ t m, a.state.pc t ≠ .regSpawn m := by
  have hactive := h.active
  have hphase := h.phase
  have hsome : 0 < a.state.activeManagers.toNat := by omega
  constructor
  · cases howner : a.state.owner with
    | regStop m | regSpawn m =>
      rw [howner] at hphase
      exact absurd hphase.2.1 hfailed
    | unregStop m | unregNotify m | unregJoinable m | unregJoin m =>
      rw [howner] at hphase
      exact absurd hphase.1 (ne_zero_of_pos hsome)
    | _ =>
      rw [howner] at hphase
      rcases hphase with ⟨-, hw⟩ | ⟨-, hw⟩ | ⟨-, hnone, -⟩
      · exact hw
      · exact hw
      · exact absurd hnone hfailed
  · intro t m hpc
    obtain ⟨-, howner⟩ := h.locks.owner_eq (t := t) (by rw [hpc]; rfl)
    rw [howner, hpc] at hphase
    exact hfailed hphase.2.1

omit [DecidableEq T] in
/-- When nobody is inside a call, the managers counted are those registered, and the one
    with which the start failed. -/
theorem LifeInv.settled (h : LifeInv a) (hidle : ∀ t, a.state.pc t = .idle) :
    a.state.activeManagers.toNat = a.registered + a.failed ∧ Settled a.failed a.state := by
  have howner : a.state.owner = .idle := by
    cases hmtx : a.state.mtx with
    | none => simp [State.owner, hmtx]
    | some t => simp [State.owner, hmtx, hidle t]
  have hleaving : a.leaving = ∅ := by
    rw [Finset.eq_empty_iff_forall_notMem]
    intro t ht
    have hgoes := (h.leaving t).mp ht
    rw [hidle t] at hgoes
    cases hgoes
  have hactive := h.active
  have hphase := h.phase
  rw [howner, hleaving] at hactive
  rw [howner] at hphase
  exact ⟨hactive, hphase⟩

/-- As long as a manager is registered and no start of the worker has failed, the worker is
    in its loop and will not leave it. `thread_` is assigned only while it is not joinable,
    and the last `unregister_manager` finds a thread to join. A start fails at most once:
    from then on there is no worker and no attempt to start one. When no call is under way,
    `active_managers_` is the number of registered managers, one more after a failure, and
    there is no worker exactly when no manager is registered or a start has failed. -/
theorem worker_lives_with_managers (hrun : Steps lifeStep Balanced Life.initial a) :
    (a.failed = 0 → 0 < a.registered → a.state.worker.running = true ∧ a.state.stop = false) ∧
      (∀ t m, a.state.pc t = .regSpawn m → a.state.worker = .absent) ∧
      (∀ t m, a.state.pc t = .unregJoinable m → a.state.worker ≠ .absent) ∧
      (a.failed ≤ 1 ∧ (a.failed ≠ 0 →
        a.state.worker = .absent ∧ ∀ t m, a.state.pc t ≠ .regSpawn m)) ∧
      ((∀ t, a.state.pc t = .idle) →
        a.state.activeManagers.toNat = a.registered + a.failed ∧
        (a.state.worker = .absent ↔ a.registered = 0 ∨ a.failed ≠ 0)) := by
  have h := lifeInv_of_steps hrun
  refine ⟨h.running, ?_, ?_, ⟨h.once, h.none_started⟩, ?_⟩
  · intro t m hpc
    obtain ⟨-, howner⟩ := h.locks.owner_eq (t := t) (by rw [hpc]; rfl)
    have hphase := h.phase
    rw [howner, hpc] at hphase
    exact hphase.2.2.1
  · intro t m hpc
    obtain ⟨-, howner⟩ := h.locks.owner_eq (t := t) (by rw [hpc]; rfl)
    have hphase := h.phase
    rw [howner, hpc] at hphase
    exact hphase.2.1
  · intro hidle
    obtain ⟨hactive, hsettled⟩ := h.settled hidle
    refine ⟨hactive, ?_, ?_⟩
    · intro hw
      by_contra hnot
      obtain ⟨hpos, hstarted⟩ := not_or.mp hnot
      have hrun := (h.running (not_not.mp hstarted) (Nat.pos_of_ne_zero hpos)).1
      exact WorkerPc.running_ne_absent hrun hw
    · rintro (hzero | hfailed)
      · rcases hsettled with ⟨-, hw⟩ | ⟨-, hw⟩ | ⟨hne, hstarted, -⟩
        · exact hw
        · exact hw
        · exact absurd (BitVec.eq_of_toNat_eq (by rw [hactive, hzero, hstarted]; rfl)) hne
      · exact (h.none_started hfailed).1

end invariant

/-- Two managers live at once; the first one starts the worker, and the second one ends
    it. A worker that cannot be started for the first of two managers is not there for the
    second one either. -/
theorem worker_lives_with_managers_two : ∃ a b c : Life Bool Bool,
    (a.registered = 1 ∧ a.state.pc true ≠ .idle ∧ a.state.worker.running = true) ∧
      (b.registered = 0 ∧ b.state.worker = .absent) ∧
      (c.registered = 1 ∧ c.failed = 1 ∧ c.state.worker = .absent) := by
  let run (t : Bool) (n : Nat) : List (Label Bool Bool) := List.replicate n (.thread t)
  let opened : List (Label Bool Bool) :=
    [.call true .register true] ++ run true 5 ++ [.call false .register false] ++ run false 3 ++
      [.call true .unregister true]
  let closed : List (Label Bool Bool) := opened ++ run true 7 ++
    [.call false .unregister false] ++ run false 8 ++ List.replicate 13 .worker ++ run false 3
  let failing : List (Label Bool Bool) :=
    [.call true .register true] ++ run true 3 ++ [.spawnFails true] ++ run true 1 ++
      [.call false .register false] ++ run false 3
  have hopened : ∃ a : Life Bool Bool, Steps lifeStep Balanced Life.initial a ∧
      decide (a.failed = 0 ∧ a.registered = 1 ∧ a.state.pc true ≠ .idle) = true :=
    Steps.exists_of_replay opened (by decide)
  have hclosed : ∃ a : Life Bool Bool, Steps lifeStep Balanced Life.initial a ∧
      decide (a.registered = 0 ∧ ∀ t, a.state.pc t = .idle) = true :=
    Steps.exists_of_replay closed (by decide)
  have hfailing : ∃ a : Life Bool Bool, Steps lifeStep Balanced Life.initial a ∧
      decide (a.registered = 1 ∧ a.failed = 1) = true :=
    Steps.exists_of_replay failing (by decide)
  obtain ⟨a, hrun, ha⟩ := hopened
  obtain ⟨b, hrun', hb⟩ := hclosed
  obtain ⟨c, hrun'', hc⟩ := hfailing
  obtain ⟨hstarted, hone, hinside⟩ := of_decide_eq_true ha
  obtain ⟨hzero, hidle⟩ := of_decide_eq_true hb
  obtain ⟨hone', hfailed⟩ := of_decide_eq_true hc
  obtain ⟨hrunning, -⟩ := worker_lives_with_managers hrun
  obtain ⟨-, -, -, -, hend⟩ := worker_lives_with_managers hrun'
  obtain ⟨-, -, -, ⟨-, hnone⟩, -⟩ := worker_lives_with_managers hrun''
  refine ⟨a, b, c, ⟨hone, hinside, ?_⟩, ⟨hzero, ?_⟩, hone', hfailed, ?_⟩
  · exact (hrunning hstarted (hone ▸ Nat.one_pos)).1
  · exact (hend hidle).2.mpr (.inl hzero)
  · exact (hnone (hfailed ▸ Nat.one_ne_zero)).1

end Memnon.PrefetchWorker
