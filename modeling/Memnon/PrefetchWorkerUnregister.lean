import Memnon.PrefetchWorker

/-!
# No use of a manager after it is unregistered

`unregister_manager` first rebuilds the queue without the manager and then
spins until `working_on_` no longer names it. The rebuild and the worker's pop
are critical sections of the same lock, and the worker stores `working_on_`
inside the section of its pop. So a pop of `m` is either before the rebuild,
and then visible in `working_on_` when the spin starts, or it does not happen,
unless a hint for `m` still waits for the lock and pushes after the rebuild.
-/

namespace Memnon.PrefetchWorker

open Memnon.Lib

variable {T M : Type}

/-! ## 1. The manager the worker holds -/

/-- `mgr_to_grow == m`. -/
def WorkerPc.holds [DecidableEq M] (m : M) : WorkerPc M → Bool
  | .setWorkingOn m' | .unlockQueue (some m') | .grow m' | .clearWorkingOn m' => m' = m
  | _ => false

/-- From the store of `working_on_` to its reset it names the manager held. -/
def WorkingOnInv [DecidableEq M] (s : State T M) : Prop :=
  ∀ m, s.worker.holds m = true → s.worker = .setWorkingOn m ∨ s.workingOn = some m

variable [DecidableEq M]

@[simp] theorem notifyOne_holds (m : M) (w : WorkerPc M) :
    (notifyOne w).holds m = w.holds m := by
  cases w <;> rfl

omit [DecidableEq M] in
theorem notifyOne_eq_setWorkingOn {m : M} {w : WorkerPc M} :
    notifyOne w = .setWorkingOn m ↔ w = .setWorkingOn m := by
  cases w <;> simp [notifyOne]

/-- The queue loses exactly the entries of the unregistered manager. -/
theorem rebuildQueue_eq (mgr : M) (queue newQ : List M) :
    rebuildQueue mgr queue newQ = newQ ++ queue.filter (· ≠ mgr) := by
  induction queue generalizing newQ with
  | nil => simp [rebuildQueue]
  | cons m queue ih =>
    by_cases hm : m = mgr
    · simp [rebuildQueue, ih, hm]
    · simp [rebuildQueue, ih, hm]

/-! ## 2. What one step does to the queue and to the manager held -/

/-- The worker holds a manager only by popping it, and it stores `working_on_`
    before it leaves the critical section of the pop. -/
theorem workerStep_holds {s s' : State T M} (h : workerStep s = some s') (m : M) :
    (m ∈ s'.queue → m ∈ s.queue) ∧
      (s'.worker = .setWorkingOn m → m ∈ s.queue) ∧
      (s'.worker.holds m = true → m ∈ s.queue ∨ s.worker.holds m = true) ∧
      (WorkingOnInv s → WorkingOnInv s') := by
  cases hw : s.worker with
  | unlockQueue mgr =>
    cases mgr <;> simp only [workerStep, hw, Option.some.injEq] at h <;> subst h <;>
      simp_all [WorkerPc.holds, WorkingOnInv]
  | pop =>
    simp only [workerStep, hw] at h
    split at h <;> cases h <;> simp_all [WorkerPc.holds, WorkingOnInv, eq_comm]
  | predStop hasWork =>
    simp only [workerStep, hw, Option.some.injEq] at h
    subst h
    cases hb : s.stop || hasWork <;> simp [WorkerPc.holds, WorkingOnInv]
  | checkStop =>
    simp only [workerStep, hw, Option.some.injEq] at h
    subst h
    cases s.stop <;> simp [WorkerPc.holds, WorkingOnInv]
  | unlockSleep leave =>
    simp only [workerStep, hw, Option.some.injEq] at h
    subst h
    cases leave <;> simp [WorkerPc.holds, WorkingOnInv]
  | _ =>
    simp only [workerStep, hw] at h
    (try split at h) <;> cases h <;> simp_all [WorkerPc.holds, WorkingOnInv]

variable [DecidableEq T]

/-- Only `hint_growth(m)` puts `m` into the queue, and no client touches
    `mgr_to_grow` or `working_on_`. -/
theorem threadStep_holds {s s' : State T M} {t : T} (h : threadStep s t = some s') (m : M) :
    (m ∈ s'.queue → m ∈ s.queue ∨ s.pc t = .hintCheck m) ∧
      (s'.pc t = .hintCheck m → s.pc t = .hintLockQueue m) ∧
      s'.pc t ≠ .hintLockQueue m ∧
      (s'.worker = .setWorkingOn m → s.worker = .setWorkingOn m) ∧
      (s'.worker.holds m = true → s.worker.holds m = true) ∧
      (WorkingOnInv s → WorkingOnInv s') := by
  cases hpc : s.pc t with
  | unregRebuild m' =>
    simp only [threadStep, hpc, Option.some.injEq] at h
    subst h
    simp_all [WorkingOnInv, rebuildQueue_eq]
  | unregNotify m' | hintNotify m' =>
    simp only [threadStep, hpc, Option.some.injEq] at h
    subst h
    simp_all [WorkingOnInv, notifyOne_eq_setWorkingOn]
  | hintCheck m' =>
    simp only [threadStep, hpc] at h
    split at h <;> cases h <;> simp_all [WorkingOnInv]
    rintro (hm | hm)
    · exact .inl hm
    · exact .inr hm.symm
  | _ =>
    simp only [threadStep, hpc] at h
    (try split at h) <;> cases h <;> simp_all [WorkerPc.holds, WorkingOnInv]

theorem workingOnInv_step {s s' : State T M} {l : Label T M} (hinv : WorkingOnInv s)
    (h : step s l = some s') : WorkingOnInv s' := by
  cases l with
  | worker =>
    intro m
    exact (workerStep_holds h m).2.2.2 hinv m
  | spurious =>
    simp only [step] at h
    split at h
    · cases h
      intro m hm
      cases hm
    · cases h
  | call t op m' =>
    obtain ⟨-, rfl⟩ := callStep_eq_some h
    exact hinv
  | spawnFails t =>
    obtain ⟨m, -, rfl⟩ := spawnFails_eq_some h
    exact hinv
  | thread t =>
    intro m
    exact (threadStep_holds h m).2.2.2.2.2 hinv m

/-! ## 3. The window of an unregistration -/

/-- No thread enters `hint_growth(m)`. -/
def NoHint (m : M) (_ : State T M) : Label T M → Prop
  | .call _ .hint m' => m' ≠ m
  | _ => True

instance (m : M) (s : State T M) : (l : Label T M) → Decidable (NoHint m s l)
  | .call _ .hint m' => inferInstanceAs (Decidable (m' ≠ m))
  | .call _ .register _ | .call _ .unregister _ | .worker | .spurious | .thread _
  | .spawnFails _ => .isTrue trivial

/-- No call of `hint_growth(m)` still waits for `queue_lock_`. -/
def NoneWaits (m : M) (s : State T M) : Prop := ∀ t, s.pc t ≠ .hintLockQueue m

/-- `m` is in the queue of no one and on its way to no queue. -/
structure Dropped (m : M) (s : State T M) : Prop where
  queue : m ∉ s.queue
  hint : ∀ t, s.pc t ≠ .hintCheck m
  popped : s.worker ≠ .setWorkingOn m

omit [DecidableEq M] in
theorem NoneWaits.goto {m : M} {s : State T M} {t : T} {p : ThreadPc M} (hnone : NoneWaits m s)
    (hp : p ≠ .hintLockQueue m) : NoneWaits m (s.goto t p) := by
  intro u hu
  rw [State.goto_pc] at hu
  split at hu
  · exact hp hu
  · exact hnone u hu

theorem noneWaits_step {m : M} {s s' : State T M} {l : Label T M} (hnone : NoneWaits m s)
    (hC : NoHint m s l) (h : step s l = some s') : NoneWaits m s' := by
  cases l with
  | worker => exact fun t => (workerStep_locks h).1 ▸ hnone t
  | spurious =>
    simp only [step] at h
    split at h
    · cases h
      exact hnone
    · cases h
  | call t op m' =>
    obtain ⟨-, rfl⟩ := callStep_eq_some h
    apply hnone.goto
    cases op with
    | register | unregister => simp [Op.entry]
    | hint => exact fun hm => hC (ThreadPc.hintLockQueue.inj hm)
  | spawnFails t =>
    obtain ⟨m', -, rfl⟩ := spawnFails_eq_some h
    exact hnone.goto (by simp)
  | thread t =>
    intro u hu
    by_cases hut : u = t
    · subst hut
      exact (threadStep_holds h m).2.2.1 hu
    · exact hnone u ((threadStep_locks h).1 u hut ▸ hu)

omit [DecidableEq M] in
theorem Dropped.goto {m : M} {s : State T M} {t : T} {p : ThreadPc M} (hd : Dropped m s)
    (hp : p ≠ .hintCheck m) : Dropped m (s.goto t p) := by
  refine ⟨hd.queue, fun u hu => ?_, hd.popped⟩
  rw [State.goto_pc] at hu
  split at hu
  · exact hp hu
  · exact hd.hint u hu

theorem dropped_step {m : M} {s s' : State T M} {l : Label T M} (hnone : NoneWaits m s)
    (hd : Dropped m s) (h : step s l = some s') : Dropped m s' := by
  cases l with
  | worker =>
    obtain ⟨hq, hh, hp⟩ := hd
    obtain ⟨hqueue, hpop, -⟩ := workerStep_holds h m
    obtain ⟨hpc, -⟩ := workerStep_locks h
    exact ⟨fun hm => hq (hqueue hm), fun t => hpc ▸ hh t, fun hw => hq (hpop hw)⟩
  | spurious =>
    simp only [step] at h
    split at h
    · cases h
      exact ⟨hd.queue, hd.hint, by simp⟩
    · cases h
  | call t op m' =>
    obtain ⟨-, rfl⟩ := callStep_eq_some h
    apply hd.goto
    cases op <;> simp [Op.entry]
  | spawnFails t =>
    obtain ⟨m', -, rfl⟩ := spawnFails_eq_some h
    exact hd.goto (by simp)
  | thread t =>
    obtain ⟨hqueue, hself, -, hpop, -⟩ := threadStep_holds h m
    obtain ⟨hpc, -⟩ := threadStep_locks h
    refine ⟨fun hm => ?_, fun u hu => ?_, fun hw => hd.popped (hpop hw)⟩
    · rcases hqueue hm with hm | hm
      · exact hd.queue hm
      · exact hd.hint t hm
    · by_cases hut : u = t
      · subst hut
        exact hnone u (hself hu)
      · exact hd.hint u (hpc u hut ▸ hu)

/-- The rebuild drops `m`: while its lock is held no pop and no hint is under
    way. -/
theorem rebuild_drops {m : M} {s s' : State T M} {t : T} (hl : LockInv s)
    (hpc : s.pc t = .unregRebuild m) (h : step s (.thread t) = some s') : Dropped m s' := by
  have hholds : s.holdsQueueLock (.thread t) = true := by
    simp only [State.holdsQueueLock, hpc, ThreadPc.holdsQueueLock]
  simp only [step, threadStep, hpc, Option.some.injEq] at h
  subst h
  refine ⟨?_, fun u hu => ?_, fun hw => ?_⟩
  · simp [rebuildQueue_eq]
  · simp only [State.goto_pc] at hu
    split at hu
    · cases hu
    · have hu' : s.holdsQueueLock (.thread u) = true := by
        simp only [State.holdsQueueLock, hu, ThreadPc.holdsQueueLock]
      exact absurd (Owner.thread.inj (hl.queue.exclusive hu' hholds)) ‹¬u = t›
  · have hw' : s.holdsQueueLock .worker = true := by
      simp only [State.goto_worker] at hw
      simp only [State.holdsQueueLock, hw, WorkerPc.holdsQueueLock]
    exact absurd (hl.queue.exclusive hw' hholds) (by simp)

/-- In `unregister_manager(m)`, with the rebuild still to come. -/
def ThreadPc.beforeRebuild (m : M) (p : ThreadPc M) : Prop :=
  p = .unregLockQueue m ∨ p = .unregRebuild m

/-- While thread `t` has the rebuild before it, it keeps its place until it
    takes the step itself. -/
theorem window_step {m : M} {s s' : State T M} {t : T} {l : Label T M} (hl : LockInv s)
    (hnone : NoneWaits m s) (hwin : (s.pc t).beforeRebuild m ∨ Dropped m s)
    (h : step s l = some s') : (s'.pc t).beforeRebuild m ∨ Dropped m s' := by
  rcases hwin with hpc | hd
  · cases l with
    | worker => exact .inl ((workerStep_locks h).1 ▸ hpc)
    | spurious =>
      simp only [step] at h
      split at h
      · cases h
        exact .inl hpc
      · cases h
    | call u op m' =>
      obtain ⟨hidle, rfl⟩ := callStep_eq_some h
      have hut : t ≠ u := by
        rintro rfl
        simp [hidle, ThreadPc.beforeRebuild] at hpc
      left
      rwa [State.goto_pc, if_neg hut]
    | spawnFails u =>
      obtain ⟨m', hspawn, rfl⟩ := spawnFails_eq_some h
      have hut : t ≠ u := by
        rintro rfl
        simp [hspawn, ThreadPc.beforeRebuild] at hpc
      left
      rwa [State.goto_pc, if_neg hut]
    | thread u =>
      by_cases hut : t = u
      · subst hut
        rcases hpc with hpc | hpc
        · simp only [step, threadStep, hpc] at h
          split at h
          · cases h
            left
            simp [ThreadPc.beforeRebuild]
          · cases h
        · exact .inr (rebuild_drops hl hpc h)
      · exact .inl ((threadStep_locks h).1 t hut ▸ hpc)
  · exact .inr (dropped_step hnone hd h)

/-- Once dropped and not held, `m` is not held again. -/
theorem released_step {m : M} {s s' : State T M} {l : Label T M} (hd : Dropped m s)
    (hfree : s.worker.holds m = false) (h : step s l = some s') :
    s'.worker.holds m = false := by
  by_contra hcon
  have hheld : s'.worker.holds m = true := by simpa using hcon
  cases l with
  | worker =>
    rcases (workerStep_holds h m).2.2.1 hheld with hm | hm
    · exact hd.queue hm
    · simp [hfree] at hm
  | spurious =>
    simp only [step] at h
    split at h
    · cases h
      cases hheld
    · cases h
  | call t op m' =>
    obtain ⟨-, rfl⟩ := callStep_eq_some h
    simp [hfree] at hheld
  | spawnFails t =>
    obtain ⟨m', -, rfl⟩ := spawnFails_eq_some h
    simp [hfree] at hheld
  | thread t =>
    have hm := (threadStep_holds h m).2.2.2.2.1 hheld
    simp [hfree] at hm

/-! ## 4. Result -/

/-- Thread `t` starts `unregister_manager(m)` in `s`, where no hint for `m` still
    waits for `queue_lock_`, and nobody enters `hint_growth(m)` from then on. Once
    `t` has passed its wait on `working_on_`, at `s₂`, the manager is neither in
    the queue nor in the worker's hands, and the worker does not call
    `grow_background` on it. -/
theorem unregistered_manager_unused {m : M} {t : T} {s s₀ s₁ s₂ s₃ : State T M}
    (hreach : Steps step anyStep State.initial s) (hnone : NoneWaits m s)
    (hcall : step s (.call t .unregister m) = some s₀)
    (hwait : Steps step (NoHint m) s₀ s₁)
    (hspin : s₁.pc t = .unregSpin m)
    (hpass : step s₁ (.thread t) = some s₂)
    (hafter : Steps step (NoHint m) s₂ s₃) :
    m ∉ s₃.queue ∧ s₃.worker.holds m = false ∧ s₃.worker ≠ .grow m := by
  have hbase : LockInv s ∧ WorkingOnInv s := by
    refine hreach.invariant (fun a => LockInv a ∧ WorkingOnInv a) ⟨lockInv_initial, ?_⟩ ?_
    · intro m' hm'
      cases hm'
    · intro a l b hab _ hs
      exact ⟨lockInv_step hab.1 hs, workingOnInv_step hab.2 hs⟩
  have hstart : (s₀.pc t).beforeRebuild m := by
    obtain ⟨-, rfl⟩ := callStep_eq_some hcall
    left
    simp [Op.entry]
  have hwindow : (LockInv s₁ ∧ WorkingOnInv s₁) ∧ NoneWaits m s₁ ∧
      ((s₁.pc t).beforeRebuild m ∨ Dropped m s₁) := by
    refine hwait.invariant (fun a => (LockInv a ∧ WorkingOnInv a) ∧ NoneWaits m a ∧
      ((a.pc t).beforeRebuild m ∨ Dropped m a)) ⟨⟨?_, ?_⟩, ?_, .inl hstart⟩ ?_
    · exact lockInv_step hbase.1 hcall
    · exact workingOnInv_step hbase.2 hcall
    · exact noneWaits_step (l := .call t .unregister m) hnone trivial hcall
    · intro a l b hab hC hs
      exact ⟨⟨lockInv_step hab.1.1 hs, workingOnInv_step hab.1.2 hs⟩,
        noneWaits_step hab.2.1 hC hs, window_step hab.1.1 hab.2.1 hab.2.2 hs⟩
  obtain ⟨⟨-, hworking⟩, hnone₁, hdropped⟩ := hwindow
  have hd : Dropped m s₁ := by
    rcases hdropped with hpc | hd
    · simp [hspin, ThreadPc.beforeRebuild] at hpc
    · exact hd
  -- the load that ends the spin does not see `m`, so the worker does not hold it
  have hfree : s₁.worker.holds m = false := by
    by_contra hcon
    have hheld : s₁.worker.holds m = true := by simpa using hcon
    rcases hworking m hheld with hw | hon
    · exact hd.popped hw
    · simp [step, threadStep, hspin, hon] at hpass
  have hend : NoneWaits m s₃ ∧ Dropped m s₃ ∧ s₃.worker.holds m = false := by
    refine hafter.invariant
      (fun a => NoneWaits m a ∧ Dropped m a ∧ a.worker.holds m = false) ⟨?_, ?_, ?_⟩ ?_
    · exact noneWaits_step (l := .thread t) hnone₁ trivial hpass
    · exact dropped_step hnone₁ hd hpass
    · exact released_step hd hfree hpass
    · intro a l b hab hC hs
      exact ⟨noneWaits_step hab.1 hC hs, dropped_step hab.1 hab.2.1 hs,
        released_step hab.2.1 hab.2.2 hs⟩
  refine ⟨hend.2.1.queue, hend.2.2, fun hw => ?_⟩
  simp [hw, WorkerPc.holds] at hend

/-- A manager unregistered while the worker grows it: the second manager keeps
    the worker alive, and the spin ends only after `working_on_` is reset. -/
theorem unregistered_manager_unused_while_growing :
    ∃ s : State Unit Bool, s.queue = [false] ∧
      true ∉ s.queue ∧ s.worker.holds true = false ∧ s.worker ≠ .grow true := by
  let register : Bool → List (Label Unit Bool) := fun m =>
    .call () .register m :: List.replicate (if m then 5 else 3) (.thread ())
  let hint : Bool → List (Label Unit Bool) := fun m =>
    .call () .hint m :: List.replicate 6 (.thread ())
  let s : State Unit Bool := (replay (restrict step anyStep) State.initial
    (register true ++ register false ++ hint true ++ List.replicate 4 .worker ++
      hint false ++ hint true)).getD State.initial
  let s₀ := (step s (.call () .unregister true)).getD s
  let s₁ := (replay (restrict step (NoHint true)) s₀
    [.thread (), .thread (), .worker, .thread (), .worker]).getD s₀
  let s₂ := (step s₁ (.thread ())).getD s₁
  have hnone : NoneWaits true s := by
    rintro ⟨⟩
    decide
  refine ⟨s₂, by decide, ?_⟩
  exact unregistered_manager_unused (Steps.of_schedule (by decide)) hnone
    (eq_some_getD (by decide) s) (Steps.of_schedule (by decide)) (by decide)
    (eq_some_getD (by decide) s₁) (.refl s₂)

/-- A hint that still waits for `queue_lock_` when its manager is unregistered: it
    pushes after the rebuild, and the worker calls `grow_background` on a manager
    that is being destroyed. Nobody calls `hint_growth` or `register_manager`. -/
theorem waiting_hint_reaches_worker :
    ¬ ∀ s s₀ s₁ s₂ s₃ : State Bool Unit, Steps step anyStep State.initial s →
      step s (.call true .unregister ()) = some s₀ →
      Steps step (fun _ l => ∀ t op, op ≠ .unregister → l ≠ .call t op ()) s₀ s₁ →
      s₁.pc true = .unregSpin () → step s₁ (.thread true) = some s₂ →
      Steps step (fun _ l => ∀ t op, op ≠ .unregister → l ≠ .call t op ()) s₂ s₃ →
      () ∉ s₃.queue ∧ s₃.worker.holds () = false ∧ s₃.worker ≠ .grow () := by
  intro hall
  let before : List (Label Bool Unit) :=
    [.call true .register ()] ++ List.replicate 5 (.thread true) ++ [.call false .hint ()]
  let during : List (Label Bool Unit) := List.replicate 3 (.thread true)
  let after : List (Label Bool Unit) :=
    List.replicate 3 (.thread false) ++ List.replicate 4 .worker
  let s : State Bool Unit :=
    (replay (restrict step anyStep) State.initial before).getD State.initial
  let s₀ := (step s (.call true .unregister ())).getD s
  let s₁ := (replay step s₀ during).getD s₀
  let s₂ := (step s₁ (.thread true)).getD s₁
  let s₃ := (replay step s₂ after).getD s₂
  have hduring : Steps step (fun _ l => ∀ t op, op ≠ .unregister → l ≠ .call t op ()) s₀ s₁ :=
    Steps.of_replay_labels during (by simp [during]) (eq_some_getD (by decide) s₀)
  have hafter : Steps step (fun _ l => ∀ t op, op ≠ .unregister → l ≠ .call t op ()) s₂ s₃ :=
    Steps.of_replay_labels after (by simp [after]) (eq_some_getD (by decide) s₂)
  have hgrow : s₃.worker = .grow () := by decide
  exact (hall s s₀ s₁ s₂ s₃ (Steps.of_schedule (by decide)) (eq_some_getD (by decide) s) hduring
    (by decide) (eq_some_getD (by decide) s₁) hafter).2.2 hgrow

end Memnon.PrefetchWorker
