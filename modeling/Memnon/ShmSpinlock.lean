import Memnon.Lib.Linearizable
import Memnon.Lib.Lock

/-!
# shm_spinlock and detail::spinlock

Threads that run sections under a spin lock, one atomic action at a time: the
exchanges and loads of `lock`, the actions of the section, the store of `unlock`.
The two locks of the source differ in what a thread does that has found the flag
set: `shm_spinlock` loads until the flag is down before it tries again,
`detail::spinlock` tries again at once. `try_lock` gives up.

A section is any program on the state that the lock protects. The other modules
take the sections under a lock as one step; here is why they may.
-/

namespace Memnon.ShmSpinlock

open Memnon.Lib

variable {T Op Act C S Ret : Type} {Resp : Act → Type}

/-! ## 1. The locks -/

inductive Lock where
  | shmSpinlock
  | spinlock
deriving DecidableEq

/-- A lock guard around a section, or a section that is run if `try_lock` returns
    true. -/
inductive Request (Op : Type) where
  | locked (op : Op)
  | tried (op : Op)
deriving DecidableEq

def Request.op : Request Op → Op
  | locked op | tried op => op

/-- Where a thread stands: before the exchange of `flag_`, before the load in the
    inner loop of `lock`, in its section, or about to return. A section that is done
    is about to store to `flag_`. -/
inductive Point (Op Act Ret : Type) (Resp : Act → Type) where
  | outside
  | exchange (r : Request Op)
  | load (op : Op)
  | inside (r : Request Op) (p : Prog Act Resp Ret)
  | returning (r : Request Op) (a : Option Ret)

/-- Where a thread goes on after an exchange that has found `flag_` set. -/
def Lock.refused (lock : Lock) : Request Op → Point Op Act Ret Resp
  | .locked op =>
      match lock with
      | .shmSpinlock => .load op
      | .spinlock => .exchange (.locked op)
  | .tried op => .returning (.tried op) none

/-- What a lock protects, and the sections. -/
structure Sections (Op Act C S Ret : Type) (Resp : Act → Type) where
  exec : (a : Act) → C → S → Resp a × S
  body : Op → Prog Act Resp Ret

structure State (T Op Act S Ret : Type) (Resp : Act → Type) where
  flag : Bool
  data : S
  point : T → Point Op Act Ret Resp

inductive Label (T Op C : Type) where
  | call (t : T) (r : Request Op)
  | run (t : T) (c : C)
  | ret (t : T)
deriving DecidableEq

def Label.thread : Label T Op C → T
  | call t _ | run t _ | ret t => t

variable (lock : Lock) (sec : Sections Op Act C S Ret Resp)

/-- The next action of a thread: `flag_`, the protected state and the point after it. -/
def advance (c : C) (flag : Bool) (data : S) :
    Point Op Act Ret Resp → Option (Bool × S × Point Op Act Ret Resp)
  | .outside | .returning _ _ => none
  | .exchange r =>
      if flag then some (true, data, lock.refused r)
      else some (true, data, .inside r (sec.body r.op))
  | .load op => some (flag, data, if flag then .load op else .exchange (.locked op))
  | .inside r (.act a k) =>
      let out := sec.exec a c data
      some (flag, out.2, .inside r (k out.1))
  | .inside r (.ret a) => some (false, data, .returning r (some a))

variable [DecidableEq T]

def step (s : State T Op Act S Ret Resp) : Label T Op C → Option (State T Op Act S Ret Resp)
  | .call t r =>
      match s.point t with
      | .outside => some { s with point := Function.update s.point t (.exchange r) }
      | _ => none
  | .run t c =>
      (advance lock sec c s.flag s.data (s.point t)).map fun (flag, data, p) =>
        ⟨flag, data, Function.update s.point t p⟩
  | .ret t =>
      match s.point t with
      | .returning _ _ => some { s with point := Function.update s.point t .outside }
      | _ => none

/-- A lock that has just been constructed. -/
def start (T : Type) (Op Act Ret : Type) (Resp : Act → Type) (data : S) :
    State T Op Act S Ret Resp := ⟨false, data, fun _ => .outside⟩

/-! ## 2. Mutual exclusion -/

/-- The lock is held. -/
def Point.holds : Point Op Act Ret Resp → Bool
  | inside _ _ => true
  | outside | exchange _ | load _ | returning _ _ => false

/-- All that an action can be. -/
inductive Advance (c : C) (flag : Bool) (data : S) :
    Point Op Act Ret Resp → Bool → S → Point Op Act Ret Resp → Prop
  | refuse (r : Request Op) (hflag : flag = true) :
      Advance c flag data (.exchange r) flag data (lock.refused r)
  | enter (r : Request Op) (hflag : flag = false) :
      Advance c flag data (.exchange r) true data (.inside r (sec.body r.op))
  | spin (op : Op) (hflag : flag = true) : Advance c flag data (.load op) flag data (.load op)
  | retry (op : Op) (hflag : flag = false) :
      Advance c flag data (.load op) flag data (.exchange (.locked op))
  | act (r : Request Op) (a : Act) (k : Resp a → Prog Act Resp Ret) :
      Advance c flag data (.inside r (.act a k)) flag (sec.exec a c data).2
        (.inside r (k (sec.exec a c data).1))
  | leave (r : Request Op) (a : Ret) :
      Advance c flag data (.inside r (.ret a)) false data (.returning r (some a))

section steps

variable {lock sec} {c : C} {flag flag' : Bool} {data data' : S}
  {p p' : Point Op Act Ret Resp} {s s' : State T Op Act S Ret Resp} {l : Label T Op C}

omit [DecidableEq T] in
theorem advance_cases (h : advance lock sec c flag data p = some (flag', data', p')) :
    Advance lock sec c flag data p flag' data' p' := by
  cases p with
  | outside => cases h
  | returning r a => cases h
  | exchange r =>
    cases flag with
    | true =>
      cases h
      exact .refuse r rfl
    | false =>
      cases h
      exact .enter r rfl
  | load op =>
    cases flag with
    | true =>
      cases h
      exact .spin op rfl
    | false =>
      cases h
      exact .retry op rfl
  | inside r prog =>
    cases prog with
    | ret a =>
      cases h
      exact .leave r a
    | act a k =>
      cases h
      exact .act r a k

/-- All that a step can be. -/
theorem step_cases (h : step lock sec s l = some s') :
    (∃ t r, l = .call t r ∧ s.point t = .outside ∧
      s' = ⟨s.flag, s.data, Function.update s.point t (.exchange r)⟩) ∨
    (∃ t c flag data p, l = .run t c ∧
      Advance lock sec c s.flag s.data (s.point t) flag data p ∧
      s' = ⟨flag, data, Function.update s.point t p⟩) ∨
    (∃ t r a, l = .ret t ∧ s.point t = .returning r a ∧
      s' = ⟨s.flag, s.data, Function.update s.point t .outside⟩) := by
  cases l with
  | call t r =>
    simp only [step] at h
    split at h
    · exact .inl ⟨t, r, rfl, ‹_›, (Option.some.inj h).symm⟩
    · cases h
  | run t c =>
    obtain ⟨⟨flag, data, p⟩, hadvance, rfl⟩ := Option.map_eq_some_iff.mp h
    exact .inr (.inl ⟨t, c, flag, data, p, rfl, advance_cases hadvance, rfl⟩)
  | ret t =>
    simp only [step] at h
    split at h
    · exact .inr (.inr ⟨t, _, _, rfl, ‹_›, (Option.some.inj h).symm⟩)
    · cases h

omit [DecidableEq T] in
theorem Lock.refused_holds (lock : Lock) (r : Request Op) :
    (lock.refused r : Point Op Act Ret Resp).holds = false := by
  cases r with
  | locked op => cases lock <;> rfl
  | tried op => rfl

/-- Exactly one thread is in its section when `flag_` is set, and none otherwise. -/
def Exclusive (s : State T Op Act S Ret Resp) : Prop :=
  ∃ o : Option T, s.flag = o.isSome ∧ OwnedExactly o fun t => (s.point t).holds

omit [DecidableEq T] in
theorem exclusive_start (data : S) : Exclusive (start T Op Act Ret Resp data) :=
  ⟨none, rfl, fun _ => iff_of_false nofun Bool.false_ne_true⟩

omit [DecidableEq T] in
theorem Exclusive.eq {t u : T} (h : Exclusive s) (ht : (s.point t).holds = true)
    (hu : (s.point u).holds = true) : t = u := by
  obtain ⟨o, -, howner⟩ := h
  exact Option.some.inj (((howner t).mpr ht).symm.trans ((howner u).mpr hu))

omit [DecidableEq T] in
theorem Exclusive.flag_iff (h : Exclusive s) :
    s.flag = true ↔ ∃ t, (s.point t).holds = true := by
  obtain ⟨o, hflag, howner⟩ := h
  rw [hflag, Option.isSome_iff_exists]
  exact exists_congr howner

/-- A step that leaves the lock alone. -/
theorem Exclusive.keep {t : T} (h : Exclusive s) (hp : p.holds = (s.point t).holds) :
    Exclusive ⟨s.flag, data, Function.update s.point t p⟩ := by
  obtain ⟨o, hflag, howner⟩ := h
  exact ⟨o, hflag, howner.keep hp⟩

theorem Exclusive.advance {t : T} (h : Exclusive s)
    (hs : Advance lock sec c s.flag s.data (s.point t) flag data p) :
    Exclusive ⟨flag, data, Function.update s.point t p⟩ := by
  generalize hp : s.point t = before at hs
  cases hs with
  | refuse r hflag => exact h.keep (by rw [hp, Lock.refused_holds]; rfl)
  | spin op hflag => exact h.keep (by rw [hp])
  | retry op hflag => exact h.keep (by rw [hp]; rfl)
  | act r a k => exact h.keep (by rw [hp]; rfl)
  | enter r hflag =>
    obtain ⟨o, hsome, howner⟩ := h
    obtain rfl : o = none := Option.isNone_iff_eq_none.mp
      (Option.isSome_eq_false_iff.mp (hsome.symm.trans hflag))
    exact ⟨some t, rfl, howner.acquire rfl⟩
  | leave r a =>
    obtain ⟨o, -, howner⟩ := h
    exact ⟨none, rfl, howner.release (by rw [hp]; rfl) rfl⟩

theorem Exclusive.step (h : Exclusive s) (hs : step lock sec s l = some s') : Exclusive s' := by
  obtain ⟨t, r, rfl, hp, rfl⟩ | ⟨t, c, flag, data, p, rfl, hadvance, rfl⟩ |
    ⟨t, r, a, rfl, hp, rfl⟩ := step_cases hs
  · exact h.keep (by rw [hp]; rfl)
  · exact h.advance hadvance
  · exact h.keep (by rw [hp]; rfl)

/-! ## 3. Sections as single steps -/

def Point.standing : Point Op Act Ret Resp → Standing (Request Op) (Option Ret)
  | outside => none
  | exchange r | inside r _ => some (r, none)
  | load op => some (.locked op, none)
  | returning r a => some (r, some a)

/-- Each section runs from its first action to its last one in one moment; a
    `try_lock` may also return false and do nothing. -/
def sectionObject (sec : Sections Op Act C S Ret Resp) (data : S) :
    AtomicObject (Request Op) S (Option Ret) where
  start := data
  Allows r x a x' :=
    (∃ b, a = some b ∧ (sec.body r.op).Reaches sec.exec x (.ret b) x') ∨
      ∃ op, r = .tried op ∧ a = none ∧ x' = x

/-- The calls and returns of a step. -/
def history (s : State T Op Act S Ret Resp) :
    Label T Op C → List (HistoryEvent T (Request Op) (Option Ret))
  | .call t r => [.call t r]
  | .run _ _ => []
  | .ret t =>
      match s.point t with
      | .returning r a => [.ret t r a]
      | _ => []

/-- The value of the object is the protected state while nobody is in a section, and
    the one that the running section has started from otherwise. -/
structure Sim (sec : Sections Op Act C S Ret Resp) (s : State T Op Act S Ret Resp)
    (w : S × (T → Standing (Request Op) (Option Ret))) : Prop where
  exclusive : Exclusive s
  standing : ∀ t, w.2 t = (s.point t).standing
  free : s.flag = false → w.1 = s.data
  inside : ∀ t r p, s.point t = .inside r p →
    (sec.body r.op).Reaches sec.exec w.1 p s.data

omit [DecidableEq T] in
theorem sim_start (data : S) :
    Sim sec (start T Op Act Ret Resp data) ((sectionObject sec data).start, fun _ => none) :=
  ⟨exclusive_start data, fun _ => rfl, fun _ => rfl, fun _ _ _ h => by cases h⟩

/-- Thread `t` moves to `p`. A thread that is in its section is the only one. -/
theorem Sim.move {t : T} {x x' : S} {sts : T → Standing (Request Op) (Option Ret)}
    (h : Sim sec s (x, sts)) (hex : Exclusive ⟨flag, data, Function.update s.point t p⟩)
    (hfree : flag = false → x' = data)
    (hin : ∀ r q, p = .inside r q → (sec.body r.op).Reaches sec.exec x' q data)
    (hothers : (s.point t).holds = false → p.holds = false → x' = x ∧ data = s.data) :
    Sim sec ⟨flag, data, Function.update s.point t p⟩ (x', Function.update sts t p.standing) := by
  refine ⟨hex, fun u => ?_, hfree, fun u r q hu => ?_⟩
  · show Function.update sts t p.standing u = (Function.update s.point t p u).standing
    by_cases hut : u = t
    · subst hut
      rw [Function.update_self, Function.update_self]
    · rw [Function.update_of_ne hut, Function.update_of_ne hut]
      exact h.standing u
  · replace hu : Function.update s.point t p u = .inside r q := hu
    by_cases hut : u = t
    · subst hut
      rw [Function.update_self] at hu
      exact hin r q hu
    · have hholds : (Function.update s.point t p u).holds = true := by rw [hu]; rfl
      rw [Function.update_of_ne hut] at hu
      -- `t` is in no section, before its step or after it
      have hbefore : (s.point t).holds = false := by
        cases hold : (s.point t).holds with
        | false => rfl
        | true => exact absurd (h.exclusive.eq (by rw [hu]; rfl) hold) hut
      have hafter : p.holds = false := by
        cases hnew : p.holds with
        | false => rfl
        | true =>
          have ht : (Function.update s.point t p t).holds = true := by
            rw [Function.update_self]
            exact hnew
          exact absurd (hex.eq hholds ht) hut
      obtain ⟨rfl, rfl⟩ := hothers hbefore hafter
      exact h.inside u r q hu

/-- An action is no event of the object, or it is the moment in which the call takes
    effect: a section when it is left, a `try_lock` when it fails. -/
theorem Sim.advance {t : T} {x₀ x : S} {sts : T → Standing (Request Op) (Option Ret)}
    (h : Sim sec s (x, sts)) (hs : Advance lock sec c s.flag s.data (s.point t) flag data p) :
    ∃ es w', (sectionObject sec x₀).Run (x, sts) es w' ∧ es.filter HistoryEvent.visible = [] ∧
      Sim sec ⟨flag, data, Function.update s.point t p⟩ w' := by
  have hex := h.exclusive.advance hs
  have hst : sts t = (s.point t).standing := h.standing t
  have hfree : s.flag = false → x = s.data := h.free
  have hin : ∀ r q, s.point t = .inside r q →
      (sec.body r.op).Reaches sec.exec x q s.data := h.inside t
  -- nothing happens at the object while the call stays where it stands
  have hquiet : p.standing = (s.point t).standing →
      Sim sec ⟨flag, data, Function.update s.point t p⟩ (x, Function.update sts t p.standing) →
      ∃ es w', (sectionObject sec x₀).Run (x, sts) es w' ∧ es.filter HistoryEvent.visible = [] ∧
        Sim sec ⟨flag, data, Function.update s.point t p⟩ w' := by
    intro hsame hnext
    rw [hsame, ← hst, Function.update_eq_self] at hnext
    exact ⟨[], _, .refl, rfl, hnext⟩
  generalize hp : s.point t = before at hs hst hin hquiet
  have hbefore : (s.point t).holds = before.holds := by rw [hp]
  cases hs with
  | refuse r hflag =>
    have hnone : ∀ r' q, (lock.refused r : Point Op Act Ret Resp) ≠ .inside r' q := by
      intro r' q hq
      have hholds : (lock.refused r : Point Op Act Ret Resp).holds = false := lock.refused_holds r
      rw [hq] at hholds
      cases hholds
    have hnext := h.move hex hfree (fun r' q hq => absurd hq (hnone r' q)) fun _ _ => ⟨rfl, rfl⟩
    cases r with
    | locked op =>
      refine hquiet ?_ hnext
      cases lock <;> rfl
    | tried op =>
      have hallows : (sectionObject sec x₀).Allows (.tried op) x none x :=
        Or.inr ⟨op, rfl, rfl, rfl⟩
      exact ⟨_, _, (AtomicObject.Step.commit hst hallows).run, rfl, hnext⟩
  | enter r hflag =>
    refine hquiet rfl (h.move hex (fun h => by cases h) ?_ fun _ hafter => by cases hafter)
    intro r' q hq
    cases hq
    rw [hfree hflag]
    exact .refl
  | spin op hflag => exact hquiet rfl (h.move hex hfree nofun fun _ _ => ⟨rfl, rfl⟩)
  | retry op hflag => exact hquiet rfl (h.move hex hfree nofun fun _ _ => ⟨rfl, rfl⟩)
  | act r a k =>
    refine hquiet rfl (h.move hex ?_ ?_ fun _ hafter => by cases hafter)
    · intro hflag
      have hset := h.exclusive.flag_iff.mpr ⟨t, by rw [hp]; rfl⟩
      rw [hflag] at hset
      cases hset
    · intro r' q hq
      cases hq
      exact (hin r _ rfl).act c
  | leave r a =>
    have hallows : (sectionObject sec x₀).Allows r x (some a) s.data :=
      Or.inl ⟨a, rfl, hin r _ rfl⟩
    refine ⟨_, _, (AtomicObject.Step.commit hst hallows).run, rfl, ?_⟩
    refine h.move hex (fun _ => rfl) nofun fun hnot => ?_
    rw [hbefore] at hnot
    cases hnot

theorem Sim.step {x₀ : S} {w : S × (T → Standing (Request Op) (Option Ret))} (h : Sim sec s w)
    (hs : step lock sec s l = some s') :
    ∃ es w', (sectionObject sec x₀).Run w es w' ∧
      es.filter HistoryEvent.visible = history s l ∧ Sim sec s' w' := by
  obtain ⟨x, sts⟩ := w
  obtain ⟨t, r, rfl, hp, rfl⟩ | ⟨t, c, flag, data, p, rfl, hadvance, rfl⟩ |
    ⟨t, r, a, rfl, hp, rfl⟩ := step_cases hs
  · have hst : sts t = none := (h.standing t).trans (by rw [hp]; rfl)
    refine ⟨_, _, (AtomicObject.Step.call hst).run, rfl, ?_⟩
    exact h.move (h.exclusive.keep (by rw [hp]; rfl)) h.free nofun fun _ _ => ⟨rfl, rfl⟩
  · exact h.advance hadvance
  · have hst : sts t = some (r, some a) := (h.standing t).trans (by rw [hp]; rfl)
    refine ⟨_, _, (AtomicObject.Step.ret hst).run, ?_, ?_⟩
    · simp only [history, hp]
      rfl
    · exact h.move (h.exclusive.keep (by rw [hp]; rfl)) h.free nofun fun _ _ => ⟨rfl, rfl⟩

/-- Whatever the threads do between the actions of a section, it is as if the section
    had run in one moment between its call and its return. A `try_lock` that returns
    false has changed nothing. -/
theorem sections_linearizable {data : S} {h : List (HistoryEvent T (Request Op) (Option Ret))}
    (hrun : Steps (logged (step lock sec) history) anyStep
      (start T Op Act Ret Resp data, []) (s, h)) : (sectionObject sec data).Linearizable h :=
  AtomicObject.linearizable_of_simulation (R := Sim sec) (C := fun _ _ => True)
    (sim_start data) (fun hsim _ hs => hsim.step hs) hrun

/-! ## 4. Progress -/

/-- The call of `t` returns by steps of `t` alone. -/
def Returns (lock : Lock) (sec : Sections Op Act C S Ret Resp) (s : State T Op Act S Ret Resp)
    (t : T) : Prop :=
  ∃ ls s', (∀ l ∈ ls, Label.thread l = t) ∧ replay (step lock sec) s ls = some s' ∧
    s'.point t = .outside

theorem Returns.of_step (hs : step lock sec s l = some s') (h : Returns lock sec s' l.thread) :
    Returns lock sec s l.thread := by
  obtain ⟨ls, s'', hls, hreplay, hend⟩ := h
  refine ⟨l :: ls, s'', List.forall_mem_cons.mpr ⟨rfl, hls⟩, ?_, hend⟩
  rw [replay, List.foldlM_cons, hs]
  exact hreplay

/-- The next action of a thread. -/
theorem step_run {t : T} (h : advance lock sec c s.flag s.data (s.point t) = some (flag, data, p)) :
    step lock sec s (.run t c) = some ⟨flag, data, Function.update s.point t p⟩ := by
  simp only [step, h, Option.map_some]

theorem returns_of_returning {t : T} {r : Request Op} {a : Option Ret}
    (h : s.point t = .returning r a) : Returns lock sec s t := by
  refine ⟨[.ret t], ⟨s.flag, s.data, Function.update s.point t .outside⟩,
    List.forall_mem_singleton.mpr rfl, ?_, Function.update_self ..⟩
  simp [replay, step, h]

/-- A section has finitely many actions, and so has the way out of it. -/
theorem returns_of_inside (c : C) {t : T} {r : Request Op} {prog : Prog Act Resp Ret}
    (h : s.point t = .inside r prog) : Returns lock sec s t := by
  induction prog generalizing s with
  | ret a =>
    have hs : step lock sec s (.run t c) = some ⟨false, s.data,
        Function.update s.point t (.returning r (some a))⟩ := step_run (by rw [h]; rfl)
    exact Returns.of_step hs (returns_of_returning (Function.update_self ..))
  | act a k ih =>
    have hs : step lock sec s (.run t c) = some ⟨s.flag, (sec.exec a c s.data).2,
        Function.update s.point t (.inside r (k (sec.exec a c s.data).1))⟩ :=
      step_run (by rw [h]; rfl)
    exact Returns.of_step hs (ih _ (Function.update_self ..))

/-- With the flag down, the next exchange succeeds. -/
theorem returns_of_exchange (c : C) {t : T} {r : Request Op} (hflag : s.flag = false)
    (h : s.point t = .exchange r) : Returns lock sec s t := by
  have hs : step lock sec s (.run t c) = some ⟨true, s.data,
      Function.update s.point t (.inside r (sec.body r.op))⟩ := by
    apply step_run
    rw [h, hflag]
    rfl
  exact Returns.of_step hs (returns_of_inside c (Function.update_self ..))

theorem returns_of_free (c : C) {t : T} (hflag : s.flag = false) (ht : s.point t ≠ .outside) :
    Returns lock sec s t := by
  cases h : s.point t with
  | outside => exact absurd h ht
  | exchange r => exact returns_of_exchange c hflag h
  | load op =>
    have hs : step lock sec s (.run t c) = some ⟨s.flag, s.data,
        Function.update s.point t (.exchange (.locked op))⟩ := by
      apply step_run
      rw [h, hflag]
      rfl
    exact Returns.of_step hs (returns_of_exchange c hflag (Function.update_self ..))
  | inside r prog => exact returns_of_inside c h
  | returning r a => exact returns_of_returning h

/-- In every interleaving at most one thread is in a section, the flag tells whether
    one is, and nobody is stuck: the thread in a section comes out of it by itself,
    and with the flag down every waiting thread goes through its section by itself. -/
theorem lock_exclusive_and_live {data : S}
    (hrun : Steps (step lock sec) anyStep (start T Op Act Ret Resp data) s) (c : C) :
    (∀ t u, (s.point t).holds = true → (s.point u).holds = true → t = u) ∧
      (s.flag = true ↔ ∃ t, (s.point t).holds = true) ∧
      (∀ t, (s.point t).holds = true → Returns lock sec s t) ∧
      (s.flag = false → ∀ t, s.point t ≠ .outside → Returns lock sec s t) := by
  have hex := hrun.invariant Exclusive (exclusive_start data) fun _ _ _ h _ hs => h.step hs
  refine ⟨fun t u => hex.eq, hex.flag_iff, fun t ht => ?_, fun hflag t => returns_of_free c hflag⟩
  cases h : s.point t with
  | inside r prog => exact returns_of_inside c h
  | _ =>
    rw [h] at ht
    cases ht

end steps

/-! ## 5. A counter -/

/-- Loads and stores of one word. -/
inductive CounterAct where
  | load
  | store (n : Nat)

abbrev CounterResp : CounterAct → Type
  | .load => Nat
  | .store _ => Unit

/-- An increment is a load and a store: without a lock, increments are lost. -/
def counter : Sections Unit CounterAct Unit Nat Nat CounterResp where
  exec
    | .load, _, n => (n, n)
    | .store n, _, _ => ((), n)
  body _ := .act .load fun n => .act (.store (n + 1)) fun _ => .ret n

/-- Thread `true` waits for thread `false` and returns after it. -/
def waitingThread : List (Label Bool Unit Unit) :=
  [.call false (.locked ()), .run false (), .run false (), .call true (.locked ()), .run true (),
    .run true (), .run false (), .run false (), .ret false, .run true (), .run true (),
    .run true (), .run true (), .run true (), .ret true]

def waitingHistory : List (HistoryEvent Bool (Request Unit) (Option Nat)) :=
  [.call false (.locked ()), .call true (.locked ()), .ret false (.locked ()) (some 0),
    .ret true (.locked ()) (some 1)]

theorem sections_linearizable_counter : (sectionObject counter 0).Linearizable waitingHistory := by
  have hrun : (replay (restrict (logged (step .shmSpinlock counter) history) anyStep)
      (start Bool Unit CounterAct Nat CounterResp 0, []) waitingThread).any
        (fun r => decide (r.2 = waitingHistory)) = true := by decide
  obtain ⟨⟨s, h⟩, hr, htest⟩ := Steps.exists_of_replay waitingThread hrun
  obtain rfl := of_decide_eq_true htest
  exact sections_linearizable hr

/-- While a thread spins, the one in the section can leave it. -/
theorem lock_exclusive_and_live_counter :
    ∃ s : State Bool Unit CounterAct Nat Nat CounterResp,
      s.point true = .load () ∧ Returns .shmSpinlock counter s false := by
  have hrun : (replay (restrict (step .shmSpinlock counter) anyStep)
      (start Bool Unit CounterAct Nat CounterResp 0) (waitingThread.take 6)).isSome = true := by
    decide
  exact ⟨_, rfl, (lock_exclusive_and_live (Steps.of_schedule hrun) ()).2.2.1 false rfl⟩

end Memnon.ShmSpinlock
