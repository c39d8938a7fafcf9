import Memnon.NameThreads
import Memnon.Lib.Linearizable

/-!
# The names of a manager as one directory

`find`, `construct`, `find_or_construct` and `destroy` take `list_mtx_` for one section at
a time, and other threads come between the sections, also those that grow the manager. Still
each call takes effect in one moment, in one of its sections, on one map from names to
objects, whichever segments the objects are in. What is asked of the runs is that no
construction finds room in one segment for a name that another one holds.
-/

namespace Memnon.NameDirectory

open Memnon.Lib
open Memnon.NameThreads (Grower)

variable {H N T : Type}

/-! ## 1. The directory -/

/-- With `orFind`, it is `find_or_construct` that constructs. -/
inductive NameCall (N : Type) where
  | find (name : N)
  | construct (orFind : Bool) (name : N) (bytes : Word)
  | destroy (name : N)
deriving DecidableEq

inductive Answer where
  | object (ptr : Option Word)
  | destroyed (done : Bool)
  | thrown (e : Exn)
deriving DecidableEq

section directory

variable [DecidableEq N]

/-- What a call does to the objects. A construction makes an object only of a name that has
    none; when it returns null or throws, it has changed nothing. -/
def Does (call : NameCall N) (d : N → Option Word) (a : Answer) (d' : N → Option Word) : Prop :=
  match call, a with
  | .find name, .object ptr => ptr = d name ∧ d' = d
  | .construct orFind name _, .object (some ptr) =>
      (orFind = true ∧ d name = some ptr ∧ d' = d) ∨
      (d name = none ∧ d' = Function.update d name (some ptr))
  | .construct _ _ _, .object none | .construct _ _ _, .thrown _ => d' = d
  | .destroy name, .destroyed done => done = (d name).isSome ∧ d' = Function.update d name none
  | .find _, .destroyed _ | .find _, .thrown _ | .construct _ _ _, .destroyed _
  | .destroy _, .object _ | .destroy _, .thrown _ => False

def directory (d₀ : N → Option Word) : AtomicObject (NameCall N) (N → Option Word) Answer where
  start := d₀
  Allows := Does

end directory

/-! ## 2. The threads -/

/-- What a thread calls. The other functions are sequences of their sections and of growths,
    in any order. -/
inductive Task (N : Type) where
  | name (call : NameCall N)
  | allocate (bytes : Word)
  | deallocate (ptr : Word)
  | grow (minBytes : Word)
  | growBackground
deriving DecidableEq

/-- Where a thread stands, with what it carries. -/
inductive Point (N : Type) where
  | idle
  | allocate (bytes : Word)
  | deallocate (ptr : Word)
  | find (name : N)
  | search (name : N) (bytes : Word)
  | construct (orFind : Bool) (name : N) (bytes : Word)
  | growLock (orFind : Bool) (g : Grower N)
  | growRead (orFind : Bool) (g : Grower N)
  | growMap (orFind : Bool) (g : Grower N) (newChunkSize currentFileSize : Word)
  | constructLast (orFind : Bool) (name : N) (bytes : Word)
  | destroy (name : N)
  | returning (call : NameCall N) (a : Answer)

def NameCall.entry : NameCall N → Point N
  | .find name => .find name
  | .construct true name bytes => .search name bytes
  | .construct false name bytes => .construct false name bytes
  | .destroy name => .destroy name

def Task.entry : Task N → Point N
  | .name call => call.entry
  | .allocate bytes => .allocate bytes
  | .deallocate ptr => .deallocate ptr
  | .grow minBytes => .growLock false (.grow minBytes none)
  | .growBackground => .growLock false .background

structure State (T H N : Type) where
  manager : Manager H
  growMtx : Option T
  point : T → Point N

inductive Label (T H N : Type) where
  | call (t : T) (task : Task N)
  | run (t : T) (env : Env H)
  | ret (t : T)

/-- Where a thread goes on when its growth returns. -/
def afterGrowth (orFind : Bool) : Grower N → Point N
  | .grow _ (some (name, bytes)) => .constructLast orFind name bytes
  | .grow _ none | .background => .idle

section system

variable [DecidableEq T] (P : Platform) (I : InnerManager H N)

def State.goto (s : State T H N) (t : T) (m : Manager H) (growMtx : Option T) (p : Point N) :
    State T H N :=
  ⟨m, growMtx, Function.update s.point t p⟩

/-- The next section of `t`. An exception that leaves `grow_background`, which is `noexcept`,
    ends the process. -/
def runSection (env : Env H) (t : T) (s : State T H N) : Option (State T H N) :=
  match s.point t with
  | .idle | .returning _ _ => none
  | .allocate bytes =>
      ((Call.guarded (listMtx H) (tryAllocateLocked I bytes)).run s.manager).state.map fun m =>
        s.goto t m s.growMtx .idle
  | .deallocate ptr =>
      ((Memnon.deallocate P I ptr).run s.manager).state.map fun m => s.goto t m s.growMtx .idle
  | .find name =>
      match (find I name).run s.manager with
      | .value ptr m => some (s.goto t m s.growMtx (.returning (.find name) (.object ptr)))
      | .thrown _ _ | .stuck => none
  | .search name bytes =>
      match (find I name).run s.manager with
      | .value (some ptr) m =>
          some (s.goto t m s.growMtx (.returning (.construct true name bytes) (.object (some ptr))))
      | .value none m => some (s.goto t m s.growMtx (.construct true name bytes))
      | .thrown _ _ | .stuck => none
  | .construct orFind name bytes =>
      match (Call.guarded (listMtx H) (constructExisting I name bytes (pure ()))).run s.manager with
      | .value (some ptr) m =>
          some (s.goto t m s.growMtx
            (.returning (.construct orFind name bytes) (.object (some ptr))))
      | .value none m =>
          some (s.goto t m s.growMtx
            (.growLock orFind (.grow (bytes + 1024#64) (some (name, bytes)))))
      | .thrown e m =>
          some (s.goto t m s.growMtx (.returning (.construct orFind name bytes) (.thrown e)))
      | .stuck => none
  | .growLock orFind g =>
      match s.growMtx, g with
      | none, g => some (s.goto t s.manager (some t) (.growRead orFind g))
      | some _, .grow _ _ => none
      | some _, .background => some (s.goto t s.manager s.growMtx .idle)
  | .growRead orFind g =>
      match (Call.guarded (listMtx H) (g.read P I)).run s.manager with
      | .value none m => some (s.goto t m none (afterGrowth orFind g))
      | .value (some (newChunkSize, currentFileSize)) m =>
          some (s.goto t m s.growMtx (.growMap orFind g newChunkSize currentFileSize))
      | .thrown _ _ | .stuck => none
  | .growMap orFind g newChunkSize currentFileSize =>
      match (g.map P I env newChunkSize currentFileSize).run s.manager, g with
      | .value _ m, g => some (s.goto t m none (afterGrowth orFind g))
      | .thrown e m, .grow _ (some (name, bytes)) =>
          some (s.goto t m none (.returning (.construct orFind name bytes) (.thrown e)))
      | .thrown _ m, .grow _ none => some (s.goto t m none .idle)
      | .thrown _ _, .background | .stuck, _ => none
  | .constructLast orFind name bytes =>
      match (Call.guarded (listMtx H) (constructLast I name bytes (pure ()))).run s.manager with
      | .value ptr m =>
          some (s.goto t m s.growMtx (.returning (.construct orFind name bytes) (.object ptr)))
      | .thrown e m =>
          some (s.goto t m s.growMtx (.returning (.construct orFind name bytes) (.thrown e)))
      | .stuck => none
  | .destroy name =>
      match (Memnon.destroy I name (pure ())).run s.manager with
      | .value done m => some (s.goto t m s.growMtx (.returning (.destroy name) (.destroyed done)))
      | .thrown _ _ | .stuck => none

def step (s : State T H N) : Label T H N → Option (State T H N)
  | .call t task =>
      match s.point t with
      | .idle => some (s.goto t s.manager s.growMtx task.entry)
      | _ => none
  | .run t env => runSection P I env t s
  | .ret t =>
      match s.point t with
      | .returning _ _ => some (s.goto t s.manager s.growMtx .idle)
      | _ => none

/-- What the threads see of each other's calls. -/
def history (s : State T H N) : Label T H N → List (HistoryEvent T (NameCall N) Answer)
  | .call t (.name call) => [.call t call]
  | .call _ _ | .run _ _ => []
  | .ret t =>
      match s.point t with
      | .returning call a => [.ret t call a]
      | _ => []

def started (m : Manager H) : State T H N := ⟨m, none, fun _ => .idle⟩

/-- No section constructs a name that a segment holds: the first segment that answers
    refuses it, the last one has no room for it. -/
def MakesNoSecond (s : State T H N) : Label T H N → Prop
  | .call _ _ | .ret _ => True
  | .run t _ =>
      match s.point t with
      | .construct _ name bytes =>
          findLoop I name s.manager.segments = none ∨
            (s.manager.segments.find? (SegInfo.answers I name bytes)).all
              (SegInfo.refuses I name bytes) = true
      | .constructLast _ name bytes =>
          findLoop I name s.manager.segments = none ∨
            s.manager.segments.getLast?.all (fun last => !last.hasRoom I name bytes) = true
      | _ => True

end system

/-! ## 3. What the sections do to the names -/

/-- The list starts with the primary segment, no name has two holders, and each name is
    found as the directory has it. -/
structure Names (I : InnerManager H N) (d : N → Option Word) (segments : List (SegInfo H)) :
    Prop where
  front : FrontPrimary segments
  unique : UniqueNames I segments
  found : ∀ name, findLoop I name segments = d name

section names

variable {P : Platform} {I : InnerManager H N} {env : Env H} {d : N → Option Word}
  {pre post segments segments' : List (SegInfo H)} {info : SegInfo H} {name : N}
  {bytes offset p : Word} {smgr : H}

theorem stable_names (hI : I.FindsObjects) (d : N → Option Word) : Stable I (Names I d) where
  fresh h hcreate :=
    { front := (stable_frontPrimary I).fresh h.front hcreate
      unique := fun n =>
        ((stable_heldAs hI.toNamesLawful _).fresh (fun _ => rfl) hcreate n).trans_le (h.unique n)
      found := fun n => (stable_findLoop hI n _).fresh (h.found n) hcreate }
  alloc halloc h :=
    { front := (stable_frontPrimary I).alloc halloc h.front
      unique := fun n => ((stable_heldAs hI.toNamesLawful _).alloc halloc (fun _ => rfl) n).trans_le
        (h.unique n)
      found := fun n => (stable_findLoop hI n _).alloc halloc (h.found n) }
  dealloc h :=
    { front := (stable_frontPrimary I).dealloc h.front
      unique := fun n => ((stable_heldAs hI.toNamesLawful _).dealloc (fun _ => rfl) n).trans_le
        (h.unique n)
      found := fun n => (stable_findLoop hI n _).dealloc (h.found n) }

/-- A segment constructs a name that none of them holds. -/
theorem Names.constructed [DecidableEq N] (hI : I.FindsObjects)
    (hcons : I.construct info.smgr name bytes = .constructed offset smgr) (hnone : d name = none)
    (h : Names I d (pre ++ info :: post)) :
    Names I (Function.update d name (some (info.blockAddr I offset)))
      (pre ++ { info with smgr := smgr } :: post) := by
  have hfree : findLoop I name (pre ++ info :: post) = none := (h.found name).trans hnone
  refine ⟨FrontPrimary.set smgr h.front, fun n => ?_, fun n => ?_⟩
  · rw [holders_constructed hI.toNamesLawful hcons n]
    by_cases hn : n = name
    · subst hn
      exact Nat.le_of_eq (by rw [findLoop_eq_none.mp hfree, if_pos rfl])
    · rw [if_neg hn]
      exact h.unique n
  · by_cases hn : n = name
    · subst hn
      rw [Function.update_self]
      exact findLoop_constructed hI hfree hcons
    · rw [Function.update_of_ne hn]
      exact (findLoop_same (hI.construct_find hcons hn)).trans (h.found n)

/-- A segment destroys the name, which no other one holds. -/
theorem Names.destroyed [DecidableEq N] (hI : I.FindsObjects)
    (hdestroy : I.destroy info.smgr name = some (offset, smgr))
    (h : Names I d (pre ++ info :: post)) :
    (d name).isSome = true ∧
      Names I (Function.update d name none) (pre ++ { info with smgr := smgr } :: post) := by
  have hcount : ∀ n, holders I n (pre ++ info :: post) =
      holders I n (pre ++ { info with smgr := smgr } :: post) + if n = name then 1 else 0 :=
    holders_destroyed hI.toNamesLawful hdestroy
  have hone := hcount name
  have hunique := h.unique name
  rw [if_pos rfl] at hone
  constructor
  · rw [Option.isSome_iff_ne_none]
    intro hnone
    have hzero := findLoop_eq_none.mp ((h.found name).trans hnone)
    omega
  · refine ⟨FrontPrimary.set smgr h.front, fun n => ?_, fun n => ?_⟩
    · exact Nat.le_trans (Nat.le_add_right _ _) ((hcount n).symm.trans_le (h.unique n))
    · by_cases hn : n = name
      · subst hn
        rw [Function.update_self, findLoop_eq_none]
        omega
      · rw [Function.update_of_ne hn]
        exact (findLoop_same (hI.destroy_find hdestroy hn)).trans (h.found n)

theorem findLoop_of_destroyLoop_none (hI : I.NamesLawful)
    (h : destroyLoop I name segments = none) : findLoop I name segments = none := by
  induction segments with
  | nil => rfl
  | cons info rest ih =>
    simp only [destroyLoop] at h
    split at h
    · cases h
    · rename_i hinfo
      split at h
      · cases h
      · rename_i hrest
        have hfind : I.find info.smgr name = none := by simpa using hI.destroy.mp hinfo
        rw [findLoop, List.findSome?_cons, hfind]
        exact ih hrest

theorem Names.destroyLoop [DecidableEq N] (hI : I.FindsObjects) (h : Names I d segments)
    (name : N) :
    match destroyLoop I name segments with
    | some segments' => (d name).isSome = true ∧ Names I (Function.update d name none) segments'
    | none => d name = none := by
  cases hloop : Memnon.destroyLoop I name segments with
  | none => exact (h.found name).symm.trans (findLoop_of_destroyLoop_none hI.toNamesLawful hloop)
  | some segments' =>
    obtain ⟨pre, info, post, offset, smgr, rfl, hdestroy, rfl⟩ := destroyLoop_split hloop
    exact h.destroyed hI hdestroy

/-- Where the first segment that answers refuses, none constructs. -/
theorem constructLoop_of_refuses
    (h : (segments.find? (SegInfo.answers I name bytes)).all
      (SegInfo.refuses I name bytes) = true) :
    constructLoop I name bytes segments ≠ .constructed p segments' := by
  intro hloop
  cases hfind : segments.find? (SegInfo.answers I name bytes) with
  | none =>
    rw [constructLoop_of_find_none hfind] at hloop
    cases hloop
  | some info =>
    rw [hfind, Option.all_some] at h
    obtain ⟨-, hrefused⟩ | ⟨hno, -⟩ := constructLoop_of_find_some hfind
    · rw [hrefused] at hloop
      cases hloop
    · rw [h] at hno
      cases hno

end names

/-! ## 4. The threads simulate the directory -/

/-- `grow_mtx_` is held. -/
def Point.holdsGrow : Point N → Bool
  | .growRead _ _ | .growMap _ _ _ _ => true
  | _ => false

/-- The construction for which a growth is made. -/
def callOfGrowth (orFind : Bool) : Grower N → Option (NameCall N)
  | .grow _ (some (name, bytes)) => some (.construct orFind name bytes)
  | .grow _ none | .background => none

/-- What the directory sees of a thread. -/
def Point.standing : Point N → Standing (NameCall N) Answer
  | .idle | .allocate _ | .deallocate _ => none
  | .find name => some (.find name, none)
  | .search name bytes => some (.construct true name bytes, none)
  | .construct orFind name bytes | .constructLast orFind name bytes =>
      some (.construct orFind name bytes, none)
  | .growLock orFind g | .growRead orFind g | .growMap orFind g _ _ =>
      (callOfGrowth orFind g).map fun call => (call, none)
  | .destroy name => some (.destroy name, none)
  | .returning call a => some (call, some a)

theorem NameCall.entry_outside (call : NameCall N) : call.entry.holdsGrow = false := by
  cases call with
  | construct orFind name bytes => cases orFind <;> rfl
  | find name | destroy name => rfl

theorem NameCall.entry_standing (call : NameCall N) : call.entry.standing = some (call, none) := by
  cases call with
  | construct orFind name bytes => cases orFind <;> rfl
  | find name | destroy name => rfl

theorem afterGrowth_outside (orFind : Bool) (g : Grower N) :
    (afterGrowth orFind g).holdsGrow = false := by
  cases g with
  | grow minBytes object => cases object <;> rfl
  | background => rfl

theorem afterGrowth_standing (orFind : Bool) (g : Grower N) :
    (afterGrowth orFind g).standing = (Point.growLock orFind g).standing := by
  cases g with
  | grow minBytes object => cases object <;> rfl
  | background => rfl

structure Sim (I : InnerManager H N) (s : State T H N)
    (w : (N → Option Word) × (T → Standing (NameCall N) Answer)) : Prop where
  holding : Holding (Names I w.1) false false s.manager
  owner : OwnedExactly s.growMtx fun t => (s.point t).holdsGrow
  standing : ∀ t, w.2 t = (s.point t).standing

section sim

variable [DecidableEq T] [DecidableEq N] {P : Platform} {I : InnerManager H N} {env : Env H}
  {d₀ d d' : N → Option Word} {st : T → Standing (NameCall N) Answer} {s s' : State T H N} {t : T}
  {m : Manager H} {growMtx : Option T} {p : Point N} {call : NameCall N} {a : Answer}

/-- The directory comes to a state like `s'` by steps in which the threads see the calls
    and returns `events`. -/
def Matched (I : InnerManager H N) (d₀ : N → Option Word)
    (w : (N → Option Word) × (T → Standing (NameCall N) Answer))
    (events : List (HistoryEvent T (NameCall N) Answer)) (s' : State T H N) : Prop :=
  ∃ es w', (directory d₀).Run w es w' ∧ es.filter HistoryEvent.visible = events ∧ Sim I s' w'

omit [DecidableEq T] [DecidableEq N] in
theorem Sim.ready (h : Sim I s (d, st)) : Ready s.manager :=
  ⟨h.holding.list, h.holding.grow, h.holding.segments.front⟩

omit [DecidableEq N] in
/-- The moving thread stands where it has gone, the others where they stood. -/
theorem Sim.goto (h : Sim I s (d, st)) (hm : Holding (Names I d') false false m)
    (howner : OwnedExactly growMtx fun u => (Function.update s.point t p u).holdsGrow) :
    Sim I (s.goto t m growMtx p) (d', Function.update st t p.standing) := by
  refine ⟨hm, howner, fun u => ?_⟩
  show Function.update st t p.standing u = (Function.update s.point t p u).standing
  by_cases hu : u = t
  · subst hu
    rw [Function.update_self, Function.update_self]
  · rw [Function.update_of_ne hu, Function.update_of_ne hu]
    exact h.standing u

/-- A section that changes no name. -/
theorem Sim.quiet (h : Sim I s (d, st)) (hm : Holding (Names I d) false false m)
    (howner : OwnedExactly growMtx fun u => (Function.update s.point t p u).holdsGrow)
    (hp : p.standing = (s.point t).standing) :
    Matched I d₀ (d, st) [] (s.goto t m growMtx p) := by
  have hsim := h.goto hm howner
  have hst : p.standing = st t := hp.trans (h.standing t).symm
  rw [hst, Function.update_eq_self] at hsim
  exact ⟨[], _, .refl, rfl, hsim⟩

/-- The last section of a call, in which it takes effect. -/
theorem Sim.commits (h : Sim I s (d, st)) (hm : Holding (Names I d') false false m)
    (howner : OwnedExactly growMtx fun u =>
      (Function.update s.point t (.returning call a) u).holdsGrow)
    (hcall : (s.point t).standing = some (call, none)) (hdoes : Does call d a d') :
    Matched I d₀ (d, st) [] (s.goto t m growMtx (.returning call a)) := by
  have hst : st t = some (call, none) := (h.standing t).trans hcall
  have hcommit : (directory d₀).Step (d, st) (.commit t call a) _ := .commit hst hdoes
  exact ⟨_, _, hcommit.run, rfl, h.goto hm howner⟩

theorem Sim.runFind {name : N} (h : Sim I s (d, st)) (hp : s.point t = .find name)
    (hstep : runSection P I env t s = some s') : Matched I d₀ (d, st) [] s' := by
  simp only [runSection, hp, run_find h.ready] at hstep
  cases hstep
  exact h.commits h.holding (h.owner.keep (by rw [hp]; rfl)) (by rw [hp]; rfl)
    ⟨h.holding.segments.found name, rfl⟩

/-- `find_or_construct` has found the object, or is to construct it. -/
theorem Sim.runSearch {name : N} {bytes : Word} (h : Sim I s (d, st))
    (hp : s.point t = .search name bytes) (hstep : runSection P I env t s = some s') :
    Matched I d₀ (d, st) [] s' := by
  simp only [runSection, hp, run_find h.ready] at hstep
  cases hfind : findLoop I name s.manager.segments with
  | some ptr =>
    simp only [hfind] at hstep
    cases hstep
    exact h.commits h.holding (h.owner.keep (by rw [hp]; rfl)) (by rw [hp]; rfl)
      (.inl ⟨rfl, (h.holding.segments.found name).symm.trans hfind, rfl⟩)
  | none =>
    simp only [hfind] at hstep
    cases hstep
    exact h.quiet h.holding (h.owner.keep (by rw [hp]; rfl)) (by rw [hp]; rfl)

/-- A construction in an existing segment. -/
theorem Sim.runConstruct {orFind : Bool} {name : N} {bytes : Word} (hI : I.FindsObjects)
    (h : Sim I s (d, st)) (hp : s.point t = .construct orFind name bytes)
    (hC : MakesNoSecond I s (.run t env)) (hstep : runSection P I env t s = some s') :
    Matched I d₀ (d, st) [] s' := by
  have hcall : (s.point t).standing = some (.construct orFind name bytes, none) := by rw [hp]; rfl
  have howner : OwnedExactly s.growMtx fun u =>
      (Function.update s.point t (.idle : Point N) u).holdsGrow := h.owner.keep (by rw [hp]; rfl)
  simp only [MakesNoSecond, hp] at hC
  simp only [runSection, hp, run_constructExisting h.holding.list] at hstep
  cases hloop : constructLoop I name bytes s.manager.segments with
  | constructed ptr segments =>
    simp only [hloop] at hstep
    cases hstep
    have hnone : d name = none := by
      refine (h.holding.segments.found name).symm.trans (hC.resolve_right fun hrefuses => ?_)
      exact constructLoop_of_refuses hrefuses hloop
    obtain ⟨pre, info, post, offset, smgr, hs, hcons, rfl, rfl⟩ := constructLoop_split hloop
    have hnames := h.holding.segments
    rw [hs] at hnames
    refine h.commits ⟨h.holding.list, h.holding.grow, hnames.constructed hI hcons hnone⟩
      (h.owner.keep (by rw [hp]; rfl)) hcall (.inr ⟨hnone, rfl⟩)
  | refused =>
    simp only [hloop] at hstep
    cases hstep
    exact h.commits h.holding (h.owner.keep (by rw [hp]; rfl)) hcall rfl
  | exhausted =>
    simp only [hloop] at hstep
    cases hstep
    exact h.quiet h.holding (h.owner.keep (by rw [hp]; rfl)) hcall.symm

/-- A construction in the last segment, after a growth. -/
theorem Sim.runConstructLast {orFind : Bool} {name : N} {bytes : Word} (hI : I.FindsObjects)
    (h : Sim I s (d, st)) (hp : s.point t = .constructLast orFind name bytes)
    (hC : MakesNoSecond I s (.run t env)) (hstep : runSection P I env t s = some s') :
    Matched I d₀ (d, st) [] s' := by
  have hcall : (s.point t).standing = some (.construct orFind name bytes, none) := by rw [hp]; rfl
  obtain ⟨s0, rest, hs0, -⟩ := h.holding.segments.front
  obtain ⟨last, hlast⟩ : ∃ last, s.manager.segments.getLast? = some last :=
    ⟨_, List.getLast?_eq_some_getLast (hs0 ▸ List.cons_ne_nil _ _)⟩
  obtain ⟨pre, hs⟩ := List.getLast?_eq_some_iff.mp hlast
  simp only [MakesNoSecond, hp, hlast, Option.all_some, Bool.not_eq_true'] at hC
  simp only [runSection, hp, run_constructLast h.holding.list hlast] at hstep
  cases hcons : I.construct last.smgr name bytes with
  | constructed offset smgr =>
    simp only [hcons] at hstep
    cases hstep
    have hnone : d name = none := by
      refine (h.holding.segments.found name).symm.trans (hC.resolve_right ?_)
      simp [SegInfo.hasRoom, hcons]
    have hnames := h.holding.segments
    rw [hs] at hnames
    refine h.commits ⟨h.holding.list, h.holding.grow, ?_⟩
      (h.owner.keep (by rw [hp]; rfl)) hcall (.inr ⟨hnone, rfl⟩)
    rw [hs, List.dropLast_concat]
    exact hnames.constructed hI hcons hnone
  | null | badAlloc | refused =>
    simp only [hcons] at hstep
    cases hstep
    exact h.commits h.holding (h.owner.keep (by rw [hp]; rfl)) hcall rfl

theorem Sim.runDestroy {name : N} (hI : I.FindsObjects) (h : Sim I s (d, st))
    (hp : s.point t = .destroy name) (hstep : runSection P I env t s = some s') :
    Matched I d₀ (d, st) [] s' := by
  have hcall : (s.point t).standing = some (.destroy name, none) := by rw [hp]; rfl
  have hnames := h.holding.segments.destroyLoop hI name
  simp only [runSection, hp, run_destroy h.holding.list] at hstep
  cases hloop : destroyLoop I name s.manager.segments with
  | none =>
    simp only [hloop] at hstep hnames
    cases hstep
    refine h.commits h.holding (h.owner.keep (by rw [hp]; rfl)) hcall ⟨by rw [hnames]; rfl, ?_⟩
    exact (Function.update_eq_self_iff.mpr hnames.symm).symm
  | some segments =>
    simp only [hloop] at hstep hnames
    cases hstep
    exact h.commits ⟨h.holding.list, h.holding.grow, hnames.2⟩
      (h.owner.keep (by rw [hp]; rfl)) hcall ⟨hnames.1.symm, rfl⟩

/-- The first half of a growth, which reads the sizes. -/
theorem Sim.runGrowRead {orFind : Bool} {g : Grower N} (h : Sim I s (d, st))
    (hp : s.point t = .growRead orFind g) (hstep : runSection P I env t s = some s') :
    Matched I d₀ (d, st) [] s' := by
  have hholds : (s.point t).holdsGrow = true := by rw [hp]; rfl
  have hkeeps : KeepsSegments (Names I d) (Call.guarded (listMtx H) (g.read P I)) :=
    g.keepsSegments_read
  simp only [runSection, hp] at hstep
  cases hread : (Call.guarded (listMtx H) (g.read P I)).run s.manager with
  | value sizes m =>
    have hm := hkeeps false false s.manager h.holding m (by rw [hread]; rfl)
    cases sizes with
    | none =>
      simp only [hread] at hstep
      cases hstep
      exact h.quiet hm (h.owner.release hholds (afterGrowth_outside _ _))
        (by rw [hp, afterGrowth_standing]; rfl)
    | some sizes =>
      simp only [hread] at hstep
      cases hstep
      exact h.quiet hm (h.owner.keep (by rw [hp]; rfl)) (by rw [hp]; rfl)
  | thrown e m =>
    simp only [hread] at hstep
    cases hstep
  | stuck =>
    simp only [hread] at hstep
    cases hstep

/-- The second half, which adds the segment or throws. -/
theorem Sim.runGrowMap {orFind : Bool} {g : Grower N} {chunk current : Word}
    (hI : I.FindsObjects) (h : Sim I s (d, st)) (hp : s.point t = .growMap orFind g chunk current)
    (hstep : runSection P I env t s = some s') : Matched I d₀ (d, st) [] s' := by
  have hholds : (s.point t).holdsGrow = true := by rw [hp]; rfl
  have hkeeps : KeepsSegments (Names I d) (g.map P I env chunk current) :=
    g.keepsSegments_map (stable_names hI d)
  simp only [runSection, hp] at hstep
  cases hmap : (g.map P I env chunk current).run s.manager with
  | value u m =>
    have hm := hkeeps false false s.manager h.holding m (by rw [hmap]; rfl)
    simp only [hmap] at hstep
    cases hstep
    exact h.quiet hm (h.owner.release hholds (afterGrowth_outside _ _))
      (by rw [hp, afterGrowth_standing]; rfl)
  | thrown e m =>
    have hm := hkeeps false false s.manager h.holding m (by rw [hmap]; rfl)
    cases g with
    | background =>
      simp only [hmap] at hstep
      cases hstep
    | grow minBytes object =>
      cases object with
      | none =>
        simp only [hmap] at hstep
        cases hstep
        exact h.quiet hm (h.owner.release hholds rfl) (by rw [hp]; rfl)
      | some object =>
        obtain ⟨name, bytes⟩ := object
        simp only [hmap] at hstep
        cases hstep
        -- nothing is constructed: the call throws
        exact h.commits hm (h.owner.release hholds rfl) (by rw [hp]; rfl) rfl
  | stuck =>
    simp only [hmap] at hstep
    cases hstep

/-- Whatever the next section of a thread is, the directory takes at most one step. -/
theorem Sim.run (hI : I.FindsObjects) (h : Sim I s (d, st)) (hC : MakesNoSecond I s (.run t env))
    (hstep : runSection P I env t s = some s') : Matched I d₀ (d, st) [] s' := by
  cases hp : s.point t with
  | idle | returning call a =>
    simp only [runSection, hp] at hstep
    cases hstep
  | allocate bytes =>
    have hkeeps : KeepsSegments (Names I d)
        (Call.guarded (listMtx H) (tryAllocateLocked I bytes)) :=
      .list (stable_names hI d).tryAllocateLocked
    simp only [runSection, hp, Option.map_eq_some_iff] at hstep
    obtain ⟨m, hends, rfl⟩ := hstep
    exact h.quiet (hkeeps false false s.manager h.holding m hends)
      (h.owner.keep (by rw [hp]; rfl)) (by rw [hp]; rfl)
  | deallocate ptr =>
    have hkeeps : KeepsSegments (Names I d) (Memnon.deallocate P I ptr) :=
      (stable_names hI d).deallocate
    simp only [runSection, hp, Option.map_eq_some_iff] at hstep
    obtain ⟨m, hends, rfl⟩ := hstep
    exact h.quiet (hkeeps false false s.manager h.holding m hends)
      (h.owner.keep (by rw [hp]; rfl)) (by rw [hp]; rfl)
  | find name => exact h.runFind hp hstep
  | search name bytes => exact h.runSearch hp hstep
  | construct orFind name bytes => exact h.runConstruct hI hp hC hstep
  | growLock orFind g =>
    simp only [runSection, hp] at hstep
    cases hlock : s.growMtx with
    | none =>
      simp only [hlock] at hstep
      cases hstep
      exact h.quiet h.holding (OwnedExactly.acquire (hlock ▸ h.owner) rfl) (by rw [hp]; rfl)
    | some u =>
      cases g with
      | grow minBytes object =>
        simp only [hlock] at hstep
        cases hstep
      | background =>
        simp only [hlock] at hstep
        cases hstep
        exact h.quiet h.holding (hlock ▸ h.owner.keep (by rw [hp]; rfl)) (by rw [hp]; rfl)
  | growRead orFind g => exact h.runGrowRead hp hstep
  | growMap orFind g chunk current => exact h.runGrowMap hI hp hstep
  | constructLast orFind name bytes => exact h.runConstructLast hI hp hC hstep
  | destroy name => exact h.runDestroy hI hp hstep

theorem Sim.step {l : Label T H N} (hI : I.FindsObjects) (h : Sim I s (d, st))
    (hC : MakesNoSecond I s l) (hstep : step P I s l = some s') :
    Matched I d₀ (d, st) (history s l) s' := by
  cases l with
  | run t env => exact h.run hI hC hstep
  | call t task =>
    simp only [NameDirectory.step] at hstep
    split at hstep
    · rename_i hp
      cases hstep
      cases task with
      | name call =>
        have hst : st t = none := (h.standing t).trans (by rw [hp]; rfl)
        refine ⟨_, _, (AtomicObject.Step.call hst).run, rfl, ?_⟩
        rw [← call.entry_standing]
        exact h.goto h.holding (h.owner.keep (by rw [hp]; exact call.entry_outside))
      | allocate bytes | deallocate ptr | grow minBytes | growBackground =>
        exact h.quiet h.holding (h.owner.keep (by rw [hp]; rfl)) (by rw [hp]; rfl)
    · cases hstep
  | ret t =>
    simp only [NameDirectory.step] at hstep
    split at hstep
    · rename_i call a hp
      cases hstep
      have hst : st t = some (call, some a) := (h.standing t).trans (by rw [hp]; rfl)
      refine ⟨_, _, (AtomicObject.Step.ret hst).run, ?_,
        h.goto h.holding (h.owner.keep (by rw [hp]; rfl))⟩
      simp only [history, hp]
      rfl
    · cases hstep

end sim

/-! ## 5. Result -/

/-- In every interleaving of any number of threads in which no section constructs a name that
    a segment holds, also while others allocate, deallocate and grow, the named objects are
    one linearizable directory: each `find`, `construct`, `find_or_construct` and `destroy`
    takes effect in one moment between its call and its return, and constructions that
    return null or throw have changed nothing. -/
theorem names_linearizable [DecidableEq T] [DecidableEq N] {P : Platform} {I : InnerManager H N}
    (hI : I.FindsObjects) {m₀ m : Manager H} (hstart : Started P I m₀)
    (hbefore : Steps (serve P I) anyStep m₀ m) (hunique : UniqueNames I m.segments)
    {s : State T H N} {h : List (HistoryEvent T (NameCall N) Answer)}
    (hrun : Steps (logged (step P I) history) (fun a l => MakesNoSecond I a.1 l)
      (started m, []) (s, h)) :
    (directory fun name => findLoop I name m.segments).Linearizable h := by
  have hm : Ready m := ready_of_steps hstart hbefore
  refine AtomicObject.linearizable_of_simulation (R := Sim I) (C := MakesNoSecond I) ?_ ?_ hrun
  · refine ⟨⟨hm.list, hm.grow, ⟨hm.segments, hunique, fun _ => rfl⟩⟩, fun t => ?_, fun _ => rfl⟩
    constructor
    · nofun
    · nofun
  · intro a l b w hsim hC hs
    exact hsim.step hI hC hs

/-- What a thread is given by `find_or_construct` is destroyed before the call has returned. -/
def destroyedHistory (ptr : Word) : List (HistoryEvent Bool (NameCall Nat) Answer) :=
  [.call false (.construct false 1 64), .call true (.construct true 1 64),
    .ret false (.construct false 1 64) (.object (some ptr)), .call false (.destroy 1),
    .ret false (.destroy 1) (.destroyed true),
    .ret true (.construct true 1 64) (.object (some ptr)),
    .call true (.find 1), .ret true (.find 1) (.object none)]

theorem uniqueNames_arenaShmManager : UniqueNames arena arenaShmManager.segments := by
  intro name
  obtain ⟨-, -, s0, size, hs, -, hfresh⟩ := arenaShmManager_created.fields
  simp [hs, holders, SegInfo.holds, hfresh, arena_findsObjects.create]

theorem names_linearizable_destroyed : ∃ ptr,
    (directory fun name => findLoop arena name arenaShmManager.segments).Linearizable
      (destroyedHistory ptr) := by
  let call (t : Bool) (c : NameCall Nat) : Label Bool Arena Nat := .call t (.name c)
  let run (t : Bool) : Label Bool Arena Nat := .run t roomyEnv
  let ret (t : Bool) : Label Bool Arena Nat := .ret t
  let condition (a : State Bool Arena Nat × List (HistoryEvent Bool (NameCall Nat) Answer))
      (l : Label Bool Arena Nat) : Prop := MakesNoSecond arena a.1 l
  have h₀ : Steps (logged (step fourKiBPages arena) history) condition
    (started arenaShmManager, []) _ := .refl _
  have h₁ := h₀.tail (l := call false (.construct false 1 64)) trivial rfl
  have h₂ := h₁.tail (l := call true (.construct true 1 64)) trivial rfl
  have h₃ := h₂.tail (l := run false) (.inl rfl) rfl
  have h₄ := h₃.tail (l := ret false) trivial rfl
  have h₅ := h₄.tail (l := run true) trivial rfl
  have h₆ := h₅.tail (l := call false (.destroy 1)) trivial rfl
  have h₇ := h₆.tail (l := run false) trivial rfl
  have h₈ := h₇.tail (l := ret false) trivial rfl
  have h₉ := h₈.tail (l := ret true) trivial rfl
  have h₁₀ := h₉.tail (l := call true (.find 1)) trivial rfl
  have h₁₁ := h₁₀.tail (l := run true) trivial rfl
  have h₁₂ := h₁₁.tail (l := ret true) trivial rfl
  exact ⟨_, names_linearizable arena_findsObjects (.created arenaShmManager_created) (.refl _)
    uniqueNames_arenaShmManager h₁₂⟩

end Memnon.NameDirectory
