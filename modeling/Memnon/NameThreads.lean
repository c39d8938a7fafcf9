import Memnon.NamedObjects
import Memnon.ManagerGrowth
import Memnon.ManagerReentry
import Memnon.Lib.Lock

/-!
# Threads that look up or construct one object

`find_or_construct` is `find`, then `construct`; each takes `list_mtx_` on its
own, and `construct` gives it back once more to grow. Other threads come between
these sections. As long as no section constructs a name that is there by then,
all callers get one object; a thread that comes too late is refused, or makes a
second object in another segment.
-/

namespace Memnon.NameThreads

open Memnon.Lib

variable {H N T : Type}

/-! ## 1. The system -/

/-- The functions that grow; `grow` within `find_or_construct` knows the object
    to construct. -/
inductive Grower (N : Type) where
  | grow (minBytes : Word) (object : Option (N × Word))
  | background

/-- The sections under `list_mtx_` of the other functions. -/
inductive Other (N : Type) where
  | allocate (bytes : Word)
  | deallocate (ptr : Word)
  | construct (name : N) (bytes : Word)
  | constructLast (name : N) (bytes : Word)
  | destroy (name : N)

/-- Where a thread stands, with what it carries. -/
inductive Point (N : Type) where
  | idle
  | other (sec : Other N)
  | find (name : N) (bytes : Word)
  | construct (name : N) (bytes : Word)
  | growLock (g : Grower N)
  | growRead (g : Grower N)
  | growMap (g : Grower N) (newChunkSize currentFileSize : Word)
  | constructLast (name : N) (bytes : Word)

/-- What a thread calls. The other functions are sequences of their sections and
    of growths, in any order. -/
inductive Task (N : Type) where
  | findOrConstruct (name : N) (bytes : Word)
  | grow (minBytes : Word)
  | growBackground
  | other (sec : Other N)

def Task.entry : Task N → Point N
  | .findOrConstruct name bytes => .find name bytes
  | .grow minBytes => .growLock (.grow minBytes none)
  | .growBackground => .growLock .background
  | .other sec => .other sec

structure State (T H N : Type) where
  manager : Manager H
  growMtx : Option T
  point : T → Point N
  /-- the objects that `find_or_construct` has constructed -/
  objects : List (N × Word)
  /-- what the calls of `find_or_construct` have returned or thrown -/
  finished : List (N × Except Exn (Option Word))

inductive Label (T H N : Type) where
  | call (t : T) (task : Task N)
  | run (t : T) (env : Env H)

def Other.run (P : Platform) (I : InnerManager H N) : Other N → Op H Unit
  | .allocate bytes => do
      let _ ← .guarded (listMtx H) (tryAllocateLocked I bytes)
      return ()
  | .deallocate ptr => Memnon.deallocate P I ptr
  | .construct name bytes => do
      let _ ← .guarded (listMtx H) (constructExisting I name bytes (pure ()))
      return ()
  | .constructLast name bytes => do
      let _ ← .guarded (listMtx H) (Memnon.constructLast I name bytes (pure ()))
      return ()
  | .destroy name => do
      let _ ← Memnon.destroy I name (pure ())
      return ()

def Grower.read (P : Platform) (I : InnerManager H N) : Grower N → Op H (Option (Word × Word))
  | .grow minBytes _ => readSize P I minBytes
  | .background => readSizeBackground P I

/-- From the system calls of a growth to its last section. -/
def Grower.map (P : Platform) (I : InnerManager H N) (env : Env H)
    (newChunkSize currentFileSize : Word) : Grower N → Op H Unit
  | .grow _ _ => do
      let m ← .read
      if m.anon then growAnon P I env newChunkSize
      else growShm P I env newChunkSize currentFileSize
  | .background => do
      let m ← .read
      if m.anon then
        match env.createAnon newChunkSize with
        | none => return ()
        | some mapping =>
            .guarded (listMtx H) (addSegmentAnonPreallocated P I mapping newChunkSize false)
      else if env.shmGrow (currentFileSize + newChunkSize) then
        .guarded (listMtx H) (publishChunkBackground P I env newChunkSize currentFileSize)
      else return ()

/-- Where a thread goes on when its growth returns. -/
def Grower.next : Grower N → Point N
  | .grow _ (some (name, bytes)) => .constructLast name bytes
  | .grow _ none | .background => .idle

section system

variable [DecidableEq T] (P : Platform) (I : InnerManager H N)

def State.goto (s : State T H N) (t : T) (m : Manager H) (growMtx : Option T) (p : Point N) :
    State T H N :=
  { s with manager := m, growMtx := growMtx, point := Function.update s.point t p }

/-- A call of `find_or_construct` is over. -/
def State.finish (s : State T H N) (t : T) (m : Manager H) (growMtx : Option T) (name : N)
    (r : Except Exn (Option Word)) : State T H N :=
  { s.goto t m growMtx .idle with finished := s.finished ++ [(name, r)] }

def State.construct (s : State T H N) (name : N) (p : Word) : State T H N :=
  { s with objects := s.objects ++ [(name, p)] }

/-- The next section of `t`. An exception that leaves `grow_background`, which is
    `noexcept`, ends the process. -/
def runSection (env : Env H) (t : T) (s : State T H N) : Option (State T H N) :=
  match s.point t with
  | .idle => none
  | .other sec => ((sec.run P I).run s.manager).state.map fun m => s.goto t m s.growMtx .idle
  | .find name bytes =>
      match (find I name).run s.manager with
      | .value (some p) m => some (s.finish t m s.growMtx name (.ok (some p)))
      | .value none m => some (s.goto t m s.growMtx (.construct name bytes))
      | .thrown _ _ | .stuck => none
  | .construct name bytes =>
      match (Call.guarded (listMtx H) (constructExisting I name bytes (pure ()))).run s.manager with
      | .value (some p) m => some ((s.construct name p).finish t m s.growMtx name (.ok (some p)))
      | .value none m =>
          some (s.goto t m s.growMtx (.growLock (.grow (bytes + 1024#64) (some (name, bytes)))))
      | .thrown e m => some (s.finish t m s.growMtx name (.error e))
      | .stuck => none
  | .growLock g =>
      match s.growMtx, g with
      | none, g => some (s.goto t s.manager (some t) (.growRead g))
      | some _, .grow _ _ => none
      | some _, .background => some (s.goto t s.manager s.growMtx .idle)
  | .growRead g =>
      match (Call.guarded (listMtx H) (g.read P I)).run s.manager with
      | .value none m => some (s.goto t m none g.next)
      | .value (some (newChunkSize, currentFileSize)) m =>
          some (s.goto t m s.growMtx (.growMap g newChunkSize currentFileSize))
      | .thrown _ _ | .stuck => none
  | .growMap g newChunkSize currentFileSize =>
      match (g.map P I env newChunkSize currentFileSize).run s.manager, g with
      | .value _ m, g => some (s.goto t m none g.next)
      | .thrown e m, .grow _ (some (name, _)) => some (s.finish t m none name (.error e))
      | .thrown _ m, .grow _ none => some (s.goto t m none .idle)
      | .thrown _ _, .background | .stuck, _ => none
  | .constructLast name bytes =>
      match (Call.guarded (listMtx H) (constructLast I name bytes (pure ()))).run s.manager with
      | .value (some p) m => some ((s.construct name p).finish t m s.growMtx name (.ok (some p)))
      | .value none m => some (s.finish t m s.growMtx name (.ok none))
      | .thrown e m => some (s.finish t m s.growMtx name (.error e))
      | .stuck => none

def step (s : State T H N) : Label T H N → Option (State T H N)
  | .call t task =>
      match s.point t with
      | .idle => some { s with point := Function.update s.point t task.entry }
      | _ => none
  | .run t env => runSection P I env t s

def started (m : Manager H) : State T H N := ⟨m, none, fun _ => .idle, [], []⟩

end system

/-! ## 2. What is asked of the runs -/

section conditions

variable (P : Platform) (I : InnerManager H N) (name : N)

/-- The name is neither destroyed nor constructed by a plain `construct`. -/
def Other.Spares : Other N → Prop
  | .allocate _ | .deallocate _ => True
  | .construct name' _ | .constructLast name' _ | .destroy name' => name' ≠ name

def Undestroyed (s : State T H N) : Label T H N → Prop
  | .call _ _ => True
  | .run t _ =>
      match s.point t with
      | .other sec => sec.Spares name
      | _ => True

/-- A growth for an object of this name returns, and the segment it is then
    constructed in has room. -/
def MemorySuffices (s : State T H N) : Label T H N → Prop
  | .call _ _ => True
  | .run t env =>
      match s.point t with
      | .growMap (.grow minBytes (some (name', bytes))) newChunkSize currentFileSize =>
          name' = name → ((Grower.map P I env newChunkSize currentFileSize
            (.grow minBytes (some (name', bytes)))).run s.manager).returns = true
      | .constructLast name' bytes =>
          name' = name → findLoop I name s.manager.segments = none →
            ∀ last ∈ s.manager.segments.getLast?, last.hasRoom I name bytes = true
      | _ => True

/-- A section that is to construct the name finds it in no segment. -/
def ConstructsUnheld (s : State T H N) : Label T H N → Prop
  | .call _ _ => True
  | .run t _ =>
      match s.point t with
      | .construct name' _ | .constructLast name' _ =>
          name' = name → findLoop I name s.manager.segments = none
      | _ => True

end conditions

/-! ## 3. Every step keeps the invariant -/

/-- `grow_mtx_` is held. -/
def Point.holdsGrow : Point N → Bool
  | .growRead _ | .growMap _ _ _ => true
  | .idle | .other _ | .find _ _ | .construct _ _ | .growLock _ | .constructLast _ _ => false

theorem Grower.next_outside (g : Grower N) : g.next.holdsGrow = false := by
  cases g with
  | grow minBytes object => cases object <;> rfl
  | background => rfl

/-- The objects that have been constructed under the name. -/
def State.made [DecidableEq N] (s : State T H N) (name : N) : List Word :=
  (s.objects.filter fun q => q.1 = name).map Prod.snd

/-- The list starts with the primary segment, and the name is found at `o`. -/
def Found (I : InnerManager H N) (name : N) (o : Option Word) (segments : List (SegInfo H)) :
    Prop :=
  FrontPrimary segments ∧ findLoop I name segments = o

/-- A growth keeps what survives a fresh segment. -/
theorem Grower.keepsSegments_map {P : Platform} {I : InnerManager H N} {env : Env H}
    {Q : List (SegInfo H) → Prop} (hQ : Stable I Q) (g : Grower N) {chunk current : Word} :
    KeepsSegments Q (g.map P I env chunk current) := by
  cases g with
  | grow minBytes object =>
    refine .read_bind fun m _ => ?_
    split
    · exact hQ.growAnon
    · exact hQ.growShm
  | background =>
    refine .read_bind fun m _ => ?_
    split
    · split
      · exact .pure
      · exact .list hQ.addSegmentAnonPreallocated
    · split
      · refine .list (.read_bind fun m _ => ?_)
        split
        · exact .bind hQ.addSegmentShm fun _ => .publishLastSegment
        · exact .pure
      · exact .pure

theorem Grower.keepsSegments_read {P : Platform} {I : InnerManager H N}
    {Q : List (SegInfo H) → Prop} (g : Grower N) :
    KeepsSegments Q (Call.guarded (listMtx H) (g.read P I)) := by
  cases g with
  | grow minBytes object => exact .list .readSize
  | background => exact .list .readSizeBackground

section found

variable {P : Platform} {I : InnerManager H N} {env : Env H} {name name' : N} {o : Option Word}
  {bytes : Word}

theorem stable_found (hI : I.FindsObjects) : Stable I (Found I name o) where
  fresh h hcreate := ⟨(stable_frontPrimary I).fresh h.1 hcreate,
    (stable_findLoop hI name o).fresh h.2 hcreate⟩
  alloc halloc h := ⟨(stable_frontPrimary I).alloc halloc h.1,
    (stable_findLoop hI name o).alloc halloc h.2⟩
  dealloc h := ⟨(stable_frontPrimary I).dealloc h.1, (stable_findLoop hI name o).dealloc h.2⟩

theorem found_construct (hI : I.FindsObjects) (hne : name' ≠ name) :
    KeepsSegments (Found I name o)
      (Call.guarded (listMtx H) (constructExisting I name' bytes (pure ()))) := by
  refine .list (.read_bind fun m hm => ?_)
  cases hloop : constructLoop I name' bytes m.segments with
  | constructed p segments =>
    refine .makeObject .pure ⟨?_, ?_⟩
    · obtain ⟨pre, info, post, offset, smgr, hs, -, rfl, -⟩ := constructLoop_split hloop
      exact FrontPrimary.set smgr (hs ▸ hm.1)
    · exact ((findLoop_constructLoop hI hloop).2 hne).trans hm.2
  | refused => exact .raise
  | exhausted => exact .pure

theorem found_constructLast (hI : I.FindsObjects) (hne : name' ≠ name) :
    KeepsSegments (Found I name o)
      (Call.guarded (listMtx H) (constructLast I name' bytes (pure ()))) := by
  refine .list (.read_bind fun m hm => ?_)
  cases hlast : m.segments.getLast? with
  | none => exact .pure
  | some last =>
    obtain ⟨pre, hs⟩ := List.getLast?_eq_some_iff.mp hlast
    cases hcons : I.construct last.smgr name' bytes with
    | constructed offset smgr =>
      simp only [hcons]
      refine .makeObject .pure ?_
      rw [hs, List.dropLast_concat]
      rw [hs] at hm
      exact ⟨FrontPrimary.set smgr hm.1,
        (findLoop_same (hI.construct_find hcons (Ne.symm hne))).trans hm.2⟩
    | null => simpa only [hcons] using .pure
    | badAlloc => simpa only [hcons] using .raise
    | refused => simpa only [hcons] using .raise

theorem found_destroy (hI : I.FindsObjects) (hne : name' ≠ name) :
    KeepsSegments (Found I name o) (destroy I name' (pure ())) := by
  refine .list (.read_bind fun m hm => ?_)
  cases hloop : destroyLoop I name' m.segments with
  | none => exact .pure
  | some segments =>
    have hnew : Found I name o segments := by
      refine ⟨?_, (findLoop_destroyLoop hI hloop hne).trans hm.2⟩
      obtain ⟨pre, info, post, offset, smgr, hs, -, rfl⟩ := destroyLoop_split hloop
      exact FrontPrimary.set smgr (hs ▸ hm.1)
    exact .bind (.modify (fun _ => rfl) (fun _ => rfl) fun _ _ => hnew) fun _ =>
      .bind .pure fun _ => .pure

/-- A section that spares the name leaves it where it is found. -/
theorem Other.keeps (hI : I.FindsObjects) {sec : Other N} (hspares : sec.Spares name) :
    KeepsSegments (Found I name o) (sec.run P I) := by
  cases sec with
  | allocate bytes => exact .bind (.list (stable_found hI).tryAllocateLocked) fun _ => .pure
  | deallocate ptr => exact (stable_found hI).deallocate
  | construct name' bytes => exact .bind (found_construct hI hspares) fun _ => .pure
  | constructLast name' bytes => exact .bind (found_constructLast hI hspares) fun _ => .pure
  | destroy name' => exact .bind (found_destroy hI hspares) fun _ => .pure

theorem Grower.keeps_read (g : Grower N) : KeepsSegments (Found I name o)
    (Call.guarded (listMtx H) (g.read P I)) :=
  g.keepsSegments_read

theorem Grower.keeps_map (hI : I.FindsObjects) (g : Grower N) {chunk current : Word} :
    KeepsSegments (Found I name o) (g.map P I env chunk current) :=
  g.keepsSegments_map (stable_found hI)

end found

/-- The object of the name, if there is one, is the one from the start or the one
    constructed in the run, and every call that is over has returned it. -/
structure Inv [DecidableEq N] (I : InnerManager H N) (name : N) (start o : Option Word)
    (s : State T H N) : Prop where
  ready : s.manager.listHeld = false ∧ s.manager.growHeld = false
  found : Found I name o s.manager.segments
  objects : start.toList ++ s.made name = o.toList
  finished : ∀ q ∈ s.finished, q.1 = name → ∃ p, o = some p ∧ q.2 = .ok (some p)
  owner : OwnedExactly s.growMtx fun t => (s.point t).holdsGrow

section steps

variable [DecidableEq T] [DecidableEq N] {P : Platform} {I : InnerManager H N} {env : Env H}
  {name name' : N} {start o o' : Option Word} {s s' : State T H N} {t : T} {m : Manager H}
  {growMtx : Option T} {p : Point N} {l : Label T H N}

omit [DecidableEq T] in
theorem Inv.holding (h : Inv I name start o s) :
    Holding (Found I name o) false false s.manager :=
  ⟨h.ready.1, h.ready.2, h.found⟩

omit [DecidableEq T] in
theorem Inv.isReady (h : Inv I name start o s) : Ready s.manager :=
  ⟨h.ready.1, h.ready.2, h.found.1⟩

theorem Inv.goto (h : Inv I name start o s) (hm : Holding (Found I name o) false false m)
    (howner : OwnedExactly growMtx fun u => (Function.update s.point t p u).holdsGrow) :
    Inv I name start o (s.goto t m growMtx p) :=
  ⟨⟨hm.list, hm.grow⟩, hm.segments, h.objects, h.finished, howner⟩

/-- A call is over; one for the name returns its object. -/
theorem Inv.finish (h : Inv I name start o s) (hm : Holding (Found I name o) false false m)
    (howner : OwnedExactly growMtx fun u => (Function.update s.point t .idle u).holdsGrow)
    {r : Except Exn (Option Word)} (hr : name' = name → ∃ p, o = some p ∧ r = .ok (some p)) :
    Inv I name start o (s.finish t m growMtx name' r) := by
  refine ⟨⟨hm.list, hm.grow⟩, hm.segments, h.objects, fun q hq hname => ?_, howner⟩
  rcases List.mem_append.mp hq with hq | hq
  · exact h.finished q hq hname
  · obtain rfl := List.mem_singleton.mp hq
    exact hr hname

/-- An object is constructed and returned: of another name, or the first of this
    one. -/
theorem Inv.constructed {ptr : Word} {growMtx : Option T} (h : Inv I name start o s)
    (hm : Ready m)
    (howner : OwnedExactly growMtx fun u => (Function.update s.point t .idle u).holdsGrow)
    (hother : name' ≠ name → findLoop I name m.segments = o)
    (hsame : name' = name → o = none ∧ findLoop I name m.segments = some ptr) :
    ∃ o', Inv I name start o'
      ((s.construct name' ptr).finish t m growMtx name' (.ok (some ptr))) := by
  by_cases hname : name' = name
  · subst hname
    obtain ⟨rfl, hfound⟩ := hsame rfl
    have hobjects := h.objects
    simp only [Option.toList_none, List.append_eq_nil_iff] at hobjects
    refine ⟨some ptr, ⟨hm.list, hm.grow⟩, ⟨hm.segments, hfound⟩, ?_, fun q hq hq' => ?_, howner⟩
    · simp only [State.made, State.finish, State.goto, State.construct, List.filter_append,
        List.map_append]
      rw [State.made] at hobjects
      rw [hobjects.1, hobjects.2]
      simp
    · rcases List.mem_append.mp hq with hq | hq
      · obtain ⟨p, hnone, -⟩ := h.finished q hq hq'
        cases hnone
      · obtain rfl := List.mem_singleton.mp hq
        exact ⟨ptr, rfl, rfl⟩
  · refine ⟨o, ⟨hm.list, hm.grow⟩, ⟨hm.segments, hother hname⟩, ?_, fun q hq hq' => ?_, howner⟩
    · simp only [State.made, State.finish, State.goto, State.construct, List.filter_append,
        List.map_append]
      rw [← h.objects, State.made]
      simp [hname]
    · rcases List.mem_append.mp hq with hq | hq
      · exact h.finished q hq hq'
      · obtain rfl := List.mem_singleton.mp hq
        exact absurd hq' hname

/-- A construction in an existing segment. -/
theorem Inv.runConstruct {bytes : Word} (hI : I.FindsObjects) (h : Inv I name start o s)
    (hp : s.point t = .construct name' bytes)
    (hunheld : name' = name → findLoop I name s.manager.segments = none)
    (hstep : runSection P I env t s = some s') : ∃ o', Inv I name start o' s' := by
  have hoff : (Point.idle : Point N).holdsGrow = (s.point t).holdsGrow := by rw [hp]; rfl
  have howner := h.owner.keep hoff
  simp only [runSection, hp] at hstep
  rw [run_constructExisting h.ready.1] at hstep
  cases hloop : constructLoop I name' bytes s.manager.segments with
  | constructed ptr segments =>
    simp only [hloop] at hstep
    cases hstep
    obtain ⟨hthis, hother⟩ :
        (name' = name → _ → findLoop I name segments = some ptr) ∧ (name' ≠ name → _) :=
      findLoop_constructLoop hI hloop
    have hfront : FrontPrimary segments := by
      obtain ⟨pre, info, post, offset, smgr, hs, -, rfl, -⟩ := constructLoop_split hloop
      exact FrontPrimary.set smgr (hs ▸ h.found.1)
    refine h.constructed ⟨h.ready.1, h.ready.2, hfront⟩ howner ?_ ?_
    · intro hne
      exact (hother hne).trans h.found.2
    · intro hname
      have hnone := hunheld hname
      exact ⟨h.found.2.symm.trans hnone, hthis hname hnone⟩
  | refused =>
    simp only [hloop] at hstep
    cases hstep
    refine ⟨o, h.finish h.holding howner fun hname => ?_⟩
    subst hname
    exact absurd hloop (constructLoop_not_refused hI (hunheld rfl))
  | exhausted =>
    simp only [hloop] at hstep
    cases hstep
    exact ⟨o, h.goto h.holding (h.owner.keep (by rw [hp]; rfl))⟩

/-- A construction in the last segment, after a growth. -/
theorem Inv.runConstructLast {bytes : Word} (hI : I.FindsObjects) (h : Inv I name start o s)
    (hp : s.point t = .constructLast name' bytes)
    (hunheld : name' = name → findLoop I name s.manager.segments = none)
    (hroom : name' = name → ∀ last ∈ s.manager.segments.getLast?,
      last.hasRoom I name bytes = true)
    (hstep : runSection P I env t s = some s') : ∃ o', Inv I name start o' s' := by
  have hoff : (Point.idle : Point N).holdsGrow = (s.point t).holdsGrow := by rw [hp]; rfl
  have howner := h.owner.keep hoff
  obtain ⟨s0, rest, hs0, -⟩ := h.found.1
  obtain ⟨last, hlast⟩ : ∃ last, s.manager.segments.getLast? = some last :=
    ⟨_, List.getLast?_eq_some_getLast (hs0 ▸ List.cons_ne_nil _ _)⟩
  obtain ⟨pre, hs⟩ := List.getLast?_eq_some_iff.mp hlast
  simp only [runSection, hp] at hstep
  rw [run_constructLast h.ready.1 hlast] at hstep
  -- only another name can be turned away here
  have hfails : ∀ r : Except Exn (Option Word), last.hasRoom I name' bytes = false →
      Inv I name start o (s.finish t s.manager s.growMtx name' r) := by
    intro r hno
    refine h.finish h.holding howner fun hname => ?_
    subst hname
    rw [hroom rfl last hlast] at hno
    cases hno
  cases hcons : I.construct last.smgr name' bytes with
  | constructed offset smgr =>
    simp only [hcons] at hstep
    cases hstep
    have hdrop : s.manager.segments.dropLast = pre := by rw [hs, List.dropLast_concat]
    have hfound := h.found
    rw [hs] at hfound
    refine h.constructed ⟨h.ready.1, h.ready.2, ?_⟩ howner ?_ ?_
    · show FrontPrimary (s.manager.segments.dropLast ++ _)
      rw [hdrop]
      exact FrontPrimary.set smgr hfound.1
    · intro hne
      show findLoop I name (s.manager.segments.dropLast ++ _) = o
      rw [hdrop]
      exact (findLoop_same (hI.construct_find hcons (Ne.symm hne))).trans hfound.2
    · intro hname
      subst hname
      have hnone := hunheld rfl
      refine ⟨h.found.2.symm.trans hnone, ?_⟩
      show findLoop I name' (s.manager.segments.dropLast ++ _) = _
      rw [hdrop]
      exact findLoop_constructed hI (hs ▸ hnone) hcons
  | null =>
    simp only [hcons] at hstep
    cases hstep
    exact ⟨o, hfails _ (by simp [SegInfo.hasRoom, hcons])⟩
  | badAlloc =>
    simp only [hcons] at hstep
    cases hstep
    exact ⟨o, hfails _ (by simp [SegInfo.hasRoom, hcons])⟩
  | refused =>
    simp only [hcons] at hstep
    cases hstep
    exact ⟨o, hfails _ (by simp [SegInfo.hasRoom, hcons])⟩

theorem inv_run (hI : I.FindsObjects) (h : Inv I name start o s)
    (hspares : Undestroyed name s (.run t env)) (hmemory : MemorySuffices P I name s (.run t env))
    (hunheld : ConstructsUnheld I name s (.run t env))
    (hstep : runSection P I env t s = some s') : ∃ o', Inv I name start o' s' := by
  cases hp : s.point t with
  | idle =>
    simp only [runSection, hp] at hstep
    cases hstep
  | other sec =>
    simp only [Undestroyed, hp] at hspares
    simp only [runSection, hp, Option.map_eq_some_iff] at hstep
    obtain ⟨m, hends, rfl⟩ := hstep
    have hm := Other.keeps (P := P) (o := o) hI hspares false false s.manager h.holding m hends
    exact ⟨o, h.goto hm (h.owner.keep (by rw [hp]; rfl))⟩
  | find name' bytes =>
    simp only [runSection, hp, run_find h.isReady] at hstep
    cases hfind : findLoop I name' s.manager.segments with
    | some ptr =>
      simp only [hfind] at hstep
      cases hstep
      refine ⟨o, h.finish h.holding (h.owner.keep (by rw [hp]; rfl)) fun hname => ?_⟩
      subst hname
      exact ⟨ptr, h.found.2.symm.trans hfind, rfl⟩
    | none =>
      simp only [hfind] at hstep
      cases hstep
      exact ⟨o, h.goto h.holding (h.owner.keep (by rw [hp]; rfl))⟩
  | construct name' bytes =>
    simp only [ConstructsUnheld, hp] at hunheld
    exact h.runConstruct hI hp hunheld hstep
  | growLock g =>
    simp only [runSection, hp] at hstep
    cases hlock : s.growMtx with
    | none =>
      simp only [hlock] at hstep
      cases hstep
      exact ⟨o, h.goto h.holding (OwnedExactly.acquire (hlock ▸ h.owner) rfl)⟩
    | some u =>
      cases g with
      | grow minBytes object =>
        simp only [hlock] at hstep
        cases hstep
      | background =>
        simp only [hlock] at hstep
        cases hstep
        exact ⟨o, h.goto h.holding (hlock ▸ h.owner.keep (by rw [hp]; rfl))⟩
  | growRead g =>
    have hholds : (s.point t).holdsGrow = true := by rw [hp]; rfl
    have hkeeps : KeepsSegments (Found I name o) (Call.guarded (listMtx H) (g.read P I)) :=
      g.keeps_read
    simp only [runSection, hp] at hstep
    cases hread : (Call.guarded (listMtx H) (g.read P I)).run s.manager with
    | value sizes m =>
      have hm := hkeeps false false s.manager h.holding m (by rw [hread]; rfl)
      cases sizes with
      | none =>
        simp only [hread] at hstep
        cases hstep
        exact ⟨o, h.goto hm (h.owner.release hholds g.next_outside)⟩
      | some sizes =>
        simp only [hread] at hstep
        cases hstep
        exact ⟨o, h.goto hm (h.owner.keep (by rw [hp]; rfl))⟩
    | thrown e m =>
      simp only [hread] at hstep
      cases hstep
    | stuck =>
      simp only [hread] at hstep
      cases hstep
  | growMap g chunk current =>
    have hholds : (s.point t).holdsGrow = true := by rw [hp]; rfl
    have hkeeps : KeepsSegments (Found I name o) (g.map P I env chunk current) := g.keeps_map hI
    simp only [runSection, hp] at hstep
    cases hmap : (g.map P I env chunk current).run s.manager with
    | value u m =>
      simp only [hmap] at hstep
      cases hstep
      have hm := hkeeps false false s.manager h.holding m (by rw [hmap]; rfl)
      exact ⟨o, h.goto hm (h.owner.release hholds g.next_outside)⟩
    | thrown e m =>
      have hm := hkeeps false false s.manager h.holding m (by rw [hmap]; rfl)
      cases g with
      | background =>
        simp only [hmap] at hstep
        cases hstep
      | grow minBytes object =>
        cases object with
        | none =>
          simp only [hmap] at hstep
          cases hstep
          exact ⟨o, h.goto hm (h.owner.release hholds rfl)⟩
        | some object =>
          obtain ⟨name', bytes⟩ := object
          simp only [hmap] at hstep
          cases hstep
          refine ⟨o, h.finish hm (h.owner.release hholds rfl) fun hname => ?_⟩
          -- memory suffices, so that the growth has returned
          simp only [MemorySuffices, hp, hmap] at hmemory
          exact absurd (hmemory hname) Bool.false_ne_true
    | stuck =>
      simp only [hmap] at hstep
      cases hstep
  | constructLast name' bytes =>
    simp only [ConstructsUnheld, hp] at hunheld
    simp only [MemorySuffices, hp] at hmemory
    exact h.runConstructLast hI hp hunheld (fun hname => hmemory hname (hunheld hname)) hstep

theorem inv_step (hI : I.FindsObjects) (h : Inv I name start o s) (hspares : Undestroyed name s l)
    (hmemory : MemorySuffices P I name s l) (hunheld : ConstructsUnheld I name s l)
    (hstep : step P I s l = some s') : ∃ o', Inv I name start o' s' := by
  cases l with
  | run t env => exact inv_run hI h hspares hmemory hunheld hstep
  | call t task =>
    simp only [step] at hstep
    split at hstep
    · rename_i hp
      cases hstep
      refine ⟨o, h.ready, h.found, h.objects, h.finished, h.owner.keep ?_⟩
      rw [hp]
      cases task <;> rfl
    · cases hstep

end steps

/-! ## 4. Every call comes to its end -/

/-- The object whose call of `find_or_construct` has reached this point. -/
def Point.object : Point N → Option N
  | .idle | .other _ => none
  | .find name _ | .construct name _ | .constructLast name _ => some name
  | .growLock g | .growRead g | .growMap g _ _ =>
      match g with
      | .grow _ object => object.map Prod.fst
      | .background => none

/-- A bound on the sections that are left. -/
def Point.left : Point N → Nat
  | .idle => 0
  | .other _ | .constructLast _ _ => 1
  | .growMap _ _ _ => 2
  | .growRead _ => 3
  | .growLock _ => 4
  | .construct _ _ => 5
  | .find _ _ => 6

/-- What the system answers when it has nothing left. -/
def exhausted (I : InnerManager H N) : Env H where
  createAnon _ := none
  createShm _ := none
  shmGrow _ := false
  openShmChunk _ _ := none
  inPlace _ := I.create 0

theorem Grower.next_left (g : Grower N) : g.next.left < 2 := by
  cases g with
  | grow minBytes object => cases object <;> simp [Grower.next, Point.left]
  | background => simp [Grower.next, Point.left]

section progress

variable {P : Platform} {I : InnerManager H N} {env : Env H} {m : Manager H}

theorem Grower.run_read (hm : Ready m) (g : Grower N) :
    ∃ sizes, (Call.guarded (listMtx H) (g.read P I)).run m = .value sizes m := by
  cases g with
  | grow minBytes object => exact ⟨_, Call.guarded_section hm.list hm.list run_readSize⟩
  | background =>
    obtain ⟨s0, rest, hs0, -⟩ := hm.segments
    have hlast : ((listMtx H).setHeld true m).segments.getLast? = some _ :=
      List.getLast?_eq_some_getLast (hs0 ▸ List.cons_ne_nil _ _)
    exact ⟨_, Call.guarded_section hm.list hm.list (run_readSizeBackground hlast)⟩

/-- The second half of a `grow` locks nothing twice. -/
theorem Grower.map_not_stuck (hm : Ready m) {minBytes chunk current : Word}
    {object : Option (N × Word)} :
    (Grower.map P I env chunk current (.grow minBytes object)).run m ≠ .stuck := by
  rw [Grower.map, Call.run_read_bind]
  split
  · exact growAnon_not_stuck hm.list
  · exact growShm_not_stuck hm.list

/-- A `grow_background` without memory returns. -/
theorem Grower.map_exhausted {chunk current : Word} :
    (Grower.map P I (exhausted I) chunk current .background).run m = .value () m := by
  rw [Grower.map, Call.run_read_bind]
  cases hanon : m.anon with
  | true => simp [exhausted]
  | false => simp [exhausted]

end progress

section calls

variable [DecidableEq T] [DecidableEq N] {P : Platform} {I : InnerManager H N} {env : Env H}
  {name name' : N} {start o : Option Word} {s s' : State T H N} {t u : T}

omit [DecidableEq N] in
/-- A section takes its own thread nearer to the end of its call, and moves no
    other thread. -/
theorem runSection_point (hstep : runSection P I env t s = some s') :
    ∃ p, s'.point = Function.update s.point t p ∧ p.left < (s.point t).left := by
  cases hp : s.point t with
  | idle =>
    simp only [runSection, hp] at hstep
    cases hstep
  | other sec =>
    simp only [runSection, hp, Option.map_eq_some_iff] at hstep
    obtain ⟨m, -, rfl⟩ := hstep
    exact ⟨_, rfl, Nat.one_pos⟩
  | find name bytes =>
    simp only [runSection, hp] at hstep
    split at hstep
    all_goals cases hstep
    all_goals exact ⟨_, rfl, by simp [Point.left]⟩
  | construct name bytes =>
    simp only [runSection, hp] at hstep
    split at hstep
    all_goals cases hstep
    all_goals exact ⟨_, rfl, by simp [Point.left]⟩
  | growLock g =>
    simp only [runSection, hp] at hstep
    split at hstep
    all_goals cases hstep
    all_goals exact ⟨_, rfl, by simp [Point.left]⟩
  | growRead g =>
    simp only [runSection, hp] at hstep
    split at hstep
    all_goals cases hstep
    · exact ⟨_, rfl, Nat.lt_succ_of_lt g.next_left⟩
    · exact ⟨_, rfl, by simp [Point.left]⟩
  | growMap g chunk current =>
    simp only [runSection, hp] at hstep
    split at hstep
    all_goals cases hstep
    · exact ⟨_, rfl, Grower.next_left _⟩
    all_goals exact ⟨_, rfl, by simp [Point.left]⟩
  | constructLast name bytes =>
    simp only [runSection, hp] at hstep
    split at hstep
    all_goals cases hstep
    all_goals exact ⟨_, rfl, by simp [Point.left]⟩

/-- The thread that holds `grow_mtx_` can go on. -/
theorem Inv.holder_runs (h : Inv I name start o s) (hu : s.growMtx = some u) :
    ∃ env, (runSection P I env u s).isSome = true := by
  have hholds : (s.point u).holdsGrow = true := (h.owner u).mp hu
  cases hp : s.point u with
  | growRead g =>
    obtain ⟨sizes, hread⟩ := g.run_read (P := P) (I := I) h.isReady
    refine ⟨exhausted I, ?_⟩
    simp only [runSection, hp, hread]
    cases sizes <;> rfl
  | growMap g chunk current =>
    refine ⟨exhausted I, ?_⟩
    simp only [runSection, hp]
    cases g with
    | background => rw [Grower.map_exhausted]; rfl
    | grow minBytes object =>
      have hnot : (Grower.map P I (exhausted I) chunk current (.grow minBytes object)).run
          s.manager ≠ .stuck := Grower.map_not_stuck h.isReady
      cases hmap : (Grower.map P I (exhausted I) chunk current (.grow minBytes object)).run
          s.manager with
      | value a m => rfl
      | thrown e m =>
        rcases object with - | ⟨name, bytes⟩
        · rfl
        · rfl
      | stuck => exact absurd hmap hnot
  | _ =>
    rw [hp] at hholds
    cases hholds

/-- A thread in a call of `find_or_construct` can go on, or waits for one that
    can. -/
theorem Inv.call_runs (h : Inv I name start o s) (hcall : (s.point t).object = some name') :
    (∀ env, (runSection P I env t s).isSome = true) ∨
    ∃ u, s.growMtx = some u ∧ ∃ env, (runSection P I env u s).isSome = true := by
  cases hp : s.point t with
  | idle | other sec =>
    rw [hp] at hcall
    cases hcall
  | find name bytes =>
    left
    intro env
    simp only [runSection, hp, run_find h.isReady]
    cases findLoop I name s.manager.segments <;> rfl
  | construct name bytes =>
    left
    intro env
    simp only [runSection, hp]
    rw [run_constructExisting h.ready.1]
    cases constructLoop I name bytes s.manager.segments <;> rfl
  | growLock g =>
    cases hlock : s.growMtx with
    | some u => exact .inr ⟨u, rfl, h.holder_runs hlock⟩
    | none =>
      left
      intro env
      simp only [runSection, hp, hlock]
      rfl
  | growRead g =>
    left
    intro env
    obtain ⟨sizes, hread⟩ := g.run_read (P := P) (I := I) h.isReady
    simp only [runSection, hp, hread]
    cases sizes <;> rfl
  | growMap g chunk current =>
    left
    intro env
    simp only [runSection, hp]
    rw [hp] at hcall
    cases g with
    | background => cases hcall
    | grow minBytes object =>
      have hnot : (Grower.map P I env chunk current (.grow minBytes object)).run s.manager ≠
          .stuck := Grower.map_not_stuck h.isReady
      cases hmap : (Grower.map P I env chunk current (.grow minBytes object)).run s.manager with
      | value a m => rfl
      | thrown e m =>
        rcases object with - | ⟨name, bytes⟩
        · rfl
        · rfl
      | stuck => exact absurd hmap hnot
  | constructLast name bytes =>
    left
    intro env
    obtain ⟨s0, rest, hs0, -⟩ := h.found.1
    obtain ⟨last, hlast⟩ : ∃ last, s.manager.segments.getLast? = some last :=
      ⟨_, List.getLast?_eq_some_getLast (hs0 ▸ List.cons_ne_nil _ _)⟩
    simp only [runSection, hp]
    rw [run_constructLast h.ready.1 hlast]
    cases I.construct last.smgr name bytes <;> rfl

end calls

/-! ## 5. Result -/

/-- Under any interleaving in which the name is not destroyed, memory suffices and
    no section constructs the name where a segment holds it: there is at most one
    object of the name, and every call that is over has returned it. A thread in
    a call can run its next section, or waits for a thread that can, and a call
    has six sections at most. -/
theorem find_or_construct_agrees [DecidableEq T] [DecidableEq N] {P : Platform}
    {I : InnerManager H N} (hI : I.FindsObjects) {m₀ m : Manager H} (hstart : Started P I m₀)
    (hbefore : Steps (serve P I) anyStep m₀ m) {name : N} {s : State T H N}
    (hrun : Steps (step P I) (fun s l => Undestroyed name s l ∧ MemorySuffices P I name s l ∧
      ConstructsUnheld I name s l) (started m) s) :
    (∃ o, (findLoop I name m.segments).toList ++ s.made name = o.toList ∧
      ∀ q ∈ s.finished, q.1 = name → ∃ p, o = some p ∧ q.2 = .ok (some p)) ∧
    (∀ t name', (s.point t).object = some name' →
      (∀ env, (runSection P I env t s).isSome = true) ∨
      ∃ u, s.growMtx = some u ∧ ∃ env, (runSection P I env u s).isSome = true) ∧
    (∀ t env s', runSection P I env t s = some s' →
      ∃ p, s'.point = Function.update s.point t p ∧ p.left < (s.point t).left) := by
  have hm : Ready m := ready_of_steps hstart hbefore
  have hinv : ∃ o, Inv I name (findLoop I name m.segments) o s := by
    refine hrun.invariant (fun s => ∃ o, Inv I name (findLoop I name m.segments) o s) ?_ ?_
    · refine ⟨_, ⟨hm.list, hm.grow⟩, ⟨hm.segments, rfl⟩, ?_, by simp [started], ?_⟩
      · simp [started, State.made]
      · intro t
        constructor
        · nofun
        · nofun
    · rintro a l b ⟨o, ha⟩ ⟨hspares, hmemory, hunheld⟩ hs
      exact inv_step hI ha hspares hmemory hunheld hs
  obtain ⟨o, h⟩ := hinv
  refine ⟨⟨o, h.objects, h.finished⟩, ?_, ?_⟩
  · intro t name' hcall
    exact h.call_runs hcall
  · intro t env s' hstep
    exact runSection_point hstep

/-- Two threads, the second of which comes when the first has its object. -/
theorem find_or_construct_agrees_in_turn :
    ∃ s : State Bool Arena Nat, s.finished.length = 2 ∧
      ∃ o : Option Word, (findLoop arena 1 arenaShmManager.segments).toList ++ s.made 1 = o.toList ∧
        ∀ q ∈ s.finished, q.1 = 1 → ∃ p, o = some p ∧ q.2 = .ok (some p) := by
  let call (t : Bool) : Label Bool Arena Nat := .call t (.findOrConstruct 1 64)
  let run (t : Bool) : Label Bool Arena Nat := .run t roomyEnv
  let condition (s : State Bool Arena Nat) (l : Label Bool Arena Nat) : Prop :=
    Undestroyed 1 s l ∧ MemorySuffices fourKiBPages arena 1 s l ∧ ConstructsUnheld arena 1 s l
  have h₀ : Steps (step fourKiBPages arena) condition (started arenaShmManager) _ := .refl _
  have h₁ := h₀.tail (l := call false) ⟨trivial, trivial, trivial⟩ rfl
  have h₂ := h₁.tail (l := run false) ⟨trivial, trivial, trivial⟩ rfl
  have h₃ := h₂.tail (l := run false) ⟨trivial, trivial, fun _ => rfl⟩ rfl
  have h₄ := h₃.tail (l := call true) ⟨trivial, trivial, trivial⟩ rfl
  have h₅ := h₄.tail (l := run true) ⟨trivial, trivial, trivial⟩ rfl
  exact ⟨_, rfl, (find_or_construct_agrees arena_findsObjects
    (.created arenaShmManager_created) (.refl _) h₅).1⟩

/-- Two threads find the name nowhere, and then both construct it: the second is
    refused. -/
theorem find_or_construct_refused :
    ¬ ∀ (m₀ m : Manager Arena) (name : Nat) (s : State Bool Arena Nat),
      Started fourKiBPages arena m₀ → Steps (serve fourKiBPages arena) anyStep m₀ m →
      Steps (step fourKiBPages arena) (fun s l => Undestroyed name s l ∧
        MemorySuffices fourKiBPages arena name s l) (started m) s →
      ∃ o, (findLoop arena name m.segments).toList ++ s.made name = o.toList ∧
        ∀ q ∈ s.finished, q.1 = name → ∃ p, o = some p ∧ q.2 = .ok (some p) := by
  intro hall
  let call (t : Bool) : Label Bool Arena Nat := .call t (.findOrConstruct 1 64)
  let run (t : Bool) : Label Bool Arena Nat := .run t roomyEnv
  let condition (s : State Bool Arena Nat) (l : Label Bool Arena Nat) : Prop :=
    Undestroyed 1 s l ∧ MemorySuffices fourKiBPages arena 1 s l
  have h₀ : Steps (step fourKiBPages arena) condition (started arenaShmManager) _ := .refl _
  have h₁ := h₀.tail (l := call false) ⟨trivial, trivial⟩ rfl
  have h₂ := h₁.tail (l := call true) ⟨trivial, trivial⟩ rfl
  have h₃ := h₂.tail (l := run false) ⟨trivial, trivial⟩ rfl
  have h₄ := h₃.tail (l := run true) ⟨trivial, trivial⟩ rfl
  have h₅ := h₄.tail (l := run false) ⟨trivial, trivial⟩ rfl
  have h₆ := h₅.tail (l := run true) ⟨trivial, trivial⟩ rfl
  obtain ⟨o, -, hfinished⟩ := hall _ _ 1 _ (.created arenaShmManager_created) (.refl _) h₆
  have hrefused : ∃ p, o = some p ∧
      (.error .interprocess : Except Exn (Option Word)) = .ok (some p) :=
    hfinished _ (List.mem_cons_of_mem _ List.mem_cons_self) rfl
  obtain ⟨p, -, hok⟩ := hrefused
  cases hok

end Memnon.NameThreads
