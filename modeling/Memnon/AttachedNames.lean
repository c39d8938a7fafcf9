import Memnon.NamedObjects
import Memnon.ManagerSessions

/-!
# Names in attached processes

One process grows the file and constructs in it; others attach and look names up.
The index of a segment lives in the segment, so every process that has mapped it
sees the same names. But `find` walks over the segments that the process has
mapped so far, and only a pointer that leads behind them, not a name, makes the
process map more.
-/

namespace Memnon.Attached

open Memnon.Lib Memnon.Sessions

variable {H N J : Type}

/-! ## 1. The system -/

/-- What a growth in progress carries from its first section. -/
structure Growth where
  background : Bool
  newChunkSize : Word
  currentFileSize : Word

/-- The sections of the owner under `list_mtx_`, growth apart. -/
inductive Section (N : Type) where
  | allocate (bytes : Word)
  | deallocate (ptr : Word)
  | construct (name : N) (bytes : Word)
  | constructLast (name : N) (bytes : Word)
  | destroy (name : N)

/-- What a section tells its caller about objects. -/
inductive Report (N : Type) where
  | nothing
  | constructed (name : N)
  | destroyed (name : N)

structure World (J H N : Type) where
  /-- the manager that constructs; the inner managers in the file are kept here -/
  owner : Manager H
  /-- the growth whose thread holds the owner's `grow_mtx_` -/
  growth : Option Growth
  attached : J → Option (Manager H)
  /-- the objects constructed and not destroyed -/
  live : List N

inductive Label (J H N : Type) where
  | run (sec : Section N)
  | readSize (minBytes : Word)
  | readSizeBackground
  | publish (env : Env H)
  | attach (j : J) (env : Env H) (registry : Word → Option Word)
  | discover (j : J) (env : Env H) (requiredFileOffset : Word)
  | find (j : J) (name : N)

def Section.run (P : Platform) (I : InnerManager H N) : Section N → Op H (Report N)
  | .allocate bytes => do
      let _ ← .guarded (listMtx H) (tryAllocateLocked I bytes)
      return .nothing
  | .deallocate ptr => do
      Memnon.deallocate P I ptr
      return .nothing
  | .construct name bytes => do
      match ← .guarded (listMtx H) (constructExisting I name bytes (pure ())) with
      | some _ => return .constructed name
      | none => return .nothing
  | .constructLast name bytes => do
      match ← .guarded (listMtx H) (Memnon.constructLast I name bytes (pure ())) with
      | some _ => return .constructed name
      | none => return .nothing
  | .destroy name => do
      match ← Memnon.destroy I name (pure ()) with
      | true => return .destroyed name
      | false => return .nothing

def Report.apply [DecidableEq N] (live : List N) : Report N → List N
  | .nothing => live
  | .constructed name => name :: live
  | .destroyed name => live.erase name

/-- The last section of a growth. -/
def Growth.publish (P : Platform) (I : InnerManager H N) (env : Env H) (g : Growth) : Op H Unit :=
  .guarded (listMtx H)
    (if g.background then publishChunkBackground P I env g.newChunkSize g.currentFileSize
      else publishChunk P I env g.newChunkSize g.currentFileSize)

/-- The inner manager that the owner has placed at a file offset. -/
def World.inFile (w : World J H N) (fileOffset : Word) (other : H) : H :=
  match w.owner.segments.find? fun info => info.fileOffset == fileOffset with
  | some info => info.smgr
  | none => other

/-- What an attached process has mapped, with the contents of the file. -/
def World.view (w : World J H N) (m : Manager H) : Manager H :=
  { m with
    table := w.owner.table
    segments := m.segments.map fun info =>
      { info with smgr := w.inFile info.fileOffset info.smgr } }

def World.inEnv (w : World J H N) (env : Env H) : Env H :=
  { env with inPlace := fun range => w.inFile range.fileOffset (env.inPlace range) }

section system

variable [DecidableEq J] [DecidableEq N] (P : Platform) (I : InnerManager H N)

def World.attach (w : World J H N) (j : J) (m : Manager H) : World J H N :=
  { w with attached := Function.update w.attached j (some m) }

/-- The next section of a thread of the owner, or an operation of an attached
    process. A second growth waits for `grow_mtx_`. -/
def step (w : World J H N) : Label J H N → Option (World J H N)
  | .run sec =>
      match (sec.run P I).run w.owner with
      | .value report m => some { w with owner := m, live := report.apply w.live }
      | .thrown _ m => some { w with owner := m }
      | .stuck => none
  | .readSize minBytes =>
      match w.growth, (Call.guarded (listMtx H) (readSize P I minBytes)).run w.owner with
      | none, .value sizes m =>
          some { w with owner := m, growth := sizes.map fun c => ⟨false, c.1, c.2⟩ }
      | _, _ => none
  | .readSizeBackground =>
      match w.growth, (Call.guarded (listMtx H) (readSizeBackground P I)).run w.owner with
      | none, .value sizes m =>
          some { w with owner := m, growth := sizes.map fun c => ⟨true, c.1, c.2⟩ }
      | _, _ => none
  | .publish env =>
      match w.growth with
      | none => none
      | some g =>
          if env.shmGrow (g.currentFileSize + g.newChunkSize) then
            ((g.publish P I env).run w.owner).state.map fun m =>
              { w with owner := m, growth := none }
          else some { w with growth := none }
  | .attach j env registry =>
      match w.attached j with
      | some _ => none
      | none => (returned ((openAllSegmentsMapped P I (w.inEnv env)).run
          (.empty false w.owner.table registry))).map (w.attach j)
  | .discover j env requiredFileOffset =>
      match w.attached j with
      | none => none
      | some m => ((discoverGrowth P I (w.inEnv env) requiredFileOffset).run
          (w.view m)).state.map (w.attach j)
  | .find j name =>
      match w.attached j with
      | none => none
      | some m => ((find I name).run (w.view m)).state.map (w.attach j)

def OnPlatform (_ : World J H N) : Label J H N → Prop
  | .publish env => SizesMapped env
  | _ => True

/-- The creator alone. -/
def created (m : Manager H) : World J H N := ⟨m, none, fun _ => none, []⟩

end system

/-! ## 2. What a process finds -/

section found

variable (I : InnerManager H N) (name : N)

/-- The object found in the segments: its address here, and its file offset. -/
def foundAt (segments : List (SegInfo H)) : Option (Word × Word) :=
  segments.findSome? fun info => (I.find info.smgr name).map fun offset =>
    (info.blockAddr I offset, managerFileOffset I info + offset)

/-- `find` returns the object at the file offset `o`, or null. -/
def FindsAt (m : Manager H) (o : Option Word) : Prop :=
  (find I name).run m = .value ((foundAt I name m.segments).map Prod.fst) m ∧
    (foundAt I name m.segments).map Prod.snd = o

/-- The name is found in all processes, at one file offset, exactly when it has
    been constructed and not destroyed. -/
def Visible (w : World J H N) : Prop :=
  ∃ o : Option Word, (o.isSome = true ↔ name ∈ w.live) ∧ FindsAt I name w.owner o ∧
    ∀ j m, w.attached j = some m → FindsAt I name (w.view m) o

/-- The process has mapped the segment that holds the name, the first one if
    there are several. -/
def HolderMapped (w : World J H N) (m : Manager H) : Prop :=
  ∀ info ∈ w.owner.segments.find? (SegInfo.holds I name), info.toFileRange ∈ fileRanges m.segments

end found

/-! ## 3. The owner -/

section owner

variable {P : Platform} {I : InnerManager H N} {env : Env H} {m m' : Manager H}
  {pre post segments : List (SegInfo H)} {info : SegInfo H} {smgr : H}

/-- The count of a name among the live objects is that of its holders. -/
def Counts [DecidableEq N] (I : InnerManager H N) (live : List N)
    (segments : List (SegInfo H)) : Prop :=
  ∀ name, live.count name = holders I name segments

/-- A section leaves the segments where they are. -/
structure Answered [DecidableEq N] (I : InnerManager H N) (m : Manager H) (live : List N)
    (m' : Manager H) : Prop where
  inStep : InStep (fun _ => True) m'
  segments : segmentsOf m' = segmentsOf m
  live : Counts I live m'.segments

/-- The contents of one segment change. -/
theorem Answered.set [DecidableEq N] {live : List N} (h : InStep (fun _ => True) m)
    (hs : m.segments = pre ++ info :: post)
    (hlive : Counts I live (pre ++ { info with smgr := smgr } :: post)) :
    Answered I m live { m with segments := pre ++ { info with smgr := smgr } :: post } := by
  have hsegs : segmentsOf { m with segments := pre ++ { info with smgr := smgr } :: post } =
      segmentsOf m := by
    simp [segmentsOf, hs]
  exact ⟨h.same rfl rfl rfl hsegs fun _ _ => trivial, hsegs, hlive⟩

theorem deallocated_same (ptr : Word) :
    (deallocated P I m ptr).anon = m.anon ∧ (deallocated P I m ptr).listHeld = m.listHeld ∧
      (deallocated P I m ptr).table = m.table ∧
      segmentsOf (deallocated P I m ptr) = segmentsOf m := by
  unfold deallocated
  split
  · exact ⟨rfl, rfl, rfl, rfl⟩
  · split
    · exact ⟨rfl, rfl, rfl, rfl⟩
    · split
      · refine ⟨rfl, rfl, rfl, List.ext_getElem (by simp [segmentsOf]) fun k _ _ => ?_⟩
        simp only [segmentsOf, List.getElem_map, List.getElem_modify]
        split <;> rfl
      · exact ⟨rfl, rfl, rfl, rfl⟩

theorem Counts.constructed [DecidableEq N] (hI : I.NamesLawful) {live : List N} {name : N}
    {bytes offset : Word} (h : Counts I live (pre ++ info :: post))
    (hcons : I.construct info.smgr name bytes = .constructed offset smgr) :
    Counts I (name :: live) (pre ++ { info with smgr := smgr } :: post) := by
  intro n
  rw [holders_constructed hI hcons, ← h n, List.count_cons]
  by_cases hn : n = name
  · subst hn
    simp
  · simp [hn, Ne.symm hn]

theorem Counts.destroyed [DecidableEq N] (hI : I.NamesLawful) {live : List N} {name : N}
    {offset : Word} (h : Counts I live (pre ++ info :: post))
    (hdestroy : I.destroy info.smgr name = some (offset, smgr)) :
    Counts I (live.erase name) (pre ++ { info with smgr := smgr } :: post) := by
  intro n
  have hn := h n
  rw [holders_destroyed hI hdestroy] at hn
  by_cases hname : n = name
  · subst hname
    rw [List.count_erase_self, hn]
    simp
  · rw [List.count_erase_of_ne hname, hn, if_neg hname, Nat.add_zero]

/-- A section of the owner ends, and the live objects are counted as before. -/
theorem section_ends [DecidableEq N] (hI : I.NamesLawful) (h : InStep (fun _ => True) m)
    {live : List N} (hlive : Counts I live m.segments) (sec : Section N) :
    (∃ report m', (sec.run P I).run m = .value report m' ∧
      Answered I m (report.apply live) m') ∨
    ∃ e, (sec.run P I).run m = .thrown e m := by
  have hsame : Answered I m live m := ⟨h, rfl, hlive⟩
  have hheld : Holding (HeldAs I fun name => live.count name) m.listHeld m.growHeld m :=
    ⟨rfl, rfl, fun name => (hlive name).symm⟩
  have hstable := stable_heldAs hI fun name => live.count name
  cases sec with
  | allocate bytes =>
    obtain ⟨p, m', hrun, hm', hsegs⟩ := h.tryAllocate (fun _ _ => trivial) bytes
    have hkept := (KeepsSegments.list hstable.tryAllocateLocked) _ _ m hheld m' (by rw [hrun]; rfl)
    refine .inl ⟨.nothing, m', ?_, hm', hsegs, fun name => (hkept.segments name).symm⟩
    rw [Section.run, Call.run_bind_value hrun]
    rfl
  | deallocate ptr =>
    have hrun : (Memnon.deallocate P I ptr).run m = _ := run_deallocate h.free ptr
    have hkept := hstable.deallocate _ _ m hheld _ (by rw [hrun]; rfl)
    obtain ⟨hanon, hlist, htable, hsegs⟩ := deallocated_same (P := P) (I := I) (m := m) ptr
    refine .inl ⟨_, _, (Call.run_bind_value hrun).trans rfl, ?_, hsegs, ?_⟩
    · exact h.same hanon hlist htable hsegs fun _ _ => trivial
    · exact fun name => (hkept.segments name).symm
  | construct name bytes =>
    have hrun : (Call.guarded (listMtx H) (constructExisting I name bytes (pure ()))).run m = _ :=
      run_constructExisting h.free
    cases hloop : constructLoop I name bytes m.segments with
    | constructed p segments =>
      simp only [hloop] at hrun
      obtain ⟨pre, info, post, offset, smgr, hs, hcons, rfl, -⟩ := constructLoop_split hloop
      refine .inl ⟨_, _, (Call.run_bind_value hrun).trans rfl, .set h hs ?_⟩
      exact (hs ▸ hlive).constructed hI hcons
    | refused =>
      simp only [hloop] at hrun
      exact .inr ⟨_, Call.run_bind_thrown hrun⟩
    | exhausted =>
      simp only [hloop] at hrun
      exact .inl ⟨_, _, (Call.run_bind_value hrun).trans rfl, hsame⟩
  | constructLast name bytes =>
    obtain ⟨last, hlast⟩ := h.exists_last
    obtain ⟨pre, hs⟩ := List.getLast?_eq_some_iff.mp hlast
    have hrun : (Call.guarded (listMtx H) (constructLast I name bytes (pure ()))).run m = _ :=
      run_constructLast h.free hlast
    cases hcons : I.construct last.smgr name bytes with
    | constructed offset smgr =>
      simp only [hcons] at hrun
      have hdrop : m.segments.dropLast = pre := by rw [hs, List.dropLast_concat]
      rw [hdrop] at hrun
      refine .inl ⟨_, _, (Call.run_bind_value hrun).trans rfl, .set h hs ?_⟩
      exact (hs ▸ hlive).constructed hI hcons
    | null =>
      simp only [hcons] at hrun
      exact .inl ⟨_, _, (Call.run_bind_value hrun).trans rfl, hsame⟩
    | badAlloc =>
      simp only [hcons] at hrun
      exact .inr ⟨_, Call.run_bind_thrown hrun⟩
    | refused =>
      simp only [hcons] at hrun
      exact .inr ⟨_, Call.run_bind_thrown hrun⟩
  | destroy name =>
    have hrun : (destroy I name (pure ())).run m = _ := run_destroy h.free
    cases hloop : destroyLoop I name m.segments with
    | none =>
      simp only [hloop] at hrun
      exact .inl ⟨_, _, (Call.run_bind_value hrun).trans rfl, hsame⟩
    | some segments =>
      simp only [hloop] at hrun
      obtain ⟨pre, info, post, offset, smgr, hs, hdestroy, rfl⟩ := destroyLoop_split hloop
      refine .inl ⟨_, _, (Call.run_bind_value hrun).trans rfl, .set h hs ?_⟩
      exact (hs ▸ hlive).destroyed hI hdestroy

/-- The last section of a growth appends the chunk it carries, if anything. -/
theorem publish_ends [DecidableEq N] (hI : I.NamesLawful) (h : InStep (fun _ => True) m)
    {live : List N} (hlive : Counts I live m.segments) (henv : SizesMapped env) {g : Growth}
    (hg : Carries m g.newChunkSize g.currentFileSize)
    (hends : m' ∈ ((g.publish P I env).run m).state) :
    InStep (fun _ => True) m' ∧ segmentsOf m <+: segmentsOf m' ∧ Counts I live m'.segments := by
  have hrun : (g.publish P I env).run m = (Call.guarded (listMtx H)
      (publishChunk P I env g.newChunkSize g.currentFileSize)).run m := by
    rw [Growth.publish]
    cases g.background with
    | true => exact publishChunkBackground_eq hg
    | false => rfl
  rw [hrun] at hends
  have hstable := stable_heldAs hI fun name => live.count name
  have hkeeps : KeepsSegments (HeldAs I fun name => live.count name) (Call.guarded (listMtx H)
      (publishChunk P I env g.newChunkSize g.currentFileSize)) :=
    .list (.bind hstable.addSegmentShm fun _ => .publishLastSegment)
  have hkept := hkeeps _ _ m ⟨rfl, rfl, fun name => (hlive name).symm⟩ m' hends
  refine ⟨?_, ?_, fun name => (hkept.segments name).symm⟩
  all_goals
    rcases h.publish (P := P) (I := I) henv (fun _ => trivial) hg with
      hthrown | ⟨m₁, hvalue, hm₁, hsegs⟩
  · rw [hthrown] at hends
    cases hends
    exact h
  · rw [hvalue] at hends
    cases hends
    exact hm₁
  · rw [hthrown] at hends
    cases hends
    exact List.prefix_rfl
  · rw [hvalue] at hends
    cases hends
    exact hsegs ▸ List.prefix_append _ _

end owner

/-! ## 4. The attached processes -/

section attached

variable {P : Platform} {I : InnerManager H N} {env : Env H} {owner m m' : Manager H}
  {w : World J H N} {name : N}

/-- An attached process has mapped the first segments of the owner. -/
structure Mapped (owner m : Manager H) : Prop where
  shm : m.anon = false
  free : m.listHeld = false
  mapped : segmentsOf m ≠ []
  listed : segmentsOf m <+: segmentsOf owner

theorem Mapped.grown {owner' : Manager H} (h : Mapped owner m)
    (hlisted : segmentsOf owner <+: segmentsOf owner') : Mapped owner' m :=
  ⟨h.shm, h.free, h.mapped, h.listed.trans hlisted⟩

theorem segmentsOf_view : segmentsOf (w.view m) = segmentsOf m := by
  simp [segmentsOf, World.view]

theorem Mapped.view (h : Mapped w.owner m) : Mapped w.owner (w.view m) :=
  ⟨h.shm, h.free, segmentsOf_view.symm ▸ h.mapped, segmentsOf_view.symm ▸ h.listed⟩

/-- The loop over the missing entries appends some of them, until a mapping
    fails. -/
theorem discoverLoop_ends {entries : List FileRange}
    (h : m' ∈ ((discoverLoop P I env entries).run m).state) :
    (segmentsOf m' <+: segmentsOf m ++ entries.map fun e => ⟨e, false⟩) ∧
      segmentsOf m <+: segmentsOf m' ∧ m'.anon = m.anon ∧ m'.listHeld = m.listHeld := by
  induction entries generalizing m with
  | nil =>
    cases h
    simp
  | cons e rest ih =>
    cases hmap : env.openShmChunk e.size e.fileOffset with
    | none =>
      rw [discoverLoop_fails hmap] at h
      cases h
      exact ⟨List.prefix_append _ _, List.prefix_rfl, rfl, rfl⟩
    | some mapping =>
      rw [discoverLoop_maps hmap] at h
      obtain ⟨hupper, hlower, hanon, hlist⟩ := ih h
      have hsegs : segmentsOf (withChunk P m mapping e (env.inPlace e)) =
          segmentsOf m ++ [⟨e, false⟩] := by simp [segmentsOf, withChunk]
      rw [hsegs] at hupper hlower
      refine ⟨?_, (List.prefix_append _ _).trans hlower, hanon, hlist⟩
      rwa [List.append_assoc] at hupper

/-- Discovery maps more of the owner's segments. -/
theorem Mapped.discover (h : Mapped owner m) (howner : InStep (fun _ => True) owner)
    (htable : m.table = owner.table) {required : Word}
    (hends : m' ∈ ((discoverGrowth P I env required).run m).state) : Mapped owner m' := by
  rw [discoverGrowth, Call.run_read_bind, h.shm, if_neg Bool.false_ne_true] at hends
  obtain ⟨m₁, hbody, rfl⟩ := Call.guarded_ends hends
  rw [Call.run_read_bind, Call.state_bind_pure] at hbody
  have hentries := discovered_entries m.table (m.segments.map SegInfo.toSegment) required
  rw [List.length_map] at hentries
  simp only [listMtx_segments, listMtx_table, hentries] at hbody
  obtain ⟨hupper, hlower, hanon, -⟩ := discoverLoop_ends hbody
  have hsame : segmentsOf ((listMtx H).setHeld true m) = segmentsOf m := rfl
  rw [hsame] at hupper hlower
  have hall : segmentsOf m ++ (segmentsOf owner).drop (segmentsOf m).length = segmentsOf owner := by
    conv_rhs => rw [← List.take_append_drop (segmentsOf m).length (segmentsOf owner)]
    rw [← List.prefix_iff_eq_take.mp h.listed]
  have hlen : m.segments.length = (segmentsOf m).length := by simp [segmentsOf]
  refine ⟨hanon.trans h.shm, rfl, ?_, hupper.trans ?_⟩
  · intro hnil
    exact h.mapped (List.prefix_nil.mp (hnil ▸ hlower))
  · split
    · simpa using h.listed
    · have hpos : 0 < (segmentsOf m).length := List.length_pos_iff.mpr h.mapped
      rw [htable, howner.lists.published, hlen, ← rangesOf_drop, howner.grown.drop_eq hpos]
      exact ⟨[], (List.append_nil _).trans hall⟩

end attached

/-! ## 5. Every step keeps the invariant -/

structure Inv [DecidableEq N] (I : InnerManager H N) (w : World J H N) : Prop where
  owner : InStep (fun _ => True) w.owner
  growth : ∀ g ∈ w.growth, Carries w.owner g.newChunkSize g.currentFileSize
  live : Counts I w.live w.owner.segments
  attached : ∀ j m, w.attached j = some m → Mapped w.owner m

section steps

variable [DecidableEq J] [DecidableEq N] {P : Platform} {I : InnerManager H N} {env : Env H}
  {w w' : World J H N} {j : J} {m : Manager H} {l : Label J H N}

theorem carries_of_segmentsOf {m m' : Manager H} (hsegs : segmentsOf m' = segmentsOf m)
    {chunk current : Word} (h : Carries m chunk current) : Carries m' chunk current := by
  unfold Carries at h ⊢
  rw [hsegs]
  exact h

omit [DecidableEq J] in
theorem inv_created {table : SegmentTable} {registry : Word → Option Word} {initialSize : Word}
    (hI : I.NamesLawful) (henv : SizesMapped env)
    (h : (constructCreator P I env initialSize).run (.empty false table registry) = .value () m) :
    Inv I (created m : World J H N) := by
  have hm : InStep (fun smgr => ∃ size, smgr = I.create size) m :=
    .created henv (fun size => ⟨size, rfl⟩) h
  refine ⟨hm.same rfl rfl rfl rfl fun _ _ => trivial, nofun, fun name => ?_, nofun⟩
  symm
  apply holders_eq_zero.mpr
  intro info hinfo
  obtain ⟨size, hsize⟩ := hm.smgrs info hinfo
  rw [SegInfo.holds, hsize, hI.create]
  rfl

/-- A process attaches, or has mapped more. -/
theorem Inv.attach (h : Inv I w) (hm : Mapped w.owner m) : Inv I (w.attach j m) := by
  refine ⟨h.owner, h.growth, h.live, fun k m' hk => ?_⟩
  by_cases hkj : k = j
  · subst hkj
    obtain rfl : m = m' := by simpa [World.attach] using hk
    exact hm
  · refine h.attached k m' ?_
    simpa [World.attach, hkj] using hk

omit [DecidableEq J] in
/-- The first section of a growth. -/
theorem Inv.sized (h : Inv I w) {background : Bool} {sizes : Option (Word × Word)}
    (hc : ∀ c ∈ sizes, Carries w.owner c.1 c.2) :
    Inv I { w with growth := sizes.map fun c => ⟨background, c.1, c.2⟩ } := by
  refine ⟨h.owner, fun g hg => ?_, h.live, h.attached⟩
  obtain ⟨c, hsize, rfl⟩ := Option.map_eq_some_iff.mp hg
  exact hc c hsize

theorem inv_step (hI : I.NamesLawful) (h : Inv I w) (hplatform : OnPlatform w l)
    (hstep : step P I w l = some w') : Inv I w' := by
  cases l with
  | run sec =>
    rcases section_ends (P := P) hI h.owner h.live sec with ⟨report, m', hrun, hm'⟩ | ⟨e, hrun⟩
    · simp only [step, hrun] at hstep
      cases hstep
      refine ⟨hm'.inStep, fun g hg => ?_, hm'.live, fun j m hj => ?_⟩
      · exact carries_of_segmentsOf hm'.segments (h.growth g hg)
      · exact (h.attached j m hj).grown (hm'.segments ▸ List.prefix_rfl)
    · simp only [step, hrun] at hstep
      cases hstep
      exact h
  | readSize minBytes =>
    obtain ⟨sizes, hrun, hc⟩ := h.owner.readSize (P := P) (I := I) minBytes
    simp only [step, hrun] at hstep
    split at hstep
    · rename_i hvalue
      cases hvalue
      cases hstep
      exact h.sized hc
    · cases hstep
  | readSizeBackground =>
    obtain ⟨sizes, hrun, hc⟩ := h.owner.readSizeBackground (P := P) (I := I)
    simp only [step, hrun] at hstep
    split at hstep
    · rename_i hvalue
      cases hvalue
      cases hstep
      exact h.sized hc
    · cases hstep
  | publish env =>
    simp only [step] at hstep
    split at hstep
    · cases hstep
    · rename_i g hg
      split at hstep
      · obtain ⟨m', hends, rfl⟩ := Option.map_eq_some_iff.mp hstep
        obtain ⟨hm', hlisted, hlive⟩ :=
          publish_ends hI h.owner h.live hplatform (h.growth g hg) hends
        exact ⟨hm', nofun, hlive, fun j m hj => (h.attached j m hj).grown hlisted⟩
      · cases hstep
        exact ⟨h.owner, nofun, h.live, h.attached⟩
  | attach j env registry =>
    simp only [step] at hstep
    split at hstep
    · cases hstep
    · obtain ⟨m', hopen, rfl⟩ := Option.map_eq_some_iff.mp hstep
      obtain ⟨u, hrun⟩ := returned_eq_some hopen
      obtain ⟨hm', hsegs⟩ := open_value h.owner.lists h.owner.grown (fun _ => trivial) hrun
      refine h.attach ⟨hm'.shm, hm'.free, ?_, hsegs ▸ List.prefix_rfl⟩
      obtain ⟨s0, rest, hs0, -⟩ := hm'.grown.front
      exact hs0 ▸ List.cons_ne_nil _ _
  | discover j env required =>
    simp only [step] at hstep
    split at hstep
    · cases hstep
    · rename_i m hm
      obtain ⟨m', hends, rfl⟩ := Option.map_eq_some_iff.mp hstep
      exact h.attach ((h.attached j m hm).view.discover h.owner rfl hends)
  | find j name =>
    simp only [step] at hstep
    split at hstep
    · cases hstep
    · rename_i m hm
      obtain ⟨m', hends, rfl⟩ := Option.map_eq_some_iff.mp hstep
      have hview := (h.attached j m hm).view
      have hfind : (find I name).run (w.view m) = .value _ (w.view m) :=
        Call.guarded_section hview.free hview.free rfl
      rw [hfind] at hends
      cases hends
      exact h.attach hview

end steps

/-! ## 6. What the search of an attached process sees -/

section search

variable [DecidableEq N] {I : InnerManager H N} {w : World J H N} {m : Manager H} {name : N}
  {segments segments' : List (SegInfo H)}

/-- What a segment is to every process that has mapped it. -/
def contents (info : SegInfo H) : Segment × H := (info.toSegment, info.smgr)

/-- The file offset at which the search ends. -/
def fileAt (I : InnerManager H N) (name : N) (segments : List (SegInfo H)) : Option Word :=
  segments.findSome? fun info => (I.find info.smgr name).map (managerFileOffset I info + ·)

omit [DecidableEq N] in
theorem foundAt_snd : (foundAt I name segments).map Prod.snd = fileAt I name segments := by
  rw [foundAt, fileAt, List.map_findSome?]
  congr 1
  funext info
  simp [Function.comp_def]

omit [DecidableEq N] in
theorem fileAt_congr (h : segments.map contents = segments'.map contents) :
    fileAt I name segments = fileAt I name segments' := by
  let search (c : Segment × H) : Option Word := (I.find c.2 name).map
    (c.1.fileOffset + (if c.1.isPrimary then I.tableSpace else 0) + ·)
  have hsearch : ∀ l : List (SegInfo H), fileAt I name l = (l.map contents).findSome? search := by
    intro l
    rw [List.findSome?_map]
    rfl
  rw [hsearch, hsearch, h]

omit [DecidableEq N] in
theorem fileAt_isSome : (fileAt I name segments).isSome = true ↔
    ∃ info ∈ segments, SegInfo.holds I name info = true := by
  simp [fileAt, SegInfo.holds]

omit [DecidableEq N] in
theorem fileAt_append : fileAt I name (segments ++ segments') =
    (fileAt I name segments).or (fileAt I name segments') := List.findSome?_append

/-- The file offset of a segment tells its inner manager. -/
theorem Inv.inFile (h : Inv I w) {i : Nat} (hi : i < w.owner.segments.length) (other : H) :
    w.inFile w.owner.segments[i].fileOffset other = w.owner.segments[i].smgr := by
  have hfind : (w.owner.segments.find? fun info =>
      info.fileOffset == w.owner.segments[i].fileOffset) = some w.owner.segments[i] := by
    apply List.find?_eq_some_iff_getElem.mpr
    refine ⟨by simp, i, hi, rfl, fun k hk => ?_⟩
    have hne : w.owner.segments[k].fileOffset ≠ w.owner.segments[i].fileOffset := by
      intro heq
      have hinj := h.owner.grown.fileOffset_inj (i := k) (j := i)
        (by simpa [segmentsOf] using Nat.lt_trans hk hi) (by simpa [segmentsOf] using hi)
        (by simpa [segmentsOf] using heq)
      omega
    simpa using hne
  rw [World.inFile, hfind]

/-- A mapped segment is the owner's, with what is in the file. -/
theorem Inv.view_contents (h : Inv I w) (hm : Mapped w.owner m) :
    (w.view m).segments.map contents =
      (w.owner.segments.take m.segments.length).map contents := by
  have hle : m.segments.length ≤ w.owner.segments.length := by
    simpa [segmentsOf] using hm.listed.length_le
  refine List.ext_getElem (by simp [World.view, hle]) fun i hi hi' => ?_
  have hi₁ : i < m.segments.length := by simpa [World.view] using hi
  have hi₂ : i < w.owner.segments.length := Nat.lt_of_lt_of_le hi₁ hle
  have hsame : m.segments[i].toSegment = w.owner.segments[i].toSegment := by
    have hget := hm.listed.getElem (i := i) (by simpa [segmentsOf] using hi₁)
    simpa [segmentsOf] using hget
  have hsmgr := h.inFile hi₂ m.segments[i].smgr
  simp only [World.view, List.map_map, List.getElem_map, Function.comp_apply, List.getElem_take,
    contents, hsame, hsmgr]

/-- The search over the first segments ends where the search over all does,
    exactly when it comes to the first holder. -/
theorem Inv.fileAt_view_iff (h : Inv I w) (hm : Mapped w.owner m) :
    fileAt I name (w.view m).segments = fileAt I name w.owner.segments ↔
      HolderMapped I name w m := by
  let k := m.segments.length
  have hranges : fileRanges m.segments = fileRanges (w.owner.segments.take k) := by
    have htake := List.prefix_iff_eq_take.mp hm.listed
    have hlen : (segmentsOf m).length = k := by simp [segmentsOf, k]
    rw [fileRanges_eq, htake, hlen]
    simp [fileRanges, rangesOf, segmentsOf, Function.comp_def]
  have hsplit : fileAt I name w.owner.segments =
      (fileAt I name (w.owner.segments.take k)).or (fileAt I name (w.owner.segments.drop k)) := by
    rw [← fileAt_append, List.take_append_drop]
  rw [fileAt_congr (h.view_contents hm), hsplit]
  constructor
  · intro heq info hinfo
    have hholds : (fileAt I name w.owner.segments).isSome = true :=
      fileAt_isSome.mpr ⟨info, List.mem_of_find?_eq_some hinfo, List.find?_some hinfo⟩
    rw [hsplit, ← heq] at hholds
    obtain ⟨first, hfirst, hfirstHolds⟩ := fileAt_isSome.mp hholds
    have hfind : ((w.owner.segments.take k).find? (SegInfo.holds I name)).isSome = true :=
      List.find?_isSome.mpr ⟨first, hfirst, hfirstHolds⟩
    obtain ⟨found, hfound⟩ := Option.isSome_iff_exists.mp hfind
    have hall : w.owner.segments.find? (SegInfo.holds I name) = some found := by
      rw [← List.take_append_drop k w.owner.segments, List.find?_append, hfound]
      rfl
    obtain rfl := Option.some.inj (hall.symm.trans hinfo)
    rw [hranges]
    exact List.mem_map_of_mem (List.mem_of_find?_eq_some hfound)
  · intro hmapped
    cases hfind : w.owner.segments.find? (SegInfo.holds I name) with
    | none =>
      have hnone : (fileAt I name (w.owner.segments.drop k)) = none := by
        rw [Option.eq_none_iff_forall_ne_some]
        intro o ho
        obtain ⟨info, hinfo, hholds⟩ := fileAt_isSome.mp (Option.isSome_of_eq_some ho)
        exact List.find?_eq_none.mp hfind info (List.mem_of_mem_drop hinfo) hholds
      rw [hnone, Option.or_none]
    | some info =>
      have hrange := hmapped info hfind
      rw [hranges] at hrange
      obtain ⟨mapped, hmem, heq⟩ := List.mem_map.mp hrange
      obtain ⟨i, hi, rfl⟩ := List.getElem_of_mem (List.mem_of_find?_eq_some hfind)
      obtain ⟨n, hn, rfl⟩ := List.getElem_of_mem hmem
      have hn₁ : n < w.owner.segments.length := by
        rw [List.length_take] at hn
        exact Nat.lt_of_lt_of_le hn (Nat.min_le_right _ _)
      -- the range tells the segment
      have hsame : n = i := by
        apply h.owner.grown.fileOffset_inj (by simpa [segmentsOf] using hn₁)
          (by simpa [segmentsOf] using hi)
        have hoffset := congrArg FileRange.fileOffset heq
        simpa [segmentsOf] using hoffset
      subst hsame
      have hsome : (fileAt I name (w.owner.segments.take k)).isSome = true := by
        apply fileAt_isSome.mpr
        refine ⟨_, hmem, ?_⟩
        rw [List.getElem_take]
        exact List.find?_some hfind
      obtain ⟨o, ho⟩ := Option.isSome_iff_exists.mp hsome
      rw [ho, Option.some_or]

end search

/-! ## 7. Result -/

section result

variable [DecidableEq J] [DecidableEq N] {P : Platform} {I : InnerManager H N} {env : Env H}
  {m₀ : Manager H} {w : World J H N}

omit [DecidableEq J] [DecidableEq N] in
theorem findsAt_iff {m : Manager H} {name : N} (hlist : m.listHeld = false) {o : Option Word} :
    FindsAt I name m o ↔ fileAt I name m.segments = o := by
  have hfst : (foundAt I name m.segments).map Prod.fst = findLoop I name m.segments := by
    rw [foundAt, findLoop, List.map_findSome?]
    congr 1
    funext info
    simp [Function.comp_def]
  have hrun : (find I name).run m = .value (findLoop I name m.segments) m :=
    Call.guarded_section hlist hlist rfl
  rw [FindsAt, foundAt_snd, hfst]
  exact and_iff_right hrun

/-- In every state of every run, a name is found in all processes at one file
    offset, exactly when it is constructed and not destroyed, if and only if each
    attached process has mapped the segment that holds it. -/
theorem names_visible_iff (hI : I.NamesLawful) (henv : SizesMapped env) {table : SegmentTable}
    {registry : Word → Option Word} {initialSize : Word}
    (hcreate : (constructCreator P I env initialSize).run (.empty false table registry) =
      .value () m₀)
    (hrun : Steps (step P I) OnPlatform (created m₀) w) (name : N) :
    Visible I name w ↔ ∀ j m, w.attached j = some m → HolderMapped I name w m := by
  have h : Inv I w := hrun.invariant (Inv I) (inv_created hI henv hcreate)
    fun _ _ _ ha hl hs => inv_step hI ha hl hs
  constructor
  · rintro ⟨o, -, howner, hattached⟩ j m hj
    have hm := h.attached j m hj
    rw [findsAt_iff h.owner.free] at howner
    have hview := (findsAt_iff hm.view.free).mp (hattached j m hj)
    exact (h.fileAt_view_iff hm).mp (hview.trans howner.symm)
  · intro hmapped
    refine ⟨fileAt I name w.owner.segments, ?_, (findsAt_iff h.owner.free).mpr rfl, ?_⟩
    · rw [fileAt_isSome, ← List.count_pos_iff, h.live name, holders, List.countP_pos_iff]
    · intro j m hj
      have hm := h.attached j m hj
      apply (findsAt_iff hm.view.free).mpr
      exact (h.fileAt_view_iff hm).mpr (hmapped j m hj)

end result

/-- The sections of a `construct` of 1.5 MiB in a file of 1 MiB. -/
def constructLarge : List (Label Unit Arena Nat) :=
  [.run (.construct 1 0x180000), .readSize (0x180000 + 1024), .publish boundedEnv,
    .run (.constructLast 1 0x180000)]

def attachNow : Label Unit Arena Nat := .attach () boundedEnv fun _ => none

theorem onPlatform_of_mem {ls : List (Label Unit Arena Nat)} {l : Label Unit Arena Nat}
    (hl : l ∈ ls) (hls : ls ⊆ attachNow :: constructLarge) (w : World Unit Arena Nat) :
    OnPlatform w l := by
  have hmem := hls hl
  simp only [constructLarge, List.mem_cons, List.not_mem_nil, or_false] at hmem
  rcases hmem with rfl | rfl | rfl | rfl | rfl
  · trivial
  · trivial
  · trivial
  · exact boundedEnv_sizesMapped
  · trivial

/-- A process that attaches after the growth. -/
theorem names_visible_after_growth : ∃ w : World Unit Arena Nat,
    (w.attached ()).isSome = true ∧ 1 ∈ w.live ∧ Visible arena 1 w := by
  let empty : Manager Arena := .empty false .blank fun _ => none
  have hcreate : ∃ m, (constructCreator fourKiBPages arena boundedEnv 0x100000).run empty =
      .value () m := ⟨_, rfl⟩
  obtain ⟨m₀, hm₀⟩ := hcreate
  let mapped (w : World Unit Arena Nat) : Bool := (w.attached ()).any fun m =>
    (w.owner.segments.find? (SegInfo.holds arena 1)).all fun info =>
      (fileRanges m.segments).contains info.toFileRange
  have hex : ∃ w : World Unit Arena Nat,
      Steps (step fourKiBPages arena) OnPlatform (created m₀) w ∧
        (mapped w && w.live.contains 1) = true := by
    apply Steps.exists_of_replay_labels (constructLarge ++ [attachNow])
    · intro l hl w
      exact onPlatform_of_mem hl (by simp [constructLarge]) w
    · cases hm₀
      decide +kernel
  obtain ⟨w, hrun, htest⟩ := hex
  obtain ⟨hmapped, hlive⟩ := (Bool.and_eq_true _ _).mp htest
  obtain ⟨m, hm, hholder⟩ := (Option.any_eq_true _ _).mp hmapped
  refine ⟨w, Option.isSome_of_eq_some hm, by simpa using hlive, ?_⟩
  apply (names_visible_iff arena_namesLawful boundedEnv_sizesMapped hm₀ hrun 1).mpr
  intro j m' hj info hinfo
  obtain rfl := Option.some.inj (hm.symm.trans hj)
  have hmem := (Option.all_eq_true _ _).mp hholder info hinfo
  simpa using hmem

/-- A process that attaches before the growth does not find the object. -/
theorem attached_process_misses_name :
    ¬ ∀ (m₀ : Manager Arena) (w : World Unit Arena Nat) (name : Nat),
      (constructCreator fourKiBPages arena boundedEnv 0x100000).run
        (.empty false .blank fun _ => none) = .value () m₀ →
      Steps (step fourKiBPages arena) OnPlatform (created m₀) w → Visible arena name w := by
  intro hall
  let empty : Manager Arena := .empty false .blank fun _ => none
  have hcreate : ∃ m, (constructCreator fourKiBPages arena boundedEnv 0x100000).run empty =
      .value () m := ⟨_, rfl⟩
  obtain ⟨m₀, hm₀⟩ := hcreate
  let missed (w : World Unit Arena Nat) : Bool := (w.attached ()).any fun m =>
    (foundAt arena 1 (w.view m).segments).isNone
  have hex : ∃ w : World Unit Arena Nat,
      Steps (step fourKiBPages arena) OnPlatform (created m₀) w ∧
        (missed w && w.live.contains 1) = true := by
    apply Steps.exists_of_replay_labels (attachNow :: constructLarge)
    · intro l hl w
      exact onPlatform_of_mem hl (List.Subset.refl _) w
    · cases hm₀
      decide +kernel
  obtain ⟨w, hrun, htest⟩ := hex
  obtain ⟨hmissed, hlive⟩ := (Bool.and_eq_true _ _).mp htest
  obtain ⟨m, hm, hnone⟩ := (Option.any_eq_true _ _).mp hmissed
  obtain ⟨o, hfound, -, hattached⟩ := hall m₀ w 1 hm₀ hrun
  obtain ⟨-, ho⟩ := hattached () m hm
  rw [Option.isNone_iff_eq_none.mp hnone] at ho
  have hsome := hfound.mpr (by simpa using hlive)
  rw [← ho] at hsome
  cases hsome

end Memnon.Attached
