import Memnon.ManagerLifetimes
import Memnon.Lib.Ghost

/-!
# The mappings of a process

A sub-segment owns its mapping: the constructor takes what `mmap` has returned, the
destructor hands it to `munmap`. Managers own the sub-segments that they list, and an
exception that leaves a constructor frees those listed by then. `open_all_segments` owns
two mappings of segment 0 for a moment. Whatever fails, what is mapped is what the
segments of the live managers own.
-/

namespace Memnon.Mappings

open Memnon.Lib Memnon.Lifetimes

variable {H N K A : Type}

/-! ## 1. Calls that keep account -/

/-- Address and size. -/
abbrev Region := Word × Word

/-- What `mmap` has returned and `munmap` has not been given; and what `munmap` has been
    given without its being mapped. -/
structure Ledger where
  mapped : List Region
  stray : List Region
deriving DecidableEq

def Ledger.map (r : Region) (l : Ledger) : Ledger := { l with mapped := r :: l.mapped }

def Ledger.unmap (r : Region) (l : Ledger) : Ledger :=
  if r ∈ l.mapped then { l with mapped := l.mapped.erase r }
  else { l with stray := r :: l.stray }

abbrev Owning (H A : Type) := Call Exn (Manager H × Ledger) A

/-- A mapping call, with what the system answers. -/
def mmap (answer : Option Mapping) (size : Word) : Owning H (Option Mapping) :=
  match answer with
  | none => return none
  | some mapping => do
      .ghost (Ledger.map (mapping.baseVaddr, size))
      return some mapping

def munmap (mapping : Mapping) (size : Word) : Owning H Unit :=
  .ghost (Ledger.unmap (mapping.baseVaddr, size))

section functions

variable (P : Platform) (I : InnerManager H N) (env : Env H)

def addSegmentShm (fileOffset size : Word) (isPrimary isCreator initializeSmgr : Bool) :
    Owning H Unit := do
  let range : FileRange := ⟨if isCreator then 0 else fileOffset, size⟩
  match ← mmap (if isCreator then env.createShm size else env.openShmChunk size fileOffset)
    size with
  | none => .raise .runtimeError
  | some mapping =>
      .watched (addSegment P mapping range isPrimary
        (if isCreator || initializeSmgr then I.create (smgrSize I size isPrimary)
          else env.inPlace range))

def growAnon (newChunkSize : Word) : Owning H Unit := do
  match ← mmap (env.createAnon newChunkSize) newChunkSize with
  | none => .raise .badAlloc
  | some mapping =>
      .guarded ((listMtx H).watched Ledger)
        (.watched (addSegmentAnonPreallocated P I mapping newChunkSize false))

def growShm (newChunkSize currentFileSize : Word) : Owning H Unit :=
  if env.shmGrow (currentFileSize + newChunkSize) then
    .guarded ((listMtx H).watched Ledger) do
      addSegmentShm P I env currentFileSize newChunkSize false false true
      .watched publishLastSegment
  else .raise .badAlloc

def grow (minBytes : Word) : Owning H Unit :=
  .guarded ((growMtx H).watched Ledger) do
    match ← .watched (.guarded (listMtx H) (readSize P I minBytes)) with
    | none => return ()
    | some (newChunkSize, currentFileSize) =>
        let m ← .watched .read
        if m.anon then growAnon P I env newChunkSize
        else growShm P I env newChunkSize currentFileSize

def growBackground : Owning H Unit :=
  .guarded ((growMtx H).watched Ledger) do
    match ← .watched (.guarded (listMtx H) (readSizeBackground P I)) with
    | none => return ()
    | some (newChunkSize, currentFileSize) =>
        let m ← .watched .read
        if m.anon then
          match ← mmap (env.createAnon newChunkSize) newChunkSize with
          | none => return ()
          | some mapping =>
              .guarded ((listMtx H).watched Ledger)
                (.watched (addSegmentAnonPreallocated P I mapping newChunkSize false))
        else if env.shmGrow (currentFileSize + newChunkSize) then
          .guarded ((listMtx H).watched Ledger) do
            let m ← .watched .read
            if currentFileSize = getSizeUnlocked (fileRanges m.segments) then do
              addSegmentShm P I env currentFileSize newChunkSize false false true
              .watched publishLastSegment
            else return ()
        else return ()

def discoverLoop : List FileRange → Owning H Unit
  | [] => return ()
  | e :: rest => do
      addSegmentShm P I env e.fileOffset e.size false false false
      discoverLoop rest

def discoverGrowth (requiredFileOffset : Word) : Owning H Bool := do
  let m ← .watched .read
  if m.anon then return false
  else
    .guarded ((listMtx H).watched Ledger) do
      let m ← .watched .read
      let (segments, found) :=
        lazyDiscoverGrowth m.table (m.segments.map SegInfo.toSegment) requiredFileOffset
      discoverLoop P I env ((segments.drop m.segments.length).map Segment.toFileRange)
      return found

def constructAnon (initialSize : Word) : Owning H Unit := do
  let size := umax initialSize kMinSegmentSize
  match ← mmap (env.createAnon size) size with
  | none => .raise .badAlloc
  | some mapping => .watched (addSegmentAnonPreallocated P I mapping size true)

def constructCreator (initialSize : Word) : Owning H Unit := do
  addSegmentShm P I env 0 (umax initialSize kMinSegmentSize) true true false
  .watched (.modify fun m => { m with
    table := initSegmentTable (m.segments.map SegInfo.toSegment) m.table })

/-- The first part of `open_all_segments`: `seg0` frees the guess when it is assigned the
    second mapping, or null in its place, and when an exception leaves its scope. -/
def openPrimary : Owning H (Mapping × Word) := do
  match ← mmap (env.openShmChunk kMinSegmentSize 0) kMinSegmentSize with
  | none => .raise .runtimeError
  | some guess => do
      .watched (register P guess kMinSegmentSize)
      let m ← .watched .read
      if m.table.magic ≠ kSegmentTableMagic then do
        munmap guess kMinSegmentSize
        .raise .runtimeError
      else
        let s0Size := (m.table.entries 0).size
        if s0Size > kMinSegmentSize then do
          .watched (unregister P guess kMinSegmentSize)
          match ← mmap (env.openShmChunk s0Size 0) s0Size with
          | none => do
              munmap guess kMinSegmentSize
              .raise .badAlloc
          | some mapping => do
              munmap guess kMinSegmentSize
              .watched (register P mapping s0Size)
              return (mapping, s0Size)
        else return (guess, kMinSegmentSize)

def openAllSegments : Owning H Unit := do
  let seg0 ← openPrimary P env
  .watched (pushPrimary env seg0)
  let m ← .watched .read
  discoverLoop P I env (m.table.published.drop 1)

def construct : Construction → Owning H Unit
  | .anon initialSize => constructAnon P I env initialSize
  | .creator initialSize _ => constructCreator P I env initialSize
  | .opener _ => openAllSegments P I env

/-- The sub-segments of a list are freed. -/
def freeSegments (segments : List (SegInfo H)) (l : Ledger) : Ledger :=
  segments.foldl (fun l info => l.unmap (info.baseVaddr, info.size)) l

end functions

/-! ## 2. The process -/

structure World (K H : Type) where
  process : Process K H
  ledger : Ledger

section process

variable [DecidableEq K] (P : Platform) (I : InnerManager H N)

/-- One operation. Where a constructor is left by an exception, its list of segments is
    destroyed; where a manager is destroyed, it is after they are unregistered. -/
def step (w : World K H) : Label K H → Option (World K H)
  | .construct k c env threadStarts =>
      match w.process.manager k with
      | some _ => none
      | none =>
          match (construct P I env c).run (c.start w.process.registry, w.ledger) with
          | .value _ (m, l) =>
              let p := { w.process with
                registry := m.registry
                activeManagers := w.process.activeManagers + 1 }
              some (if w.process.startsWorker threadStarts then ⟨p.put k m, l⟩
                else ⟨p, freeSegments m.segments l⟩)
          | .thrown _ (m, l) =>
              some ⟨{ w.process with registry := m.registry }, freeSegments m.segments l⟩
          | .stuck => none
  | .grow k env table minBytes =>
      match w.process.manager k with
      | none => none
      | some m =>
          ((grow P I env minBytes).run (w.process.view m table, w.ledger)).state.map fun s =>
            ⟨w.process.put k s.1, s.2⟩
  | .growBackground k env table =>
      match w.process.manager k with
      | none => none
      | some m =>
          match (growBackground P I env).run (w.process.view m table, w.ledger) with
          | .value _ s => some ⟨w.process.put k s.1, s.2⟩
          | .thrown _ _ | .stuck => none
  | .discover k env table requiredFileOffset =>
      match w.process.manager k with
      | none => none
      | some m =>
          ((discoverGrowth P I env requiredFileOffset).run
            (w.process.view m table, w.ledger)).state.map fun s => ⟨w.process.put k s.1, s.2⟩
  | .destroy k =>
      match w.process.manager k with
      | none => none
      | some m =>
          some ⟨{ registry := unregisterAll P m.segments w.process.registry
                  manager := Function.update w.process.manager k none
                  activeManagers := w.process.activeManagers - 1 },
            freeSegments m.segments w.ledger⟩

def start : World K H := ⟨Lifetimes.start, ⟨[], []⟩⟩

end process

/-! ## 3. The calls do what they do without the ledger -/

section erasure

variable {P : Platform} {I : InnerManager H N} {env : Env H}

theorem erases_mmap_bind {answer : Option Mapping} {size : Word}
    {k : Option Mapping → Owning H A} {c : Op H A} (h : Call.Erases (k answer) c) :
    Call.Erases (mmap answer size >>= k) c := by
  cases answer with
  | none => exact h
  | some mapping => exact fun s => h (s.1, s.2.map (mapping.baseVaddr, size))

theorem erases_addSegmentShm {fileOffset size : Word} {isPrimary isCreator initializeSmgr : Bool} :
    Call.Erases (addSegmentShm P I env fileOffset size isPrimary isCreator initializeSmgr)
      (Memnon.addSegmentShm P I env fileOffset size isPrimary isCreator initializeSmgr) := by
  refine erases_mmap_bind ?_
  simp only [Memnon.addSegmentShm]
  cases if isCreator = true then env.createShm size else env.openShmChunk size fileOffset with
  | none => exact Call.erases_raise
  | some mapping => exact Call.erases_watched

theorem erases_growAnon {size : Word} :
    Call.Erases (growAnon P I env size) (Memnon.growAnon P I env size) := by
  refine erases_mmap_bind ?_
  unfold Memnon.growAnon
  cases env.createAnon size with
  | none => exact Call.erases_raise
  | some mapping => exact .guarded Call.erases_watched

theorem erases_growShm {size current : Word} :
    Call.Erases (growShm P I env size current) (Memnon.growShm P I env size current) := by
  unfold growShm Memnon.growShm
  split
  · exact .guarded (.bind erases_addSegmentShm fun _ => Call.erases_watched)
  · exact Call.erases_raise

theorem erases_grow {minBytes : Word} :
    Call.Erases (grow P I env minBytes) (Memnon.grow P I env minBytes) := by
  refine .guarded (.bind Call.erases_watched fun sizes => ?_)
  cases sizes with
  | none => exact Call.erases_pure
  | some sizes =>
    refine .bind Call.erases_watched fun m => ?_
    split
    · exact erases_growAnon
    · exact erases_growShm

theorem erases_growBackground :
    Call.Erases (growBackground P I env) (Memnon.growBackground P I env) := by
  refine .guarded (.bind Call.erases_watched fun sizes => ?_)
  cases sizes with
  | none => exact Call.erases_pure
  | some sizes =>
    refine .bind Call.erases_watched fun m => ?_
    split
    · refine erases_mmap_bind ?_
      cases env.createAnon sizes.1 with
      | none => exact Call.erases_pure
      | some mapping => exact .guarded Call.erases_watched
    · split
      · refine .guarded (.bind Call.erases_watched fun m => ?_)
        split
        · exact .bind erases_addSegmentShm fun _ => Call.erases_watched
        · exact Call.erases_pure
      · exact Call.erases_pure

theorem erases_discoverLoop {entries : List FileRange} :
    Call.Erases (discoverLoop P I env entries) (Memnon.discoverLoop P I env entries) := by
  induction entries with
  | nil => exact Call.erases_pure
  | cons e rest ih => exact .bind erases_addSegmentShm fun _ => ih

theorem erases_discoverGrowth {required : Word} :
    Call.Erases (discoverGrowth P I env required) (Memnon.discoverGrowth P I env required) := by
  refine .bind Call.erases_watched fun m => ?_
  split
  · exact Call.erases_pure
  · exact .guarded (.bind Call.erases_watched fun m =>
      .bind erases_discoverLoop fun _ => Call.erases_pure)

theorem erases_openPrimary :
    Call.Erases (openPrimary P env) (Memnon.openPrimary P env) := by
  refine erases_mmap_bind ?_
  unfold Memnon.openPrimary
  cases env.openShmChunk kMinSegmentSize 0 with
  | none => exact Call.erases_raise
  | some guess =>
    refine .bind Call.erases_watched fun _ => .bind Call.erases_watched fun m => ?_
    split
    · exact .ghost_bind Call.erases_raise
    · simp only
      split
      · refine .bind Call.erases_watched fun _ => erases_mmap_bind ?_
        cases env.openShmChunk (m.table.entries 0).size 0 with
        | none => exact .ghost_bind Call.erases_raise
        | some mapping =>
          exact .ghost_bind (.bind Call.erases_watched fun _ => Call.erases_pure)
      · exact Call.erases_pure

theorem erases_construct {c : Construction} :
    Call.Erases (construct P I env c) (c.run P I env) := by
  cases c with
  | anon initialSize =>
    refine erases_mmap_bind ?_
    simp only [Construction.run, Memnon.constructAnon]
    cases env.createAnon (umax initialSize kMinSegmentSize) with
    | none => exact Call.erases_raise
    | some mapping => exact Call.erases_watched
  | creator initialSize table => exact .bind erases_addSegmentShm fun _ => Call.erases_watched
  | opener table =>
    exact .bind erases_openPrimary fun _ => .bind Call.erases_watched fun _ =>
      .bind Call.erases_watched fun _ => erases_discoverLoop

theorem step_process [DecidableEq K] {P : Platform} {I : InnerManager H N} (w : World K H)
    (l : Label K H) : (step P I w l).map World.process = Lifetimes.step P I w.process l := by
  cases l with
  | construct k c env threadStarts =>
    simp only [step, Lifetimes.step]
    cases w.process.manager k with
    | some m => rfl
    | none =>
      have herase : ((construct P I env c).run (c.start w.process.registry, w.ledger)).erase =
          (c.run P I env).run (c.start w.process.registry) := erases_construct _
      cases hrun : (construct P I env c).run (c.start w.process.registry, w.ledger) with
      | value u s =>
        rw [hrun] at herase
        simp only [← herase, Outcome.erase, Option.map_some]
        split <;> rfl
      | thrown e s =>
        rw [hrun] at herase
        simp only [← herase, Outcome.erase, Option.map_some]
      | stuck =>
        rw [hrun] at herase
        simp only [← herase, Outcome.erase, Option.map_none]
  | grow k env table minBytes =>
    simp only [step, Lifetimes.step]
    cases w.process.manager k with
    | none => rfl
    | some m =>
      simp only
      rw [← erases_grow (w.process.view m table, w.ledger), Outcome.state_erase, Option.map_map,
        Option.map_map]
      rfl
  | growBackground k env table =>
    simp only [step, Lifetimes.step]
    cases w.process.manager k with
    | none => rfl
    | some m =>
      simp only
      rw [← erases_growBackground (w.process.view m table, w.ledger)]
      cases (growBackground P I env).run (w.process.view m table, w.ledger) <;> rfl
  | discover k env table required =>
    simp only [step, Lifetimes.step]
    cases w.process.manager k with
    | none => rfl
    | some m =>
      simp only
      rw [← erases_discoverGrowth (w.process.view m table, w.ledger), Outcome.state_erase,
        Option.map_map, Option.map_map]
      rfl
  | destroy k =>
    simp only [step, Lifetimes.step]
    cases w.process.manager k <;> rfl

end erasure

/-! ## 4. What a call maps, its manager owns -/

def regionsOf (segments : List (SegInfo H)) : List Region :=
  segments.map fun info => (info.baseVaddr, info.size)

theorem regionsOf_append {segments segments' : List (SegInfo H)} :
    regionsOf (segments ++ segments') = regionsOf segments ++ regionsOf segments' :=
  List.map_append

/-- Mapped are the regions of the manager's segments, and `others`. -/
structure Owns (others : List Region) (s : Manager H × Ledger) : Prop where
  stray : s.2.stray = []
  mapped : s.2.mapped.Perm (others ++ regionsOf s.1.segments)

/-- However the call ends, the manager owns what it has mapped. -/
def Balanced (c : Owning H A) : Prop :=
  ∀ others, Call.Triple (Owns others) c (fun _ => Owns others) (Owns others)

section owned

variable {P : Platform} {I : InnerManager H N} {env : Env H} {others others' : List Region}
  {m m' : Manager H} {l : Ledger} {r : Region} {segments : List (SegInfo H)}

theorem Owns.map (h : Owns others (m, l)) : Owns (r :: others) (m, l.map r) :=
  ⟨h.stray, h.mapped.cons r⟩

theorem Ledger.unmap_mapped (hstray : l.stray = []) (hmapped : l.mapped.Perm (r :: others)) :
    (l.unmap r).stray = [] ∧ (l.unmap r).mapped.Perm others := by
  have hmem : r ∈ l.mapped := hmapped.mem_iff.mpr List.mem_cons_self
  have herase := hmapped.erase r
  rw [List.erase_cons_head] at herase
  unfold Ledger.unmap
  rw [if_pos hmem]
  exact ⟨hstray, herase⟩

theorem Owns.unmap (h : Owns (r :: others) (m, l)) : Owns others (m, l.unmap r) := by
  obtain ⟨hstray, hmapped⟩ := Ledger.unmap_mapped h.stray h.mapped
  exact ⟨hstray, hmapped⟩

theorem Owns.same (h : Owns others (m, l)) (hsame : m'.segments = m.segments) :
    Owns others (m', l) :=
  ⟨h.stray, by rw [hsame]; exact h.mapped⟩

/-- A mapped region becomes that of a segment. -/
theorem Owns.add (info : SegInfo H) (h : Owns ((info.baseVaddr, info.size) :: others) (m, l))
    (hadd : m'.segments = m.segments ++ [info]) : Owns others (m', l) := by
  refine ⟨h.stray, h.mapped.trans ?_⟩
  rw [hadd, regionsOf_append, ← List.append_assoc]
  exact (List.perm_append_singleton _ _).symm

/-- Sub-segments that are freed leave what the others own. -/
theorem freeSegments_owned (hstray : l.stray = [])
    (hmapped : l.mapped.Perm (others ++ regionsOf segments)) :
    (freeSegments segments l).stray = [] ∧ (freeSegments segments l).mapped.Perm others := by
  induction segments generalizing l with
  | nil =>
    rw [regionsOf, List.map_nil, List.append_nil] at hmapped
    exact ⟨hstray, hmapped⟩
  | cons info rest ih =>
    obtain ⟨hstray', hmapped'⟩ :=
      Ledger.unmap_mapped hstray (hmapped.trans List.perm_middle)
    exact ih hstray' hmapped'

theorem triple_mmap_bind {answer : Option Mapping} {size : Word} {k : Option Mapping → Owning H A}
    {Q : A → Manager H × Ledger → Prop} {R : Manager H × Ledger → Prop}
    (hnone : Call.Triple (Owns others) (k none) Q R)
    (hsome : ∀ mapping, Call.Triple (Owns ((mapping.baseVaddr, size) :: others))
      (k (some mapping)) Q R) : Call.Triple (Owns others) (mmap answer size >>= k) Q R := by
  cases answer with
  | none => exact hnone
  | some mapping => exact fun s hs => hsome mapping (s.1, s.2.map _) (Owns.map hs)

theorem triple_munmap_bind {mapping : Mapping} {size : Word} {k : Unit → Owning H A}
    {Q : A → Manager H × Ledger → Prop} {R : Manager H × Ledger → Prop}
    (hk : Call.Triple (Owns others) (k ()) Q R) :
    Call.Triple (Owns ((mapping.baseVaddr, size) :: others)) (munmap mapping size >>= k) Q R :=
  .ghost_bind (fun _ _ h => Owns.unmap h) hk

/-- A change of other fields of the manager. -/
theorem triple_modify {g : Manager H → Manager H} {R : Manager H × Ledger → Prop}
    (hg : ∀ m, (g m).segments = m.segments) :
    Call.Triple (Owns others) (.watched (.modify g) : Owning H Unit) (fun _ => Owns others) R :=
  Call.triple_watched fun m _ h => Owns.same h (hg m)

theorem triple_read {Q R : Manager H × Ledger → Prop} :
    Call.Triple Q (.watched .read : Owning H (Manager H)) (fun _ => Q) R :=
  Call.triple_watched fun _ _ h => h

theorem triple_list {c : Owning H A} (hc : Call.Triple (Owns others) c (fun _ => Owns others')
    (Owns others')) : Call.Triple (Owns others) (.guarded ((listMtx H).watched Ledger) c)
      (fun _ => Owns others') (Owns others') :=
  hc.guarded (fun _ h => ⟨h.stray, h.mapped⟩) (fun _ _ h => ⟨h.stray, h.mapped⟩)
    fun _ h => ⟨h.stray, h.mapped⟩

theorem Balanced.grow {c : Owning H A} (hc : Balanced c) :
    Balanced (.guarded ((growMtx H).watched Ledger) c) := fun others =>
  (hc others).guarded (fun _ h => ⟨h.stray, h.mapped⟩) (fun _ _ h => ⟨h.stray, h.mapped⟩)
    fun _ h => ⟨h.stray, h.mapped⟩

theorem Balanced.bind {B : Type} {c : Owning H A} {f : A → Owning H B} (hc : Balanced c)
    (hf : ∀ a, Balanced (f a)) : Balanced (c >>= f) :=
  fun others => (hc others).bind fun a => hf a others

theorem balanced_pure {a : A} : Balanced (pure a : Owning H A) :=
  fun _ => Call.triple_pure fun _ h => h

theorem balanced_raise {e : Exn} : Balanced (.raise e : Owning H A) :=
  fun _ => Call.triple_raise fun _ h => h

theorem balanced_read : Balanced (.watched .read : Owning H (Manager H)) := fun _ => triple_read

/-- A call that keeps the list of segments, up to their inner managers. -/
theorem balanced_watched {c : Op H A}
    (hc : ∀ regions, KeepsSegments (fun segments => regionsOf segments = regions) c) :
    Balanced (.watched c) := by
  intro others
  refine Call.triple_watched fun m l h => ?_
  have hkeeps := hc (regionsOf m.segments) m.listHeld m.growHeld m ⟨rfl, rfl, rfl⟩
  cases hrun : c.run m with
  | value a m' => exact ⟨h.stray, by rw [(hkeeps m' (by rw [hrun]; rfl)).segments]; exact h.mapped⟩
  | thrown e m' => exact ⟨h.stray, by rw [(hkeeps m' (by rw [hrun]; rfl)).segments]; exact h.mapped⟩
  | stuck => trivial

theorem triple_addSegment {mapping : Mapping} {range : FileRange} {isPrimary : Bool} {smgr : H}
    {size : Word} (hsize : range.size = size) :
    Call.Triple (Owns ((mapping.baseVaddr, size) :: others))
      (.watched (addSegment P mapping range isPrimary smgr)) (fun _ => Owns others)
      (Owns others) := by
  subst hsize
  exact Call.triple_watched fun _ _ h =>
    Owns.add ⟨⟨range, isPrimary⟩, mapping.seg, mapping.baseVaddr, smgr⟩ h rfl

theorem balanced_addSegmentShm {fileOffset size : Word}
    {isPrimary isCreator initializeSmgr : Bool} :
    Balanced (addSegmentShm P I env fileOffset size isPrimary isCreator initializeSmgr) :=
  fun others => triple_mmap_bind (balanced_raise others) fun _ => triple_addSegment rfl

theorem balanced_publishLastSegment :
    Balanced (.watched publishLastSegment : Owning H Unit) :=
  balanced_watched fun _ => .publishLastSegment

theorem balanced_growAnon {size : Word} : Balanced (growAnon P I env size) :=
  fun others => triple_mmap_bind (balanced_raise others) fun _ =>
    triple_list (triple_addSegment rfl)

theorem balanced_growShm {size current : Word} : Balanced (growShm P I env size current) := by
  unfold growShm
  split
  · exact fun others => triple_list
      (balanced_addSegmentShm.bind (fun _ => balanced_publishLastSegment) others)
  · exact balanced_raise

theorem balanced_grow {minBytes : Word} : Balanced (grow P I env minBytes) := by
  refine .grow (.bind (balanced_watched fun _ => .list .readSize) fun sizes => ?_)
  cases sizes with
  | none => exact balanced_pure
  | some sizes =>
    refine .bind balanced_read fun m => ?_
    split
    · exact balanced_growAnon
    · exact balanced_growShm

theorem balanced_growBackground : Balanced (growBackground P I env) := by
  refine .grow (.bind (balanced_watched fun _ => .list .readSizeBackground) fun sizes => ?_)
  cases sizes with
  | none => exact balanced_pure
  | some sizes =>
    refine .bind balanced_read fun m => ?_
    split
    · exact fun others => triple_mmap_bind (balanced_pure others) fun _ =>
        triple_list (triple_addSegment rfl)
    · split
      · refine fun others => triple_list (balanced_read.bind (fun m => ?_) others)
        split
        · exact balanced_addSegmentShm.bind fun _ => balanced_publishLastSegment
        · exact balanced_pure
      · exact balanced_pure

theorem balanced_discoverLoop {entries : List FileRange} :
    Balanced (discoverLoop P I env entries) := by
  induction entries with
  | nil => exact balanced_pure
  | cons e rest ih => exact balanced_addSegmentShm.bind fun _ => ih

theorem balanced_discoverGrowth {required : Word} : Balanced (discoverGrowth P I env required) := by
  refine balanced_read.bind fun m => ?_
  split
  · exact balanced_pure
  · exact fun others => triple_list (balanced_read.bind (fun m =>
      balanced_discoverLoop.bind fun _ => balanced_pure) others)

/-- With the value comes one mapping of segment 0; with an exception, none. -/
theorem triple_openPrimary :
    Call.Triple (Owns others) (openPrimary P env)
      (fun seg0 => Owns ((seg0.1.baseVaddr, seg0.2) :: others)) (Owns others) := by
  refine triple_mmap_bind (Call.triple_raise fun _ h => h) fun guess => ?_
  refine .bind (triple_modify fun _ => rfl) fun _ => .bind triple_read fun m => ?_
  split
  · exact triple_munmap_bind (Call.triple_raise fun _ h => h)
  · simp only
    split
    · refine .bind (triple_modify fun _ => rfl) fun _ => triple_mmap_bind ?_ fun mapping => ?_
      · exact triple_munmap_bind (Call.triple_raise fun _ h => h)
      · -- both are mapped; the guess is given back
        intro s hs
        have hswap : Owns ((guess.baseVaddr, kMinSegmentSize) ::
            (mapping.baseVaddr, (m.table.entries 0).size) :: others) s :=
          ⟨hs.stray, hs.mapped.trans (List.Perm.swap ..)⟩
        refine triple_munmap_bind ?_ s hswap
        exact .bind (triple_modify fun _ => rfl) fun _ => Call.triple_pure fun _ h => h
    · exact Call.triple_pure fun _ h => h

theorem balanced_openAllSegments : Balanced (openAllSegments P I env) := by
  intro others
  refine triple_openPrimary.bind fun seg0 => ?_
  refine .bind (M := fun _ => Owns others) ?_ fun _ =>
    .bind triple_read fun m => balanced_discoverLoop others
  refine Call.triple_watched fun m _ h => ?_
  exact Owns.add ⟨⟨⟨0, seg0.2⟩, true⟩, seg0.1.seg, seg0.1.baseVaddr, env.inPlace ⟨0, seg0.2⟩⟩ h rfl

theorem balanced_construct {c : Construction} : Balanced (construct P I env c) := by
  cases c with
  | anon initialSize =>
    exact fun others => triple_mmap_bind (balanced_raise others) fun _ => triple_addSegment rfl
  | creator initialSize table =>
    exact balanced_addSegmentShm.bind fun _ _ => triple_modify fun _ => rfl
  | opener table => exact balanced_openAllSegments

end owned

/-! ## 5. Runs -/

section runs

variable [DecidableEq K] {P : Platform} {I : InnerManager H N} {w w' : World K H}
  {p : Process K H} {k : K} {m : Manager H} {l : Ledger} {js : List K}

/-- The regions of the manager `k`, if it is live. -/
def managerRegions (p : Process K H) (k : K) : List Region :=
  (p.manager k).elim [] fun m => regionsOf m.segments

/-- Mapped is what the live managers own, each region once, and nothing else has been
    unmapped. -/
structure Accounted (w : World K H) : Prop where
  stray : w.ledger.stray = []
  owned : ∃ ks : List K, ks.Nodup ∧ (∀ k, k ∈ ks ↔ (w.process.manager k).isSome = true) ∧
    w.ledger.mapped.Perm (ks.flatMap (managerRegions w.process))

/-- The live managers other than `k`. -/
structure Others (p : Process K H) (k : K) (js : List K) : Prop where
  nodup : js.Nodup
  mem : ∀ j, j ∈ js ↔ j ≠ k ∧ (p.manager j).isSome = true

omit [DecidableEq K] in
/-- What a process has of the others is not changed by what it has of `k`. -/
theorem Others.regions_eq {p' : Process K H} (h : Others p k js)
    (hsame : ∀ j, j ≠ k → p'.manager j = p.manager j) :
    js.flatMap (managerRegions p') = js.flatMap (managerRegions p) := by
  have hall : ∀ j ∈ js, managerRegions p' j = managerRegions p j := by
    intro j hj
    rw [managerRegions, managerRegions, hsame j ((h.mem j).mp hj).1]
  rw [List.flatMap_congr hall]

theorem Accounted.others (h : Accounted w) (k : K) : ∃ js, Others w.process k js ∧
    w.ledger.mapped.Perm (js.flatMap (managerRegions w.process) ++ managerRegions w.process k) := by
  obtain ⟨ks, hnodup, hmem, hmapped⟩ := h.owned
  refine ⟨ks.erase k, ⟨hnodup.erase k, fun j => ?_⟩, hmapped.trans ?_⟩
  · rw [hnodup.mem_erase_iff, hmem j]
  · by_cases hk : k ∈ ks
    · exact ((List.perm_cons_erase hk).flatMap_right _).trans (by
        rw [List.flatMap_cons]
        exact List.perm_append_comm)
    · have hnone : w.process.manager k = none := by
        simpa using mt (hmem k).mpr hk
      rw [List.erase_of_not_mem hk, managerRegions, hnone]
      simp

/-- The manager `k` is live afterwards. -/
theorem Others.accounted_put (h : Others p k js)
    (howns : Owns (js.flatMap (managerRegions p)) (m, l)) {p' : Process K H}
    (hk : p'.manager k = some m) (hsame : ∀ j, j ≠ k → p'.manager j = p.manager j) :
    Accounted ⟨p', l⟩ := by
  refine ⟨howns.stray, k :: js, ?_, fun j => ?_, ?_⟩
  · exact List.nodup_cons.mpr ⟨fun hin => ((h.mem k).mp hin).1 rfl, h.nodup⟩
  · by_cases hj : j = k
    · subst hj
      simp [hk]
    · simp [hj, h.mem j, hsame j hj]
  · have hregions : managerRegions p' k = regionsOf m.segments := by rw [managerRegions, hk]; rfl
    rw [List.flatMap_cons, h.regions_eq hsame, hregions]
    exact howns.mapped.trans List.perm_append_comm

/-- There is no manager `k` afterwards, and its sub-segments are freed. -/
theorem Others.accounted_gone (h : Others p k js)
    (howns : Owns (js.flatMap (managerRegions p)) (m, l)) {p' : Process K H}
    (hk : p'.manager k = none) (hsame : ∀ j, j ≠ k → p'.manager j = p.manager j) :
    Accounted ⟨p', freeSegments m.segments l⟩ := by
  obtain ⟨hstray, hmapped⟩ := freeSegments_owned howns.stray howns.mapped
  refine ⟨hstray, js, h.nodup, fun j => ?_, ?_⟩
  · by_cases hj : j = k
    · subst hj
      simp [hk, h.mem j]
    · simp [hj, h.mem j, hsame j hj]
  · rw [h.regions_eq hsame]
    exact hmapped

/-- What the others own and what `k` owns, before one of its operations. -/
theorem Accounted.owns_view (h : Accounted w) (hk : w.process.manager k = some m)
    (table : SegmentTable) : ∃ js, Others w.process k js ∧
      Owns (js.flatMap (managerRegions w.process)) (w.process.view m table, w.ledger) := by
  obtain ⟨js, hothers, hmapped⟩ := h.others k
  rw [managerRegions, hk] at hmapped
  exact ⟨js, hothers, h.stray, hmapped⟩

/-- An operation of a live manager, which returns or throws. -/
theorem Accounted.put {A : Type} {c : Owning H A} {table : SegmentTable} {m' : Manager H}
    (h : Accounted w) (hc : Balanced c) (hk : w.process.manager k = some m)
    (hends : (m', l) ∈ (c.run (w.process.view m table, w.ledger)).state) :
    Accounted ⟨w.process.put k m', l⟩ := by
  obtain ⟨js, hothers, howns⟩ := h.owns_view hk table
  refine hothers.accounted_put ((hc _).ends howns hends) ?_ fun j hj => ?_
  · exact Function.update_self ..
  · exact Function.update_of_ne hj ..

theorem accounted_step (h : Accounted w) {label : Label K H}
    (hs : step P I w label = some w') : Accounted w' := by
  cases label with
  | construct k c env threadStarts =>
    simp only [step] at hs
    split at hs
    · cases hs
    · rename_i hk
      obtain ⟨js, hothers, hmapped⟩ := h.others k
      have howns : Owns (js.flatMap (managerRegions w.process))
          ((c.start w.process.registry : Manager H), w.ledger) := by
        refine ⟨h.stray, ?_⟩
        rw [managerRegions, hk] at hmapped
        cases c <;> exact hmapped
      have hc : Balanced (construct P I env c) := balanced_construct
      split at hs
      · rename_i m l hrun
        cases hs
        have hafter := (hc _).value howns hrun
        split
        · exact hothers.accounted_put hafter (Function.update_self ..)
            fun j hj => Function.update_of_ne hj ..
        · exact hothers.accounted_gone hafter hk fun _ _ => rfl
      · rename_i m l hrun
        cases hs
        exact hothers.accounted_gone ((hc _).thrown howns hrun) hk fun _ _ => rfl
      · cases hs
  | grow k env table minBytes =>
    simp only [step] at hs
    split at hs
    · cases hs
    · rename_i m hk
      obtain ⟨s, hends, rfl⟩ := Option.map_eq_some_iff.mp hs
      exact h.put balanced_grow hk hends
  | growBackground k env table =>
    simp only [step] at hs
    split at hs
    · cases hs
    · rename_i m hk
      split at hs
      · rename_i s hrun
        cases hs
        exact h.put balanced_growBackground hk (by rw [hrun]; rfl)
      · cases hs
      · cases hs
  | discover k env table required =>
    simp only [step] at hs
    split at hs
    · cases hs
    · rename_i m hk
      obtain ⟨s, hends, rfl⟩ := Option.map_eq_some_iff.mp hs
      exact h.put balanced_discoverGrowth hk hends
  | destroy k =>
    simp only [step] at hs
    split at hs
    · cases hs
    · rename_i m hk
      cases hs
      obtain ⟨js, hothers, howns⟩ := h.owns_view hk m.table
      have hfreed : Owns (js.flatMap (managerRegions w.process)) (m, w.ledger) := howns.same rfl
      exact hothers.accounted_gone hfreed (Function.update_self ..)
        fun j hj => Function.update_of_ne hj ..

/-- Whatever mapping calls fail, whichever constructors are left by an exception, and
    wherever: mapped are the regions of the segments of the live managers, each as often as
    it is owned, so that nothing is left mapped when no manager is; and nothing is unmapped
    that is not mapped. -/
theorem mappings_owned (hrun : Steps (step P I) anyStep (start : World K H) w) :
    (w.ledger.stray = [] ∧ ∃ ks : List K, ks.Nodup ∧
      (∀ k, k ∈ ks ↔ (w.process.manager k).isSome = true) ∧
      w.ledger.mapped.Perm (ks.flatMap (managerRegions w.process))) ∧
    Steps (Lifetimes.step P I) anyStep Lifetimes.start w.process := by
  constructor
  · have h : Accounted w := by
      refine hrun.invariant Accounted ⟨rfl, [], List.nodup_nil, fun k => ?_, .refl _⟩
        fun _ _ _ h _ hs => accounted_step h hs
      simp [start, Lifetimes.start]
    exact ⟨h.stray, h.owned⟩
  · have hsame := hrun.invariant
      (fun w => Steps (Lifetimes.step P I) anyStep Lifetimes.start w.process) (.refl _)
      fun w l w' h _ hs => h.tail trivial (by rw [← step_process, hs]; rfl)
    exact hsame

end runs

/-- After a creator has grown its file, an opener of another file is left at the check of
    the magic number, and so is its mapping. -/
theorem mappings_owned_wrongFile : ∃ w : World Bool Arena,
    w.ledger.mapped.length = 2 ∧ w.process.manager true = none ∧ w.ledger.stray = [] := by
  have h₀ : Steps (step fourKiBPages arena) anyStep (start : World Bool Arena) start := .refl _
  have h₁ := h₀.tail (l := creatorAndFailedOpener[0]) trivial rfl
  have h₂ := h₁.tail (l := creatorAndFailedOpener[1]) trivial rfl
  have h₃ := h₂.tail (l := .construct true (.opener .blank) roomyEnv true) trivial rfl
  exact ⟨_, by decide +kernel, rfl, (mappings_owned h₃).1.1⟩

end Memnon.Mappings
