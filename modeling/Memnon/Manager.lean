import Memnon.SegmentTable
import Memnon.Lib.Call

/-!
# The segmented manager

One manager as one process sees it: the list of its sub-segments, each with the
inner manager at its start, the shared table of a SHM manager, the process's
registry, and whether the running thread holds `list_mtx_` or `grow_mtx_`. The
inner manager is Boost's; what the code calls of it is a parameter. So are the
operating system calls, whose outcomes an operation is given.
-/

namespace Memnon

open Memnon.Lib

/-! ## 1. What the manager is built on -/

/-- How an inner manager answers `construct<T>(name)`. -/
inductive NameAnswer (H : Type) where
  | constructed (offset : Word) (smgr : H)
  | null
  | badAlloc
  /-- any exception but `bad_alloc` -/
  | refused

/-- The inner segment manager: its states `H`, the names `N` of its objects, and
    the calls made on it. Offsets count from where it is placed. A call that
    yields nothing has changed nothing. -/
structure InnerManager (H N : Type) where
  /-- bytes in front of it in sub-segment 0 -/
  tableSpace : Word
  create : Word → H
  getFreeMemory : H → Word
  allocate : H → Word → Option (Word × H)
  deallocate : H → Word → H
  construct : H → N → Word → NameAnswer H
  find : H → N → Option Word
  destroy : H → N → Option (Word × H)

/-- A successful mapping, and the address of the `sub_segment` made for it. -/
structure Mapping where
  baseVaddr : Word
  seg : Word

/-- What the operating system answers during an operation, and the inner
    managers that other processes have placed in the file. -/
structure Env (H : Type) where
  createAnon : Word → Option Mapping
  createShm : Word → Option Mapping
  shmGrow : Word → Bool
  openShmChunk : Word → Word → Option Mapping
  inPlace : FileRange → H

inductive Exn where
  | badAlloc
  | runtimeError
  | interprocess
deriving DecidableEq

/-- `seg_info`, with the fields of its `sub_segment`. -/
structure SegInfo (H : Type) extends Segment where
  seg : Word
  baseVaddr : Word
  smgr : H

structure Manager (H : Type) where
  anon : Bool
  segments : List (SegInfo H)
  table : SegmentTable
  /-- whether the running thread holds `list_mtx_` -/
  listHeld : Bool
  /-- whether the running thread holds `grow_mtx_` -/
  growHeld : Bool
  /-- calls of `hint_growth(this)` -/
  hints : Nat
  /-- the process's registry, by page -/
  registry : Word → Option Word

def listMtx (H : Type) : Mutex (Manager H) where
  held m := m.listHeld
  setHeld b m := { m with listHeld := b }
  setHeld_setHeld _ _ _ := rfl
  setHeld_held _ := rfl

def growMtx (H : Type) : Mutex (Manager H) where
  held m := m.growHeld
  setHeld b m := { m with growHeld := b }
  setHeld_setHeld _ _ _ := rfl
  setHeld_held _ := rfl

@[simp] theorem listMtx_segments {H : Type} (b : Bool) (m : Manager H) :
    ((listMtx H).setHeld b m).segments = m.segments := rfl

@[simp] theorem growMtx_segments {H : Type} (b : Bool) (m : Manager H) :
    ((growMtx H).setHeld b m).segments = m.segments := rfl

@[simp] theorem listMtx_table {H : Type} (b : Bool) (m : Manager H) :
    ((listMtx H).setHeld b m).table = m.table := rfl

abbrev Op (H A : Type) := Call Exn (Manager H) A

variable {H N : Type} (P : Platform) (I : InnerManager H N) (env : Env H)

/-! ## 2. Segments -/

def SegInfo.smgrOffset (info : SegInfo H) : Word :=
  if info.isPrimary then I.tableSpace else 0

/-- The address of a block of the segment's inner manager. -/
def SegInfo.blockAddr (info : SegInfo H) (offset : Word) : Word :=
  info.baseVaddr + info.smgrOffset I + offset

/-- The file ranges of the segments, in order. -/
def fileRanges (segments : List (SegInfo H)) : List FileRange :=
  segments.map fun info => info.toFileRange

def getFreeMemoryUnlocked (segments : List (SegInfo H)) : Word :=
  segments.foldl (fun total info => total + I.getFreeMemory info.smgr) 0

/-- `register_segment`, on the registry's contents. -/
def registerSegment (seg baseVaddr size : Word) (registry : Word → Option Word) :
    Word → Option Word := fun page =>
  let base := P.ptrToVaddr baseVaddr
  let pageBegin := base >>> P.pageShift
  let pageEnd := (base + size + (P.pageSize - 1)) >>> P.pageShift
  if pageBegin ≤ page ∧ page < pageEnd then some seg else registry page

/-- `unregister_segment`, on the registry's contents. -/
def unregisterSegment (baseVaddr size : Word) (registry : Word → Option Word) :
    Word → Option Word := fun page =>
  let base := P.ptrToVaddr baseVaddr
  let pageBegin := base >>> P.pageShift
  let pageEnd := (base + size + (P.pageSize - 1)) >>> P.pageShift
  if pageBegin ≤ page ∧ page < pageEnd then none else registry page

/-- `segment_registry::find`. -/
def registryFind (m : Manager H) (addr : Word) : Option Word :=
  m.registry (addr >>> P.pageShift)

/-- The common part of `add_segment_anon_preallocated` and `add_segment_shm`. -/
def addSegment (mapping : Mapping) (range : FileRange) (isPrimary : Bool) (smgr : H) :
    Op H Unit :=
  .modify fun m => { m with
    segments := m.segments ++ [⟨⟨range, isPrimary⟩, mapping.seg, mapping.baseVaddr, smgr⟩]
    registry := registerSegment P mapping.seg mapping.baseVaddr range.size m.registry }

/-- The size of the inner manager in a chunk. -/
def smgrSize (size : Word) (isPrimary : Bool) : Word :=
  size - if isPrimary then I.tableSpace else 0

def addSegmentAnonPreallocated (mapping : Mapping) (size : Word) (isPrimary : Bool) :
    Op H Unit :=
  addSegment P mapping ⟨0, size⟩ isPrimary (I.create (smgrSize I size isPrimary))

def addSegmentShm (fileOffset size : Word) (isPrimary isCreator initializeSmgr : Bool) :
    Op H Unit :=
  let mapping := if isCreator then env.createShm size else env.openShmChunk size fileOffset
  let range : FileRange := ⟨if isCreator then 0 else fileOffset, size⟩
  match mapping with
  | none => .raise .runtimeError
  | some mapping =>
      addSegment P mapping range isPrimary
        (if isCreator || initializeSmgr then I.create (smgrSize I size isPrimary)
          else env.inPlace range)

/-- `update_segment_table`, on the manager. -/
def publishLastSegment : Op H Unit := do
  let m ← .read
  match updateSegmentTable (m.segments.map SegInfo.toSegment) m.table with
  | some table => .modify fun m => { m with table := table }
  | none => .raise .runtimeError

/-! ## 3. Allocation and growth -/

/-- The loop of `try_allocate_locked`. -/
def allocateLoop : List (SegInfo H) → Word → Option (Word × List (SegInfo H))
  | [], _ => none
  | info :: rest, bytes =>
      match I.allocate info.smgr bytes with
      | some (offset, smgr) =>
          some (info.blockAddr I offset, { info with smgr := smgr } :: rest)
      | none =>
          match allocateLoop rest bytes with
          | some (p, rest') => some (p, info :: rest')
          | none => none

/-- The last segment is less than half free: `hint_growth(this)`. -/
def hintIfLow (m : Manager H) : Manager H :=
  match m.segments.getLast? with
  | some last =>
      if I.getFreeMemory last.smgr < last.size / 2 then { m with hints := m.hints + 1 } else m
  | none => m

def tryAllocateLocked (bytes : Word) : Op H (Option Word) := do
  let m ← .read
  match allocateLoop I m.segments bytes with
  | some (p, segments) =>
      .modify fun m => hintIfLow I { m with segments := segments }
      return some p
  | none => return none

/-- The first section of `grow`: nothing to do, or the new chunk's size and the
    file size before it. -/
def readSize (minBytes : Word) : Op H (Option (Word × Word)) := do
  let m ← .read
  if getFreeMemoryUnlocked I m.segments ≥ minBytes then return none
  else
    return some (growChunkSize P (m.segments.map SegInfo.toSegment) minBytes,
      getSizeUnlocked (fileRanges m.segments))

/-- The second half of `grow`, of an anonymous manager. -/
def growAnon (newChunkSize : Word) : Op H Unit :=
  match env.createAnon newChunkSize with
  | none => .raise .badAlloc
  | some mapping =>
      .guarded (listMtx H) (addSegmentAnonPreallocated P I mapping newChunkSize false)

/-- The second half of `grow`, of a SHM manager. -/
def growShm (newChunkSize currentFileSize : Word) : Op H Unit :=
  if env.shmGrow (currentFileSize + newChunkSize) then
    .guarded (listMtx H) do
      addSegmentShm P I env currentFileSize newChunkSize false false true
      publishLastSegment
  else .raise .badAlloc

def grow (minBytes : Word) : Op H Unit :=
  .guarded (growMtx H) do
    match ← .guarded (listMtx H) (readSize P I minBytes) with
    | none => return ()
    | some (newChunkSize, currentFileSize) =>
        let m ← .read
        if m.anon then growAnon P I env newChunkSize
        else growShm P I env newChunkSize currentFileSize

/-- The first section of `grow_background`. -/
def readSizeBackground : Op H (Option (Word × Word)) := do
  let m ← .read
  match m.segments.getLast? with
  | none => return none
  | some last =>
      if I.getFreeMemory last.smgr ≥ last.size / 2 then return none
      else
        return some (backgroundChunkSize P last.toSegment,
          getSizeUnlocked (fileRanges m.segments))

/-- `grow_background`; a failing system call ends it quietly. -/
def growBackground : Op H Unit :=
  .guarded (growMtx H) do
    match ← .guarded (listMtx H) (readSizeBackground P I) with
    | none => return ()
    | some (newChunkSize, currentFileSize) =>
        let m ← .read
        if m.anon then
          match env.createAnon newChunkSize with
          | none => return ()
          | some mapping =>
              .guarded (listMtx H) (addSegmentAnonPreallocated P I mapping newChunkSize false)
        else if env.shmGrow (currentFileSize + newChunkSize) then
          .guarded (listMtx H) do
            let m ← .read
            if currentFileSize = getSizeUnlocked (fileRanges m.segments) then do
              addSegmentShm P I env currentFileSize newChunkSize false false true
              publishLastSegment
            else return ()
        else return ()

def allocate (bytes : Word) : Op H Word := do
  match ← .guarded (listMtx H) (tryAllocateLocked I bytes) with
  | some p => return p
  | none =>
      grow P I env (bytes + kMinSegmentSize)
      match ← .guarded (listMtx H) (tryAllocateLocked I bytes) with
      | some p => return p
      | none => .raise .badAlloc

/-- `smgr_for`: the position of the segment's entry in the list. -/
def smgrFor (seg : Word) : Op H (Option Nat) :=
  .guarded (listMtx H) do
    let m ← .read
    return m.segments.findIdx? fun info => info.seg == seg

/-- The inner `deallocate` of the segment at a position. -/
def deallocateAt (i : Nat) (ptr : Word) : Op H Unit :=
  .modify fun m => { m with
    segments := m.segments.modify i fun info =>
      { info with smgr := I.deallocate info.smgr (ptr - info.blockAddr I 0) } }

/-- `deallocate`; a pointer into no sub-segment is ignored (an assertion fails
    in debug builds). -/
def deallocate (ptr : Word) : Op H Unit := do
  let m ← .read
  if ptr = 0 then return ()
  else
    match registryFind P m (P.ptrToVaddr ptr) with
    | none => return ()
    | some seg =>
        match ← smgrFor seg with
        | some i => deallocateAt I i ptr
        | none => return ()

/-! ## 4. Named objects -/

inductive LoopAnswer (H : Type) where
  | constructed (ptr : Word) (segments : List (SegInfo H))
  | refused
  | exhausted

/-- The loop of `construct` over the existing segments: it goes on after a null
    and after `bad_alloc`, any other exception leaves it. -/
def constructLoop (name : N) (bytes : Word) : List (SegInfo H) → LoopAnswer H
  | [] => .exhausted
  | info :: rest =>
      match I.construct info.smgr name bytes with
      | .constructed offset smgr =>
          .constructed (info.blockAddr I offset) ({ info with smgr := smgr } :: rest)
      | .refused => .refused
      | .null | .badAlloc =>
          match constructLoop name bytes rest with
          | .constructed p rest' => .constructed p (info :: rest')
          | .refused => .refused
          | .exhausted => .exhausted

/-- An object has its memory and its name; now its constructor runs. -/
def makeObject (ptr : Word) (segments : List (SegInfo H)) (ctor : Op H Unit) :
    Op H (Option Word) := do
  .modify fun m => { m with segments := segments }
  ctor
  return some ptr

/-- The first section of `construct`; `ctor` is what the constructor of the
    object does, `bytes` the object's size. -/
def constructExisting (name : N) (bytes : Word) (ctor : Op H Unit) : Op H (Option Word) := do
  let m ← .read
  match constructLoop I name bytes m.segments with
  | .constructed ptr segments => makeObject ptr segments ctor
  | .refused => .raise .interprocess
  | .exhausted => return none

/-- The last section of `construct`, on the last segment. -/
def constructLast (name : N) (bytes : Word) (ctor : Op H Unit) : Op H (Option Word) := do
  let m ← .read
  match m.segments.getLast? with
  | none => return none
  | some last =>
      match I.construct last.smgr name bytes with
      | .constructed offset smgr =>
          makeObject (last.blockAddr I offset)
            (m.segments.dropLast ++ [{ last with smgr := smgr }]) ctor
      | .null => return none
      | .badAlloc => .raise .badAlloc
      | .refused => .raise .interprocess

def construct (name : N) (bytes : Word) (ctor : Op H Unit) : Op H (Option Word) := do
  match ← .guarded (listMtx H) (constructExisting I name bytes ctor) with
  | some p => return some p
  | none =>
      grow P I env (bytes + 1024#64)
      .guarded (listMtx H) (constructLast I name bytes ctor)

/-- The loop of `find`. -/
def findLoop (name : N) (segments : List (SegInfo H)) : Option Word :=
  segments.findSome? fun info => (I.find info.smgr name).map (info.blockAddr I)

def find (name : N) : Op H (Option Word) :=
  .guarded (listMtx H) do
    let m ← .read
    return findLoop I name m.segments

def findOrConstruct (name : N) (bytes : Word) (ctor : Op H Unit) : Op H (Option Word) := do
  match ← find I name with
  | some p => return some p
  | none => construct P I env name bytes ctor

/-- The loop of `destroy`: the segments after the first that held the name. -/
def destroyLoop (name : N) : List (SegInfo H) → Option (List (SegInfo H))
  | [] => none
  | info :: rest =>
      match I.destroy info.smgr name with
      | some (_, smgr) => some ({ info with smgr := smgr } :: rest)
      | none =>
          match destroyLoop name rest with
          | some rest' => some (info :: rest')
          | none => none

/-- `destroy`; `dtor` is what the destructor of the object does. -/
def destroy (name : N) (dtor : Op H Unit) : Op H Bool :=
  .guarded (listMtx H) do
    let m ← .read
    match destroyLoop I name m.segments with
    | some segments =>
        .modify fun m => { m with segments := segments }
        dtor
        return true
    | none => return false

/-! ## 5. Lazy discovery -/

def coversFileOffset (fileOffset : Word) (info : SegInfo H) : Bool :=
  decide (fileOffset ≥ info.fileOffset) && decide (fileOffset < info.fileOffset + info.size)

def findSegmentByFileOffset (fileOffset : Word) : Op H (Option (SegInfo H)) :=
  .guarded (listMtx H) do
    let m ← .read
    return m.segments.find? (coversFileOffset fileOffset)

/-- The loop of `lazy_discover_growth` over the missing entries. -/
def discoverLoop : List FileRange → Op H Unit
  | [] => return ()
  | e :: rest => do
      addSegmentShm P I env e.fileOffset e.size false false false
      discoverLoop rest

/-- `lazy_discover_growth`; its pure part is `lazyDiscoverGrowth`. -/
def discoverGrowth (requiredFileOffset : Word) : Op H Bool := do
  let m ← .read
  if m.anon then return false
  else
    .guarded (listMtx H) do
      let m ← .read
      let (segments, found) :=
        lazyDiscoverGrowth m.table (m.segments.map SegInfo.toSegment) requiredFileOffset
      discoverLoop P I env ((segments.drop m.segments.length).map Segment.toFileRange)
      return found

/-! ## 6. Construction of a manager -/

/-- The manager before its constructor body, in a process with the registry
    `registry`, on a file with the table `table`. -/
def Manager.empty (anon : Bool) (table : SegmentTable) (registry : Word → Option Word) :
    Manager H where
  anon := anon
  segments := []
  table := table
  listHeld := false
  growHeld := false
  hints := 0
  registry := registry

def constructAnon (initialSize : Word) : Op H Unit :=
  let size := umax initialSize kMinSegmentSize
  match env.createAnon size with
  | none => .raise .badAlloc
  | some mapping => addSegmentAnonPreallocated P I mapping size true

def constructCreator (initialSize : Word) : Op H Unit := do
  addSegmentShm P I env 0 (umax initialSize kMinSegmentSize) true true false
  .modify fun m => { m with
    table := initSegmentTable (m.segments.map SegInfo.toSegment) m.table }

def register (mapping : Mapping) (size : Word) : Op H Unit :=
  .modify fun m => { m with
    registry := registerSegment P mapping.seg mapping.baseVaddr size m.registry }

def unregister (mapping : Mapping) (size : Word) : Op H Unit :=
  .modify fun m => { m with registry := unregisterSegment P mapping.baseVaddr size m.registry }

/-- The first part of `open_all_segments`: `seg0` and its size, remapped when the
    table says it is larger than the guess. -/
def openPrimary : Op H (Mapping × Word) :=
  match env.openShmChunk kMinSegmentSize 0 with
  | none => .raise .runtimeError
  | some guess => do
      register P guess kMinSegmentSize
      let m ← .read
      if m.table.magic ≠ kSegmentTableMagic then .raise .runtimeError
      else
        let s0Size := (m.table.entries 0).size
        if s0Size > kMinSegmentSize then do
          unregister P guess kMinSegmentSize
          match env.openShmChunk s0Size 0 with
          | none => .raise .badAlloc
          | some mapping => do
              register P mapping s0Size
              return (mapping, s0Size)
        else return (guess, kMinSegmentSize)

/-- `segments_.push_back` of sub-segment 0, its inner manager in place. -/
def pushPrimary (seg0 : Mapping × Word) : Op H Unit :=
  .modify fun m => { m with
    segments := m.segments ++
      [⟨⟨⟨0, seg0.2⟩, true⟩, seg0.1.seg, seg0.1.baseVaddr, env.inPlace ⟨0, seg0.2⟩⟩] }

/-- `open_all_segments`, mapping by mapping. -/
def openAllSegmentsMapped : Op H Unit := do
  let seg0 ← openPrimary P env
  pushPrimary env seg0
  let m ← .read
  discoverLoop P I env (m.table.published.drop 1)

end Memnon
