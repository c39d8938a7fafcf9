import Memnon.ManagerAllocate
import Memnon.SegmentList
import Memnon.Arena

/-!
# The locked sections of a SHM manager

What each section under `list_mtx_` does to a manager whose list and table are
in step: allocation changes one inner manager, a growth reads the end of the
list and, as long as that is still the end, appends one chunk to both, and
discovery has nothing to do.
-/

namespace Memnon

open Memnon.Lib

variable {H N : Type}

/-! ## 1. Sections of a growth -/

/-- The file is extended; map the chunk and publish it. -/
def publishChunk (P : Platform) (I : InnerManager H N) (env : Env H)
    (newChunkSize currentFileSize : Word) : Op H Unit := do
  addSegmentShm P I env currentFileSize newChunkSize false false true
  publishLastSegment

/-- `grow_background` looks at the file size again. -/
def publishChunkBackground (P : Platform) (I : InnerManager H N) (env : Env H)
    (newChunkSize currentFileSize : Word) : Op H Unit := do
  let m ← .read
  if currentFileSize = getSizeUnlocked (fileRanges m.segments) then
    publishChunk P I env newChunkSize currentFileSize
  else return ()

/-- What a mapping that succeeds tells about its size: `mmap` refuses an empty
    one, and no address space has room for `2 ^ 63` bytes. -/
structure SizesMapped (env : Env H) : Prop where
  createShm : ∀ size mapping, env.createShm size = some mapping →
    size ≠ 0 ∧ size.toNat < 2 ^ 63
  openShmChunk : ∀ size offset mapping, env.openShmChunk size offset = some mapping →
    size ≠ 0 ∧ size.toNat < 2 ^ 63

theorem boundedEnv_sizesMapped : SizesMapped boundedEnv := by
  have hsize : ∀ (size : Word) (mapping : Mapping),
      (if size < 0x800000000000 then roomyEnv.createShm size else none) = some mapping →
      size ≠ 0 ∧ size.toNat < 2 ^ 63 := by
    intro size mapping h
    split at h
    · rename_i hlt
      constructor
      · intro h0
        subst h0
        cases h
      · have hbound : (0x800000000000 : Word).toNat = 2 ^ 47 := rfl
        rw [BitVec.lt_def, hbound] at hlt
        omega
    · cases h
  exact ⟨hsize, fun size _ mapping h => hsize size mapping h⟩

/-! ## 2. List and table in step -/

/-- The states of an inner manager on which only blocks have been allocated and
    given back since it was constructed. -/
inductive Constructed (I : InnerManager H N) : H → Prop
  | create (size : Word) : Constructed I (I.create size)
  | allocate {smgr smgr' : H} {bytes offset : Word} : Constructed I smgr →
      I.allocate smgr bytes = some (offset, smgr') → Constructed I smgr'
  | deallocate {smgr : H} (offset : Word) : Constructed I smgr →
      Constructed I (I.deallocate smgr offset)

/-- The segments without their addresses and inner managers. -/
def segmentsOf (m : Manager H) : List Segment := m.segments.map SegInfo.toSegment

theorem fileRanges_eq (m : Manager H) : fileRanges m.segments = rangesOf (segmentsOf m) := by
  simp [fileRanges, rangesOf, segmentsOf]

/-- `list_mtx_` is free, the list is one that growth builds, the table lists it,
    and every inner manager has the property `Q`. -/
structure InStep (Q : H → Prop) (m : Manager H) : Prop where
  shm : m.anon = false
  free : m.listHeld = false
  grown : Grown (segmentsOf m)
  lists : Lists m.table (segmentsOf m)
  smgrs : ∀ info ∈ m.segments, Q info.smgr

section sections

variable {P : Platform} {I : InnerManager H N} {env : Env H} {m : Manager H} {Q : H → Prop}

/-- A change of the inner managers alone. -/
theorem InStep.same {R : H → Prop} {m' : Manager H} (h : InStep Q m) (hanon : m'.anon = m.anon)
    (hlist : m'.listHeld = m.listHeld) (htable : m'.table = m.table)
    (hsegs : segmentsOf m' = segmentsOf m) (hR : ∀ info ∈ m'.segments, R info.smgr) :
    InStep R m' := by
  constructor
  · exact hanon.trans h.shm
  · exact hlist.trans h.free
  · exact hsegs ▸ h.grown
  · rw [hsegs, htable]
    exact h.lists
  · exact hR

theorem InStep.setGrow (h : InStep Q m) (b : Bool) : InStep Q ((growMtx H).setHeld b m) :=
  ⟨h.shm, h.free, h.grown, h.lists, h.smgrs⟩

theorem InStep.created {table : SegmentTable} {registry : Word → Option Word}
    {initialSize : Word} (henv : SizesMapped env) (hQ : ∀ size, Q (I.create size))
    (h : (constructCreator P I env initialSize).run (.empty false table registry) = .value () m) :
    InStep Q m := by
  unfold constructCreator addSegmentShm at h
  simp only [if_true] at h
  cases hmap : env.createShm (umax initialSize kMinSegmentSize) with
  | none =>
    simp only [hmap] at h
    cases h
  | some mapping =>
    simp only [hmap] at h
    cases h
    obtain ⟨-, hmax⟩ := henv.createShm _ _ hmap
    have hsize := umax_toNat initialSize kMinSegmentSize
    have hmin : kMinSegmentSize.toNat = 2 ^ 20 := rfl
    constructor
    · rfl
    · rfl
    · exact grown_single (by omega) hmax
    · exact lists_initSegmentTable _ _
    · intro info hinfo
      obtain rfl := List.mem_singleton.mp hinfo
      exact hQ _

/-- A section that allocates changes one inner manager. -/
theorem InStep.tryAllocate (h : InStep Q m)
    (hQ : ∀ {smgr smgr' bytes offset}, Q smgr → I.allocate smgr bytes = some (offset, smgr') →
      Q smgr') (bytes : Word) :
    ∃ p m', (Call.guarded (listMtx H) (tryAllocateLocked I bytes)).run m = .value p m' ∧
      InStep Q m' ∧ segmentsOf m' = segmentsOf m := by
  cases hloop : allocateLoop I m.segments bytes with
  | none => exact ⟨none, m, run_tryAllocate_none h.free hloop, h, rfl⟩
  | some served =>
    obtain ⟨p, segments⟩ := served
    obtain ⟨pre, info, post, offset, smgr, hs, halloc, hs', -⟩ := allocateLoop_split hloop
    let locked : Manager H := { (listMtx H).setHeld true m with segments := segments }
    have hrun : (tryAllocateLocked I bytes).run ((listMtx H).setHeld true m) =
        .value (some p) (hintIfLow I locked) := by
      rw [tryAllocateLocked, Call.run_read_bind, listMtx_segments, hloop]
      rfl
    have hsegs : (hintIfLow I locked).segments = segments := (hintIfLow_fields I locked).1
    have hsame : segmentsOf ((listMtx H).setHeld false (hintIfLow I locked)) = segmentsOf m := by
      simp [segmentsOf, hsegs, hs, hs']
    have hrest : (hintIfLow I locked).anon = m.anon ∧ (hintIfLow I locked).table = m.table := by
      unfold hintIfLow
      split
      · split <;> exact ⟨rfl, rfl⟩
      · exact ⟨rfl, rfl⟩
    refine ⟨some p, _, Call.guarded_value h.free hrun, ?_, hsame⟩
    constructor
    · exact hrest.1.trans h.shm
    · rfl
    · rw [hsame]
      exact h.grown
    · rw [hsame, listMtx_table, hrest.2]
      exact h.lists
    · intro info' hinfo
      rw [listMtx_segments, hsegs, hs'] at hinfo
      have hold : ∀ i ∈ pre ++ info :: post, Q i.smgr := hs ▸ h.smgrs
      rcases List.mem_append.mp hinfo with hpre | hpost
      · exact hold info' (List.mem_append_left _ hpre)
      · rcases List.mem_cons.mp hpost with rfl | hpost
        · exact hQ (hold info (by simp)) halloc
        · exact hold info' (by simp [hpost])

/-- What a growth carries is the end of the list, and a chunk that is empty or
    twice as large as the last segment. -/
def Carries (m : Manager H) (newChunkSize currentFileSize : Word) : Prop :=
  currentFileSize = getSizeUnlocked (rangesOf (segmentsOf m)) ∧
    ∃ last, (segmentsOf m).getLast? = some last ∧
      (newChunkSize = 0 ∨ 2 * last.size.toNat ≤ newChunkSize.toNat)

/-- The first section of `grow` only reads. -/
theorem InStep.readSize (h : InStep Q m) (minBytes : Word) :
    ∃ sizes, (Call.guarded (listMtx H) (readSize P I minBytes)).run m = .value sizes m ∧
      ∀ c ∈ sizes, Carries m c.1 c.2 := by
  obtain ⟨last, hlast⟩ := h.grown.exists_last
  refine ⟨_, Call.guarded_section h.free h.free run_readSize, fun c hc => ?_⟩
  split at hc
  · cases hc
  · obtain rfl := Option.some.inj hc
    exact ⟨congrArg _ (fileRanges_eq m), last, hlast, h.grown.growChunkSize hlast minBytes⟩

/-- The first section of `grow_background` only reads. -/
theorem InStep.readSizeBackground (h : InStep Q m) :
    ∃ sizes, (Call.guarded (listMtx H) (readSizeBackground P I)).run m = .value sizes m ∧
      ∀ c ∈ sizes, Carries m c.1 c.2 := by
  obtain ⟨last, hlast⟩ := h.grown.exists_last
  obtain ⟨info, hinfo, rfl⟩ : ∃ info, m.segments.getLast? = some info ∧
      info.toSegment = last := by
    simpa [segmentsOf, List.getLast?_map] using hlast
  by_cases henough : I.getFreeMemory info.smgr ≥ info.size / 2
  · refine ⟨none, Call.guarded_section h.free h.free ?_, fun c hc => by cases hc⟩
    rw [Memnon.readSizeBackground, Call.run_read_bind, listMtx_segments, hinfo]
    simp only [if_pos henough]
    rfl
  · refine ⟨some (Memnon.backgroundChunkSize P info.toSegment,
      getSizeUnlocked (fileRanges m.segments)), Call.guarded_section h.free h.free ?_,
      fun c hc => ?_⟩
    · rw [Memnon.readSizeBackground, Call.run_read_bind, listMtx_segments, hinfo]
      simp only [if_neg henough]
      rfl
    · obtain rfl := Option.some.inj hc
      exact ⟨congrArg _ (fileRanges_eq m), _, hlast, h.grown.backgroundChunkSize hlast⟩

/-- The last section of a growth that still carries the end of the list: the
    chunk cannot be mapped, or list and table get the same entry. -/
theorem InStep.publish (h : InStep Q m) (henv : SizesMapped env) (hQ : ∀ size, Q (I.create size))
    {newChunkSize currentFileSize : Word} (hc : Carries m newChunkSize currentFileSize) :
    (Call.guarded (listMtx H) (publishChunk P I env newChunkSize currentFileSize)).run m =
        .thrown .runtimeError m ∨
      ∃ m', (Call.guarded (listMtx H)
        (publishChunk P I env newChunkSize currentFileSize)).run m = .value () m' ∧
        InStep Q m' ∧
          segmentsOf m' = segmentsOf m ++ [⟨⟨currentFileSize, newChunkSize⟩, false⟩] := by
  obtain ⟨hcur, last, hlast, hchunk⟩ := hc
  cases hmap : env.openShmChunk newChunkSize currentFileSize with
  | none =>
    left
    refine Call.guarded_section_thrown h.free h.free ?_
    exact Call.run_bind_thrown (addSegmentShm_fails hmap true)
  | some mapping =>
    right
    obtain ⟨hpos, hmax⟩ := henv.openShmChunk _ _ _ hmap
    have htwice := hchunk.resolve_left hpos
    let ns : Segment := ⟨⟨currentFileSize, newChunkSize⟩, false⟩
    have hgrown : Grown (segmentsOf m ++ [ns]) := h.grown.append hlast hcur htwice hmax
    obtain ⟨t', hupdate, hlists⟩ := h.lists.update h.grown ns
    let grown := grownBy P I m mapping ⟨currentFileSize, newChunkSize⟩
    have hsegs : segmentsOf grown = segmentsOf m ++ [ns] := by
      simp [grown, grownBy, segmentsOf, ns]
    have hadd : (addSegmentShm P I env currentFileSize newChunkSize false false true).run
        ((listMtx H).setHeld true m) = .value () ((listMtx H).setHeld true grown) :=
      addSegmentShm_maps hmap true
    refine ⟨{ grown with table := t' }, Call.guarded_section h.free h.free ?_, ?_, hsegs⟩
    · have hup : updateSegmentTable
          (((listMtx H).setHeld true grown).segments.map SegInfo.toSegment) m.table = some t' := by
        rw [← hupdate, ← hsegs]
        rfl
      have htable : ((listMtx H).setHeld true grown).table = m.table := rfl
      rw [publishChunk, Call.run_bind_value hadd, publishLastSegment, Call.run_read_bind, htable,
        hup]
      rfl
    · constructor
      · exact h.shm
      · exact h.free
      · exact hsegs ▸ hgrown
      · exact hsegs ▸ hlists
      · intro info hinfo
        rcases List.mem_append.mp hinfo with hinfo | hinfo
        · exact h.smgrs info hinfo
        · obtain rfl := List.mem_singleton.mp hinfo
          exact hQ _

/-- The file size that `grow_background` looks at again has not changed. -/
theorem publishChunkBackground_eq {newChunkSize currentFileSize : Word}
    (hc : Carries m newChunkSize currentFileSize) :
    (Call.guarded (listMtx H)
        (publishChunkBackground P I env newChunkSize currentFileSize)).run m =
      (Call.guarded (listMtx H) (publishChunk P I env newChunkSize currentFileSize)).run m := by
  refine Call.guarded_congr ?_
  have hsame : currentFileSize =
      getSizeUnlocked (fileRanges ((listMtx H).setHeld true m).segments) := by
    rw [listMtx_segments, fileRanges_eq]
    exact hc.1
  rw [publishChunkBackground, Call.run_read_bind, if_pos hsame]

theorem InStep.discover (h : InStep Q m) (required : Word) :
    ∃ found, (discoverGrowth P I env required).run m = .value found m := by
  refine ⟨(lazyDiscoverGrowth m.table (segmentsOf m) required).2, ?_⟩
  rw [discoverGrowth, Call.run_read_bind, h.shm, if_neg Bool.false_ne_true]
  refine Call.guarded_section h.free h.free ?_
  have hnone : ((lazyDiscoverGrowth m.table (segmentsOf m) required).1.drop
      m.segments.length) = [] := by
    rw [h.lists.discover]
    exact List.drop_eq_nil_of_le (by simp [segmentsOf])
  rw [Call.run_read_bind]
  simp only [listMtx_segments, listMtx_table]
  show (discoverLoop P I env (((lazyDiscoverGrowth m.table (segmentsOf m) required).1.drop
    m.segments.length).map Segment.toFileRange) >>= fun _ => _).run _ = _
  rw [hnone]
  rfl

end sections

end Memnon
