import Memnon.ManagerRun
import Memnon.Arena

/-!
# When `allocate` returns a block

`allocate` grows with `bytes + kMinSegmentSize`, and `grow` returns early when
the free memory of all segments adds up to that much. The request needs room
inside one segment, so the two tests disagree when the free memory is spread:
then nothing is grown and `allocate` throws. This module says exactly when.
-/

namespace Memnon

open Memnon.Lib

variable {H N : Type}

/-! ## 1. What every reachable manager looks like -/

/-- The list starts with the primary segment. -/
def FrontPrimary (segments : List (SegInfo H)) : Prop :=
  ∃ s0 rest, segments = s0 :: rest ∧ s0.isPrimary = true

theorem FrontPrimary.set {pre post : List (SegInfo H)} {info : SegInfo H} (smgr : H)
    (h : FrontPrimary (pre ++ info :: post)) :
    FrontPrimary (pre ++ { info with smgr := smgr } :: post) := by
  obtain ⟨s0, rest, hs, hprim⟩ := h
  cases pre with
  | nil =>
    cases hs
    exact ⟨_, _, rfl, hprim⟩
  | cons p ps =>
    cases hs
    exact ⟨_, _, rfl, hprim⟩

theorem FrontPrimary.append {segments : List (SegInfo H)} (h : FrontPrimary segments)
    (rest' : List (SegInfo H)) : FrontPrimary (segments ++ rest') := by
  obtain ⟨s0, rest, hs, hprim⟩ := h
  exact ⟨s0, rest ++ rest', by rw [hs]; rfl, hprim⟩

theorem stable_frontPrimary (I : InnerManager H N) : Stable I FrontPrimary where
  fresh h _ := h.append _
  alloc _ h := h.set _
  dealloc h := h.set _

theorem nameStable_frontPrimary (I : InnerManager H N) : NameStable I FrontPrimary where
  constructed _ h := h.set _
  destroyed _ h := h.set _

section reachable

variable {P : Platform} {I : InnerManager H N} {env : Env H} {m m' : Manager H}

/-- Both mutexes are free and the first segment is the primary one. -/
abbrev Ready (m : Manager H) : Prop := Holding FrontPrimary false false m

theorem ready_serve {r : Request H N} (hm : Ready m) (h : serve P I m r = some m') :
    Ready m' := by
  have hQ := stable_frontPrimary I
  have hN := nameStable_frontPrimary I
  cases r with
  | allocate env bytes => exact hQ.allocate _ _ m hm m' h
  | deallocate ptr => exact hQ.deallocate _ _ m hm m' h
  | grow env minBytes => exact hQ.grow _ _ m hm m' h
  | growBackground env => exact hQ.growBackground _ _ m hm m' h
  | construct env name bytes => exact hN.construct hQ .pure _ _ m hm m' h
  | find name => exact KeepsSegments.find _ _ m hm m' h
  | destroy name => exact hN.destroy .pure _ _ m hm m' h

theorem discoverLoop_keeps {list grow : Bool} {entries : List FileRange} :
    Call.Keeps (Holding FrontPrimary list grow) (discoverLoop P I env entries) := by
  induction entries with
  | nil => exact Call.keeps_pure
  | cons e rest ih =>
    refine Call.keeps_bind ?_ fun _ => ih
    unfold addSegmentShm
    simp only [Bool.false_eq_true, if_false]
    split
    · exact Call.keeps_raise
    · exact Call.keeps_modify fun _ hm => ⟨hm.list, hm.grow, hm.segments.append _⟩

theorem openPrimary_keeps {Q : List (SegInfo H) → Prop} {list grow : Bool} :
    Call.Keeps (Holding Q list grow) (openPrimary P env) := by
  have hregister : ∀ mapping size,
      Call.Keeps (Holding Q list grow) (register P mapping size : Op H Unit) :=
    fun _ _ => Call.keeps_modify fun _ hm => ⟨hm.list, hm.grow, hm.segments⟩
  unfold openPrimary
  split
  · exact Call.keeps_raise
  · refine Call.keeps_bind (hregister _ _) fun _ => Call.keeps_read_bind fun m hm => ?_
    split
    · exact Call.keeps_raise m hm
    · dsimp only
      split
      · refine Call.keeps_bind
          (Call.keeps_modify fun _ hm => ⟨hm.list, hm.grow, hm.segments⟩) (fun _ => ?_) m hm
        split
        · exact Call.keeps_raise
        · exact Call.keeps_bind (hregister _ _) fun _ => Call.keeps_pure
      · exact Call.keeps_pure m hm

theorem ready_started (h : Started P I m) : Ready m := by
  cases h with
  | created h =>
    obtain ⟨hlist, hgrow, s0, size, hs, hprim, -⟩ := h.fields
    exact ⟨hlist, hgrow, s0, [], hs, hprim⟩
  | @opener env table registry _ h =>
    obtain ⟨seg0, m₁, hprimary, hrest⟩ := Call.run_bind_eq_value h
    have hm₁ : Holding (· = []) false false m₁ :=
      openPrimary_keeps (Q := (· = [])) _ ⟨rfl, rfl, rfl⟩ m₁ (by rw [hprimary]; rfl)
    rw [pushPrimary, Call.run_modify_bind, Call.run_read_bind] at hrest
    refine discoverLoop_keeps _ ?_ m (congrArg Outcome.state hrest)
    refine ⟨hm₁.list, hm₁.grow, ?_⟩
    dsimp only
    rw [hm₁.segments]
    exact ⟨_, _, rfl, rfl⟩

theorem ready_of_steps {m₀ : Manager H} (hstart : Started P I m₀)
    (hrun : Steps (serve P I) anyStep m₀ m) : Ready m :=
  hrun.invariant Ready (ready_started hstart) fun _ _ _ hi _ hs => ready_serve hi hs

end reachable

/-! ## 2. What `grow` does -/

/-- Mapping the chunk that a growth by `minBytes` computes would succeed. -/
def mapsNewChunk (P : Platform) (env : Env H) (m : Manager H) (minBytes : Word) : Bool :=
  let newChunkSize := growChunkSize P (m.segments.map SegInfo.toSegment) minBytes
  let currentFileSize := getSizeUnlocked (fileRanges m.segments)
  if m.anon then (env.createAnon newChunkSize).isSome
  else env.shmGrow (currentFileSize + newChunkSize) &&
    (env.openShmChunk newChunkSize currentFileSize).isSome

/-- A mapping of length 0 is refused. -/
structure Env.RefusesEmpty (env : Env H) : Prop where
  createAnon : env.createAnon 0 = none
  openShmChunk : ∀ offset, env.openShmChunk 0 offset = none

section grow

variable {P : Platform} {I : InnerManager H N} {env : Env H} {m : Manager H}
  {bytes minBytes : Word}

theorem run_readSize : (readSize P I minBytes).run m =
    .value (if getFreeMemoryUnlocked I m.segments ≥ minBytes then none
      else some (growChunkSize P (m.segments.map SegInfo.toSegment) minBytes,
        getSizeUnlocked (fileRanges m.segments))) m := by
  rw [readSize, Call.run_read_bind]
  split <;> rfl

theorem grow_enough (hm : Ready m) (h : getFreeMemoryUnlocked I m.segments ≥ minBytes) :
    (grow P I env minBytes).run m = .value () m := by
  have hread : (Call.guarded (listMtx H) (readSize P I minBytes)).run
      ((growMtx H).setHeld true m) = .value none ((growMtx H).setHeld true m) := by
    refine Call.guarded_section hm.list hm.list (run_readSize.trans ?_)
    rw [listMtx_segments, growMtx_segments, if_pos h]
  refine Call.guarded_section hm.grow hm.grow ?_
  rw [Call.run_bind_value hread]
  rfl

/-- What is left of `grow` when the free memory is short. -/
theorem grow_short (hm : Ready m) (h : ¬ getFreeMemoryUnlocked I m.segments ≥ minBytes) :
    (grow P I env minBytes).run m =
      (Call.guarded (growMtx H)
        (if m.anon then
          growAnon P I env (growChunkSize P (m.segments.map SegInfo.toSegment) minBytes)
        else
          growShm P I env (growChunkSize P (m.segments.map SegInfo.toSegment) minBytes)
            (getSizeUnlocked (fileRanges m.segments)))).run m := by
  have hread : (Call.guarded (listMtx H) (readSize P I minBytes)).run
      ((growMtx H).setHeld true m) =
      .value (some (growChunkSize P (m.segments.map SegInfo.toSegment) minBytes,
        getSizeUnlocked (fileRanges m.segments))) ((growMtx H).setHeld true m) := by
    refine Call.guarded_section hm.list hm.list (run_readSize.trans ?_)
    rw [listMtx_segments, growMtx_segments, if_neg h]
  refine Call.guarded_congr ?_
  rw [Call.run_bind_value hread]
  rfl

variable {mapping : Mapping}

/-- The manager after a growth: a fresh chunk behind the others. -/
def grownBy (P : Platform) (I : InnerManager H N) (m : Manager H) (mapping : Mapping)
    (range : FileRange) : Manager H :=
  { m with
    segments := m.segments ++
      [⟨⟨range, false⟩, mapping.seg, mapping.baseVaddr, I.create (smgrSize I range.size false)⟩]
    registry := registerSegment P mapping.seg mapping.baseVaddr range.size m.registry }

theorem run_growAnon {newChunkSize : Word} (hlist : m.listHeld = false)
    (hmap : env.createAnon newChunkSize = some mapping) :
    (growAnon P I env newChunkSize).run m =
      .value () (grownBy P I m mapping ⟨0, newChunkSize⟩) := by
  simp only [growAnon, hmap]
  exact Call.guarded_section hlist hlist rfl

theorem growAnon_not_stuck {newChunkSize : Word} (hlist : m.listHeld = false) :
    (growAnon P I env newChunkSize).run m ≠ .stuck := by
  unfold growAnon
  split
  · nofun
  · exact Call.guarded_not_stuck hlist nofun

theorem growShm_not_stuck {newChunkSize currentFileSize : Word} (hlist : m.listHeld = false) :
    (growShm P I env newChunkSize currentFileSize).run m ≠ .stuck := by
  unfold growShm
  split
  · refine Call.guarded_not_stuck hlist (Call.bind_not_stuck ?_ fun _ s' _ => ?_)
    · unfold addSegmentShm
      simp only
      split <;> nofun
    · rw [publishLastSegment, Call.run_read_bind]
      split <;> nofun
  · nofun

/-- A SHM growth publishes the chunk, or throws when the table is full. -/
theorem run_growShm {newChunkSize currentFileSize : Word} (hfront : FrontPrimary m.segments)
    (hlist : m.listHeld = false) (hgrow : env.shmGrow (currentFileSize + newChunkSize) = true)
    (hmap : env.openShmChunk newChunkSize currentFileSize = some mapping) :
    ∃ table, (m.segments.length < kMaxSubSegments →
        updateSegmentTable (m.segments.map SegInfo.toSegment ++
          [⟨⟨currentFileSize, newChunkSize⟩, false⟩]) m.table = some table) ∧
      (growShm P I env newChunkSize currentFileSize).run m =
      if m.segments.length ≥ kMaxSubSegments then
        .thrown .runtimeError (grownBy P I m mapping ⟨currentFileSize, newChunkSize⟩)
      else .value ()
        { grownBy P I m mapping ⟨currentFileSize, newChunkSize⟩ with table := table } := by
  let grown := grownBy P I m mapping ⟨currentFileSize, newChunkSize⟩
  have hadd : (addSegmentShm P I env currentFileSize newChunkSize false false true).run
      ((listMtx H).setHeld true m) = .value () ((listMtx H).setHeld true grown) :=
    addSegmentShm_maps hmap true
  have hfront' : ∃ s0 rest, m.segments.map SegInfo.toSegment = s0 :: rest ∧
      s0.isPrimary = true := by
    obtain ⟨s0, rest, hs, hprim⟩ := hfront
    exact ⟨s0.toSegment, _, by rw [hs]; rfl, hprim⟩
  have hup := updateSegmentTable_concat hfront' ⟨⟨currentFileSize, newChunkSize⟩, false⟩ m.table
  rw [List.length_map] at hup
  have hsegs : ((listMtx H).setHeld true grown).segments.map SegInfo.toSegment =
      m.segments.map SegInfo.toSegment ++ [⟨⟨currentFileSize, newChunkSize⟩, false⟩] := by
    simp [grown, grownBy]
  have htable : ((listMtx H).setHeld true grown).table = m.table := rfl
  rw [growShm, if_pos hgrow]
  let table' : SegmentTable := { m.table with
    count := m.segments.length + 1
    entries := Function.update m.table.entries m.segments.length
      ⟨currentFileSize, newChunkSize⟩ }
  refine ⟨table', fun hroom => by rw [hup, if_neg (Nat.not_le.mpr hroom)], ?_⟩
  by_cases hfull : m.segments.length ≥ kMaxSubSegments
  · rw [if_pos hfull] at hup ⊢
    refine Call.guarded_section_thrown hlist hlist ?_
    rw [Call.run_bind_value hadd, publishLastSegment, Call.run_read_bind, hsegs, htable, hup]
    rfl
  · rw [if_neg hfull] at hup ⊢
    refine Call.guarded_section hlist hlist ?_
    rw [Call.run_bind_value hadd, publishLastSegment, Call.run_read_bind, hsegs, htable, hup]
    rfl

theorem grow_anon (hm : Ready m) (h : ¬ getFreeMemoryUnlocked I m.segments ≥ minBytes)
    (hanon : m.anon = true) {newChunkSize : Word}
    (hchunk : newChunkSize = growChunkSize P (m.segments.map SegInfo.toSegment) minBytes)
    (hmap : env.createAnon newChunkSize = some mapping) :
    (grow P I env minBytes).run m = .value () (grownBy P I m mapping ⟨0, newChunkSize⟩) := by
  subst hchunk
  rw [grow_short hm h, if_pos hanon]
  refine Call.guarded_section hm.grow hm.grow ?_
  have hlist : ((growMtx H).setHeld true m).listHeld = false := hm.list
  rw [run_growAnon hlist hmap]
  rfl

theorem grow_shm (hm : Ready m) (h : ¬ getFreeMemoryUnlocked I m.segments ≥ minBytes)
    (hanon : m.anon = false) {newChunkSize currentFileSize : Word}
    (hchunk : newChunkSize = growChunkSize P (m.segments.map SegInfo.toSegment) minBytes)
    (hcur : currentFileSize = getSizeUnlocked (fileRanges m.segments))
    (hgrow : env.shmGrow (currentFileSize + newChunkSize) = true)
    (hmap : env.openShmChunk newChunkSize currentFileSize = some mapping) :
    ∃ table, (grow P I env minBytes).run m =
      if m.segments.length ≥ kMaxSubSegments then
        .thrown .runtimeError (grownBy P I m mapping ⟨currentFileSize, newChunkSize⟩)
      else .value ()
        { grownBy P I m mapping ⟨currentFileSize, newChunkSize⟩ with table := table } := by
  subst hchunk hcur
  have hfront : FrontPrimary ((growMtx H).setHeld true m).segments := hm.segments
  have hlist : ((growMtx H).setHeld true m).listHeld = false := hm.list
  obtain ⟨table, -, hrun⟩ := run_growShm (I := I) (P := P) hfront hlist hgrow hmap
  refine ⟨table, ?_⟩
  rw [grow_short hm h, hanon, if_neg Bool.false_ne_true]
  rw [growMtx_segments] at hrun
  by_cases hfull : m.segments.length ≥ kMaxSubSegments
  · rw [if_pos hfull] at hrun ⊢
    exact Call.guarded_section_thrown hm.grow hm.grow hrun
  · rw [if_neg hfull] at hrun ⊢
    exact Call.guarded_section hm.grow hm.grow hrun

end grow

/-! ## 3. What `allocate` and `deallocate` do -/

section allocate

variable {P : Platform} {I : InnerManager H N} {env : Env H} {m m₁ : Manager H} {bytes : Word}

theorem run_tryAllocate_none (hlist : m.listHeld = false)
    (h : allocateLoop I m.segments bytes = none) :
    (Call.guarded (listMtx H) (tryAllocateLocked I bytes)).run m = .value none m := by
  refine Call.guarded_section hlist hlist ?_
  rw [tryAllocateLocked, Call.run_read_bind, listMtx_segments, h]
  rfl

theorem run_tryAllocate_some (hlist : m.listHeld = false) {p : Word}
    {segments : List (SegInfo H)} (h : allocateLoop I m.segments bytes = some (p, segments)) :
    ∃ m', (Call.guarded (listMtx H) (tryAllocateLocked I bytes)).run m = .value (some p) m' := by
  let m' := hintIfLow I { (listMtx H).setHeld true m with segments := segments }
  refine ⟨(listMtx H).setHeld false m', Call.guarded_value hlist ?_⟩
  rw [tryAllocateLocked, Call.run_read_bind, listMtx_segments, h]
  rfl

/-- What a section that serves leaves is what the loop returned. -/
theorem allocateLoop_of_run {p : Word}
    (h : (Call.guarded (listMtx H) (tryAllocateLocked I bytes)).run m = .value (some p) m₁) :
    allocateLoop I m.segments bytes = some (p, m₁.segments) := by
  obtain ⟨m₂, hbody, rfl⟩ := Call.guarded_inv h
  rw [tryAllocateLocked, Call.run_read_bind, listMtx_segments] at hbody
  cases hloop : allocateLoop I m.segments bytes with
  | none =>
    simp only [hloop] at hbody
    cases hbody
  | some served =>
    obtain ⟨q, segments⟩ := served
    simp only [hloop] at hbody
    cases hbody
    rw [listMtx_segments, (hintIfLow_fields I _).1]

theorem allocate_returns_of_some (hlist : m.listHeld = false)
    (h : (allocateLoop I m.segments bytes).isSome = true) :
    ((allocate P I env bytes).run m).returns = true := by
  obtain ⟨⟨p, segments⟩, hloop⟩ := Option.isSome_iff_exists.mp h
  obtain ⟨m', hrun⟩ := run_tryAllocate_some hlist hloop
  rw [allocate, Call.run_bind_value hrun]
  rfl

/-- After a growth that returns, the second attempt decides. -/
theorem allocate_returns_of_grow (hlist : m.listHeld = false)
    (h : allocateLoop I m.segments bytes = none)
    (hgrow : (grow P I env (bytes + kMinSegmentSize)).run m = .value () m₁)
    (hlist₁ : m₁.listHeld = false) :
    ((allocate P I env bytes).run m).returns = (allocateLoop I m₁.segments bytes).isSome := by
  rw [allocate, Call.run_bind_value (run_tryAllocate_none hlist h)]
  simp only
  rw [Call.run_bind_value hgrow]
  cases hloop : allocateLoop I m₁.segments bytes with
  | none =>
    rw [Call.run_bind_value (run_tryAllocate_none hlist₁ hloop)]
    rfl
  | some served =>
    obtain ⟨m', hrun⟩ := run_tryAllocate_some hlist₁ hloop
    rw [Call.run_bind_value hrun]
    rfl

theorem allocate_throws_of_grow (hlist : m.listHeld = false)
    (h : allocateLoop I m.segments bytes = none) {e : Exn}
    (hgrow : (grow P I env (bytes + kMinSegmentSize)).run m = .thrown e m₁) :
    ((allocate P I env bytes).run m).returns = false := by
  rw [allocate, Call.run_bind_value (run_tryAllocate_none hlist h)]
  simp only
  rw [Call.run_bind_thrown hgrow]
  rfl

/-- The manager after `deallocate`: the segment that the registry names has the
    block back, if it is one of its own. -/
def deallocated (P : Platform) (I : InnerManager H N) (m : Manager H) (ptr : Word) : Manager H :=
  if ptr = 0 then m
  else
    match registryFind P m (P.ptrToVaddr ptr) with
    | none => m
    | some seg =>
        match m.segments.findIdx? fun info => info.seg == seg with
        | some i => { m with segments := m.segments.modify i fun info =>
            { info with smgr := I.deallocate info.smgr (ptr - info.blockAddr I 0) } }
        | none => m

theorem run_deallocate (hlist : m.listHeld = false) (ptr : Word) :
    (deallocate P I ptr).run m = .value () (deallocated P I m ptr) := by
  rw [deallocate, Call.run_read_bind, deallocated]
  by_cases hnull : ptr = 0
  · rw [if_pos hnull, if_pos hnull]
    rfl
  · rw [if_neg hnull, if_neg hnull]
    cases registryFind P m (P.ptrToVaddr ptr) with
    | none => rfl
    | some seg =>
      have hsmgr : (smgrFor seg).run m =
          .value (m.segments.findIdx? fun info => info.seg == seg) m :=
        Call.guarded_section hlist hlist rfl
      simp only
      rw [Call.run_bind_value hsmgr]
      cases m.segments.findIdx? fun info => info.seg == seg with
      | none => rfl
      | some i => rfl

/-- A fresh inner manager of a chunk serves every request that leaves
    `kMinSegmentSize` bytes of the chunk. -/
def InnerManager.ServesFresh (I : InnerManager H N) : Prop :=
  ∀ size bytes : Word, bytes.toNat + kMinSegmentSize.toNat ≤ size.toNat →
    (I.allocate (I.create size) bytes).isSome = true

/-- A new chunk that could be mapped is large enough for the request. -/
theorem growChunkSize_fits {segments : List Segment} (hbytes : bytes.toNat < 2 ^ 46)
    (hpos : growChunkSize P segments (bytes + kMinSegmentSize) ≠ 0) :
    bytes.toNat + kMinSegmentSize.toNat ≤
      (growChunkSize P segments (bytes + kMinSegmentSize)).toNat := by
  have hmin : kMinSegmentSize.toNat = 2 ^ 20 := rfl
  have hsum : (bytes + kMinSegmentSize).toNat = bytes.toNat + kMinSegmentSize.toNat := by
    rw [BitVec.toNat_add]
    omega
  obtain ⟨wanted, hchunk⟩ : ∃ wanted, growChunkSize P segments (bytes + kMinSegmentSize) =
    alignUp (umax (bytes + kMinSegmentSize) wanted) P.pageSize := ⟨_, rfl⟩
  rw [hchunk] at hpos ⊢
  obtain hzero | hge := P.alignUp_zero_or_ge (umax (bytes + kMinSegmentSize) wanted)
  · exact absurd hzero hpos
  · rw [umax_toNat, hsum] at hge
    omega

theorem grown_serves {mapping : Mapping} {range : FileRange} (hfresh : I.ServesFresh)
    (hfits : bytes.toNat + kMinSegmentSize.toNat ≤ range.size.toNat) :
    (allocateLoop I (grownBy P I m mapping range).segments bytes).isSome = true := by
  refine allocateLoop_isSome.mpr ⟨⟨⟨range, false⟩, mapping.seg, mapping.baseVaddr,
    I.create (smgrSize I range.size false)⟩, by simp [grownBy], ?_⟩
  have hsize : smgrSize I range.size false = range.size := by simp [smgrSize]
  rw [hsize]
  exact hfresh _ _ hfits

end allocate

/-! ## 4. Results -/

/-- Some segment has room for the request. -/
def ServedNow (I : InnerManager H N) (m : Manager H) (bytes : Word) : Prop :=
  ∃ info ∈ m.segments, (I.allocate info.smgr bytes).isSome = true

/-- The free memory of all segments together is short, and the table can take
    another segment. -/
def GrowsForRequest (I : InnerManager H N) (m : Manager H) (bytes : Word) : Prop :=
  getFreeMemoryUnlocked I m.segments < bytes + kMinSegmentSize ∧
    (m.anon = true ∨ m.segments.length < kMaxSubSegments)

/-- When mapping a new chunk would succeed, `allocate` returns a block exactly
    when a segment has room for it or the free memory is short in sum. -/
theorem allocate_returns_iff {P : Platform} {I : InnerManager H N} {env : Env H}
    {m₀ m : Manager H} {bytes : Word} (hfresh : I.ServesFresh) (hempty : env.RefusesEmpty)
    (hstart : Started P I m₀) (hrun : Steps (serve P I) anyStep m₀ m)
    (hbytes : bytes.toNat < 2 ^ 46)
    (hmaps : mapsNewChunk P env m (bytes + kMinSegmentSize) = true) :
    ((allocate P I env bytes).run m).returns = true ↔
      ServedNow I m bytes ∨ GrowsForRequest I m bytes := by
  have hm : Ready m := ready_of_steps hstart hrun
  rw [ServedNow, ← allocateLoop_isSome]
  cases hloop : allocateLoop I m.segments bytes with
  | some served =>
    have hreturns : ((allocate P I env bytes).run m).returns = true :=
      allocate_returns_of_some hm.list (by rw [hloop]; rfl)
    simp [hreturns]
  | none =>
    simp only [Option.isSome_none, Bool.false_eq_true, false_or, GrowsForRequest]
    by_cases henough : getFreeMemoryUnlocked I m.segments ≥ bytes + kMinSegmentSize
    · -- `grow` returns early and the second attempt fails like the first
      rw [allocate_returns_of_grow hm.list hloop (grow_enough hm henough) hm.list, hloop]
      simp [BitVec.not_lt.mpr henough]
    · have hshort : getFreeMemoryUnlocked I m.segments < bytes + kMinSegmentSize :=
        BitVec.not_le.mp henough
      rw [mapsNewChunk] at hmaps
      cases hanon : m.anon with
      | true =>
        simp only [hanon, if_true] at hmaps
        obtain ⟨mapping, hmap⟩ := Option.isSome_iff_exists.mp hmaps
        have hfits := growChunkSize_fits hbytes (by
          intro hzero
          rw [hzero, hempty.createAnon] at hmap
          cases hmap)
        rw [allocate_returns_of_grow hm.list hloop (grow_anon hm henough hanon rfl hmap) hm.list,
          grown_serves hfresh hfits]
        simp [hshort]
      | false =>
        simp only [hanon, Bool.false_eq_true, if_false, Bool.and_eq_true] at hmaps
        obtain ⟨hshm, hopen⟩ := hmaps
        obtain ⟨mapping, hmap⟩ := Option.isSome_iff_exists.mp hopen
        have hfits := growChunkSize_fits hbytes (by
          intro hzero
          rw [hzero, hempty.openShmChunk] at hmap
          cases hmap)
        obtain ⟨table, hgrow⟩ := grow_shm hm henough hanon rfl rfl hshm hmap
        by_cases hfull : m.segments.length ≥ kMaxSubSegments
        · rw [if_pos hfull] at hgrow
          rw [allocate_throws_of_grow hm.list hloop hgrow]
          simp [Nat.not_lt.mpr hfull]
        · rw [if_neg hfull] at hgrow
          rw [allocate_returns_of_grow hm.list hloop hgrow hm.list]
          exact iff_of_true (grown_serves (P := P) hfresh hfits)
            ⟨hshort, .inr (Nat.lt_of_not_le hfull)⟩

theorem arena_servesFresh : arena.ServesFresh := by
  intro size bytes hfits
  have hmin : kMinSegmentSize.toNat = 2 ^ 20 := rfl
  have hle : bytes ≤ size := by
    rw [BitVec.le_def]
    omega
  simp [arena, Arena.allocate, Arena.top, hle]

theorem roomyEnv_refusesEmpty : roomyEnv.RefusesEmpty := ⟨rfl, fun _ => rfl⟩

theorem arenaManager_created : Created fourKiBPages arena (arenaManager 0x1000000) :=
  @Created.anon _ _ _ _ roomyEnv .blank (fun _ => none) 0x1000000 _ rfl

/-- A request that outgrows an anonymous manager of 16 MiB. -/
theorem allocate_returns_after_growth :
    ((allocate fourKiBPages arena roomyEnv 0x1400000).run (arenaManager 0x1000000)).returns =
      true :=
  (allocate_returns_iff arena_servesFresh roomyEnv_refusesEmpty (.created arenaManager_created)
    (.refl _) (by decide) (by decide)).mpr (.inr ⟨by decide, .inl rfl⟩)

/-- Segments of 16 MiB and 32 MiB with 4 MiB and 12 MiB free: a request of
    13 MiB fits into neither and `grow` sees no need to act. -/
theorem allocate_spread_memory_throws :
    ¬ ∀ (m₀ m : Manager Arena) (bytes : Word), Started fourKiBPages arena m₀ →
      Steps (serve fourKiBPages arena) anyStep m₀ m → bytes.toNat < 2 ^ 46 →
      mapsNewChunk fourKiBPages roomyEnv m (bytes + kMinSegmentSize) = true →
      ((allocate fourKiBPages arena roomyEnv bytes).run m).returns = true := by
  intro hall
  let requests : List (Request Arena Nat) :=
    [.allocate roomyEnv 0xC00000, .allocate roomyEnv 0x1400000]
  have hex : ∃ m, Steps (serve fourKiBPages arena) anyStep (arenaManager 0x1000000) m ∧
      decide (mapsNewChunk fourKiBPages roomyEnv m (0xD00000 + kMinSegmentSize) = true ∧
        ((allocate fourKiBPages arena roomyEnv 0xD00000).run m).returns = false) = true :=
    Steps.exists_of_replay requests (by decide)
  obtain ⟨m, hrun, hm⟩ := hex
  obtain ⟨hmaps, hfails⟩ := of_decide_eq_true hm
  have hreturns := hall _ m 0xD00000 (.created arenaManager_created) hrun (by decide) hmaps
  rw [hfails] at hreturns
  cases hreturns

end Memnon
