import Memnon.ManagerSteps

/-!
# The blocks of the inner managers

What Boost is relied on for: an inner manager hands out blocks without a common byte,
inside the memory that it was constructed on. Here is what the segments of one manager
make of it. Growth appends segments with fresh inner managers, an allocation changes
the inner manager of one segment, and `deallocate` that of the segment which the
registry names.
-/

namespace Memnon

open Memnon.Lib

variable {H N : Type}

/-! ## 1. What is assumed -/

/-- A block of no bytes still has an address of its own. -/
def takenBytes (bytes : Word) : Nat := max 1 bytes.toNat

/-- Two ranges without a common byte. -/
def ApartFrom (start size start' size' : Nat) : Prop :=
  start + size ≤ start' ∨ start' + size' ≤ start

theorem ApartFrom.symm {start size start' size' : Nat} (h : ApartFrom start size start' size') :
    ApartFrom start' size' start size := Or.symm h

/-- Ranges that are not apart have a byte in common. -/
theorem exists_common {start size start' size' : Nat} (hsize : 0 < size) (hsize' : 0 < size')
    (h : ¬ ApartFrom start size start' size') :
    ∃ a, (start ≤ a ∧ a < start + size) ∧ start' ≤ a ∧ a < start' + size' := by
  refine ⟨max start start', ?_, ?_⟩
  all_goals
    simp only [ApartFrom] at h
    omega

/-- The blocks of an inner manager, as offset and size, in each state that it may be in. -/
structure BlockLaws (I : InnerManager H N) where
  Valid : H → Prop
  /-- the size of the memory that it was constructed on -/
  room : H → Nat
  blocks : H → List (Word × Nat)
  inside : ∀ {smgr : H} {block : Word × Nat}, Valid smgr → block ∈ blocks smgr →
    block.1.toNat + block.2 ≤ room smgr
  create : ∀ size, Valid (I.create size) ∧ room (I.create size) = size.toNat
  allocate : ∀ {smgr smgr' : H} {bytes offset : Word}, Valid smgr →
    I.allocate smgr bytes = some (offset, smgr') →
    Valid smgr' ∧ room smgr' = room smgr ∧ (∀ block ∈ blocks smgr, block ∈ blocks smgr') ∧
      ∃ size, takenBytes bytes ≤ size ∧ (offset, size) ∈ blocks smgr' ∧
        ∀ block ∈ blocks smgr, ApartFrom offset.toNat size block.1.toNat block.2
  deallocate : ∀ {smgr : H} {block : Word × Nat}, Valid smgr → block ∈ blocks smgr →
    Valid (I.deallocate smgr block.1) ∧ room (I.deallocate smgr block.1) = room smgr ∧
      ∀ other ∈ blocks smgr, other.1 ≠ block.1 → other ∈ blocks (I.deallocate smgr block.1)

section segments

variable {I : InnerManager H N} (L : BlockLaws I)

/-- The inner manager is in a valid state, and its memory ends where the segment does. -/
def BlockLaws.Houses (info : SegInfo H) : Prop :=
  L.Valid info.smgr ∧ (info.smgrOffset I).toNat + L.room info.smgr ≤ info.size.toNat

/-- The segment `seg` has issued a block at `ptr`. -/
def BlockLaws.HasBlock (m : Manager H) (seg ptr bytes : Word) : Prop :=
  ∃ info ∈ m.segments, info.seg = seg ∧ ∃ offset size, (offset, size) ∈ L.blocks info.smgr ∧
    ptr = info.blockAddr I offset ∧ takenBytes bytes ≤ size

variable {L} {info : SegInfo H} {m m' : Manager H} {seg ptr bytes offset : Word} {size : Nat}

theorem takenBytes_pos (bytes : Word) : 0 < takenBytes bytes := Nat.le_max_left ..

/-- Where a block lies, as long as the segment does not wrap around. -/
theorem BlockLaws.Houses.blockAddr_toNat (h : L.Houses info)
    (hspace : info.baseVaddr.toNat + info.size.toNat < 2 ^ 64)
    (hblock : (offset, size) ∈ L.blocks info.smgr) :
    (info.blockAddr I offset).toNat =
      info.baseVaddr.toNat + (info.smgrOffset I).toNat + offset.toNat := by
  have hinside : offset.toNat + size ≤ L.room info.smgr := L.inside h.1 hblock
  have hroom := h.2
  rw [SegInfo.blockAddr, BitVec.toNat_add, BitVec.toNat_add]
  omega

/-- `deallocate` hands the offset of the block to the inner manager. -/
theorem blockAddr_sub (info : SegInfo H) (offset : Word) :
    info.blockAddr I offset - info.blockAddr I 0 = offset := by
  have hstart : info.blockAddr I 0 = info.baseVaddr + info.smgrOffset I :=
    BitVec.add_zero _
  rw [hstart, SegInfo.blockAddr, BitVec.add_comm, BitVec.add_sub_cancel]

/-- A segment whose inner manager is new. -/
theorem houses_create (htable : I.tableSpace ≤ kMinSegmentSize) {range : FileRange}
    {isPrimary : Bool} {seg baseVaddr : Word}
    (hsize : isPrimary = true → kMinSegmentSize ≤ range.size) :
    L.Houses ⟨⟨range, isPrimary⟩, seg, baseVaddr,
      I.create (smgrSize I range.size isPrimary)⟩ := by
  obtain ⟨hvalid, hroom⟩ := L.create (smgrSize I range.size isPrimary)
  refine ⟨hvalid, ?_⟩
  rw [hroom]
  cases isPrimary with
  | false => simp [SegInfo.smgrOffset, smgrSize]
  | true =>
    have hle : I.tableSpace ≤ range.size := BitVec.le_trans htable (hsize rfl)
    have hle' := BitVec.le_def.mp hle
    simp only [SegInfo.smgrOffset, smgrSize, if_true]
    rw [BitVec.toNat_sub_of_le hle]
    omega

end segments

/-! ## 2. Growth -/

/-- A mapping of `size` bytes that the environment may answer a call with. -/
inductive Env.Maps (env : Env H) (size : Word) (mapping : Mapping) : Prop
  | anon : env.createAnon size = some mapping → env.Maps size mapping
  | shm : env.createShm size = some mapping → env.Maps size mapping
  | chunk (fileOffset : Word) : env.openShmChunk size fileOffset = some mapping →
      env.Maps size mapping

def SegInfo.mapping (info : SegInfo H) : Mapping := ⟨info.baseVaddr, info.seg⟩

section growth

variable {P : Platform} {I : InnerManager H N} {env : Env H} {m m' m₁ : Manager H}
  {minBytes bytes p : Word}

/-- Segments are appended, mapped by the environment and with new inner managers. -/
def Extends (L : BlockLaws I) (env : Env H) (m m' : Manager H) : Prop :=
  ∃ fresh, m'.segments = m.segments ++ fresh ∧
    ∀ info ∈ fresh, L.Houses info ∧ env.Maps info.size info.mapping

variable {L : BlockLaws I}

theorem Extends.of_eq (h : m'.segments = m.segments) : Extends L env m m' :=
  ⟨[], by rw [h, List.append_nil], nofun⟩

theorem extends_grownBy (htable : I.tableSpace ≤ kMinSegmentSize) {mapping : Mapping}
    {range : FileRange} (hmap : env.mapChunk m.anon range = some mapping)
    (hgrown : m'.segments = (grownBy P I m mapping range).segments) : Extends L env m m' := by
  refine ⟨_, hgrown, ?_⟩
  intro info hinfo
  obtain rfl := List.mem_singleton.mp hinfo
  refine ⟨houses_create htable nofun, ?_⟩
  rw [Env.mapChunk] at hmap
  split at hmap
  · exact .anon hmap
  · exact .chunk _ hmap

theorem GrowthEnd.extends (htable : I.tableSpace ≤ kMinSegmentSize) {quiet : Prop}
    {end_ : Outcome Exn (Manager H) Unit} (h : GrowthEnd P I env m minBytes quiet end_)
    (hends : m' ∈ end_.state) : Extends L env m m' := by
  cases h with
  | same hquiet =>
    cases hends
    exact .of_eq rfl
  | failed e hmaps =>
    cases hends
    exact .of_eq rfl
  | grown mapping table hmap hroom hpublished =>
    cases hends
    exact extends_grownBy (P := P) htable hmap rfl
  | full mapping hmap hroom =>
    cases hends
    exact extends_grownBy (P := P) htable hmap rfl

end growth

/-! ## 3. Allocation -/

section allocate

variable (P : Platform) (I : InnerManager H N) (env : Env H)

/-- The first segment whose inner manager has room. -/
def servedBy (segments : List (SegInfo H)) (bytes : Word) : Option (SegInfo H) :=
  segments.find? fun info => (I.allocate info.smgr bytes).isSome

/-- The segment that issues the block which `allocate` returns: before growth, if one
    serves the request then, or after it. -/
def issuer (m : Manager H) (bytes : Word) : Option (SegInfo H) :=
  match servedBy I m.segments bytes with
  | some info => some info
  | none =>
      match ((grow P I env (bytes + kMinSegmentSize)).run m).state with
      | some grown => servedBy I grown.segments bytes
      | none => none

variable {P I env} {L : BlockLaws I} {m m' m₁ : Manager H} {segments segments' : List (SegInfo H)}
  {bytes p : Word} {info : SegInfo H}

/-- The inner manager of `info` has issued the block at `p`, the others are as before. -/
def IssuedFrom (I : InnerManager H N) (info : SegInfo H) (bytes p : Word)
    (segments segments' : List (SegInfo H)) : Prop :=
  ∃ pre post offset smgr, segments = pre ++ info :: post ∧
    I.allocate info.smgr bytes = some (offset, smgr) ∧
    segments' = pre ++ { info with smgr := smgr } :: post ∧ p = info.blockAddr I offset

theorem allocateLoop_issued (h : allocateLoop I segments bytes = some (p, segments')) :
    ∃ info, servedBy I segments bytes = some info ∧
      IssuedFrom I info bytes p segments segments' := by
  obtain ⟨pre, info, post, offset, smgr, hs, halloc, hs', hp, hpre⟩ := allocateLoop_split h
  refine ⟨info, ?_, pre, post, offset, smgr, hs, halloc, hs', hp⟩
  apply List.find?_eq_some_iff_append.mpr
  refine ⟨by rw [halloc]; rfl, pre, post, hs, fun before hbefore => ?_⟩
  rw [hpre before hbefore]
  rfl

theorem servedBy_eq_none (h : allocateLoop I segments bytes = none) :
    servedBy I segments bytes = none := by
  apply List.find?_eq_none.mpr
  intro info hinfo hserves
  have hsome := allocateLoop_isSome.mpr ⟨info, hinfo, hserves⟩
  rw [h] at hsome
  cases hsome

/-- The section that serves a request. -/
theorem tryAllocate_issued_from
    (h : (Call.guarded (listMtx H) (tryAllocateLocked I bytes)).run m = .value (some p) m') :
    ∃ info, servedBy I m.segments bytes = some info ∧
      IssuedFrom I info bytes p m.segments m'.segments :=
  allocateLoop_issued (allocateLoop_of_run h)

theorem tryAllocate_unserved
    (h : (Call.guarded (listMtx H) (tryAllocateLocked I bytes)).run m = .value none m')
    (hlist : m.listHeld = false) : m' = m ∧ servedBy I m.segments bytes = none := by
  cases hloop : allocateLoop I m.segments bytes with
  | none =>
    rw [run_tryAllocate_none hlist hloop] at h
    cases h
    exact ⟨rfl, servedBy_eq_none hloop⟩
  | some served =>
    obtain ⟨q, segments⟩ := served
    obtain ⟨m₁, hrun⟩ := run_tryAllocate_some hlist hloop
    rw [hrun] at h
    cases h

/-- What a request that is served does: growth at most, and one block more. -/
theorem allocate_issues (htable : I.tableSpace ≤ kMinSegmentSize) (hm : Ready m)
    (h : (allocate P I env bytes).run m = .value p m') :
    ∃ m₁ info, Ready m₁ ∧ Extends L env m m₁ ∧ issuer P I env m bytes = some info ∧
      IssuedFrom I info bytes p m₁.segments m'.segments := by
  obtain ⟨first, m₀, hfirst, hrest⟩ := Call.run_bind_eq_value h
  cases first with
  | some q =>
    cases hrest
    obtain ⟨info, hserved, hissued⟩ := tryAllocate_issued_from hfirst
    exact ⟨m, info, hm, .of_eq rfl, by rw [issuer, hserved], hissued⟩
  | none =>
    obtain ⟨rfl, hnone⟩ := tryAllocate_unserved hfirst hm.list
    obtain ⟨u, m₂, hgrow, hrest⟩ := Call.run_bind_eq_value hrest
    obtain ⟨second, m₃, hsecond, hrest⟩ := Call.run_bind_eq_value hrest
    cases second with
    | none => cases hrest
    | some q =>
      cases hrest
      obtain ⟨info, hserved, hissued⟩ := tryAllocate_issued_from hsecond
      have hends : m₂ ∈ ((grow P I env (bytes + kMinSegmentSize)).run m₀).state := by
        rw [hgrow]
        rfl
      have hm₂ : Ready m₂ := (stable_frontPrimary I).grow _ _ m₀ hm m₂ hends
      refine ⟨m₂, info, hm₂, (grow_end hm).extends htable hends, ?_, hissued⟩
      rw [issuer, hnone, hgrow]
      exact hserved

theorem tryAllocate_not_thrown (hlist : m.listHeld = false) {e : Exn}
    (h : (Call.guarded (listMtx H) (tryAllocateLocked I bytes)).run m = .thrown e m') : False := by
  cases hloop : allocateLoop I m.segments bytes with
  | none =>
    rw [run_tryAllocate_none hlist hloop] at h
    cases h
  | some served =>
    obtain ⟨q, segments⟩ := served
    obtain ⟨m₁, hrun⟩ := run_tryAllocate_some hlist hloop
    rw [hrun] at h
    cases h

/-- A request that is not served may have made the manager grow. -/
theorem allocate_throws (htable : I.tableSpace ≤ kMinSegmentSize) (hm : Ready m) {e : Exn}
    (h : (allocate P I env bytes).run m = .thrown e m') : Extends L env m m' := by
  rcases Call.run_bind_eq_thrown h with hfirst | ⟨first, m₀, hfirst, hrest⟩
  · exact (tryAllocate_not_thrown hm.list hfirst).elim
  · cases first with
    | some q => cases hrest
    | none =>
      obtain ⟨rfl, -⟩ := tryAllocate_unserved hfirst hm.list
      rcases Call.run_bind_eq_thrown hrest with hgrow | ⟨u, m₂, hgrow, hrest⟩
      · exact (grow_end hm).extends htable (by rw [hgrow]; rfl)
      · have hends : m₂ ∈ ((grow P I env (bytes + kMinSegmentSize)).run m₀).state := by
          rw [hgrow]
          rfl
        have hm₂ : Ready m₂ := (stable_frontPrimary I).grow _ _ m₀ hm m₂ hends
        rcases Call.run_bind_eq_thrown hrest with hsecond | ⟨second, m₃, hsecond, hrest⟩
        · exact (tryAllocate_not_thrown hm₂.list hsecond).elim
        · cases second with
          | some q => cases hrest
          | none =>
            cases hrest
            obtain ⟨rfl, -⟩ := tryAllocate_unserved hsecond hm₂.list
            exact (grow_end hm).extends htable hends

end allocate

/-! ## 4. Other inner managers for one segment -/

section replace

variable {P : Platform} {I : InnerManager H N} {L : BlockLaws I} {m m' : Manager H}
  {pre post : List (SegInfo H)} {info : SegInfo H} {smgr : H} {seg ptr bytes p : Word}

/-- The inner manager of `info` has got the block at `ptr` back, and it is the only one
    with that segment. -/
def FreedIn (I : InnerManager H N) (info : SegInfo H) (ptr : Word)
    (segments segments' : List (SegInfo H)) : Prop :=
  ∃ pre post, segments = pre ++ info :: post ∧
    (∀ other ∈ pre ++ post, other.seg ≠ info.seg) ∧
    segments' = pre ++
      { info with smgr := I.deallocate info.smgr (ptr - info.blockAddr I 0) } :: post

theorem houses_replace (h : ∀ x ∈ pre ++ info :: post, L.Houses x)
    (hnew : L.Houses { info with smgr := smgr }) :
    ∀ x ∈ pre ++ { info with smgr := smgr } :: post, L.Houses x := by
  intro x hx
  rcases List.mem_append.mp hx with hpre | hx
  · exact h x (List.mem_append_left _ hpre)
  · rcases List.mem_cons.mp hx with rfl | hpost
    · exact hnew
    · exact h x (List.mem_append_right _ (List.mem_cons_of_mem _ hpost))

/-- A block stays where it is when the new inner manager still has it. -/
theorem hasBlock_replace (hs : m.segments = pre ++ info :: post)
    (hs' : m'.segments = pre ++ { info with smgr := smgr } :: post)
    (hb : L.HasBlock m seg ptr bytes)
    (hkeep : ∀ offset size, (offset, size) ∈ L.blocks info.smgr →
      ptr = info.blockAddr I offset → (offset, size) ∈ L.blocks smgr) :
    L.HasBlock m' seg ptr bytes := by
  obtain ⟨x, hx, hseg, offset, size, hblock, hptr, hsize⟩ := hb
  rw [hs] at hx
  rw [BlockLaws.HasBlock, hs']
  rcases List.mem_append.mp hx with hpre | hx
  · exact ⟨x, List.mem_append_left _ hpre, hseg, offset, size, hblock, hptr, hsize⟩
  · rcases List.mem_cons.mp hx with rfl | hpost
    · exact ⟨_, List.mem_append_right _ List.mem_cons_self, hseg, offset, size,
        hkeep offset size hblock hptr, hptr, hsize⟩
    · exact ⟨x, List.mem_append_right _ (List.mem_cons_of_mem _ hpost), hseg, offset, size,
        hblock, hptr, hsize⟩

namespace IssuedFrom

variable (h : IssuedFrom I info bytes p m.segments m'.segments)
include h

theorem mem : info ∈ m.segments := by
  obtain ⟨pre, post, offset, smgr, hs, -⟩ := h
  rw [hs]
  exact List.mem_append_right _ List.mem_cons_self

theorem houses (hm : ∀ x ∈ m.segments, L.Houses x) : ∀ x ∈ m'.segments, L.Houses x := by
  have hinfo : L.Houses info := hm info h.mem
  obtain ⟨pre, post, offset, smgr, hs, halloc, hs', -⟩ := h
  obtain ⟨hvalid, hroom, -⟩ := L.allocate hinfo.1 halloc
  rw [hs] at hm
  rw [hs']
  apply houses_replace hm
  refine ⟨hvalid, ?_⟩
  rw [hroom]
  exact hinfo.2

theorem keeps (hm : ∀ x ∈ m.segments, L.Houses x) {q n : Word} (hb : L.HasBlock m seg q n) :
    L.HasBlock m' seg q n := by
  have hinfo : L.Houses info := hm info h.mem
  obtain ⟨pre, post, offset, smgr, hs, halloc, hs', -⟩ := h
  obtain ⟨-, -, hold, -⟩ := L.allocate hinfo.1 halloc
  apply hasBlock_replace hs hs' hb
  intro offset' size' hblock _
  exact hold _ hblock

theorem hasBlock (hm : ∀ x ∈ m.segments, L.Houses x) : L.HasBlock m' info.seg p bytes := by
  have hinfo : L.Houses info := hm info h.mem
  obtain ⟨pre, post, offset, smgr, hs, halloc, hs', hp⟩ := h
  obtain ⟨-, -, -, size, hsize, hnew, -⟩ := L.allocate hinfo.1 halloc
  refine ⟨{ info with smgr := smgr }, ?_, rfl, offset, size, hnew, hp, hsize⟩
  rw [hs']
  exact List.mem_append_right _ List.mem_cons_self

/-- The new block has no byte in common with those that its segment has issued before. -/
theorem apart (hm : ∀ x ∈ m.segments, L.Houses x) (hdistinct : (m.segments.map SegInfo.seg).Nodup)
    (hspace : info.baseVaddr.toNat + info.size.toNat < 2 ^ 64) {q n : Word}
    (hb : L.HasBlock m info.seg q n) :
    ApartFrom p.toNat (takenBytes bytes) q.toNat (takenBytes n) := by
  have hinfo : L.Houses info := hm info h.mem
  have hinfo' : ∀ x ∈ m'.segments, L.Houses x := h.houses hm
  obtain ⟨x, hx, hseg, offset', size', hblock', rfl, hsize'⟩ := hb
  obtain rfl : x = info := List.inj_on_of_nodup_map hdistinct hx h.mem hseg
  obtain ⟨pre, post, offset, smgr, hs, halloc, hs', rfl⟩ := h
  obtain ⟨-, -, -, size, hsize, hnew, hfree⟩ := L.allocate hinfo.1 halloc
  have hnewHouses : L.Houses { x with smgr := smgr } := by
    apply hinfo'
    rw [hs']
    exact List.mem_append_right _ List.mem_cons_self
  have haddr : (x.blockAddr I offset).toNat =
      x.baseVaddr.toNat + (x.smgrOffset I).toNat + offset.toNat :=
    hnewHouses.blockAddr_toNat hspace hnew
  have haddr' := hinfo.blockAddr_toNat hspace hblock'
  have hoffsets := hfree _ hblock'
  simp only [ApartFrom] at hoffsets ⊢
  omega

end IssuedFrom

/-- `deallocate` when the registry names a segment of the manager. -/
theorem deallocated_freed (hdistinct : (m.segments.map SegInfo.seg).Nodup)
    (hinfo : info ∈ m.segments) (hptr : ptr ≠ 0)
    (hfind : registryFind P m (P.ptrToVaddr ptr) = some info.seg) :
    FreedIn I info ptr m.segments (deallocated P I m ptr).segments := by
  obtain ⟨pre, post, hs⟩ := List.append_of_mem hinfo
  rw [hs, List.map_append, List.map_cons] at hdistinct
  have hothers : ∀ other ∈ pre ++ post, other.seg ≠ info.seg := by
    have hnodup := List.nodup_middle.mp hdistinct
    intro other hother hseg
    rw [← List.map_append] at hnodup
    exact (List.nodup_cons.mp hnodup).1 (hseg ▸ List.mem_map_of_mem hother)
  refine ⟨pre, post, hs, hothers, ?_⟩
  have hindex : m.segments.findIdx? (fun x => x.seg == info.seg) = some pre.length := by
    rw [hs, List.findIdx?_append]
    have hpre : pre.findIdx? (fun x => x.seg == info.seg) = none := by
      apply List.findIdx?_eq_none_iff.mpr
      intro x hx
      exact beq_eq_false_iff_ne.mpr (hothers x (List.mem_append_left _ hx))
    rw [hpre, List.findIdx?_cons]
    simp
  rw [deallocated, if_neg hptr, hfind]
  simp only [hindex]
  have hlt : pre.length < (pre ++ info :: post).length := by simp
  rw [hs, List.modify_eq_take_cons_drop hlt]
  simp

/-- And when it names none of them. -/
theorem deallocated_ignored
    (hfind : ptr ≠ 0 → ∀ seg, registryFind P m (P.ptrToVaddr ptr) = some seg →
      ∀ info ∈ m.segments, info.seg ≠ seg) :
    (deallocated P I m ptr).segments = m.segments := by
  rw [deallocated]
  split
  · rfl
  · rename_i hptr
    split
    · rfl
    · rename_i seg hseg
      have hindex : m.segments.findIdx? (fun x => x.seg == seg) = none := by
        apply List.findIdx?_eq_none_iff.mpr
        intro x hx
        exact beq_eq_false_iff_ne.mpr (hfind hptr seg hseg x hx)
      rw [hindex]

namespace FreedIn

variable {offset : Word} {size : Nat} (h : FreedIn I info ptr m.segments m'.segments)
  (hblock : (offset, size) ∈ L.blocks info.smgr) (hptr : ptr = info.blockAddr I offset)
include h hblock hptr

theorem houses (hm : ∀ x ∈ m.segments, L.Houses x) : ∀ x ∈ m'.segments, L.Houses x := by
  obtain ⟨pre, post, hs, -, hs'⟩ := h
  rw [hs] at hm
  have hinfo : L.Houses info := hm info (List.mem_append_right _ List.mem_cons_self)
  obtain ⟨hvalid, hroom, -⟩ := L.deallocate hinfo.1 hblock
  rw [hs']
  apply houses_replace hm
  rw [hptr, blockAddr_sub]
  refine ⟨hvalid, ?_⟩
  rw [hroom]
  exact hinfo.2

/-- The blocks at other addresses stay. -/
theorem keeps (hm : ∀ x ∈ m.segments, L.Houses x) {q n : Word} (hb : L.HasBlock m seg q n)
    (hne : q ≠ ptr) : L.HasBlock m' seg q n := by
  obtain ⟨pre, post, hs, -, hs'⟩ := h
  rw [hs] at hm
  have hinfo : L.Houses info := hm info (List.mem_append_right _ List.mem_cons_self)
  obtain ⟨-, -, hold⟩ := L.deallocate hinfo.1 hblock
  apply hasBlock_replace hs hs' hb
  intro offset' size' hblock' hq
  rw [hptr, blockAddr_sub]
  apply hold _ hblock'
  rintro (rfl : offset' = offset)
  exact hne (hq.trans hptr.symm)

end FreedIn

end replace

end Memnon
