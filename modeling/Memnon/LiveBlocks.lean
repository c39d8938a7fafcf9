import Memnon.InnerBlocks
import Memnon.ManagerLifetimes
import Memnon.SegmentSizes

/-!
# The live blocks of a process

One thread allocates from any number of managers and gives the blocks back, in any
order. `deallocate` asks the process-wide trie, through the cache of the thread, which
segment has the page of the pointer, and then looks the segment up in the manager's own
list. So a block returns to the inner manager that issued it, and a pointer into another
manager's segment reaches none.
-/

namespace Memnon.LiveBlocks

open Memnon.Lib

variable {H N K : Type}

/-! ## 1. The process -/

/-- A block that a manager has returned and not got back, with the segment that has
    issued it. -/
structure Block (K : Type) where
  owner : K
  seg : Word
  ptr : Word
  bytes : Word
deriving DecidableEq

def Block.Apart (b b' : Block K) : Prop :=
  ApartFrom b.ptr.toNat (takenBytes b.bytes) b'.ptr.toNat (takenBytes b'.bytes)

/-- The trie with the cache of the thread, the mappings that are registered in it, the
    managers, and the live blocks. The field `registry` of a manager is not used but to
    hand the answer of the trie to `deallocate`. -/
structure World (K H : Type) where
  memory : Trie.Memory Unit
  mapped : List Trie.Segment
  manager : K → Option (Manager H)
  live : List (Block K)

/-- Operations, with what the operating system answers. `left` are the blocks that the
    last user of a file has left in it. -/
inductive Label (K H : Type) where
  | construct (k : K) (c : Lifetimes.Construction) (env : Env H) (left : List (Block K))
  | allocate (k : K) (env : Env H) (bytes : Word)
  | deallocate (k : K) (ptr : Word)
  | grow (k : K) (env : Env H) (minBytes : Word)
  | growBackground (k : K) (env : Env H)
  /-- a pointer inside of some segment is resolved -/
  | search (addr : Word)

def World.start (cfg : Trie.Config) : World K H where
  memory := Trie.initialMemory Unit cfg
  mapped := []
  manager := fun _ => none
  live := []

section system

variable (cfg : Trie.Config) (pick : Trie.Memory Unit → Word) (I : InnerManager H N)

/-- The segment as `register_segment` sees it. -/
def traced (info : SegInfo H) : Trie.Segment :=
  ⟨info.seg, cfg.platform.ptrToVaddr info.baseVaddr, info.size⟩

def registerCall (info : SegInfo H) : Trie.RegistryOp :=
  .registerSegment info.seg (cfg.platform.ptrToVaddr info.baseVaddr) info.size

/-- The calls for the segments that an operation has appended. -/
def growthCalls (m m' : Manager H) : List Trie.RegistryOp :=
  (m'.segments.map (registerCall cfg)).drop m.segments.length

/-- The bootstrap mapping of an opener, when it is registered and undone. -/
def bootstrapCalls (env : Env H) : Lifetimes.Construction → List Trie.RegistryOp
  | .anon _ | .creator _ _ => []
  | .opener table =>
      match env.openShmChunk kMinSegmentSize 0 with
      | none => []
      | some guess =>
          if (table.entries 0).size > kMinSegmentSize then
            [.registerSegment guess.seg (cfg.platform.ptrToVaddr guess.baseVaddr) kMinSegmentSize,
              .unregisterSegment guess.seg]
          else []

/-- Calls of the registry. There is no result when a segment is registered whose object
    or pages a live mapping has: `operator new` and `mmap` do not return such. -/
def World.call (w : World K H) (calls : List Trie.RegistryOp) : Option (World K H) :=
  (calls.foldlM (Trie.liveAfter cfg) w.mapped).map fun mapped =>
    { w with memory := Trie.runOps cfg () pick w.memory calls, mapped := mapped }

/-- `segment_registry::find` of the pointer. -/
def World.found (w : World K H) (ptr : Word) : Word :=
  ((Trie.find cfg (cfg.platform.ptrToVaddr ptr)).eval (Trie.exec ()) pick w.memory).1

/-- The manager, with the answer of the trie for its only search. -/
def answered (m : Manager H) (found : Word) : Manager H :=
  { m with registry := fun _ => if found = 0 then none else some found }

/-- `deallocate` of null searches nothing. -/
def searchCalls (ptr : Word) : List Trie.RegistryOp :=
  if ptr = 0 then [] else [.find (cfg.platform.ptrToVaddr ptr)]

/-- The segment that issues the block, as its address. -/
def issuerSeg (env : Env H) (m : Manager H) (bytes : Word) : Word :=
  ((issuer cfg.platform I env m bytes).map SegInfo.seg).getD 0

variable [DecidableEq K]

def World.put (w : World K H) (k : K) (m : Manager H) (live : List (Block K)) : World K H :=
  { w with manager := Function.update w.manager k (some m), live := live }

/-- The live blocks once the manager has got the block at `ptr` back. -/
def World.without (w : World K H) (k : K) (ptr : Word) : List (Block K) :=
  w.live.filter fun b => ¬ (b.owner = k ∧ b.ptr = ptr)

def step (w : World K H) : Label K H → Option (World K H)
  | .construct k c env left =>
      match w.manager k with
      | some _ => none
      | none =>
          match (c.run cfg.platform I env).run (c.start fun _ => none) with
          | .value _ m =>
              (w.call cfg pick (bootstrapCalls cfg env c ++ m.segments.map (registerCall cfg))).map
                fun w' => w'.put k m (left ++ w.live)
          | .thrown _ _ | .stuck => none
  | .allocate k env bytes =>
      match w.manager k with
      | none => none
      | some m =>
          match (Memnon.allocate cfg.platform I env bytes).run m with
          | .value p m' =>
              (w.call cfg pick (growthCalls cfg m m')).map fun w' =>
                w'.put k m' (⟨k, issuerSeg cfg I env m bytes, p, bytes⟩ :: w.live)
          | .thrown _ m' =>
              (w.call cfg pick (growthCalls cfg m m')).map fun w' => w'.put k m' w.live
          | .stuck => none
  | .deallocate k ptr =>
      match w.manager k with
      | none => none
      | some m =>
          match (Memnon.deallocate cfg.platform I ptr).run (answered m (w.found cfg pick ptr)) with
          | .value _ m' =>
              (w.call cfg pick (searchCalls cfg ptr)).map fun w' => w'.put k m' (w.without k ptr)
          | .thrown _ _ | .stuck => none
  | .grow k env minBytes =>
      match w.manager k with
      | none => none
      | some m =>
          ((Memnon.grow cfg.platform I env minBytes).run m).state.bind fun m' =>
            (w.call cfg pick (growthCalls cfg m m')).map fun w' => w'.put k m' w.live
  | .growBackground k env =>
      match w.manager k with
      | none => none
      | some m =>
          (Sessions.returned ((Memnon.growBackground cfg.platform I env).run m)).bind fun m' =>
            (w.call cfg pick (growthCalls cfg m m')).map fun w' => w'.put k m' w.live
  | .search addr => w.call cfg pick [.find addr]

end system

/-! ## 2. What is asked of a run -/

/-- Addresses as `mmap` returns them: not null, and without a tag. -/
def UserRange (P : Platform) (baseVaddr size : Word) : Prop :=
  baseVaddr ≠ 0 ∧
    ∀ offset, offset < size → P.ptrToVaddr (baseVaddr + offset) = baseVaddr + offset

def MapsUserRanges (P : Platform) (env : Env H) : Prop :=
  ∀ size mapping, env.Maps size mapping → UserRange P mapping.baseVaddr size

section fair

variable (cfg : Trie.Config) {I : InnerManager H N} (L : BlockLaws I)

/-- The inner managers that an opener finds are as their last user has left them, each
    inside its segment. -/
def InPlace (env : Env H) : Lifetimes.Construction → Prop
  | .anon _ | .creator _ _ => True
  | .opener table =>
      (L.Valid (env.inPlace ⟨0, umax (table.entries 0).size kMinSegmentSize⟩) ∧
        I.tableSpace.toNat +
          L.room (env.inPlace ⟨0, umax (table.entries 0).size kMinSegmentSize⟩) ≤
            (umax (table.entries 0).size kMinSegmentSize).toNat) ∧
      ∀ e ∈ table.published.drop 1, L.Valid (env.inPlace e) ∧ L.room (env.inPlace e) ≤ e.size.toNat

/-- The blocks left in a file: blocks of its inner managers, no two with a common byte. -/
def LeftIn (k : K) (c : Lifetimes.Construction) (env : Env H) (left : List (Block K)) : Prop :=
  left.Pairwise Block.Apart ∧
    ∀ m, (c.run cfg.platform I env).run (c.start fun _ => none) = .value () m →
      ∀ b ∈ left, b.owner = k ∧ L.HasBlock m b.seg b.ptr b.bytes

/-- Null, a live block of the manager, or a pointer onto no page of its segments. -/
def MayFree (w : World K H) (k : K) (ptr : Word) : Prop :=
  ptr = 0 ∨ (∃ b ∈ w.live, b.owner = k ∧ b.ptr = ptr) ∨
    ∀ m, w.manager k = some m → ∀ info ∈ m.segments,
      ¬ (traced cfg info).Has cfg (Trie.pageOf cfg (cfg.platform.ptrToVaddr ptr))

def Fair (w : World K H) : Label K H → Prop
  | .construct k c env left =>
      MapsUserRanges cfg.platform env ∧ InPlace L env c ∧ LeftIn cfg L k c env left
  | .allocate _ env _ | .grow _ env _ | .growBackground _ env => MapsUserRanges cfg.platform env
  | .deallocate k ptr => MayFree cfg w k ptr
  | .search _ => True

end fair

/-! ## 3. Managers whose segments are mapped -/

/-- What holds of each manager while the mappings `mapped` are live. -/
structure Hosted (cfg : Trie.Config) {I : InnerManager H N} (L : BlockLaws I)
    (mapped : List Trie.Segment) (m : Manager H) : Prop where
  ready : Ready m
  houses : ∀ info ∈ m.segments, L.Houses info
  userRange : ∀ info ∈ m.segments, UserRange cfg.platform info.baseVaddr info.size
  mapped : ∀ info ∈ m.segments, traced cfg info ∈ mapped
  distinct : (m.segments.map SegInfo.seg).Nodup

section hosted

variable {cfg : Trie.Config} {I : InnerManager H N} {L : BlockLaws I}
  {memory : Trie.Memory Unit} {mapped mapped' : List Trie.Segment} {m m' : Manager H}
  {info info' : SegInfo H} {addr seg ptr bytes : Word}

theorem Hosted.mono (h : Hosted cfg L mapped m) (hsub : ∀ r ∈ mapped, r ∈ mapped') :
    Hosted cfg L mapped' m :=
  { h with mapped := fun info hinfo => hsub _ (h.mapped info hinfo) }

theorem exists_place {info : SegInfo H} (hplaces : placesOf m' = placesOf m)
    (hinfo : info ∈ m'.segments) : ∃ old ∈ m.segments, old.place = info.place := by
  have hplace : info.place ∈ placesOf m' := List.mem_map_of_mem hinfo
  rw [hplaces] at hplace
  exact List.mem_map.mp hplace

theorem place_fields {old info : SegInfo H} (h : old.place = info.place) :
    old.seg = info.seg ∧ old.baseVaddr = info.baseVaddr ∧ old.size = info.size :=
  ⟨congrArg (fun place => place.seg) h, congrArg (fun place => place.baseVaddr) h,
    congrArg (fun place => place.size) h⟩

/-- Other inner managers in the same segments. -/
theorem Hosted.of_places (h : Hosted cfg L mapped m)
    (hplaces : placesOf m' = placesOf m) (hready : Ready m')
    (hhouses : ∀ info ∈ m'.segments, L.Houses info) : Hosted cfg L mapped m' := by
  refine ⟨hready, hhouses, fun info hinfo => ?_, fun info hinfo => ?_, ?_⟩
  · obtain ⟨old, hold, hplace⟩ := exists_place hplaces hinfo
    obtain ⟨-, hbase, hsize⟩ := place_fields hplace
    have hrange := h.userRange old hold
    rwa [hbase, hsize] at hrange
  · obtain ⟨old, hold, hplace⟩ := exists_place hplaces hinfo
    obtain ⟨hseg, hbase, hsize⟩ := place_fields hplace
    have hmapped := h.mapped old hold
    rwa [traced, hseg, hbase, hsize] at hmapped
  · have hsegs : ∀ m : Manager H, m.segments.map SegInfo.seg =
        (placesOf m).map SegInfo.seg := by
      intro m
      simp [placesOf, SegInfo.place]
    rw [hsegs, hplaces, ← hsegs]
    exact h.distinct

variable (hmem : Trie.Represents cfg () mapped memory)
include hmem

theorem Hosted.size_pos (h : Hosted cfg L mapped m) (hinfo : info ∈ m.segments) :
    0 < info.size.toNat := by
  obtain ⟨-, hsize, -⟩ := hmem.segment _ (h.mapped info hinfo)
  apply Nat.pos_of_ne_zero
  intro hzero
  exact hsize (BitVec.eq_of_toNat_eq hzero)

/-- The registry has the address of the mapping itself. -/
theorem Hosted.base_eq (h : Hosted cfg L mapped m) (hinfo : info ∈ m.segments) :
    cfg.platform.ptrToVaddr info.baseVaddr = info.baseVaddr := by
  have hzero := (h.userRange info hinfo).2 0 (BitVec.lt_def.mpr (h.size_pos hmem hinfo))
  have hplus : info.baseVaddr + 0 = info.baseVaddr := BitVec.add_zero _
  rwa [hplus] at hzero

theorem Hosted.space (h : Hosted cfg L mapped m) (hinfo : info ∈ m.segments) :
    Trie.InKeySpace cfg info.baseVaddr info.size := by
  obtain ⟨-, -, hspace, -⟩ := hmem.segment _ (h.mapped info hinfo)
  rwa [traced, h.base_eq hmem hinfo] at hspace

theorem Hosted.stop_lt (h : Hosted cfg L mapped m) (hinfo : info ∈ m.segments) :
    info.baseVaddr.toNat + info.size.toNat < 2 ^ 64 := by
  have hspace := (h.space hmem hinfo).1
  have hpage : 0 < 2 ^ cfg.platform.pageShift := Nat.two_pow_pos _
  omega

/-- An address inside a segment is its own virtual address, on a page of the segment. -/
theorem Hosted.has (h : Hosted cfg L mapped m) (hinfo : info ∈ m.segments)
    (hlow : info.baseVaddr.toNat ≤ addr.toNat)
    (hhigh : addr.toNat < info.baseVaddr.toNat + info.size.toNat) :
    (traced cfg info).Has cfg (Trie.pageOf cfg (cfg.platform.ptrToVaddr addr)) := by
  have hstop := h.stop_lt hmem hinfo
  have hoffset : addr - info.baseVaddr < info.size := by
    rw [BitVec.lt_def, BitVec.toNat_sub_of_le (BitVec.le_def.mpr hlow)]
    omega
  have hplain := (h.userRange info hinfo).2 _ hoffset
  rw [BitVec.add_comm, BitVec.sub_add_cancel] at hplain
  rw [hplain, traced, h.base_eq hmem hinfo]
  apply (h.space hmem hinfo).boundsIn addr (BitVec.le_def.mpr hlow)
  rw [BitVec.lt_def, BitVec.toNat_add, Nat.mod_eq_of_lt hstop]
  exact hhigh

/-- Segments of any two managers that have an address in common are the same. -/
theorem Hosted.seg_eq (h : Hosted cfg L mapped m) (h' : Hosted cfg L mapped m')
    (hinfo : info ∈ m.segments) (hinfo' : info' ∈ m'.segments)
    (hlow : info.baseVaddr.toNat ≤ addr.toNat)
    (hhigh : addr.toNat < info.baseVaddr.toNat + info.size.toNat)
    (hlow' : info'.baseVaddr.toNat ≤ addr.toNat)
    (hhigh' : addr.toNat < info'.baseVaddr.toNat + info'.size.toNat) : info.seg = info'.seg := by
  have hsame : traced cfg info = traced cfg info' :=
    hmem.disjoint _ (h.mapped info hinfo) _ (h'.mapped info' hinfo') _
      (h.has hmem hinfo hlow hhigh) (h'.has hmem hinfo' hlow' hhigh')
  exact congrArg Trie.Segment.seg hsame

/-- Where the block of a segment lies. -/
theorem Hosted.inside (h : Hosted cfg L mapped m) (hb : L.HasBlock m seg ptr bytes) :
    ∃ info ∈ m.segments, info.seg = seg ∧
      info.baseVaddr.toNat + (info.smgrOffset I).toNat ≤ ptr.toNat ∧
      ptr.toNat + takenBytes bytes ≤ info.baseVaddr.toNat + info.size.toNat := by
  obtain ⟨info, hinfo, hseg, offset, size, hblock, rfl, hsize⟩ := hb
  have hhouses := h.houses info hinfo
  have haddr := hhouses.blockAddr_toNat (h.stop_lt hmem hinfo) hblock
  have hinside : offset.toNat + size ≤ L.room info.smgr := L.inside hhouses.1 hblock
  have hroom := hhouses.2
  refine ⟨info, hinfo, hseg, ?_, ?_⟩
  · omega
  · omega

/-- Blocks of different segments have no byte in common. -/
theorem Hosted.apart (h : Hosted cfg L mapped m) (h' : Hosted cfg L mapped m')
    {seg' ptr' bytes' : Word} (hb : L.HasBlock m seg ptr bytes)
    (hb' : L.HasBlock m' seg' ptr' bytes') (hne : seg ≠ seg') :
    ApartFrom ptr.toNat (takenBytes bytes) ptr'.toNat (takenBytes bytes') := by
  obtain ⟨info, hinfo, rfl, hlow, hhigh⟩ := h.inside hmem hb
  obtain ⟨info', hinfo', rfl, hlow', hhigh'⟩ := h'.inside hmem hb'
  by_contra hcommon
  obtain ⟨a, ⟨ha, ha'⟩, hb, hb'⟩ :=
    exists_common (takenBytes_pos bytes) (takenBytes_pos bytes') hcommon
  have hstop := h.stop_lt hmem hinfo
  have haddr : (BitVec.ofNat 64 a).toNat = a := by
    rw [BitVec.toNat_ofNat]
    exact Nat.mod_eq_of_lt (by omega)
  have hstart : info.baseVaddr.toNat ≤ (BitVec.ofNat 64 a).toNat := by omega
  exact hne (h.seg_eq hmem h' hinfo hinfo' hstart (by omega) (by omega) (by omega))

end hosted

/-! ## 4. The calls of the registry -/

section calls

variable {cfg : Trie.Config} {pick : Trie.Memory Unit → Word} {mapped mapped' : List Trie.Segment}
  {calls : List Trie.RegistryOp} {w w' : World K H}

/-- Segments that have been registered, one after the other. -/
theorem registerCalls_mapped {infos : List (SegInfo H)}
    (h : (infos.map (registerCall cfg)).foldlM (Trie.liveAfter cfg) mapped = some mapped') :
    (∀ r ∈ mapped, r ∈ mapped') ∧
      (∀ info ∈ infos, traced cfg info ∈ mapped' ∧ ∀ r ∈ mapped, r.seg ≠ info.seg) ∧
      (infos.map SegInfo.seg).Nodup := by
  induction infos generalizing mapped with
  | nil =>
    obtain rfl := Option.some.inj h
    exact ⟨fun _ hr => hr, nofun, List.nodup_nil⟩
  | cons info rest ih =>
    rw [List.map_cons, List.foldlM_cons] at h
    obtain ⟨mapped₁, hfirst, hrest⟩ := Option.bind_eq_some_iff.mp h
    simp only [registerCall, Trie.liveAfter, Option.ite_none_right_eq_some,
      Option.some.injEq] at hfirst
    obtain ⟨hnew, rfl⟩ := hfirst
    obtain ⟨hsub, hall, hnodup⟩ := ih hrest
    refine ⟨fun r hr => hsub r (List.mem_cons_of_mem _ hr), ?_, ?_⟩
    · intro x hx
      rcases List.mem_cons.mp hx with rfl | hx
      · exact ⟨hsub _ List.mem_cons_self, fun r hr => (hnew.2.2.2 r hr).1⟩
      · exact ⟨(hall x hx).1, fun r hr => (hall x hx).2 r (List.mem_cons_of_mem _ hr)⟩
    · refine List.nodup_cons.mpr ⟨?_, hnodup⟩
      intro hmem
      obtain ⟨x, hx, hseg⟩ := List.mem_map.mp hmem
      exact (hall x hx).2 _ List.mem_cons_self hseg.symm

/-- What is registered and undone leaves the live mappings as they were. -/
theorem bootstrapCalls_mapped {env : Env H} {c : Lifetimes.Construction}
    (h : (bootstrapCalls cfg env c).foldlM (Trie.liveAfter cfg) mapped = some mapped') :
    mapped' = mapped := by
  have hnone : ∀ {l l' : List Trie.Segment},
      ([] : List Trie.RegistryOp).foldlM (Trie.liveAfter cfg) l = some l' → l' = l :=
    fun h => (Option.some.inj h).symm
  cases c with
  | anon initialSize => exact hnone h
  | creator initialSize table => exact hnone h
  | opener table =>
    simp only [bootstrapCalls] at h
    cases hguess : env.openShmChunk kMinSegmentSize 0 with
    | none =>
      rw [hguess] at h
      exact hnone h
    | some guess =>
      simp only [hguess] at h
      split at h
      · rw [List.foldlM_cons] at h
        obtain ⟨mapped₁, hfirst, hrest⟩ := Option.bind_eq_some_iff.mp h
        simp only [Trie.liveAfter, Option.ite_none_right_eq_some, Option.some.injEq] at hfirst
        obtain ⟨hnew, rfl⟩ := hfirst
        rw [List.foldlM_cons] at hrest
        obtain ⟨mapped₂, hsecond, hend⟩ := Option.bind_eq_some_iff.mp hrest
        obtain rfl := hnone hend
        simp only [Trie.liveAfter, Option.ite_none_right_eq_some, Option.some.injEq] at hsecond
        obtain ⟨-, rfl⟩ := hsecond
        rw [List.filter_cons_of_neg (by simp), List.filter_eq_self]
        intro r hr
        exact decide_eq_true (hnew.2.2.2 r hr).1
      · exact hnone h

theorem World.call_inv (h : w.call cfg pick calls = some w') :
    calls.foldlM (Trie.liveAfter cfg) w.mapped = some w'.mapped ∧
      w'.memory = Trie.runOps cfg () pick w.memory calls ∧ w'.manager = w.manager ∧
      w'.live = w.live := by
  obtain ⟨mapped, hmapped, rfl⟩ := Option.map_eq_some_iff.mp h
  exact ⟨hmapped, rfl, rfl, rfl⟩

theorem World.call_represents (h : w.call cfg pick calls = some w')
    (hmem : Trie.Represents cfg () w.mapped w.memory) (ho : w'.memory.outOfMemory = false) :
    Trie.Represents cfg () w'.mapped w'.memory := by
  obtain ⟨hmapped, hmemory, -⟩ := World.call_inv h
  rw [hmemory] at ho ⊢
  exact Trie.represents_runOps pick hmem hmapped ho

/-- An allocation that has failed is not forgotten. -/
theorem World.call_allocated (h : w.call cfg pick calls = some w')
    (ho : w'.memory.outOfMemory = false) : w.memory.outOfMemory = false := by
  obtain ⟨-, hmemory, -⟩ := World.call_inv h
  rw [hmemory] at ho
  exact Trie.runOps_allocated calls ho

end calls

/-! ## 5. The invariant -/

/-- Between operations: the trie has the live mappings, each manager's segments are among
    them and are no other manager's, and the live blocks are blocks of the segments that
    have issued them. -/
structure Inv (cfg : Trie.Config) {I : InnerManager H N} (L : BlockLaws I) (w : World K H) :
    Prop where
  registry : Trie.Represents cfg () w.mapped w.memory
  hosted : ∀ k m, w.manager k = some m → Hosted cfg L w.mapped m
  owners : ∀ k k' m m', w.manager k = some m → w.manager k' = some m' → ∀ info ∈ m.segments,
    ∀ info' ∈ m'.segments, info.seg = info'.seg → k = k'
  live : ∀ b ∈ w.live, ∃ m, w.manager b.owner = some m ∧ L.HasBlock m b.seg b.ptr b.bytes
  apart : w.live.Pairwise Block.Apart

theorem inv_start (cfg : Trie.Config) {I : InnerManager H N} (L : BlockLaws I) :
    Inv cfg L (World.start cfg : World K H) where
  registry := Trie.represents_initial
  hosted k m hk := by cases hk
  owners k k' m m' hk := by cases hk
  live := nofun
  apart := .nil

section inv

variable {cfg : Trie.Config} {pick : Trie.Memory Unit → Word} {I : InnerManager H N}
  {L : BlockLaws I} {calls : List Trie.RegistryOp} {w w' : World K H} {k : K} {m m' : Manager H}

/-- Calls of the registry that leave every live mapping alone. -/
theorem Inv.call (h : Inv cfg L w) (hcall : w.call cfg pick calls = some w')
    (hsub : ∀ r ∈ w.mapped, r ∈ w'.mapped) (ho : w'.memory.outOfMemory = false) :
    Inv cfg L w' := by
  obtain ⟨-, -, hmanager, hlive⟩ := World.call_inv hcall
  refine ⟨World.call_represents hcall h.registry ho, ?_, ?_, ?_, ?_⟩
  · rw [hmanager]
    intro k m hk
    exact (h.hosted k m hk).mono hsub
  · rw [hmanager]
    exact h.owners
  · rw [hmanager, hlive]
    exact h.live
  · rw [hlive]
    exact h.apart

variable [DecidableEq K]

theorem World.put_self (w : World K H) (k : K) (m : Manager H) (live : List (Block K)) :
    (w.put k m live).manager k = some m := Function.update_self ..

theorem World.put_of_ne {k' : K} (hne : k' ≠ k) (m : Manager H) (live : List (Block K)) :
    (w.put k m live).manager k' = w.manager k' := Function.update_of_ne hne _ _

/-- Another state of one manager, and the live blocks that go with it. -/
theorem Inv.put (h : Inv cfg L w) {live : List (Block K)} (hm : Hosted cfg L w.mapped m)
    (hown : ∀ k' m', k' ≠ k → w.manager k' = some m' → ∀ info ∈ m.segments,
      ∀ info' ∈ m'.segments, info.seg ≠ info'.seg)
    (hlive : ∀ b ∈ live, b.owner = k ∧ L.HasBlock m b.seg b.ptr b.bytes ∨
      b.owner ≠ k ∧ b ∈ w.live)
    (hapart : live.Pairwise Block.Apart) : Inv cfg L (w.put k m live) where
  registry := h.registry
  hosted k' m' hk' := by
    by_cases hk : k' = k
    · subst hk
      rw [World.put_self] at hk'
      exact Option.some.inj hk' ▸ hm
    · rw [World.put_of_ne hk] at hk'
      exact h.hosted k' m' hk'
  owners k₁ k₂ m₁ m₂ h₁ h₂ info₁ hinfo₁ info₂ hinfo₂ hseg := by
    by_cases hk₁ : k₁ = k <;> by_cases hk₂ : k₂ = k
    · exact hk₁.trans hk₂.symm
    · subst hk₁
      rw [World.put_self] at h₁
      rw [World.put_of_ne hk₂] at h₂
      obtain rfl := Option.some.inj h₁
      exact absurd hseg (hown k₂ m₂ hk₂ h₂ info₁ hinfo₁ info₂ hinfo₂)
    · subst hk₂
      rw [World.put_self] at h₂
      rw [World.put_of_ne hk₁] at h₁
      obtain rfl := Option.some.inj h₂
      exact absurd hseg.symm (hown k₁ m₁ hk₁ h₁ info₂ hinfo₂ info₁ hinfo₁)
    · rw [World.put_of_ne hk₁] at h₁
      rw [World.put_of_ne hk₂] at h₂
      exact h.owners k₁ k₂ m₁ m₂ h₁ h₂ info₁ hinfo₁ info₂ hinfo₂ hseg
  live b hb := by
    rcases hlive b hb with ⟨rfl, hblock⟩ | ⟨hne, hold⟩
    · exact ⟨m, World.put_self .., hblock⟩
    · rw [World.put_of_ne hne]
      exact h.live b hold
  apart := hapart

/-- A change of inner managers in one manager. -/
theorem Inv.put_places (h : Inv cfg L w) (hk : w.manager k = some m) {live : List (Block K)}
    (hplaces : placesOf m' = placesOf m) (hready : Ready m')
    (hhouses : ∀ info ∈ m'.segments, L.Houses info)
    (hlive : ∀ b ∈ live, b.owner = k ∧ L.HasBlock m' b.seg b.ptr b.bytes ∨
      b.owner ≠ k ∧ b ∈ w.live)
    (hapart : live.Pairwise Block.Apart) : Inv cfg L (w.put k m' live) := by
  refine h.put ((h.hosted k m hk).of_places hplaces hready hhouses) ?_ hlive hapart
  intro k' m'' hne hk' info hinfo info' hinfo' hseg
  obtain ⟨old, hold, hplace⟩ := exists_place hplaces hinfo
  have hsame : old.seg = info'.seg := (place_fields hplace).1.trans hseg
  exact hne (h.owners k k' m m'' hk hk' old hold info' hinfo' hsame).symm

end inv

/-! ## 6. The constructors -/

section constructors

variable {P : Platform} {I : InnerManager H N} {L : BlockLaws I} {env : Env H}
  {m m' : Manager H} {registry : Word → Option Word}

/-- What a constructor leaves: segments that `env` has mapped, the first one primary. -/
structure Constructed (L : BlockLaws I) (env : Env H) (m : Manager H) : Prop where
  ready : Ready m
  segment : ∀ info ∈ m.segments, L.Houses info ∧ env.Maps info.size info.mapping

/-- Each entry that is read is mapped, with the inner manager that is in place. -/
theorem discoverLoop_hosts {entries : List FileRange}
    (h : (discoverLoop P I env entries).run m = .value () m') :
    (∃ found, m'.segments = m.segments ++ found ∧ ∀ info ∈ found, info.isPrimary = false ∧
      info.toFileRange ∈ entries ∧ info.smgr = env.inPlace info.toFileRange ∧
      env.openShmChunk info.size info.fileOffset = some info.mapping) ∧
      m'.listHeld = m.listHeld ∧ m'.growHeld = m.growHeld := by
  induction entries generalizing m with
  | nil =>
    cases h
    exact ⟨⟨[], (List.append_nil _).symm, nofun⟩, rfl, rfl⟩
  | cons e rest ih =>
    cases hmap : env.openShmChunk e.size e.fileOffset with
    | none =>
      rw [discoverLoop_fails hmap] at h
      cases h
    | some mapping =>
      rw [discoverLoop_maps hmap] at h
      obtain ⟨⟨found, hs, hfound⟩, hlist, hgrow⟩ := ih h
      refine ⟨⟨_ :: found, hs.trans (List.append_assoc _ _ _), ?_⟩, hlist, hgrow⟩
      intro info hinfo
      rcases List.mem_cons.mp hinfo with rfl | hinfo
      · exact ⟨rfl, List.mem_cons_self, rfl, hmap⟩
      · obtain ⟨hsecondary, hentry, hrest⟩ := hfound info hinfo
        exact ⟨hsecondary, List.mem_cons_of_mem _ hentry, hrest⟩

theorem opener_constructed {table : SegmentTable} (hplace : InPlace L env (.opener table))
    (h : (openAllSegmentsMapped P I env).run (.empty false table registry) =
      .value () m) : Constructed L env m := by
  obtain ⟨⟨hvalid, hroom⟩, hentries⟩ := hplace
  obtain ⟨seg0, m₁, hprimary, hloop⟩ := Call.run_bind_eq_value h
  obtain ⟨hmap, hsize, registry', rfl⟩ := Sessions.openPrimary_maps hprimary
  rw [pushPrimary, Call.run_modify_bind, Call.run_read_bind] at hloop
  obtain ⟨⟨found, hs, hfound⟩, hlist, hgrow⟩ := discoverLoop_hosts hloop
  have hsize' : seg0.2 = umax (table.entries 0).size kMinSegmentSize := hsize
  have hsegs : m.segments = ⟨⟨⟨0, seg0.2⟩, true⟩, seg0.1.seg, seg0.1.baseVaddr,
    env.inPlace ⟨0, seg0.2⟩⟩ :: found := hs
  refine ⟨⟨hlist, hgrow, _, found, hsegs, rfl⟩, ?_⟩
  rw [hsegs]
  refine List.forall_mem_cons.mpr ⟨?_, ?_⟩
  · refine ⟨⟨?_, ?_⟩, .chunk 0 hmap⟩
    · rw [hsize']
      exact hvalid
    · simp only [SegInfo.smgrOffset, if_true]
      rw [hsize']
      exact hroom
  · intro info hinfo
    obtain ⟨hsecondary, hentry, hsmgr, hmap⟩ := hfound info hinfo
    obtain ⟨hvalid, hroom⟩ := hentries _ hentry
    refine ⟨⟨hsmgr ▸ hvalid, ?_⟩, .chunk _ hmap⟩
    rw [SegInfo.smgrOffset, hsecondary, hsmgr, if_neg Bool.false_ne_true]
    simpa using hroom

theorem le_umax (a b : Word) : b ≤ umax a b := by
  rw [BitVec.le_def, umax_toNat]
  exact Nat.le_max_right ..

theorem Constructed.of_run (htable : I.tableSpace ≤ kMinSegmentSize)
    {c : Lifetimes.Construction} (hplace : InPlace L env c)
    (h : (c.run P I env).run (c.start registry) = .value () m) : Constructed L env m := by
  cases c with
  | opener table => exact opener_constructed hplace h
  | anon initialSize =>
    simp only [Lifetimes.Construction.run, constructAnon] at h
    cases hmap : env.createAnon (umax initialSize kMinSegmentSize) with
    | none =>
      simp only [hmap] at h
      cases h
    | some mapping =>
      simp only [hmap] at h
      cases h
      refine ⟨⟨rfl, rfl, _, [], rfl, rfl⟩, ?_⟩
      intro info hinfo
      obtain rfl := List.mem_singleton.mp hinfo
      exact ⟨houses_create htable fun _ => le_umax _ _, .anon hmap⟩
  | creator initialSize table =>
    simp only [Lifetimes.Construction.run, constructCreator, addSegmentShm, if_true] at h
    cases hmap : env.createShm (umax initialSize kMinSegmentSize) with
    | none =>
      simp only [hmap] at h
      cases h
    | some mapping =>
      simp only [hmap] at h
      cases h
      refine ⟨⟨rfl, rfl, _, [], rfl, rfl⟩, ?_⟩
      intro info hinfo
      obtain rfl := List.mem_singleton.mp hinfo
      exact ⟨houses_create htable fun _ => le_umax _ _, .shm hmap⟩

end constructors

/-! ## 7. The operations -/

section operations

variable {cfg : Trie.Config} {pick : Trie.Memory Unit → Word} {I : InnerManager H N}
  {L : BlockLaws I} {env : Env H} {w w' : World K H} {k : K} {m m' m₁ : Manager H}
  {info : SegInfo H} {bytes p ptr : Word}

theorem hasBlock_extends (h : Extends L env m m') {seg q n : Word} (hb : L.HasBlock m seg q n) :
    L.HasBlock m' seg q n := by
  obtain ⟨fresh, hs, -⟩ := h
  obtain ⟨info, hinfo, hrest⟩ := hb
  refine ⟨info, ?_, hrest⟩
  rw [hs]
  exact List.mem_append_left _ hinfo

variable [DecidableEq K]

/-- A growth, and the registration of what it has mapped. -/
theorem Inv.grown (h : Inv cfg L w) (hk : w.manager k = some m)
    (henv : MapsUserRanges cfg.platform env) (hext : Extends L env m m') (hready : Ready m')
    (hcall : w.call cfg pick (growthCalls cfg m m') = some w')
    (ho : w'.memory.outOfMemory = false) : Inv cfg L (w'.put k m' w.live) := by
  have hblocks : ∀ {seg q n : Word}, L.HasBlock m seg q n → L.HasBlock m' seg q n :=
    hasBlock_extends hext
  obtain ⟨fresh, hs, hfresh⟩ := hext
  obtain ⟨hcalls, -, hmanager, hlive⟩ := World.call_inv hcall
  have hgrowth : growthCalls cfg m m' = fresh.map (registerCall cfg) := by
    rw [growthCalls, hs, List.map_append]
    exact List.drop_left' (List.length_map _)
  rw [hgrowth] at hcalls
  obtain ⟨hsub, hnew, hnodup⟩ := registerCalls_mapped hcalls
  have hhosted := h.hosted k m hk
  have hinv := h.call hcall hsub ho
  rw [← hlive]
  apply hinv.put
  · refine ⟨hready, ?_, ?_, ?_, ?_⟩
    · rw [hs]
      exact List.forall_mem_append.mpr ⟨hhosted.houses, fun info hinfo => (hfresh info hinfo).1⟩
    · rw [hs]
      refine List.forall_mem_append.mpr ⟨hhosted.userRange, fun info hinfo => ?_⟩
      exact henv _ _ (hfresh info hinfo).2
    · rw [hs]
      refine List.forall_mem_append.mpr ⟨fun info hinfo => hsub _ (hhosted.mapped info hinfo), ?_⟩
      exact fun info hinfo => (hnew info hinfo).1
    · rw [hs, List.map_append, List.nodup_append]
      refine ⟨hhosted.distinct, hnodup, ?_⟩
      intro seg hseg seg' hseg'
      obtain ⟨old, hold, rfl⟩ := List.mem_map.mp hseg
      obtain ⟨info, hinfo, rfl⟩ := List.mem_map.mp hseg'
      exact (hnew info hinfo).2 _ (hhosted.mapped old hold)
  · intro k' m'' hne hk' info hinfo info' hinfo' hseg
    rw [hmanager] at hk'
    rw [hs] at hinfo
    rcases List.mem_append.mp hinfo with hold | hinfo
    · exact hne (h.owners k k' m m'' hk hk' info hold info' hinfo' hseg).symm
    · exact (hnew info hinfo).2 _ ((h.hosted k' m'' hk').mapped info' hinfo') hseg.symm
  · intro b hb
    rw [hlive] at hb
    by_cases howner : b.owner = k
    · left
      obtain ⟨m₀, hm₀, hblock⟩ := h.live b hb
      rw [howner, hk] at hm₀
      obtain rfl := Option.some.inj hm₀
      exact ⟨howner, hblocks hblock⟩
    · right
      rw [hlive]
      exact ⟨howner, hb⟩
  · exact hinv.apart

theorem placesOf_issued (h : IssuedFrom I info bytes p m.segments m'.segments) :
    placesOf m' = placesOf m := by
  obtain ⟨pre, post, offset, smgr, hs, -, hs', -⟩ := h
  rw [placesOf, placesOf, hs, hs', places_set]

theorem growthCalls_places {m₀ : Manager H} (hplaces : placesOf m' = placesOf m) :
    growthCalls cfg m₀ m' = growthCalls cfg m₀ m := by
  have hcalls : ∀ m : Manager H,
      m.segments.map (registerCall cfg) = (placesOf m).map (registerCall cfg) := by
    intro m
    rw [placesOf, List.map_map]
    rfl
  rw [growthCalls, growthCalls, hcalls, hcalls, hplaces]

/-- A block is issued. -/
theorem Inv.issued (h : Inv cfg L w) (hk : w.manager k = some m)
    (hissued : IssuedFrom I info bytes p m.segments m'.segments) (hready : Ready m') :
    Inv cfg L (w.put k m' (⟨k, info.seg, p, bytes⟩ :: w.live)) := by
  have hhosted := h.hosted k m hk
  have hhouses := hissued.houses hhosted.houses
  apply h.put_places hk (placesOf_issued hissued) hready hhouses
  · intro b hb
    rcases List.mem_cons.mp hb with rfl | hb
    · exact .inl ⟨rfl, hissued.hasBlock hhosted.houses⟩
    · by_cases howner : b.owner = k
      · left
        obtain ⟨m₀, hm₀, hblock⟩ := h.live b hb
        rw [howner, hk] at hm₀
        obtain rfl := Option.some.inj hm₀
        exact ⟨howner, hissued.keeps hhosted.houses hblock⟩
      · exact .inr ⟨howner, hb⟩
  · refine List.pairwise_cons.mpr ⟨?_, h.apart⟩
    intro b hb
    obtain ⟨m₀, hm₀, hblock⟩ := h.live b hb
    obtain ⟨x, hx, hseg, hrest⟩ := id hblock
    by_cases hsame : b.seg = info.seg
    · -- a block of the same segment is one of the same manager
      have howner : k = b.owner :=
        h.owners k b.owner m m₀ hk hm₀ info hissued.mem x hx (hsame ▸ hseg.symm)
      rw [← howner, hk] at hm₀
      obtain rfl := Option.some.inj hm₀
      rw [hsame] at hblock
      exact hissued.apart hhosted.houses hhosted.distinct
        (hhosted.stop_lt h.registry hissued.mem) hblock
    · have hnew : L.HasBlock m' info.seg p bytes := hissued.hasBlock hhosted.houses
      have hhosted' : Hosted cfg L w.mapped m' :=
        hhosted.of_places (placesOf_issued hissued) hready hhouses
      exact hhosted'.apart h.registry (h.hosted b.owner m₀ hm₀) hnew hblock (Ne.symm hsame)

/-- A manager is constructed, in a file in which the blocks `left` may be. -/
theorem Inv.constructed (h : Inv cfg L w) (hk : w.manager k = none)
    (henv : MapsUserRanges cfg.platform env) (hm : Constructed L env m) {left : List (Block K)}
    (hleft : ∀ b ∈ left, b.owner = k ∧ L.HasBlock m b.seg b.ptr b.bytes)
    (hapart : left.Pairwise Block.Apart) {c : Lifetimes.Construction}
    (hcall : w.call cfg pick (bootstrapCalls cfg env c ++ m.segments.map (registerCall cfg)) =
      some w') (ho : w'.memory.outOfMemory = false) : Inv cfg L (w'.put k m (left ++ w.live)) := by
  obtain ⟨hcalls, -, hmanager, hlive⟩ := World.call_inv hcall
  rw [List.foldlM_append] at hcalls
  obtain ⟨mapped₁, hbootstrap, hregister⟩ := Option.bind_eq_some_iff.mp hcalls
  obtain rfl := bootstrapCalls_mapped hbootstrap
  obtain ⟨hsub, hnew, hnodup⟩ := registerCalls_mapped hregister
  have hinv := h.call hcall hsub ho
  have hhosted : Hosted cfg L w'.mapped m := by
    refine ⟨hm.ready, fun info hinfo => (hm.segment info hinfo).1, fun info hinfo => ?_,
      fun info hinfo => (hnew info hinfo).1, hnodup⟩
    exact henv _ _ (hm.segment info hinfo).2
  apply hinv.put hhosted
  · intro k' m' _ hk' info hinfo info' hinfo' hseg
    rw [hmanager] at hk'
    exact (hnew info hinfo).2 _ ((h.hosted k' m' hk').mapped info' hinfo') hseg.symm
  · intro b hb
    rcases List.mem_append.mp hb with hb | hb
    · exact .inl (hleft b hb)
    · right
      rw [hlive]
      refine ⟨?_, hb⟩
      rintro rfl
      obtain ⟨m', hm', -⟩ := h.live b hb
      rw [hk] at hm'
      cases hm'
  · refine List.pairwise_append.mpr ⟨hapart, h.apart, ?_⟩
    intro b hb b' hb'
    obtain ⟨m', hm', hblock'⟩ := h.live b' hb'
    obtain ⟨-, hblock⟩ := hleft b hb
    have hhosted' : Hosted cfg L w'.mapped m' := (h.hosted _ m' hm').mono hsub
    apply hhosted.apart hinv.registry hhosted' hblock hblock'
    obtain ⟨info, hinfo, hseg, -⟩ := hblock
    obtain ⟨info', hinfo', hseg', -⟩ := hblock'
    rw [← hseg, ← hseg']
    exact ((hnew info hinfo).2 _ ((h.hosted _ m' hm').mapped info' hinfo')).symm

theorem World.put_put (w : World K H) (k : K) (m m' : Manager H) (live live' : List (Block K)) :
    (w.put k m live).put k m' live' = w.put k m' live' := by
  simp only [World.put, Function.update_idem]

/-- A request that is served. -/
theorem Inv.allocated (htable : I.tableSpace ≤ kMinSegmentSize) (h : Inv cfg L w)
    (hk : w.manager k = some m) (henv : MapsUserRanges cfg.platform env)
    (hrun : (Memnon.allocate cfg.platform I env bytes).run m = .value p m')
    (hcall : w.call cfg pick (growthCalls cfg m m') = some w')
    (ho : w'.memory.outOfMemory = false) :
    Inv cfg L (w'.put k m' (⟨k, issuerSeg cfg I env m bytes, p, bytes⟩ :: w.live)) := by
  have hready : Ready m' :=
    (stable_frontPrimary I).allocate _ _ m (h.hosted k m hk).ready m' (by rw [hrun]; rfl)
  obtain ⟨m₁, info, hready₁, hext, hissuer, hissued⟩ :=
    allocate_issues (L := L) htable (h.hosted k m hk).ready hrun
  rw [growthCalls_places (placesOf_issued hissued)] at hcall
  have hgrown := h.grown hk henv hext hready₁ hcall ho
  have hend := hgrown.issued (World.put_self ..) hissued hready
  rw [World.put_put] at hend
  rw [issuerSeg, hissuer]
  exact hend

end operations

/-! ## 8. Deallocation -/

section deallocate

variable {cfg : Trie.Config} {pick : Trie.Memory Unit → Word} {I : InnerManager H N}
  {L : BlockLaws I} {w w₁ : World K H} {k k' : K} {m m' : Manager H}
  {info : SegInfo H} {b : Block K} {ptr : Word}

/-- The manager after `deallocate`. -/
def World.afterDeallocate (cfg : Trie.Config) (pick : Trie.Memory Unit → Word)
    (I : InnerManager H N) (w : World K H) (m : Manager H) (ptr : Word) : Manager H :=
  deallocated cfg.platform I (answered m (w.found cfg pick ptr)) ptr

/-- What the trie answers: the segment that has the page, or null. -/
theorem Inv.found_eq (h : Inv cfg L w) (hptr : ptr ≠ 0)
    (hcall : w.call cfg pick (searchCalls cfg ptr) = some w₁) :
    w.found cfg pick ptr =
      Trie.owner cfg w.mapped (Trie.pageOf cfg (cfg.platform.ptrToVaddr ptr)) := by
  obtain ⟨hcalls, -⟩ := World.call_inv hcall
  rw [searchCalls, if_neg hptr] at hcalls
  simp only [List.foldlM_cons, Trie.liveAfter] at hcalls
  split at hcalls
  · rename_i haddr
    exact (h.registry.find pick haddr).1
  · cases hcalls

theorem searchCalls_mapped (hcall : w.call cfg pick (searchCalls cfg ptr) = some w₁) :
    w₁.mapped = w.mapped := by
  obtain ⟨hcalls, -⟩ := World.call_inv hcall
  rw [searchCalls] at hcalls
  split at hcalls
  · exact (Option.some.inj hcalls).symm
  · simp only [List.foldlM_cons, Trie.liveAfter] at hcalls
    split at hcalls
    · exact (Option.some.inj hcalls).symm
    · cases hcalls

/-- A search for an address in the key space. -/
theorem exists_search (hptr : ptr ≠ 0 →
    (Trie.pageOf cfg (cfg.platform.ptrToVaddr ptr)).toNat < Trie.keyBound cfg) :
    ∃ w₁, w.call cfg pick (searchCalls cfg ptr) = some w₁ := by
  have hcalls : (searchCalls cfg ptr).foldlM (Trie.liveAfter cfg) w.mapped = some w.mapped := by
    rw [searchCalls]
    split
    · rfl
    · rename_i hne
      simp only [List.foldlM_cons, Trie.liveAfter, if_pos (hptr hne)]
      rfl
  exact ⟨_, congrArg (Option.map _) hcalls⟩

/-- A pointer into a segment is on a page of that segment. -/
theorem Inv.onPage (h : Inv cfg L w) (hk : w.manager k = some m) (hinfo : info ∈ m.segments)
    (hlow : info.baseVaddr.toNat ≤ ptr.toNat)
    (hhigh : ptr.toNat < info.baseVaddr.toNat + info.size.toNat) :
    ptr ≠ 0 ∧ (traced cfg info).Has cfg (Trie.pageOf cfg (cfg.platform.ptrToVaddr ptr)) ∧
      (Trie.pageOf cfg (cfg.platform.ptrToVaddr ptr)).toNat < Trie.keyBound cfg := by
  have hhosted := h.hosted k m hk
  have hhas := hhosted.has h.registry hinfo hlow hhigh
  obtain ⟨-, -, hspace, -⟩ := h.registry.segment _ (hhosted.mapped info hinfo)
  refine ⟨?_, hhas, hspace.lt hhas⟩
  rintro rfl
  apply (hhosted.userRange info hinfo).1
  exact BitVec.eq_of_toNat_eq (Nat.le_zero.mp hlow)

/-- A pointer into a segment of any manager leads to that segment. -/
theorem Inv.routes (h : Inv cfg L w) (hk : w.manager k = some m) (hinfo : info ∈ m.segments)
    (hlow : info.baseVaddr.toNat ≤ ptr.toNat)
    (hhigh : ptr.toNat < info.baseVaddr.toNat + info.size.toNat)
    (hcall : w.call cfg pick (searchCalls cfg ptr) = some w₁) :
    registryFind cfg.platform (answered m' (w.found cfg pick ptr))
      (cfg.platform.ptrToVaddr ptr) = some info.seg := by
  have hmapped := (h.hosted k m hk).mapped info hinfo
  obtain ⟨hptr, hhas, -⟩ := h.onPage hk hinfo hlow hhigh
  have hvalid := (h.registry.segment _ hmapped).1
  rw [registryFind, answered, h.found_eq hptr hcall, h.registry.owner_eq hmapped hhas]
  exact if_neg hvalid.1

/-- A live block goes back to the inner manager that has issued it. -/
theorem Inv.freed (h : Inv cfg L w) (hb : b ∈ w.live) (hk : w.manager b.owner = some m)
    (hcall : w.call cfg pick (searchCalls cfg b.ptr) = some w₁) :
    ∃ info ∈ m.segments, info.seg = b.seg ∧
      (∃ offset size, (offset, size) ∈ L.blocks info.smgr ∧ b.ptr = info.blockAddr I offset) ∧
      FreedIn I info b.ptr m.segments
        (w.afterDeallocate cfg pick I m b.ptr).segments := by
  obtain ⟨m₀, hm₀, hblock⟩ := h.live b hb
  obtain rfl := Option.some.inj (hm₀.symm.trans hk)
  have hhosted := h.hosted b.owner m₀ hk
  obtain ⟨info, hinfo, hseg, hlow, hhigh⟩ := hhosted.inside h.registry hblock
  obtain ⟨x, hx, hseg', offset, size, hmem, haddr, -⟩ := hblock
  obtain rfl : x = info := List.inj_on_of_nodup_map hhosted.distinct hx hinfo
    (hseg'.trans hseg.symm)
  have hpos := takenBytes_pos b.bytes
  have hstart : x.baseVaddr.toNat ≤ b.ptr.toNat := by omega
  have hptr := (h.onPage hk hinfo hstart (by omega)).1
  refine ⟨x, hx, hseg, ⟨offset, size, hmem, haddr⟩, ?_⟩
  apply deallocated_freed (m := answered m₀ (w.found cfg pick b.ptr)) hhosted.distinct hinfo hptr
  exact h.routes hk hinfo hstart (by omega) hcall

/-- The pointer is on no page of the manager's segments. -/
def OffPages (cfg : Trie.Config) (m : Manager H) (ptr : Word) : Prop :=
  ∀ info ∈ m.segments, ¬ (traced cfg info).Has cfg (Trie.pageOf cfg (cfg.platform.ptrToVaddr ptr))

/-- Null and a pointer onto no page of the manager's segments change nothing. -/
theorem Inv.ignored (h : Inv cfg L w) (hk : w.manager k = some m)
    (hptr : ptr = 0 ∨ OffPages cfg m ptr)
    (hcall : w.call cfg pick (searchCalls cfg ptr) = some w₁) :
    (w.afterDeallocate cfg pick I m ptr).segments = m.segments := by
  apply deallocated_ignored (m := answered m (w.found cfg pick ptr))
  intro hne seg hfind info hinfo hseg
  rcases hptr with hnull | hoff
  · exact hne hnull
  · have hhosted := h.hosted k m hk
    rw [registryFind, answered, h.found_eq hne hcall, Trie.owner] at hfind
    cases hmapped : w.mapped.find? fun r =>
        r.Has cfg (Trie.pageOf cfg (cfg.platform.ptrToVaddr ptr)) with
    | none =>
      rw [hmapped] at hfind
      cases hfind
    | some r =>
      rw [hmapped] at hfind
      have hr := List.mem_of_find?_eq_some hmapped
      have hhas : r.Has cfg (Trie.pageOf cfg (cfg.platform.ptrToVaddr ptr)) := by
        simpa using List.find?_some hmapped
      have hnonzero : r.seg ≠ 0 := (h.registry.segment r hr).1.1
      have hr' : r.seg = seg := Option.some.inj ((if_neg hnonzero).symm.trans hfind)
      have hsame : traced cfg info = r :=
        h.registry.eq_of_seg (hhosted.mapped info hinfo) hr (hseg.trans hr'.symm)
      rw [← hsame] at hhas
      exact hoff info hinfo hhas

/-- A pointer into another manager's segment. -/
theorem Inv.offPages (h : Inv cfg L w) (hk : w.manager k = some m)
    (hk' : w.manager k' = some m') (hne : k' ≠ k) (hinfo : info ∈ m'.segments)
    (hlow : info.baseVaddr.toNat ≤ ptr.toNat)
    (hhigh : ptr.toNat < info.baseVaddr.toNat + info.size.toNat) : OffPages cfg m ptr := by
  intro own hown hhas
  have hhosted := h.hosted k m hk
  have hhosted' := h.hosted k' m' hk'
  have hsame := h.registry.disjoint _ (hhosted.mapped own hown) _ (hhosted'.mapped info hinfo) _
    hhas (hhosted'.has h.registry hinfo hlow hhigh)
  exact hne (h.owners k' k m' m hk' hk info hinfo own hown
    (congrArg Trie.Segment.seg hsame).symm)

variable [DecidableEq K]

theorem mem_without : b ∈ w.without k ptr ↔ b ∈ w.live ∧ (b.owner = k → b.ptr ≠ ptr) := by
  simp only [World.without, List.mem_filter, decide_eq_true_eq, not_and, ne_eq]

/-- One `deallocate`. -/
theorem Inv.deallocated (h : Inv cfg L w) (hk : w.manager k = some m)
    (hfree : MayFree cfg w k ptr)
    (hcall : w.call cfg pick (searchCalls cfg ptr) = some w₁)
    (ho : w₁.memory.outOfMemory = false) :
    Inv cfg L (w₁.put k (w.afterDeallocate cfg pick I m ptr) (w.without k ptr)) := by
  obtain ⟨-, -, hmanager, hlive⟩ := World.call_inv hcall
  have hsub : ∀ r ∈ w.mapped, r ∈ w₁.mapped := by
    rw [searchCalls_mapped hcall]
    exact fun _ hr => hr
  have hinv := h.call hcall hsub ho
  have hk₁ : w₁.manager k = some m := by rw [hmanager, hk]
  have hhosted := h.hosted k m hk
  have hready : Ready (w.afterDeallocate cfg pick I m ptr) := by
    have hanswered : Ready (answered m (w.found cfg pick ptr)) :=
      ⟨hhosted.ready.list, hhosted.ready.grow, hhosted.ready.segments⟩
    apply (stable_frontPrimary I).deallocate _ _ _ hanswered
    rw [run_deallocate hanswered.list]
    rfl
  have hapart : (w.without k ptr).Pairwise Block.Apart := h.apart.filter _
  -- the blocks of other managers stay, so only those of this one are in question
  have hblocks : (∀ {seg q n : Word}, L.HasBlock m seg q n → q ≠ ptr →
      L.HasBlock (w.afterDeallocate cfg pick I m ptr) seg q n) →
      ∀ b ∈ w.without k ptr, b.owner = k ∧
        L.HasBlock (w.afterDeallocate cfg pick I m ptr) b.seg b.ptr b.bytes ∨
        b.owner ≠ k ∧ b ∈ w₁.live := by
    intro hkeeps b hb
    obtain ⟨hb, hne⟩ := mem_without.mp hb
    by_cases howner : b.owner = k
    · obtain ⟨m₀, hm₀, hblock⟩ := h.live b hb
      rw [howner, hk] at hm₀
      obtain rfl := Option.some.inj hm₀
      exact .inl ⟨howner, hkeeps hblock (hne howner)⟩
    · exact .inr ⟨howner, hlive ▸ hb⟩
  have hplaces : placesOf (w.afterDeallocate cfg pick I m ptr) = placesOf m :=
    (deallocated_same (answered m (w.found cfg pick ptr)) ptr).places
  have hnothing : ptr = 0 ∨ OffPages cfg m ptr →
      Inv cfg L (w₁.put k (w.afterDeallocate cfg pick I m ptr) (w.without k ptr)) := by
    intro hptr
    have hsame := h.ignored hk hptr hcall
    apply hinv.put_places hk₁ hplaces hready _ (hblocks _) hapart
    · rw [hsame]
      exact hhosted.houses
    · intro seg q n hblock _
      rw [BlockLaws.HasBlock, hsame]
      exact hblock
  rcases hfree with hnull | ⟨b, hb, rfl, rfl⟩ | hoff
  · exact hnothing (.inl hnull)
  · obtain ⟨info, hinfo, -, ⟨offset, size, hmem, haddr⟩, hfreed⟩ := h.freed hb hk hcall
    apply hinv.put_places hk₁ hplaces hready _ (hblocks _) hapart
    · exact hfreed.houses hmem haddr hhosted.houses
    · intro seg q n hblock hne
      exact hfreed.keeps hmem haddr hhosted.houses hblock hne
  · exact hnothing (.inr fun info hinfo => hoff m hk info hinfo)

end deallocate

/-! ## 9. Runs -/

section runs

variable [DecidableEq K] {cfg : Trie.Config} {pick : Trie.Memory Unit → Word}
  {I : InnerManager H N} {L : BlockLaws I} {w w' : World K H} {l : Label K H}

/-- Whatever a step does to the trie, it does by calls of the registry. -/
theorem step_call (hs : step cfg pick I w l = some w') :
    ∃ calls w₁, w.call cfg pick calls = some w₁ ∧ w'.memory = w₁.memory := by
  -- the shape in which most operations end
  have hput : ∀ {calls : List Trie.RegistryOp} {k : K} {m : Manager H} {live : List (Block K)},
      (w.call cfg pick calls).map (fun w₁ => w₁.put k m live) = some w' →
      ∃ calls w₁, w.call cfg pick calls = some w₁ ∧ w'.memory = w₁.memory := by
    intro calls k m live h
    obtain ⟨w₁, hcall, rfl⟩ := Option.map_eq_some_iff.mp h
    exact ⟨calls, w₁, hcall, rfl⟩
  cases l with
  | search addr => exact ⟨_, w', hs, rfl⟩
  | construct k c env left =>
    simp only [step] at hs
    split at hs
    · cases hs
    · split at hs
      · exact hput hs
      · cases hs
      · cases hs
  | allocate k env bytes =>
    simp only [step] at hs
    split at hs
    · cases hs
    · split at hs
      · exact hput hs
      · exact hput hs
      · cases hs
  | deallocate k ptr =>
    simp only [step] at hs
    split at hs
    · cases hs
    · split at hs
      · exact hput hs
      · cases hs
      · cases hs
  | grow k env minBytes =>
    simp only [step] at hs
    split at hs
    · cases hs
    · obtain ⟨m', -, hs⟩ := Option.bind_eq_some_iff.mp hs
      exact hput hs
  | growBackground k env =>
    simp only [step] at hs
    split at hs
    · cases hs
    · obtain ⟨m', -, hs⟩ := Option.bind_eq_some_iff.mp hs
      exact hput hs

theorem step_deallocate {k : K} {m : Manager H} {ptr : Word} (hk : w.manager k = some m)
    (hlist : m.listHeld = false) :
    step cfg pick I w (.deallocate k ptr) = (w.call cfg pick (searchCalls cfg ptr)).map
      fun w₁ => w₁.put k (w.afterDeallocate cfg pick I m ptr) (w.without k ptr) := by
  have hrun : (Memnon.deallocate cfg.platform I ptr).run (answered m (w.found cfg pick ptr)) =
      .value () (w.afterDeallocate cfg pick I m ptr) :=
    run_deallocate (m := answered m (w.found cfg pick ptr)) hlist ptr
  simp only [step, hk, hrun]

/-- One step. -/
theorem Inv.step (htable : I.tableSpace ≤ kMinSegmentSize) (h : Inv cfg L w)
    (hfair : Fair cfg L w l) (hs : step cfg pick I w l = some w')
    (ho : w'.memory.outOfMemory = false) : Inv cfg L w' := by
  cases l with
  | search addr =>
    refine h.call hs ?_ ho
    obtain ⟨hcalls, -⟩ := World.call_inv hs
    simp only [List.foldlM_cons, Trie.liveAfter] at hcalls
    split at hcalls
    · have hsame : w.mapped = w'.mapped := Option.some.inj hcalls
      rw [hsame]
      exact fun _ hr => hr
    · cases hcalls
  | construct k c env left =>
    obtain ⟨henv, hplace, hapart, hleft⟩ := hfair
    simp only [LiveBlocks.step] at hs
    split at hs
    · cases hs
    · rename_i hk
      split at hs
      · rename_i m hrun
        obtain ⟨w₁, hcall, rfl⟩ := Option.map_eq_some_iff.mp hs
        exact h.constructed hk henv (.of_run htable hplace hrun) (hleft m hrun) hapart hcall ho
      · cases hs
      · cases hs
  | allocate k env bytes =>
    simp only [LiveBlocks.step] at hs
    split at hs
    · cases hs
    · rename_i m hk
      have hready := (h.hosted k m hk).ready
      split at hs
      · rename_i p m' hrun
        obtain ⟨w₁, hcall, rfl⟩ := Option.map_eq_some_iff.mp hs
        exact h.allocated htable hk hfair hrun hcall ho
      · rename_i e m' hrun
        obtain ⟨w₁, hcall, rfl⟩ := Option.map_eq_some_iff.mp hs
        have hready' : Ready m' :=
          (stable_frontPrimary I).allocate _ _ m hready m' (by rw [hrun]; rfl)
        exact h.grown hk hfair (allocate_throws htable hready hrun) hready' hcall ho
      · cases hs
  | deallocate k ptr =>
    cases hk : w.manager k with
    | none =>
      simp only [LiveBlocks.step, hk] at hs
      cases hs
    | some m =>
      rw [step_deallocate hk (h.hosted k m hk).ready.list] at hs
      obtain ⟨w₁, hcall, rfl⟩ := Option.map_eq_some_iff.mp hs
      exact h.deallocated hk hfair hcall ho
  | grow k env minBytes =>
    simp only [LiveBlocks.step] at hs
    split at hs
    · cases hs
    · rename_i m hk
      have hready := (h.hosted k m hk).ready
      obtain ⟨m', hends, hs⟩ := Option.bind_eq_some_iff.mp hs
      obtain ⟨w₁, hcall, rfl⟩ := Option.map_eq_some_iff.mp hs
      have hready' : Ready m' := (stable_frontPrimary I).grow _ _ m hready m' hends
      exact h.grown hk hfair ((grow_end hready).extends htable hends) hready' hcall ho
  | growBackground k env =>
    simp only [LiveBlocks.step] at hs
    split at hs
    · cases hs
    · rename_i m hk
      have hready := (h.hosted k m hk).ready
      obtain ⟨m', hreturned, hs⟩ := Option.bind_eq_some_iff.mp hs
      obtain ⟨u, hrun⟩ := Sessions.returned_eq_some hreturned
      obtain ⟨w₁, hcall, rfl⟩ := Option.map_eq_some_iff.mp hs
      have hends : m' ∈ ((Memnon.growBackground cfg.platform I env).run m).state := by
        rw [hrun]
        rfl
      have hready' : Ready m' := (stable_frontPrimary I).growBackground _ _ m hready m' hends
      exact h.grown hk hfair ((growBackground_end hready).extends htable hends) hready' hcall ho

theorem inv_of_steps (htable : I.tableSpace ≤ kMinSegmentSize)
    (hrun : Steps (step cfg pick I) (Fair cfg L) (World.start cfg) w)
    (ho : w.memory.outOfMemory = false) : Inv cfg L w := by
  have hall := hrun.invariant (fun w => w.memory.outOfMemory = false → Inv cfg L w)
    (fun _ => inv_start cfg L) ?_
  · exact hall ho
  · intro w l w' hinv hfair hs ho
    obtain ⟨calls, w₁, hcall, hmemory⟩ := step_call hs
    rw [hmemory] at ho
    exact (hinv (World.call_allocated hcall ho)).step htable hfair hs (hmemory ▸ ho)

end runs

/-! ## 10. Results -/

section results

variable [DecidableEq K] (cfg : Trie.Config) (pick : Trie.Memory Unit → Word)
  {I : InnerManager H N} (L : BlockLaws I)

omit [DecidableEq K] in
/-- The block lies in the segment that has issued it, behind the table when that is
    segment 0. -/
def LiesInSegment (I : InnerManager H N) (w : World K H) (b : Block K) : Prop :=
  ∃ m info, w.manager b.owner = some m ∧ info ∈ m.segments ∧ info.seg = b.seg ∧
    info.baseVaddr.toNat ≤ b.ptr.toNat ∧
    b.ptr.toNat + takenBytes b.bytes ≤ info.baseVaddr.toNat + info.size.toNat ∧
    (m.segments.head? = some info →
      info.baseVaddr.toNat + I.tableSpace.toNat ≤ b.ptr.toNat)

/-- `deallocate` gives the block to the inner manager of the segment that has issued it,
    one of whose blocks it is, and to no other. -/
def GoesBack (w : World K H) (b : Block K) : Prop :=
  ∃ m m' w' info size, w.manager b.owner = some m ∧
    step cfg pick I w (.deallocate b.owner b.ptr) = some w' ∧
    w'.manager = Function.update w.manager b.owner (some m') ∧
    FreedIn I info b.ptr m.segments m'.segments ∧ info.seg = b.seg ∧
    (b.ptr - info.blockAddr I 0, size) ∈ L.blocks info.smgr

/-- The pointer is null, or points into a segment of another manager. -/
def NotOfManager (w : World K H) (k : K) (ptr : Word) : Prop :=
  ptr = 0 ∨ ∃ k' m, k' ≠ k ∧ w.manager k' = some m ∧ ∃ info ∈ m.segments,
    info.baseVaddr.toNat ≤ ptr.toNat ∧ ptr.toNat < info.baseVaddr.toNat + info.size.toNat

/-- `deallocate` leaves all inner managers of all managers alone. -/
def ReachesNone (I : InnerManager H N) (w : World K H) (k : K) (ptr : Word) : Prop :=
  ∃ w', step cfg pick I w (.deallocate k ptr) = some w' ∧
    ∀ k', (w'.manager k').map Manager.segments = (w.manager k').map Manager.segments

variable {cfg pick L} {w : World K H} {k : K} {b : Block K} {ptr : Word}

omit [DecidableEq K] in
theorem Inv.liesInSegment (h : Inv cfg L w) (hb : b ∈ w.live) : LiesInSegment I w b := by
  obtain ⟨m, hk, hblock⟩ := h.live b hb
  have hhosted := h.hosted _ m hk
  obtain ⟨info, hinfo, hseg, hlow, hhigh⟩ := hhosted.inside h.registry hblock
  refine ⟨m, info, hk, hinfo, hseg, by omega, hhigh, fun hhead => ?_⟩
  obtain ⟨s0, rest, hs, hprimary⟩ := hhosted.ready.segments
  rw [hs] at hhead
  obtain rfl : s0 = info := Option.some.inj hhead
  rwa [SegInfo.smgrOffset, if_pos hprimary] at hlow

theorem Inv.goesBack (h : Inv cfg L w) (hb : b ∈ w.live) : GoesBack cfg pick L w b := by
  obtain ⟨m, hk, hblock⟩ := h.live b hb
  have hhosted := h.hosted _ m hk
  obtain ⟨info₀, hinfo₀, -, hlow, hhigh⟩ := hhosted.inside h.registry hblock
  have hpos := takenBytes_pos b.bytes
  have hstart : info₀.baseVaddr.toNat ≤ b.ptr.toNat := by omega
  have haddr := (h.onPage hk hinfo₀ hstart (by omega)).2.2
  obtain ⟨w₁, hcall⟩ : ∃ w₁, w.call cfg pick (searchCalls cfg b.ptr) = some w₁ :=
    exists_search fun _ => haddr
  obtain ⟨info, -, hseg, ⟨offset, size, hmem, hptr⟩, hfreed⟩ := h.freed hb hk hcall
  obtain ⟨-, -, hmanager, -⟩ := World.call_inv hcall
  refine ⟨m, w.afterDeallocate cfg pick I m b.ptr,
    w₁.put b.owner (w.afterDeallocate cfg pick I m b.ptr) (w.without b.owner b.ptr), info, size, hk,
    ?_, ?_, hfreed, hseg, ?_⟩
  · rw [step_deallocate hk hhosted.ready.list, hcall]
    rfl
  · show Function.update w₁.manager b.owner _ = _
    rw [hmanager]
  · rw [hptr, blockAddr_sub]
    exact hmem

theorem Inv.reachesNone (h : Inv cfg L w) (hk : (w.manager k).isSome = true)
    (hptr : NotOfManager w k ptr) : ReachesNone cfg pick I w k ptr := by
  obtain ⟨m, hk⟩ := Option.isSome_iff_exists.mp hk
  have hsearch : (ptr ≠ 0 → (Trie.pageOf cfg (cfg.platform.ptrToVaddr ptr)).toNat <
      Trie.keyBound cfg) ∧ (ptr = 0 ∨ OffPages cfg m ptr) := by
    rcases hptr with hnull | ⟨k', m', hne, hk', info, hinfo, hlow, hhigh⟩
    · exact ⟨fun hptr => absurd hnull hptr, .inl hnull⟩
    · have haddr := (h.onPage hk' hinfo hlow hhigh).2.2
      exact ⟨fun _ => haddr, .inr (h.offPages hk hk' hne hinfo hlow hhigh)⟩
  obtain ⟨w₁, hcall⟩ : ∃ w₁, w.call cfg pick (searchCalls cfg ptr) = some w₁ :=
    exists_search hsearch.1
  obtain ⟨-, -, hmanager, -⟩ := World.call_inv hcall
  refine ⟨_, by rw [step_deallocate hk (h.hosted k m hk).ready.list, hcall]; rfl, ?_⟩
  intro k'
  by_cases hk' : k' = k
  · subst hk'
    rw [World.put_self, hk]
    exact congrArg some (h.ignored hk hsearch.2 hcall)
  · rw [World.put_of_ne hk', hmanager]

/-- In every run of one thread on any number of managers: the live blocks have no byte in
    common, each lies in the segment that has issued it and outside the table of segment 0;
    `deallocate` of a live block reaches the inner manager that has issued it and no other;
    and `deallocate` of null or of a pointer into another manager's segment reaches none. -/
theorem blocks_return_to_issuer (htable : I.tableSpace ≤ kMinSegmentSize)
    (hrun : Steps (step cfg pick I) (Fair cfg L) (World.start cfg : World K H) w)
    (ho : w.memory.outOfMemory = false) :
    w.live.Pairwise Block.Apart ∧ (∀ b ∈ w.live, LiesInSegment I w b) ∧
      (∀ b ∈ w.live, GoesBack cfg pick L w b) ∧
      ∀ k ptr, (w.manager k).isSome = true → NotOfManager w k ptr →
        ReachesNone cfg pick I w k ptr := by
  have hinv : Inv cfg L w := inv_of_steps htable hrun ho
  refine ⟨hinv.apart, ?_, ?_, ?_⟩
  · intro b hb
    exact hinv.liesInSegment hb
  · intro b hb
    exact hinv.goesBack hb
  · intro k ptr hk hptr
    exact hinv.reachesNone hk hptr

end results

/-! ## 11. A run -/

/-- The stack of blocks, where a block has at least one byte. -/
def paddedArena : InnerManager Arena Nat :=
  { arena with allocate := fun a bytes => a.allocate (umax bytes 1) }

/-- Below `limit`, each block ends where the one on top of it starts or before. -/
def Stacked : Nat → List (Word × Word) → Prop
  | _, [] => True
  | limit, (offset, size) :: rest =>
      offset.toNat + size.toNat ≤ limit ∧ Stacked offset.toNat rest

theorem Stacked.inside {limit : Nat} {blocks : List (Word × Word)} (h : Stacked limit blocks)
    {block : Word × Word} (hblock : block ∈ blocks) :
    block.1.toNat + block.2.toNat ≤ limit := by
  induction blocks generalizing limit with
  | nil => cases hblock
  | cons top rest ih =>
    obtain ⟨htop, hrest⟩ := h
    rcases List.mem_cons.mp hblock with rfl | hblock
    · exact htop
    · have hbelow := ih hrest hblock
      omega

theorem Stacked.mono {limit limit' : Nat} {blocks : List (Word × Word)} (h : Stacked limit blocks)
    (hle : limit ≤ limit') : Stacked limit' blocks := by
  cases blocks with
  | nil => trivial
  | cons top rest => exact ⟨Nat.le_trans h.1 hle, h.2⟩

/-- All blocks end where the free memory starts. -/
theorem Stacked.below_top {a : Arena} (h : Stacked a.size.toNat a.blocks) :
    a.top.toNat ≤ a.size.toNat ∧ Stacked a.top.toNat a.blocks := by
  have hsize := a.size.isLt
  obtain ⟨size, blocks, names⟩ := a
  cases blocks with
  | nil => exact ⟨Nat.zero_le _, trivial⟩
  | cons top rest =>
    obtain ⟨htop, hrest⟩ := h
    have hsum : (top.1 + top.2).toNat = top.1.toNat + top.2.toNat := by
      rw [BitVec.toNat_add]
      exact Nat.mod_eq_of_lt (Nat.lt_of_le_of_lt htop hsize)
    refine ⟨?_, ?_, hrest⟩
    · exact hsum ▸ htop
    · exact Nat.le_of_eq hsum.symm

/-- A new block lies on top of all that are in use. -/
theorem Stacked.serves {a a' : Arena} {bytes offset : Word} (h : Stacked a.size.toNat a.blocks)
    (halloc : paddedArena.allocate a bytes = some (offset, a')) :
    Stacked a'.size.toNat a'.blocks ∧ a'.size.toNat = a.size.toNat ∧
      (∃ size, takenBytes bytes ≤ size.toNat ∧ a'.blocks = (offset, size) :: a.blocks) ∧
      Stacked offset.toNat a.blocks := by
  obtain ⟨htop, hbelow⟩ := h.below_top
  have hone : takenBytes bytes ≤ (umax bytes 1).toNat := by
    rw [umax_toNat]
    exact Nat.max_le.mpr ⟨Nat.le_max_right _ _, Nat.le_max_left _ _⟩
  simp only [paddedArena, Arena.allocate] at halloc
  split at halloc
  · rename_i hfits
    cases halloc
    rw [BitVec.le_def, BitVec.toNat_sub_of_le (BitVec.le_def.mpr htop)] at hfits
    refine ⟨⟨?_, hbelow⟩, rfl, ⟨umax bytes 1, hone, rfl⟩, hbelow⟩
    show a.top.toNat + (umax bytes 1).toNat ≤ a.size.toNat
    omega
  · cases halloc

def paddedArenaLaws : BlockLaws paddedArena where
  Valid a := Stacked a.size.toNat a.blocks
  room a := a.size.toNat
  blocks a := a.blocks.map fun block => (block.1, block.2.toNat)
  inside hvalid hblock := by
    obtain ⟨block, hmem, rfl⟩ := List.mem_map.mp hblock
    exact hvalid.inside hmem
  create size := ⟨trivial, rfl⟩
  allocate {a a' bytes offset} hvalid halloc := by
    obtain ⟨hvalid', hroom, ⟨size, hsize, hblocks⟩, hbelow⟩ := hvalid.serves halloc
    rw [hblocks]
    refine ⟨hblocks ▸ hvalid', hroom, fun block hblock => List.mem_cons_of_mem _ hblock,
      size.toNat, hsize, List.mem_cons_self, fun block hblock => ?_⟩
    obtain ⟨old, hold, rfl⟩ := List.mem_map.mp hblock
    exact .inr (hbelow.inside hold)
  deallocate {a block} hvalid hblock := by
    obtain ⟨size, blocks, names⟩ := a
    cases blocks with
    | nil => cases hblock
    | cons top rest =>
      simp only [paddedArena, arena, Arena.deallocate]
      split
      · rename_i hsame
        refine ⟨hvalid.2.mono ?_, rfl, ?_⟩
        · exact Nat.le_trans (Nat.le_add_right _ _) hvalid.1
        · intro other hother hne
          rcases List.mem_cons.mp hother with rfl | hother
          · exact absurd hsame hne
          · exact hother
      · exact ⟨hvalid, rfl, fun other hother _ => hother⟩

theorem userSpaceEnv_mapsUserRanges : MapsUserRanges (⟨.generic, 20, by decide⟩ : Platform)
    userSpaceEnv := by
  have hbase : ∀ (size : Word) (mapping : Mapping),
      (if size < 0x800000000000 then roomyEnv.createAnon size else none) = some mapping →
      mapping.baseVaddr ≠ 0 := by
    intro size mapping h
    split at h
    · rename_i hlt
      by_cases hne : size = 0
      · subst hne
        cases h
      · obtain rfl : (⟨size <<< 8, size⟩ : Mapping) = mapping :=
          Option.some.inj ((if_neg hne).symm.trans h)
        intro hzero
        apply hne
        have hlt' : size.toNat < 2 ^ 47 := BitVec.lt_def.mp hlt
        have hshift : size.toNat * 2 ^ 8 % 2 ^ 64 = 0 := by
          rw [← Nat.shiftLeft_eq, ← BitVec.toNat_shiftLeft]
          exact congrArg BitVec.toNat hzero
        apply BitVec.eq_of_toNat_eq
        show size.toNat = 0
        omega
    · cases h
  intro size mapping hmaps
  refine ⟨?_, fun _ _ => rfl⟩
  cases hmaps with
  | anon h => exact hbase size mapping h
  | shm h => exact hbase size mapping h
  | chunk fileOffset h => exact hbase size mapping h

/-- Pages of 1 MiB. -/
def largePages : Trie.Config := { Trie.defaultConfig with platform := ⟨.generic, 20, by decide⟩ }

def nodePlaces : Trie.Memory Unit → Word :=
  Trie.firstFree [0x2000, 0x3000, 0x4000, 0x5000, 0x6000, 0x7000, 0x8000]

/-- An anonymous manager and a creator whose segment ends amid a page; the creator grows
    for its second block. -/
def twoManagers : List (Label Bool Arena) :=
  [.construct false (.anon 0x100000) userSpaceEnv [],
    .construct true (.creator 0x208000 .blank) userSpaceEnv [],
    .allocate false userSpaceEnv 0x80000, .allocate true userSpaceEnv 0x200000,
    .search 0x10002900, .allocate true userSpaceEnv 0x400000, .deallocate false 0]

/-- Each of the three blocks goes back where it comes from, and the other manager does
    nothing with it. -/
theorem blocks_return_to_issuer_two : ∃ w : World Bool Arena,
    w.live.length = 3 ∧ w.live.Pairwise Block.Apart ∧
      (∀ b ∈ w.live, GoesBack largePages nodePlaces paddedArenaLaws w b) ∧
      ∀ b ∈ w.live, ReachesNone largePages nodePlaces paddedArena w (!b.owner) b.ptr := by
  have hex : ∃ w, Steps (step largePages nodePlaces paddedArena)
      (Fair largePages paddedArenaLaws) (World.start largePages : World Bool Arena) w ∧
      decide (w.live.length = 3 ∧ w.memory.outOfMemory = false ∧
        ∀ k, (w.manager k).isSome = true) = true := by
    apply Steps.exists_of_replay_labels twoManagers
    · intro l hl w
      simp only [twoManagers, List.mem_cons, List.not_mem_nil, or_false] at hl
      rcases hl with rfl | rfl | rfl | rfl | rfl | rfl | rfl
      · exact ⟨userSpaceEnv_mapsUserRanges, trivial, .nil, fun _ _ => nofun⟩
      · exact ⟨userSpaceEnv_mapsUserRanges, trivial, .nil, fun _ _ => nofun⟩
      · exact userSpaceEnv_mapsUserRanges
      · exact userSpaceEnv_mapsUserRanges
      · trivial
      · exact userSpaceEnv_mapsUserRanges
      · exact .inl rfl
    · decide +kernel
  obtain ⟨w, hrun, htest⟩ := hex
  have htest' := of_decide_eq_true htest
  obtain ⟨hlength, ho, hmanagers⟩ := htest'
  have htable : paddedArena.tableSpace ≤ kMinSegmentSize := by decide
  obtain ⟨hapart, hlies, hback, hnone⟩ := blocks_return_to_issuer htable hrun ho
  refine ⟨w, hlength, hapart, hback, ?_⟩
  intro b hb
  obtain ⟨m, info, hm, hinfo, -, hlow, hhigh, -⟩ := hlies b hb
  have hpos := takenBytes_pos b.bytes
  apply hnone _ _ (hmanagers _)
  right
  refine ⟨b.owner, m, ?_, hm, info, hinfo, hlow, by omega⟩
  cases b.owner <;> decide

end Memnon.LiveBlocks
