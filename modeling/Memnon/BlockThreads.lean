import Memnon.LiveBlocks
import Memnon.ManagerThreads

/-!
# Blocks that several threads allocate and give back

The threads of one process on one SHM manager, as before, and now they also call
`deallocate`: a search in the registry without any lock, `smgr_for` under
`list_mtx_`, and the inner `deallocate` outside of it. Between these a thread
carries what it has found, and the others allocate, grow and give back.

The blocks that have been handed out and not got back, those on their way back
included, have no byte in common, and each one goes back to the segment that has
issued it.
-/

namespace Memnon.BlockThreads

open Memnon.Lib

variable {H N T : Type}

/-! ## 1. The system -/

/-- A block with the segment that has issued it. -/
structure Block where
  seg : Word
  ptr : Word
  bytes : Word
deriving DecidableEq

def Block.Apart (b b' : Block) : Prop :=
  ApartFrom b.ptr.toNat (takenBytes b.bytes) b'.ptr.toNat (takenBytes b'.bytes)

/-- Where a thread stands in `deallocate`: before the search, before `smgr_for` with
    what the search has found, or before the inner `deallocate` of the segment at a
    position. -/
inductive Freeing where
  | find (b : Block)
  | smgrFor (b : Block) (seg : Word)
  | free (b : Block) (i : Nat)
deriving DecidableEq

def Freeing.block : Freeing → Block
  | find b | smgrFor b _ | free b _ => b

/-- The threads with their sections; a thread inside `deallocate` stands at `idle`
    there. `live` are the blocks that the callers own. -/
structure State (T H : Type) where
  threads : Threads.State T H
  freeing : T → Option Freeing
  live : List Block

inductive Label (T H : Type) where
  | call (t : T) (task : Threads.Task)
  | run (t : T) (env : Env H)
  | deallocate (t : T) (b : Block)
  | free (t : T)

/-- The block that a section of `allocate` returns. -/
def issued (I : InnerManager H N) (m : Manager H) : Threads.Point → Option Block
  | .allocate bytes _ =>
      match (Call.guarded (listMtx H) (tryAllocateLocked I bytes)).run m with
      | .value (some p) _ => (servedBy I m.segments bytes).map fun info => ⟨info.seg, p, bytes⟩
      | _ => none
  | _ => none

/-- The next section of `deallocate`. -/
def advance (P : Platform) (I : InnerManager H N) (m : Manager H) :
    Freeing → Option (Manager H × Option Freeing)
  | .find b =>
      if b.ptr = 0 then some (m, none)
      else
        match registryFind P m (P.ptrToVaddr b.ptr) with
        | none => some (m, none)
        | some seg => some (m, some (.smgrFor b seg))
  | .smgrFor b seg =>
      match (smgrFor seg).run m with
      | .value (some i) m' => some (m', some (.free b i))
      | .value none m' => some (m', none)
      | _ => none
  | .free b i =>
      match (deallocateAt I i b.ptr).run m with
      | .value _ m' => some (m', none)
      | _ => none

variable [DecidableEq T]

def step (P : Platform) (I : InnerManager H N) (s : State T H) : Label T H → Option (State T H)
  | .call t task =>
      match s.freeing t with
      | none => (Threads.step P I s.threads (.call t task)).map fun threads =>
          { s with threads := threads }
      | some _ => none
  | .run t env =>
      match s.freeing t with
      | none => (Threads.step P I s.threads (.run t env)).map fun threads =>
          { s with
            threads := threads
            live := (issued I s.threads.manager (s.threads.point t)).toList ++ s.live }
      | some _ => none
  | .deallocate t b =>
      if s.threads.point t = .idle ∧ s.freeing t = none ∧ b ∈ s.live then
        some { s with
          freeing := Function.update s.freeing t (some (.find b))
          live := s.live.erase b }
      else none
  | .free t =>
      match s.freeing t with
      | none => none
      | some f => (advance P I s.threads.manager f).map fun (m, f') =>
          { s with
            threads := { s.threads with manager := m }
            freeing := Function.update s.freeing t f' }

omit [DecidableEq T] in
/-- All threads idle, and no block handed out. -/
def started (m : Manager H) : State T H := ⟨Threads.started m, fun _ => none, []⟩

/-! ## 2. Segments that are mapped -/

/-- What `mmap` and `operator new` return: a range of user addresses with pages that no
    segment of the manager has, and the address of no other `sub_segment`. -/
structure FreshMapping (cfg : Trie.Config) (m : Manager H) (mapping : Mapping) (size : Word) :
    Prop where
  userRange : LiveBlocks.UserRange cfg.platform mapping.baseVaddr size
  space : Trie.InKeySpace cfg mapping.baseVaddr size
  seg : ∀ info ∈ m.segments, info.seg ≠ mapping.seg
  apart : ∀ info ∈ m.segments, ∀ page, Trie.HasPage cfg mapping.baseVaddr size page →
    ¬ Trie.HasPage cfg info.baseVaddr info.size page

omit [DecidableEq T] in
def Fair (cfg : Trie.Config) (s : State T H) : Label T H → Prop
  | .run t env => SizesMapped env ∧ ∀ g size offset mapping,
      s.threads.point t = .growPublish g size offset →
        env.openShmChunk size offset = some mapping →
          FreshMapping cfg s.threads.manager mapping size
  | _ => True

/-- The segments of a manager in memory and in the registry. -/
structure Placed (cfg : Trie.Config) {I : InnerManager H N} (L : BlockLaws I) (m : Manager H) :
    Prop where
  houses : ∀ info ∈ m.segments, L.Houses info
  userRange : ∀ info ∈ m.segments, LiveBlocks.UserRange cfg.platform info.baseVaddr info.size
  space : ∀ info ∈ m.segments, Trie.InKeySpace cfg info.baseVaddr info.size
  distinct : (m.segments.map SegInfo.seg).Nodup
  disjoint : ∀ info ∈ m.segments, ∀ info' ∈ m.segments, ∀ page,
    Trie.HasPage cfg info.baseVaddr info.size page →
    Trie.HasPage cfg info'.baseVaddr info'.size page → info.seg = info'.seg
  registered : ∀ info ∈ m.segments, ∀ page, Trie.HasPage cfg info.baseVaddr info.size page →
    m.registry page = some info.seg

section placed

variable {cfg : Trie.Config} {I : InnerManager H N} {L : BlockLaws I} {m m' : Manager H}
  {info info' : SegInfo H} {addr seg seg' ptr ptr' bytes bytes' : Word}

/-- Other inner managers in the same segments. -/
theorem Placed.of_places (h : Placed cfg L m) (hplaces : placesOf m' = placesOf m)
    (hregistry : m'.registry = m.registry) (hhouses : ∀ info ∈ m'.segments, L.Houses info) :
    Placed cfg L m' := by
  have hold : ∀ info ∈ m'.segments, ∃ old ∈ m.segments, old.seg = info.seg ∧
      old.baseVaddr = info.baseVaddr ∧ old.size = info.size := by
    intro info hinfo
    obtain ⟨old, hold, hplace⟩ := LiveBlocks.exists_place hplaces hinfo
    exact ⟨old, hold, LiveBlocks.place_fields hplace⟩
  refine ⟨hhouses, fun info hinfo => ?_, fun info hinfo => ?_, ?_,
    fun info hinfo info' hinfo' page hpage hpage' => ?_, fun info hinfo page hpage => ?_⟩
  · obtain ⟨old, hmem, -, hbase, hsize⟩ := hold info hinfo
    rw [← hbase, ← hsize]
    exact h.userRange old hmem
  · obtain ⟨old, hmem, -, hbase, hsize⟩ := hold info hinfo
    rw [← hbase, ← hsize]
    exact h.space old hmem
  · have hsegs : ∀ m : Manager H, m.segments.map SegInfo.seg =
        (placesOf m).map SegInfo.seg := by
      intro m
      simp [placesOf, SegInfo.place]
    rw [hsegs, hplaces, ← hsegs]
    exact h.distinct
  · obtain ⟨old, hmem, hseg, hbase, hsize⟩ := hold info hinfo
    obtain ⟨old', hmem', hseg', hbase', hsize'⟩ := hold info' hinfo'
    rw [← hbase, ← hsize] at hpage
    rw [← hbase', ← hsize'] at hpage'
    rw [← hseg, ← hseg']
    exact h.disjoint old hmem old' hmem' page hpage hpage'
  · obtain ⟨old, hmem, hseg, hbase, hsize⟩ := hold info hinfo
    rw [← hbase, ← hsize] at hpage
    rw [hregistry, ← hseg]
    exact h.registered old hmem page hpage

theorem Placed.stop_lt (h : Placed cfg L m) (hinfo : info ∈ m.segments) :
    info.baseVaddr.toNat + info.size.toNat < 2 ^ 64 := by
  have hspace := (h.space info hinfo).1
  have hpage : 0 < 2 ^ cfg.platform.pageShift := Nat.two_pow_pos _
  omega

/-- An address inside a segment is its own virtual address, on a page of the segment. -/
theorem Placed.has (h : Placed cfg L m) (hinfo : info ∈ m.segments)
    (hlow : info.baseVaddr.toNat ≤ addr.toNat)
    (hhigh : addr.toNat < info.baseVaddr.toNat + info.size.toNat) :
    cfg.platform.ptrToVaddr addr = addr ∧
      Trie.HasPage cfg info.baseVaddr info.size (Trie.pageOf cfg addr) := by
  have hstop := h.stop_lt hinfo
  have hoffset : addr - info.baseVaddr < info.size := by
    rw [BitVec.lt_def, BitVec.toNat_sub_of_le (BitVec.le_def.mpr hlow)]
    omega
  have hplain := (h.userRange info hinfo).2 _ hoffset
  rw [BitVec.add_comm, BitVec.sub_add_cancel] at hplain
  refine ⟨hplain, (h.space info hinfo).boundsIn addr (BitVec.le_def.mpr hlow) ?_⟩
  rw [BitVec.lt_def, BitVec.toNat_add, Nat.mod_eq_of_lt hstop]
  exact hhigh

/-- Where the block of a segment lies. -/
theorem Placed.inside (h : Placed cfg L m) (hb : L.HasBlock m seg ptr bytes) :
    ∃ info ∈ m.segments, info.seg = seg ∧ info.baseVaddr.toNat ≤ ptr.toNat ∧
      ptr.toNat + takenBytes bytes ≤ info.baseVaddr.toNat + info.size.toNat := by
  obtain ⟨info, hinfo, hseg, offset, size, hblock, rfl, hsize⟩ := hb
  have hhouses := h.houses info hinfo
  have haddr := hhouses.blockAddr_toNat (h.stop_lt hinfo) hblock
  have hinside : offset.toNat + size ≤ L.room info.smgr := L.inside hhouses.1 hblock
  have hroom := hhouses.2
  refine ⟨info, hinfo, hseg, ?_, ?_⟩
  · omega
  · omega

/-- Blocks of different segments have no byte in common. -/
theorem Placed.apart (h : Placed cfg L m) (hb : L.HasBlock m seg ptr bytes)
    (hb' : L.HasBlock m seg' ptr' bytes') (hne : seg ≠ seg') :
    ApartFrom ptr.toNat (takenBytes bytes) ptr'.toNat (takenBytes bytes') := by
  obtain ⟨info, hinfo, rfl, hlow, hhigh⟩ := h.inside hb
  obtain ⟨info', hinfo', rfl, hlow', hhigh'⟩ := h.inside hb'
  by_contra hcommon
  obtain ⟨a, ⟨ha, ha'⟩, hb, hb'⟩ :=
    exists_common (takenBytes_pos bytes) (takenBytes_pos bytes') hcommon
  have hstop := h.stop_lt hinfo
  have haddr : (BitVec.ofNat 64 a).toNat = a := by
    rw [BitVec.toNat_ofNat]
    exact Nat.mod_eq_of_lt (by omega)
  have hpage : Trie.HasPage cfg info.baseVaddr info.size (Trie.pageOf cfg (BitVec.ofNat 64 a)) :=
    (h.has hinfo (by omega) (by omega)).2
  have hpage' : Trie.HasPage cfg info'.baseVaddr info'.size
      (Trie.pageOf cfg (BitVec.ofNat 64 a)) := (h.has hinfo' (by omega) (by omega)).2
  exact hne (h.disjoint info hinfo info' hinfo' _ hpage hpage')

/-- The search for a block finds the segment that has issued it. -/
theorem Placed.found (h : Placed cfg L m) (hb : L.HasBlock m seg ptr bytes) :
    ptr ≠ 0 ∧ registryFind cfg.platform m (cfg.platform.ptrToVaddr ptr) = some seg := by
  obtain ⟨info, hinfo, rfl, hlow, hhigh⟩ := h.inside hb
  have hpos := takenBytes_pos bytes
  obtain ⟨hplain, hpage⟩ := h.has hinfo hlow (by omega)
  constructor
  · rintro rfl
    apply (h.userRange info hinfo).1
    exact BitVec.eq_of_toNat_eq (Nat.le_zero.mp hlow)
  · rw [hplain]
    exact h.registered info hinfo _ hpage

end placed

/-! ## 3. What a section does to the segments -/

/-- Nothing, a block more in one of them, or at the end of a growth one segment more. -/
inductive Effect (P : Platform) (I : InnerManager H N) (env : Env H) (m m' : Manager H) :
    Threads.Point → Option Block → Prop
  | same (p : Threads.Point) (hsegs : m'.segments = m.segments)
      (hregistry : m'.registry = m.registry) : Effect P I env m m' p none
  | issued (p : Threads.Point) (info : SegInfo H) (bytes ptr : Word)
      (h : IssuedFrom I info bytes ptr m.segments m'.segments)
      (hregistry : m'.registry = m.registry) :
      Effect P I env m m' p (some ⟨info.seg, ptr, bytes⟩)
  | grown (g : Threads.Grower) (size offset : Word) (mapping : Mapping)
      (hmap : env.openShmChunk size offset = some mapping)
      (hsegs : m'.segments = (grownBy P I m mapping ⟨offset, size⟩).segments)
      (hregistry : m'.registry = (grownBy P I m mapping ⟨offset, size⟩).registry) :
      Effect P I env m m' (.growPublish g size offset) none

section effects

variable {P : Platform} {I : InnerManager H N} {env : Env H} {m m' : Manager H} {t : T}
  {growMtx growMtx' : Option T} {p p' : Threads.Point} {bytes newChunkSize currentFileSize : Word}

theorem tryAllocate_registry {q : Option Word}
    (h : (Call.guarded (listMtx H) (tryAllocateLocked I bytes)).run m = .value q m') :
    m'.registry = m.registry :=
  (tryAllocate_same m (.refl m) m' (by rw [h]; rfl)).registry

theorem publishChunk_grown (g : Threads.Grower)
    (h : (Call.guarded (listMtx H) (publishChunk P I env newChunkSize currentFileSize)).run m =
      .value () m') :
    Effect P I env m m' (.growPublish g newChunkSize currentFileSize) none := by
  obtain ⟨m₁, hbody, rfl⟩ := Call.guarded_inv h
  obtain ⟨u, m₂, hadd, hpublish⟩ := Call.run_bind_eq_value hbody
  cases hmap : env.openShmChunk newChunkSize currentFileSize with
  | none =>
    rw [addSegmentShm_fails hmap] at hadd
    cases hadd
  | some mapping =>
    rw [addSegmentShm_maps hmap] at hadd
    cases hadd
    rw [publishLastSegment, Call.run_read_bind] at hpublish
    split at hpublish
    · cases hpublish
      exact .grown g _ _ mapping hmap rfl rfl
    · cases hpublish

omit [DecidableEq T] in
theorem effect_of_advance (hm : InStep (Constructed I) m) (henv : SizesMapped env)
    (hc : ∀ c ∈ p.carried, Carries m c.1 c.2)
    (h : Threads.advance P I env t m growMtx p = some (m', growMtx', p')) :
    Effect P I env m m' p (issued I m p) := by
  cases p with
  | idle => cases h
  | allocate bytes again =>
    simp only [Threads.advance] at h
    simp only [issued]
    cases hrun : (Call.guarded (listMtx H) (tryAllocateLocked I bytes)).run m with
    | value q m₁ =>
      have hregistry := tryAllocate_registry hrun
      rw [hrun] at h
      cases q with
      | some q =>
        cases h
        obtain ⟨info, hserved, hissued⟩ := tryAllocate_issued_from hrun
        simp only [hserved]
        exact .issued _ info bytes q hissued hregistry
      | none =>
        obtain ⟨rfl, -⟩ := tryAllocate_unserved hrun hm.free
        simp only at h
        split at h
        · cases h
          exact .same _ rfl rfl
        · cases h
          exact .same _ rfl rfl
    | thrown e m₁ =>
      rw [hrun] at h
      cases h
    | stuck =>
      rw [hrun] at h
      cases h
  | growLock g =>
    cases growMtx with
    | none =>
      cases h
      exact .same _ rfl rfl
    | some o =>
      cases g with
      | grow minBytes request => cases h
      | background =>
        cases h
        exact .same _ rfl rfl
  | growRead g =>
    obtain ⟨sizes, hrun, -⟩ := g.read_inStep (P := P) hm
    simp only [Threads.advance, hrun] at h
    cases sizes with
    | none =>
      cases h
      exact .same _ rfl rfl
    | some c =>
      cases h
      exact .same _ rfl rfl
  | growExtend g newChunkSize currentFileSize =>
    simp only [Threads.advance] at h
    split at h
    · cases h
      exact .same _ rfl rfl
    · cases h
      exact .same _ rfl rfl
  | growPublish g newChunkSize currentFileSize =>
    have hcarries := hc (newChunkSize, currentFileSize) rfl
    have hpublish := hm.publish (P := P) henv .create hcarries
    cases g with
    | grow minBytes request =>
      rcases hpublish with hrun | ⟨m₁, hrun, -⟩
      · simp only [Threads.advance, hrun] at h
        cases h
        exact .same _ rfl rfl
      · simp only [Threads.advance, hrun] at h
        cases h
        exact publishChunk_grown _ hrun
    | background =>
      simp only [Threads.advance, publishChunkBackground_eq hcarries] at h
      rcases hpublish with hrun | ⟨m₁, hrun, -⟩
      · rw [hrun] at h
        cases h
      · rw [hrun] at h
        cases h
        exact publishChunk_grown _ hrun
  | discover required =>
    obtain ⟨found, hrun⟩ : ∃ found, (discoverGrowth P I env required).run m =
        .value found m := hm.discover required
    simp only [Threads.advance, hrun] at h
    cases h
    exact .same _ rfl rfl

end effects

/-! ## 4. The invariant -/

/-- What a thread has found is the segment that has issued its block. -/
def Freeing.Located (m : Manager H) : Freeing → Prop
  | find _ => True
  | smgrFor b seg => seg = b.seg
  | free b i => ∃ info, m.segments[i]? = some info ∧ info.seg = b.seg

omit [DecidableEq T] in
/-- The blocks that have been handed out: live, or on their way back. -/
structure Inv (cfg : Trie.Config) {I : InnerManager H N} (L : BlockLaws I) (s : State T H) :
    Prop where
  threads : Threads.Inv I s.threads
  placed : Placed cfg L s.threads.manager
  live : ∀ b ∈ s.live, L.HasBlock s.threads.manager b.seg b.ptr b.bytes
  apart : s.live.Pairwise Block.Apart
  freeing : ∀ t f, s.freeing t = some f →
    L.HasBlock s.threads.manager f.block.seg f.block.ptr f.block.bytes ∧
      f.Located s.threads.manager
  freeingLive : ∀ t f, s.freeing t = some f → ∀ b ∈ s.live, Block.Apart f.block b
  freeingApart : ∀ t u f g, t ≠ u → s.freeing t = some f → s.freeing u = some g →
    Block.Apart f.block g.block

section inv

variable {cfg : Trie.Config} {I : InnerManager H N} {L : BlockLaws I} {env : Env H}
  {m m' : Manager H} {info : SegInfo H} {bytes p : Word} {b b' : Block}

theorem Block.Apart.symm (h : b.Apart b') : b'.Apart b := ApartFrom.symm h

theorem Block.Apart.ptr_ne (h : b.Apart b') : b'.ptr ≠ b.ptr := by
  intro hptr
  have hpos := takenBytes_pos b.bytes
  have hpos' := takenBytes_pos b'.bytes
  simp only [Block.Apart, ApartFrom, hptr] at h
  omega

/-- A new block has no byte in common with the blocks that there are. -/
theorem Placed.issued_apart (h : Placed cfg L m) (h' : Placed cfg L m')
    (hissued : IssuedFrom I info bytes p m.segments m'.segments)
    (hb : L.HasBlock m b.seg b.ptr b.bytes) : Block.Apart ⟨info.seg, p, bytes⟩ b := by
  by_cases hsame : b.seg = info.seg
  · rw [hsame] at hb
    exact hissued.apart h.houses h.distinct (h.stop_lt hissued.mem) hb
  · exact h'.apart (hissued.hasBlock h.houses) (hissued.keeps h.houses hb) (Ne.symm hsame)

/-- A new segment. -/
theorem Placed.grown (h : Placed cfg L m) (htable : I.tableSpace ≤ kMinSegmentSize)
    {mapping : Mapping} {range : FileRange} (hsize : range.size ≠ 0)
    (hfresh : FreshMapping cfg m mapping range.size)
    (hsegs : m'.segments = (grownBy cfg.platform I m mapping range).segments)
    (hregistry : m'.registry = (grownBy cfg.platform I m mapping range).registry) :
    Placed cfg L m' := by
  have hbase : cfg.platform.ptrToVaddr mapping.baseVaddr = mapping.baseVaddr := by
    have hpos : (0 : Word) < range.size := by
      apply BitVec.lt_def.mpr
      exact Nat.pos_of_ne_zero fun h0 => hsize (BitVec.eq_of_toNat_eq h0)
    have hzero := hfresh.userRange.2 0 hpos
    have hplus : mapping.baseVaddr + 0 = mapping.baseVaddr := BitVec.add_zero _
    rwa [hplus] at hzero
  have hpage : ∀ page, m'.registry page =
      if Trie.HasPage cfg mapping.baseVaddr range.size page then some mapping.seg
      else m.registry page := by
    intro page
    have hnew : m'.registry page =
        if Trie.HasPage cfg (cfg.platform.ptrToVaddr mapping.baseVaddr) range.size page then
          some mapping.seg
        else m.registry page := by
      rw [hregistry]
      rfl
    rwa [hbase] at hnew
  have hs : m'.segments = m.segments ++ [⟨⟨range, false⟩, mapping.seg, mapping.baseVaddr,
      I.create (smgrSize I range.size false)⟩] := hsegs
  refine ⟨?_, ?_, ?_, ?_, ?_, ?_⟩
  · rw [hs]
    exact List.forall_mem_append.mpr ⟨h.houses,
      List.forall_mem_singleton.mpr (houses_create htable nofun)⟩
  · rw [hs]
    exact List.forall_mem_append.mpr ⟨h.userRange, List.forall_mem_singleton.mpr hfresh.userRange⟩
  · rw [hs]
    exact List.forall_mem_append.mpr ⟨h.space, List.forall_mem_singleton.mpr hfresh.space⟩
  · rw [hs, List.map_append, List.nodup_append]
    refine ⟨h.distinct, List.nodup_singleton _, ?_⟩
    intro seg hseg seg' hseg'
    obtain ⟨old, hold, rfl⟩ := List.mem_map.mp hseg
    obtain rfl := List.mem_singleton.mp hseg'
    exact hfresh.seg old hold
  · rw [hs]
    intro x hx y hy page hxpage hypage
    rcases List.mem_append.mp hx with hx | hx <;> rcases List.mem_append.mp hy with hy | hy
    · exact h.disjoint x hx y hy page hxpage hypage
    · obtain rfl := List.mem_singleton.mp hy
      exact absurd hxpage (hfresh.apart x hx page hypage)
    · obtain rfl := List.mem_singleton.mp hx
      exact absurd hypage (hfresh.apart y hy page hxpage)
    · rw [List.mem_singleton.mp hx, List.mem_singleton.mp hy]
  · rw [hs]
    intro x hx page hxpage
    rw [hpage]
    rcases List.mem_append.mp hx with hx | hx
    · rw [if_neg fun hnew => hfresh.apart x hx page hnew hxpage]
      exact h.registered x hx page hxpage
    · obtain rfl := List.mem_singleton.mp hx
      exact if_pos hxpage

theorem Freeing.Located.of_places {f : Freeing} (h : f.Located m)
    (hplaces : placesOf m' = placesOf m) : f.Located m' := by
  cases f with
  | find b => trivial
  | smgrFor b seg => exact h
  | free b i =>
    obtain ⟨info, hinfo, hseg⟩ := h
    have hplace : (placesOf m')[i]? = some info.place := by
      rw [hplaces, placesOf, List.getElem?_map, hinfo]
      rfl
    rw [placesOf, List.getElem?_map] at hplace
    obtain ⟨info', hinfo', hsame⟩ := Option.map_eq_some_iff.mp hplace
    exact ⟨info', hinfo', (LiveBlocks.place_fields hsame).1.trans hseg⟩

theorem Freeing.Located.append {f : Freeing} (h : f.Located m) {fresh : List (SegInfo H)}
    (hsegs : m'.segments = m.segments ++ fresh) : f.Located m' := by
  cases f with
  | find b => trivial
  | smgrFor b seg => exact h
  | free b i =>
    obtain ⟨info, hinfo, hseg⟩ := h
    obtain ⟨hlt, -⟩ := List.getElem?_eq_some_iff.mp hinfo
    refine ⟨info, ?_, hseg⟩
    rw [hsegs, List.getElem?_append_left hlt]
    exact hinfo

omit [DecidableEq T] in
/-- The inner managers change, and what the growths carry stays right. -/
theorem threadsInv_of_segmentsOf {s : Threads.State T H} (h : Threads.Inv I s)
    (hm' : InStep (Constructed I) m') (hsame : segmentsOf m' = segmentsOf s.manager) :
    Threads.Inv I { s with manager := m' } := by
  refine ⟨hm', h.owner, fun t c hc => ?_⟩
  obtain ⟨hcur, hlast⟩ := h.carries t c hc
  constructor
  · rw [hsame]
    exact hcur
  · rw [hsame]
    exact hlast

/-- The inner `deallocate`, at the position of the segment that has issued the block. -/
theorem Placed.freed (h : Placed cfg L m) {i : Nat} (hinfo : m.segments[i]? = some info)
    (hb : L.HasBlock m info.seg b.ptr b.bytes) {segments : List (SegInfo H)}
    (hsegs : segments = m.segments.modify i fun info =>
      { info with smgr := I.deallocate info.smgr (b.ptr - info.blockAddr I 0) }) :
    FreedIn I info b.ptr m.segments segments ∧
      ∃ offset size, (offset, size) ∈ L.blocks info.smgr ∧ b.ptr = info.blockAddr I offset := by
  obtain ⟨hlt, hget⟩ := List.getElem?_eq_some_iff.mp hinfo
  have hmem : info ∈ m.segments := List.mem_of_getElem? hinfo
  have hs : m.segments = m.segments.take i ++ info :: m.segments.drop (i + 1) := by
    rw [← hget, List.cons_getElem_drop_succ, List.take_append_drop]
  constructor
  · refine ⟨m.segments.take i, m.segments.drop (i + 1), hs, ?_, ?_⟩
    · intro other hother hseg
      have hnodup := h.distinct
      rw [hs, List.map_append, List.map_cons] at hnodup
      have hnot := (List.nodup_cons.mp (List.nodup_middle.mp hnodup)).1
      rw [← List.map_append] at hnot
      exact hnot (hseg ▸ List.mem_map_of_mem hother)
    · rw [hsegs, List.modify_eq_take_cons_drop hlt, hget]
  · obtain ⟨x, hx, hseg, offset, size, hblock, hptr, -⟩ := hb
    obtain rfl : x = info := List.inj_on_of_nodup_map h.distinct hx hmem hseg
    exact ⟨offset, size, hblock, hptr⟩

end inv

/-! ## 5. Steps -/

section steps

variable {cfg : Trie.Config} {I : InnerManager H N} {L : BlockLaws I} {env : Env H}
  {s s' : State T H} {threads : Threads.State T H} {t u : T} {b : Block} {f : Freeing}

omit [DecidableEq T] in
/-- The manager goes on, and every block that has been handed out stays where it is. -/
theorem Inv.keep (h : Inv cfg L s) (hthreads : Threads.Inv I threads)
    (hplaced : Placed cfg L threads.manager)
    (hblocks : ∀ {seg q n : Word}, L.HasBlock s.threads.manager seg q n →
      L.HasBlock threads.manager seg q n)
    (hlocated : ∀ {f : Freeing}, f.Located s.threads.manager → f.Located threads.manager) :
    Inv cfg L { s with threads := threads } :=
  ⟨hthreads, hplaced, fun b hb => hblocks (h.live b hb), h.apart,
    fun t f hf => ⟨hblocks (h.freeing t f hf).1, hlocated (h.freeing t f hf).2⟩, h.freeingLive,
    h.freeingApart⟩

omit [DecidableEq T] in
/-- A block is handed out. -/
theorem Inv.add (h : Inv cfg L s) (hb : L.HasBlock s.threads.manager b.seg b.ptr b.bytes)
    (hlive : ∀ b' ∈ s.live, b.Apart b')
    (hfreeing : ∀ t f, s.freeing t = some f → b.Apart f.block) :
    Inv cfg L { s with live := b :: s.live } := by
  refine ⟨h.threads, h.placed, List.forall_mem_cons.mpr ⟨hb, h.live⟩,
    List.pairwise_cons.mpr ⟨hlive, h.apart⟩, h.freeing, fun t f hf => ?_, h.freeingApart⟩
  exact List.forall_mem_cons.mpr ⟨(hfreeing t f hf).symm, h.freeingLive t f hf⟩

/-- A section of a call other than `deallocate`. -/
theorem Inv.run (h : Inv cfg L s) (htable : I.tableSpace ≤ kMinSegmentSize)
    (hfair : Fair cfg s (.run t env))
    (hs : Threads.step cfg.platform I s.threads (.run t env) = some threads) :
    Inv cfg L { s with
      threads := threads
      live := (issued I s.threads.manager (s.threads.point t)).toList ++ s.live } := by
  obtain ⟨hsizes, hmaps⟩ := hfair
  have hplatform : Threads.OnPlatform s.threads (.run t env) := hsizes
  have hthreads : Threads.Inv I threads := Threads.inv_step h.threads hplatform hs
  obtain ⟨⟨m', growMtx', p'⟩, hadvance, rfl⟩ := Option.map_eq_some_iff.mp hs
  have heffect := effect_of_advance h.threads.manager hsizes (h.threads.carries t) hadvance
  generalize issued I s.threads.manager (s.threads.point t) = new at heffect ⊢
  generalize hpoint : s.threads.point t = point at heffect
  cases heffect with
  | same _ hsegs hregistry =>
    have hplaces : placesOf m' = placesOf s.threads.manager := by rw [placesOf, placesOf, hsegs]
    refine h.keep hthreads (h.placed.of_places hplaces hregistry ?_) ?_ fun hf =>
      hf.of_places hplaces
    · rw [hsegs]
      exact h.placed.houses
    · intro seg q n hblock
      rw [BlockLaws.HasBlock, hsegs]
      exact hblock
  | issued _ info bytes p hissued hregistry =>
    have hplaces := LiveBlocks.placesOf_issued hissued
    have hplaced : Placed cfg L m' :=
      h.placed.of_places hplaces hregistry (hissued.houses h.placed.houses)
    have hkept := h.keep hthreads hplaced (hissued.keeps h.placed.houses) fun hf =>
      hf.of_places hplaces
    apply hkept.add (b := ⟨info.seg, p, bytes⟩) (hissued.hasBlock h.placed.houses)
    · exact fun b hb => h.placed.issued_apart hplaced hissued (h.live b hb)
    · exact fun u f hf => h.placed.issued_apart hplaced hissued (h.freeing u f hf).1
  | grown g size offset mapping hmap hsegs hregistry =>
    have hfresh := hmaps g size offset mapping hpoint hmap
    have hsize := (hsizes.openShmChunk _ _ _ hmap).1
    refine h.keep hthreads (h.placed.grown htable hsize hfresh hsegs hregistry) ?_ fun hf =>
      hf.append hsegs
    rintro seg q n ⟨info, hinfo, hrest⟩
    refine ⟨info, ?_, hrest⟩
    rw [hsegs]
    exact List.mem_append_left _ hinfo

/-- A caller gives a block back: it is live no more. -/
theorem Inv.giveBack (h : Inv cfg L s) (ht : s.freeing t = none) (hb : b ∈ s.live) :
    Inv cfg L { s with
      freeing := Function.update s.freeing t (some (.find b))
      live := s.live.erase b } := by
  have hperm := List.perm_cons_erase hb
  have hall := h.apart.perm hperm fun hab => Block.Apart.symm hab
  obtain ⟨hapart, hrest⟩ := List.pairwise_cons.mp hall
  have hfreeing : ∀ u f, Function.update s.freeing t (some (.find b)) u = some f →
      (u = t ∧ f = .find b) ∨ (u ≠ t ∧ s.freeing u = some f) := by
    intro u f hf
    by_cases hut : u = t
    · subst hut
      rw [Function.update_self] at hf
      exact .inl ⟨rfl, (Option.some.inj hf).symm⟩
    · rw [Function.update_of_ne hut] at hf
      exact .inr ⟨hut, hf⟩
  refine ⟨h.threads, h.placed, fun b' hb' => h.live b' (List.mem_of_mem_erase hb'), hrest,
    fun u f hf => ?_, fun u f hf b' hb' => ?_, fun u v f g huv hf hg => ?_⟩
  · rcases hfreeing u f hf with ⟨-, rfl⟩ | ⟨-, hf⟩
    · exact ⟨h.live b hb, trivial⟩
    · exact h.freeing u f hf
  · rcases hfreeing u f hf with ⟨-, rfl⟩ | ⟨-, hf⟩
    · exact hapart b' hb'
    · exact h.freeingLive u f hf b' (List.mem_of_mem_erase hb')
  · rcases hfreeing u f hf with ⟨rfl, rfl⟩ | ⟨-, hf'⟩ <;>
      rcases hfreeing v g hg with ⟨rfl, rfl⟩ | ⟨-, hg'⟩
    · exact absurd rfl huv
    · exact (h.freeingLive v g hg' b hb).symm
    · exact h.freeingLive u f hf' b hb
    · exact h.freeingApart u v f g huv hf' hg'

/-- A thread goes on in `deallocate`, and the manager stays as it is. -/
theorem Inv.proceed (h : Inv cfg L s) (ht : s.freeing t = some f) {g : Freeing}
    (hblock : g.block = f.block) (hlocated : g.Located s.threads.manager) :
    Inv cfg L { s with freeing := Function.update s.freeing t (some g) } := by
  have hfreeing : ∀ u g', Function.update s.freeing t (some g) u = some g' →
      ∃ f', s.freeing u = some f' ∧ g'.block = f'.block ∧ (f'.Located s.threads.manager →
        g'.Located s.threads.manager) := by
    intro u g' hg
    by_cases hut : u = t
    · subst hut
      rw [Function.update_self] at hg
      obtain rfl := Option.some.inj hg
      exact ⟨f, ht, hblock, fun _ => hlocated⟩
    · rw [Function.update_of_ne hut] at hg
      exact ⟨g', hg, rfl, id⟩
  refine ⟨h.threads, h.placed, h.live, h.apart, fun u g' hg => ?_, fun u g' hg => ?_,
    fun u v g₁ g₂ huv hg₁ hg₂ => ?_⟩
  · obtain ⟨f', hf', hsame, hloc⟩ := hfreeing u g' hg
    obtain ⟨hb, hl⟩ := h.freeing u f' hf'
    rw [hsame]
    exact ⟨hb, hloc hl⟩
  · obtain ⟨f', hf', hsame, -⟩ := hfreeing u g' hg
    rw [hsame]
    exact h.freeingLive u f' hf'
  · obtain ⟨f₁, hf₁, hsame₁, -⟩ := hfreeing u g₁ hg₁
    obtain ⟨f₂, hf₂, hsame₂, -⟩ := hfreeing v g₂ hg₂
    rw [hsame₁, hsame₂]
    exact h.freeingApart u v f₁ f₂ huv hf₁ hf₂

omit [DecidableEq T] in
theorem run_smgrFor {m : Manager H} (hlist : m.listHeld = false) (seg : Word) :
    (smgrFor seg).run m = .value (m.segments.findIdx? fun info => info.seg == seg) m := by
  unfold smgrFor
  exact Call.guarded_section hlist hlist rfl

/-- The section of `deallocate` that a thread takes next, for a block that is handed
    out: nothing is missed on the way to the segment that has issued it. -/
inductive Frees (I : InnerManager H N) (m : Manager H) : Freeing → Manager H × Option Freeing → Prop
  | found (b : Block) : Frees I m (.find b) (m, some (.smgrFor b b.seg))
  | located (b : Block) (i : Nat) (h : (Freeing.free b i).Located m) :
      Frees I m (.smgrFor b b.seg) (m, some (.free b i))
  | freed (b : Block) (i : Nat) (info : SegInfo H) (m' : Manager H) (hseg : info.seg = b.seg)
      (h : FreedIn I info b.ptr m.segments m'.segments) : Frees I m (.free b i) (m', none)

omit [DecidableEq T] in
theorem Inv.frees (h : Inv cfg L s) (ht : s.freeing t = some f) :
    ∃ r, advance cfg.platform I s.threads.manager f = some r ∧
      Frees I s.threads.manager f r := by
  obtain ⟨hb, hlocated⟩ := h.freeing t f ht
  cases f with
  | find b =>
    have hb' : L.HasBlock s.threads.manager b.seg b.ptr b.bytes := hb
    obtain ⟨hptr, hfind⟩ := h.placed.found hb'
    refine ⟨_, ?_, .found b⟩
    simp only [advance, if_neg hptr, hfind]
  | smgrFor b seg =>
    obtain rfl : seg = b.seg := hlocated
    have hrun := run_smgrFor h.threads.manager.free b.seg
    obtain ⟨info, hinfo, hseg, -⟩ := hb
    cases hindex : s.threads.manager.segments.findIdx? fun info => info.seg == b.seg with
    | none =>
      have hnot := List.findIdx?_eq_none_iff.mp hindex info hinfo
      exact absurd hseg (beq_eq_false_iff_ne.mp hnot)
    | some i =>
      rw [hindex] at hrun
      obtain ⟨hlt, hfound, -⟩ := List.findIdx?_eq_some_iff_getElem.mp hindex
      refine ⟨_, ?_, .located b i ⟨_, List.getElem?_eq_getElem hlt, beq_iff_eq.mp hfound⟩⟩
      simp only [advance, hrun]
  | free b i =>
    obtain ⟨info, hinfo, hseg⟩ := hlocated
    have hb' : L.HasBlock s.threads.manager info.seg b.ptr b.bytes := hseg ▸ hb
    exact ⟨_, rfl, .freed b i info _ hseg (h.placed.freed hinfo hb' rfl).1⟩

omit [DecidableEq T] in
theorem advance_free {P : Platform} {m m' : Manager H} {i : Nat} {f' : Option Freeing}
    (h : advance P I m (.free b i) = some (m', f')) :
    f' = none ∧ (m'.segments = m.segments.modify i fun info =>
        { info with smgr := I.deallocate info.smgr (b.ptr - info.blockAddr I 0) }) ∧
      m'.registry = m.registry ∧ m'.anon = m.anon ∧ m'.listHeld = m.listHeld ∧
      m'.table = m.table := by
  cases h
  exact ⟨rfl, rfl, rfl, rfl, rfl, rfl⟩

/-- The block is back, and the others are where they were. -/
theorem Inv.back (h : Inv cfg L s) {i : Nat} (ht : s.freeing t = some (.free b i))
    {m' : Manager H} {f' : Option Freeing}
    (hs : advance cfg.platform I s.threads.manager (.free b i) = some (m', f')) :
    f' = none ∧ Inv cfg L { s with
      threads := { s.threads with manager := m' }
      freeing := Function.update s.freeing t none } := by
  obtain ⟨hnone, hmodify, hregistry, hanon, hlist, htable⟩ := advance_free hs
  obtain ⟨hb, info, hinfo, hseg⟩ := h.freeing t _ ht
  have hb' : L.HasBlock s.threads.manager info.seg b.ptr b.bytes := hseg ▸ hb
  obtain ⟨hfreed, offset, size, hblock, hptr⟩ := h.placed.freed hinfo hb' hmodify
  have hplaces : placesOf m' = placesOf s.threads.manager := by
    obtain ⟨pre, post, hs, -, hs'⟩ := hfreed
    rw [placesOf, placesOf, hs, hs', places_set]
  have hsame : segmentsOf m' = segmentsOf s.threads.manager := by
    rw [segmentsOf_eq, segmentsOf_eq, hplaces]
  have hconstructed : ∀ x ∈ m'.segments, Constructed I x.smgr := by
    have hold := h.threads.manager.smgrs
    obtain ⟨pre, post, hs, -, hs'⟩ := hfreed
    rw [hs] at hold
    rw [hs']
    intro x hx
    rcases List.mem_append.mp hx with hpre | hx
    · exact hold x (List.mem_append_left _ hpre)
    · rcases List.mem_cons.mp hx with rfl | hpost
      · exact .deallocate _ (hold info (by simp))
      · exact hold x (by simp [hpost])
  have hthreads : Threads.Inv I { s.threads with manager := m' } :=
    threadsInv_of_segmentsOf h.threads
      (h.threads.manager.same hanon hlist htable hsame hconstructed) hsame
  have hplaced : Placed cfg L m' :=
    h.placed.of_places hplaces hregistry (hfreed.houses hblock hptr h.placed.houses)
  have hkeeps : ∀ {b' : Block}, b.Apart b' →
      L.HasBlock s.threads.manager b'.seg b'.ptr b'.bytes → L.HasBlock m' b'.seg b'.ptr b'.bytes :=
    fun hapart hb' => hfreed.keeps hblock hptr h.placed.houses hb' hapart.ptr_ne
  have hfreeing : ∀ u f, Function.update s.freeing t none u = some f →
      t ≠ u ∧ s.freeing u = some f := by
    intro u f hf
    by_cases hut : u = t
    · subst hut
      rw [Function.update_self] at hf
      cases hf
    · rw [Function.update_of_ne hut] at hf
      exact ⟨Ne.symm hut, hf⟩
  refine ⟨hnone, hthreads, hplaced, fun b' hb' => ?_, h.apart, fun u f hf => ?_,
    fun u f hf => h.freeingLive u f (hfreeing u f hf).2, fun u v f g huv hf hg => ?_⟩
  · exact hkeeps (h.freeingLive t _ ht b' hb') (h.live b' hb')
  · obtain ⟨htu, hf⟩ := hfreeing u f hf
    obtain ⟨hbf, hlocated⟩ := h.freeing u f hf
    exact ⟨hkeeps (h.freeingApart t u _ f htu ht hf) hbf, hlocated.of_places hplaces⟩
  · exact h.freeingApart u v f g huv (hfreeing u f hf).2 (hfreeing v g hg).2

theorem Inv.step (h : Inv cfg L s) (htable : I.tableSpace ≤ kMinSegmentSize) {l : Label T H}
    (hfair : Fair cfg s l) (hs : step cfg.platform I s l = some s') : Inv cfg L s' := by
  cases l with
  | call t task =>
    simp only [BlockThreads.step] at hs
    split at hs
    · obtain ⟨threads, hcall, rfl⟩ := Option.map_eq_some_iff.mp hs
      have hplatform : Threads.OnPlatform s.threads (.call t task : Threads.Label T H) := trivial
      have hthreads : Threads.Inv I threads := Threads.inv_step h.threads hplatform hcall
      simp only [Threads.step, Option.ite_none_right_eq_some, Option.some.injEq] at hcall
      obtain ⟨-, rfl⟩ := hcall
      exact h.keep hthreads h.placed id id
    · cases hs
  | run t env =>
    simp only [BlockThreads.step] at hs
    split at hs
    · obtain ⟨threads, hrun, rfl⟩ := Option.map_eq_some_iff.mp hs
      exact h.run htable hfair hrun
    · cases hs
  | deallocate t b =>
    simp only [BlockThreads.step, Option.ite_none_right_eq_some, Option.some.injEq] at hs
    obtain ⟨⟨-, ht, hb⟩, rfl⟩ := hs
    exact h.giveBack ht hb
  | free t =>
    simp only [BlockThreads.step] at hs
    split at hs
    · cases hs
    · rename_i f ht
      obtain ⟨⟨m', f'⟩, hadvance, rfl⟩ := Option.map_eq_some_iff.mp hs
      obtain ⟨r, hr, hfrees⟩ := h.frees ht
      obtain rfl := Option.some.inj (hr.symm.trans hadvance)
      cases hfrees with
      | found b => exact h.proceed ht rfl rfl
      | located b i hlocated => exact h.proceed ht rfl hlocated
      | freed b i info m' hseg hfreed => exact (h.back ht hadvance).2

end steps

/-! ## 6. Result -/

section result

variable {cfg : Trie.Config} {I : InnerManager H N} {L : BlockLaws I} {env : Env H}
  {m : Manager H} {initialSize : Word} {table : SegmentTable}

/-- The first mapping of a manager. -/
def MapsFirst (cfg : Trie.Config) (env : Env H) : Prop :=
  ∀ size mapping, env.createShm size = some mapping →
    LiveBlocks.UserRange cfg.platform mapping.baseVaddr size ∧
      Trie.InKeySpace cfg mapping.baseVaddr size

theorem placed_created (htable : I.tableSpace ≤ kMinSegmentSize) (henv : SizesMapped env)
    (hfirst : MapsFirst cfg env)
    (h : (constructCreator cfg.platform I env initialSize).run
      (.empty false table fun _ => none) = .value () m) : Placed cfg L m := by
  unfold constructCreator addSegmentShm at h
  simp only [if_true] at h
  cases hmap : env.createShm (umax initialSize kMinSegmentSize) with
  | none =>
    simp only [hmap] at h
    cases h
  | some mapping =>
    simp only [hmap] at h
    cases h
    obtain ⟨hrange, hspace⟩ := hfirst _ _ hmap
    obtain ⟨hsize, -⟩ := henv.createShm _ _ hmap
    have hbase : cfg.platform.ptrToVaddr mapping.baseVaddr = mapping.baseVaddr := by
      have hpos : (0 : Word) < umax initialSize kMinSegmentSize := by
        apply BitVec.lt_def.mpr
        exact Nat.pos_of_ne_zero fun h0 => hsize (BitVec.eq_of_toNat_eq h0)
      have hzero := hrange.2 0 hpos
      have hplus : mapping.baseVaddr + 0 = mapping.baseVaddr := BitVec.add_zero _
      rwa [hplus] at hzero
    refine ⟨List.forall_mem_singleton.mpr (houses_create htable fun _ => LiveBlocks.le_umax _ _),
      List.forall_mem_singleton.mpr hrange, List.forall_mem_singleton.mpr hspace,
      List.nodup_singleton _, fun x hx y hy _ _ _ => ?_,
      List.forall_mem_singleton.mpr fun page hpage => ?_⟩
    · rw [List.mem_singleton.mp hx, List.mem_singleton.mp hy]
    · rw [← hbase] at hpage
      exact if_pos hpage

/-- In every interleaving of allocations, growths, discoveries and deallocations: the
    blocks that have been handed out, those on their way back included, lie in the
    segments that have issued them and have no byte in common; and a `deallocate` of
    such a block is never lost on its way to that segment. -/
theorem blocks_apart_in_any_interleaving (htable : I.tableSpace ≤ kMinSegmentSize)
    (henv : SizesMapped env) (hfirst : MapsFirst cfg env)
    (hcreate : (constructCreator cfg.platform I env initialSize).run
      (.empty false table fun _ => none) = .value () m) {s : State T H}
    (hrun : Steps (step cfg.platform I) (Fair cfg) (started m) s) :
    (∀ b ∈ s.live, L.HasBlock s.threads.manager b.seg b.ptr b.bytes) ∧
      s.live.Pairwise Block.Apart ∧
      ∀ t f, s.freeing t = some f →
        L.HasBlock s.threads.manager f.block.seg f.block.ptr f.block.bytes ∧
        (∀ b ∈ s.live, Block.Apart f.block b) ∧
        (∀ u g, t ≠ u → s.freeing u = some g → Block.Apart f.block g.block) ∧
        ∃ r, advance cfg.platform I s.threads.manager f = some r ∧
          Frees I s.threads.manager f r := by
  have hstart : Inv cfg L (started m : State T H) :=
    ⟨Threads.inv_started (.created henv .create hcreate),
      placed_created htable henv hfirst hcreate, nofun, .nil, nofun, nofun, nofun⟩
  have h : Inv cfg L s := hrun.invariant (Inv cfg L) hstart
    fun _ _ _ hinv hfair hs => hinv.step htable hfair hs
  exact ⟨h.live, h.apart, fun t f hf => ⟨(h.freeing t f hf).1, h.freeingLive t f hf,
    fun u g htu hg => h.freeingApart t u f g htu hf hg, h.frees hf⟩⟩

end result

/-- A first mapping at `2 ^ 28`, and no further one. -/
def oneSegmentEnv : Env Arena :=
  { boundedEnv with
    createShm := fun size => if size = 0x100000 then some ⟨0x10000000, 7⟩ else none
    openShmChunk := fun _ _ => none }

theorem oneSegmentEnv_sizesMapped : SizesMapped oneSegmentEnv := by
  refine ⟨fun size mapping h => ?_, nofun⟩
  obtain ⟨rfl, -⟩ := Option.ite_none_right_eq_some.mp h
  decide

theorem oneSegmentEnv_mapsFirst : MapsFirst Trie.defaultConfig oneSegmentEnv := by
  intro size mapping h
  obtain ⟨rfl, hmapping⟩ := Option.ite_none_right_eq_some.mp h
  obtain rfl := Option.some.inj hmapping
  exact ⟨⟨by decide, fun _ _ => rfl⟩, by decide⟩

def twoThreads : List (Label Bool Arena) :=
  [.call true (.allocate 0x100), .call false (.allocate 0x200), .run true oneSegmentEnv,
    .run false oneSegmentEnv, .deallocate true ⟨7, 0x10002900, 0x100⟩, .free true]

/-- Two threads have allocated, and one of them is giving its block back. -/
theorem blocks_apart_two_threads : ∃ s : State Bool Arena,
    s.live.length = 1 ∧ s.freeing true = some (.smgrFor ⟨7, 0x10002900, 0x100⟩ 7) ∧
      ∀ b ∈ s.live, Block.Apart ⟨7, 0x10002900, 0x100⟩ b := by
  have hcreate : ∃ m, (constructCreator Trie.defaultConfig.platform LiveBlocks.paddedArena
      oneSegmentEnv 0x100000).run (.empty false .blank fun _ => none) = .value () m := ⟨_, rfl⟩
  obtain ⟨m, hm⟩ := hcreate
  have hex : ∃ s : State Bool Arena,
      Steps (step Trie.defaultConfig.platform LiveBlocks.paddedArena) (Fair Trie.defaultConfig)
        (started m) s ∧ decide (s.live.length = 1 ∧
          s.freeing true = some (.smgrFor ⟨7, 0x10002900, 0x100⟩ 7)) = true := by
    apply Steps.exists_of_replay_labels twoThreads
    · intro l hl a
      simp only [twoThreads, List.mem_cons, List.not_mem_nil, or_false] at hl
      rcases hl with rfl | rfl | rfl | rfl | rfl | rfl
      case inr.inr.inl => exact ⟨oneSegmentEnv_sizesMapped, fun _ _ _ _ _ h => by cases h⟩
      case inr.inr.inr.inl => exact ⟨oneSegmentEnv_sizesMapped, fun _ _ _ _ _ h => by cases h⟩
      all_goals trivial
    · cases hm
      decide +kernel
  obtain ⟨s, hrun, htest⟩ := hex
  obtain ⟨hlive, hfreeing⟩ := of_decide_eq_true htest
  have htable : LiveBlocks.paddedArena.tableSpace ≤ kMinSegmentSize := by decide
  obtain ⟨-, -, h⟩ := blocks_apart_in_any_interleaving (L := LiveBlocks.paddedArenaLaws) htable
    oneSegmentEnv_sizesMapped oneSegmentEnv_mapsFirst hm hrun
  exact ⟨s, hlive, hfreeing, (h true _ hfreeing).2.1⟩

end Memnon.BlockThreads
