import Memnon.SegmentTable
import Memnon.Lib.TransitionSystem

/-!
# Growth of one file by several processes

Each process computes the file offset and the table index of a new chunk from
its own list of segments, reads the file size under `list_mtx_`, extends the
file, and only then takes `list_mtx_` again to map, construct and publish. Its
`grow_mtx_` keeps its own growers apart, but nothing keeps two processes apart
between the read and the publication: the table mutex is taken for the store of
the entry only. Growth is safe as long as the size a grower has read is still
the end of the published table when it acts on it.
-/

namespace Memnon.SharedGrowth

open Memnon.Lib

/-! ## 1. The system -/

/-- Where the holder of `grow_mtx_` stands: `background` tells
    `grow_background` from `grow`. -/
inductive Growth where
  | idle
  | sized (currentFileSize newChunkSize : Word) (background : Bool)
  | extended (currentFileSize newChunkSize : Word) (background : Bool)
deriving DecidableEq

structure Process where
  segments : List Segment
  growth : Growth

/-- The process's own view of the file ranges it has mapped. -/
def Process.ranges (p : Process) : List FileRange := p.segments.map Segment.toFileRange

/-- One file, its table, and the processes attached to it. -/
structure World (I : Type) where
  table : SegmentTable
  fileSize : Word
  process : I → Option Process

/-- One label for each critical section. `readSize` carries what the free
    memory of the inner managers adds up to at that moment. -/
inductive Label (I : Type) where
  | attach (i : I)
  | readSize (i : I) (minBytes freeMemory : Word)
  | readSizeBackground (i : I) (lastFreeMemory : Word)
  | shmGrow (i : I)
  | publish (i : I)
  | discover (i : I) (requiredFileOffset : Word)
deriving DecidableEq

variable {I : Type}

/-- The world after the constructor of the creating process. -/
def created [DecidableEq I] (creator : I) (initialSize : Word) : World I :=
  let s0 : Segment := ⟨⟨0, umax initialSize kMinSegmentSize⟩, true⟩
  { table := initSegmentTable [s0] .blank
    fileSize := s0.size
    process := fun i => if i = creator then some ⟨[s0], .idle⟩ else none }

def World.set [DecidableEq I] (w : World I) (i : I) (p : Process) : World I :=
  { w with process := Function.update w.process i (some p) }

/-- The chunk that the publishing step of `i` maps and on which it runs the
    placement-new of an inner manager. `grow_background` checks again, under
    `list_mtx_`, that its own list has not moved. -/
def placementNew (w : World I) : Label I → Option FileRange
  | .publish i =>
      match w.process i with
      | some p =>
          match p.growth with
          | .extended cur chunk background =>
              if background && cur ≠ getSizeUnlocked p.ranges then none
              else some ⟨cur, chunk⟩
          | _ => none
      | none => none
  | _ => none

/-- The size passed to `shm_grow`. -/
def shmGrowSize (w : World I) : Label I → Option Word
  | .shmGrow i =>
      match w.process i with
      | some p =>
          match p.growth with
          | .sized cur chunk _ => some (cur + chunk)
          | _ => none
      | none => none
  | _ => none

variable [DecidableEq I]

/-- One critical section, the operating system calls in it succeeding. -/
def step (P : Platform) (w : World I) : Label I → Option (World I)
  | .attach i =>
      match w.process i with
      | some _ => none
      | none => (openAllSegments w.table).map fun segments => w.set i ⟨segments, .idle⟩
  | .readSize i minBytes freeMemory =>
      match w.process i with
      | some ⟨segments, .idle⟩ =>
          if freeMemory ≥ minBytes then some w
          else some (w.set i ⟨segments, .sized
            (getSizeUnlocked (segments.map Segment.toFileRange))
            (growChunkSize P segments minBytes) false⟩)
      | _ => none
  | .readSizeBackground i lastFreeMemory =>
      match w.process i with
      | some ⟨segments, .idle⟩ =>
          match segments.getLast? with
          | none => some w
          | some last =>
              if lastFreeMemory ≥ last.size / 2 then some w
              else some (w.set i ⟨segments, .sized
                (getSizeUnlocked (segments.map Segment.toFileRange))
                (backgroundChunkSize P last) true⟩)
      | _ => none
  | .shmGrow i =>
      match w.process i with
      | some ⟨segments, .sized cur chunk background⟩ =>
          some ({ w with fileSize := cur + chunk }.set i
            ⟨segments, .extended cur chunk background⟩)
      | _ => none
  | .publish i =>
      match w.process i with
      | some ⟨segments, .extended _ _ _⟩ =>
          match placementNew w (.publish i) with
          | none => some (w.set i ⟨segments, .idle⟩)
          | some r =>
              let segments' := segments ++ [⟨r, false⟩]
              match updateSegmentTable segments' w.table with
              | some t => some ({ w with table := t }.set i ⟨segments', .idle⟩)
              | none => some (w.set i ⟨segments', .idle⟩)
      | _ => none
  | .discover i required =>
      match w.process i with
      | some ⟨segments, growth⟩ =>
          some (w.set i ⟨(lazyDiscoverGrowth w.table segments required).1, growth⟩)
      | none => none

/-! ## 2. What growth must not do -/

/-- The file ranges of the published entries are pairwise disjoint. -/
def RangesDisjoint (t : SegmentTable) : Prop :=
  ∀ i j, i < t.count → j < t.count → i ≠ j →
    (t.entries i).extent.Disjoint (t.entries j).extent

/-- No inner manager is constructed over a published range. -/
def NoOverwrite (w : World I) (l : Label I) : Prop :=
  ∀ r ∈ placementNew w l, ∀ i, i < w.table.count → (w.table.entries i).extent.Disjoint r.extent

/-- The file is never cut below the end of a published range. -/
def NoShrink (w : World I) (l : Label I) : Prop :=
  ∀ n ∈ shmGrowSize w l, ∀ i, i < w.table.count → (w.table.entries i).extent.stop ≤ n.toNat

/-- The chunk a size read asks for. -/
def requestedChunk (P : Platform) (w : World I) : Label I → Option (Word × Word)
  | .readSize i minBytes _ =>
      (w.process i).map fun p => (minBytes, growChunkSize P p.segments minBytes)
  | .readSizeBackground i _ =>
      (w.process i).bind fun p =>
        p.segments.getLast?.map fun last => (0, backgroundChunkSize P last)
  | _ => none

/-- The sizes asked for and the chunks computed from them are below `2 ^ 47`. -/
def SizesBelow (P : Platform) (w : World I) (l : Label I) : Prop :=
  ∀ c ∈ requestedChunk P w l, c.1.toNat < 2 ^ 47 ∧ c.2.toNat < 2 ^ 47

/-- The size that the acting grower has read, at the steps that rely on it. -/
def reliedOnSize (w : World I) : Label I → Option Word
  | .shmGrow i =>
      match w.process i with
      | some ⟨_, .sized cur _ _⟩ => some cur
      | _ => none
  | .publish i => (placementNew w (.publish i)).map FileRange.fileOffset
  | _ => none

/-- Growers act only while the size they have read is the end of the table. -/
def GrowsFromEnd (w : World I) (l : Label I) : Prop :=
  ∀ cur ∈ reliedOnSize w l, cur = getSizeUnlocked w.table.published

omit [DecidableEq I] in
instance (P : Platform) (w : World I) (l : Label I) : Decidable (SizesBelow P w l) :=
  Option.decidableForallMem (requestedChunk P w l)

omit [DecidableEq I] in
instance (w : World I) (l : Label I) : Decidable (GrowsFromEnd w l) :=
  Option.decidableForallMem (reliedOnSize w l)

/-! ## 3. The invariant of growth from the end -/

/-- The size and the chunk a grower carries between its critical sections. -/
def Growth.carried : Growth → Option (Word × Word)
  | .idle => none
  | .sized cur chunk _ | .extended cur chunk _ => some (cur, chunk)

/-- What a table looks like after serialised growth: contiguous from offset 0,
    each entry at least twice as large as the one before it. -/
structure TableInv (t : SegmentTable) : Prop where
  laid : LaidOut 0 (extents t.published)
  nonempty : 0 < t.count
  doubling : ∀ i, i < t.count → 2 ^ (20 + i) ≤ (t.entries i).size.toNat
  bound : ∀ i, i < t.count → (t.entries i).size.toNat < 2 ^ 47

/-- A process has mapped a prefix of the table, and a grower in it has read the
    end of such a prefix. -/
structure ProcessInv (t : SegmentTable) (p : Process) : Prop where
  listed : p.ranges <+: t.published
  front : ∃ s0 rest, p.segments = s0 :: rest ∧ s0.isPrimary = true
  carried : ∀ c ∈ p.growth.carried, ∃ k, 0 < k ∧ k ≤ p.segments.length ∧
    c.1.toNat = span (extents (t.published.take k)) ∧
    2 * (t.entries (k - 1)).size.toNat ≤ c.2.toNat ∧ c.2.toNat < 2 ^ 47

structure GrowthInv (w : World I) : Prop where
  table : TableInv w.table
  processes : ∀ i p, w.process i = some p → ProcessInv w.table p

section table

variable {t : SegmentTable}

theorem TableInv.size_pos (h : TableInv t) {e : Extent} (he : e ∈ extents t.published) :
    0 < e.len := by
  simp only [extents, SegmentTable.published, List.map_map, List.mem_map, List.mem_range] at he
  obtain ⟨i, hi, rfl⟩ := he
  exact Nat.lt_of_lt_of_le (Nat.two_pow_pos _) (h.doubling i hi)

theorem TableInv.count_le (h : TableInv t) : t.count ≤ 27 := by
  by_contra hlt
  have hi : 27 < t.count := by omega
  exact absurd (h.bound 27 hi) (Nat.not_lt.mpr (h.doubling 27 hi))

theorem TableInv.span_lt (h : TableInv t) : span (extents t.published) < 2 ^ 52 := by
  have hle : span (extents t.published) ≤ (extents t.published).length * 2 ^ 47 := by
    refine span_le_of_forall_le fun e he => ?_
    simp only [extents, SegmentTable.published, List.map_map, List.mem_map,
      List.mem_range] at he
    obtain ⟨i, hi, rfl⟩ := he
    exact Nat.le_of_lt (h.bound i hi)
  rw [extents_length, SegmentTable.published_length] at hle
  have hmul := Nat.mul_le_mul_right (2 ^ 47) h.count_le
  omega

theorem TableInv.getSize_toNat (h : TableInv t) {rs : List FileRange}
    (hrs : rs <+: t.published) : (getSizeUnlocked rs).toNat = span (extents rs) := by
  refine getSizeUnlocked_toNat ?_
  have hle : span (extents rs) ≤ span (extents t.published) := by
    rw [List.prefix_iff_eq_take.mp hrs, extents_take]
    exact span_take_le _
  have hlt := h.span_lt
  omega

/-- A prefix whose sizes add up to the end of the table is the whole table. -/
theorem TableInv.eq_count (h : TableInv t) {k : Nat} (hk : k ≤ t.count) {cur : Word}
    (hcur : cur.toNat = span (extents (t.published.take k)))
    (hend : cur = getSizeUnlocked t.published) : k = t.count := by
  rw [hend, h.getSize_toNat (List.prefix_rfl), extents_take] at hcur
  have hlen : (extents t.published).length = t.count := by simp
  rw [← hlen]
  exact take_length_of_span_eq (fun e he => h.size_pos he) (by omega) hcur.symm

theorem TableInv.rangesDisjoint (h : TableInv t) : RangesDisjoint t := by
  intro i j hi hj hij
  have hlen : (extents t.published).length = t.count := by simp
  have hd := h.laid.disjoint (by omega : i < (extents t.published).length)
    (by omega : j < (extents t.published).length) hij
  simpa [extents, SegmentTable.published] using hd

/-- Every published range ends at or before the end of the table. -/
theorem TableInv.stop_le (h : TableInv t) {i : Nat} (hi : i < t.count) :
    (t.entries i).extent.stop ≤ (getSizeUnlocked t.published).toNat := by
  rw [h.getSize_toNat List.prefix_rfl]
  have hmem : (t.entries i).extent ∈ extents t.published := by
    simp only [extents, SegmentTable.published, List.map_map, List.mem_map, List.mem_range]
    exact ⟨i, hi, rfl⟩
  simpa using (h.laid.bounds hmem).2

/-- Appending a chunk at the end keeps the table well formed. -/
theorem TableInv.append (h : TableInv t) {cur chunk : Word}
    (hcur : cur = getSizeUnlocked t.published)
    (htwice : 2 * (t.entries (t.count - 1)).size.toNat ≤ chunk.toNat)
    (hchunk : chunk.toNat < 2 ^ 47) :
    TableInv { t with count := t.count + 1,
                      entries := Function.update t.entries t.count ⟨cur, chunk⟩ } := by
  have hpos := h.nonempty
  have hat : ∀ i, i < t.count + 1 →
      Function.update t.entries t.count ⟨cur, chunk⟩ i =
        if i = t.count then ⟨cur, chunk⟩ else t.entries i := fun i _ =>
    Function.update_apply _ _ _ _
  refine ⟨?_, Nat.succ_pos _, fun i hi => ?_, fun i hi => ?_⟩
  · rw [SegmentTable.published_update, extents_append, extents_cons, extents_nil,
      laidOut_concat]
    refine ⟨h.laid, ?_⟩
    simp only [FileRange.extent, hcur, h.getSize_toNat List.prefix_rfl, Nat.zero_add]
  · have hi' : i < t.count + 1 := hi
    simp only [hat i hi]
    split
    · rename_i heq
      have hlast := h.doubling (t.count - 1) (by omega)
      have hpow : 2 ^ (20 + i) = 2 * 2 ^ (20 + (t.count - 1)) := by
        rw [← Nat.pow_succ', heq]
        congr 1
        omega
      simp only [hpow]
      omega
    · exact h.doubling i (by omega)
  · have hi' : i < t.count + 1 := hi
    simp only [hat i hi]
    split
    · exact hchunk
    · exact h.bound i (by omega)

/-- What a process knows stays true when the table grows behind its entries. -/
theorem ProcessInv.mono {t' : SegmentTable} {p : Process} (h : ProcessInv t p)
    (hpub : t.published <+: t'.published)
    (hent : ∀ i, i < t.count → t'.entries i = t.entries i) : ProcessInv t' p := by
  refine ⟨h.listed.trans hpub, h.front, fun c hc => ?_⟩
  obtain ⟨k, hk, hlen, hcur, htwice, hchunk⟩ := h.carried c hc
  have hle : p.segments.length ≤ t.published.length := by
    simpa [Process.ranges] using h.listed.length_le
  have htake : t'.published.take k = t.published.take k := by
    obtain ⟨rest, hrest⟩ := hpub
    rw [← hrest, List.take_append_of_le_length (by omega)]
  rw [SegmentTable.published_length] at hle
  exact ⟨k, hk, hlen, by rw [htake]; exact hcur, by rw [hent _ (by omega)]; exact htwice, hchunk⟩

end table

/-! ## 4. Every critical section keeps the invariant -/

section steps

variable {P : Platform} {t : SegmentTable}

theorem growChunkSize_ge {segments : List Segment} {last : Segment} {minBytes : Word}
    (hlast : segments.getLast? = some last) (hbound : last.size.toNat < 2 ^ 47)
    (hmin : minBytes.toNat < 2 ^ 47) :
    2 * last.size.toNat ≤ (growChunkSize P segments minBytes).toNat := by
  have htwice : (last.size * kGrowMultiplier).toNat = 2 * last.size.toNat := by
    simp only [kGrowMultiplier, BitVec.toNat_mul, BitVec.toNat_ofNat]
    omega
  have hmax := umax_toNat minBytes (last.size * kGrowMultiplier)
  have hge := P.alignUp_ge (v := umax minBytes (last.size * kGrowMultiplier)) (by omega)
  simp only [growChunkSize, hlast]
  omega

theorem backgroundChunkSize_ge {last : Segment} (hbound : last.size.toNat < 2 ^ 47) :
    2 * last.size.toNat ≤ (backgroundChunkSize P last).toNat := by
  have htwice : (last.size * kGrowMultiplier).toNat = 2 * last.size.toNat := by
    simp only [kGrowMultiplier, BitVec.toNat_mul, BitVec.toNat_ofNat]
    omega
  have hmax := umax_toNat kMinSegmentSize (last.size * kGrowMultiplier)
  have hmin : kMinSegmentSize.toNat = 2 ^ 20 := rfl
  have hge := P.alignUp_ge (v := umax kMinSegmentSize (last.size * kGrowMultiplier)) (by omega)
  simp only [backgroundChunkSize]
  omega

/-- A size read leaves the grower with the end of a prefix and at least twice
    the size of the prefix's last segment. -/
theorem ProcessInv.read (ht : TableInv t) {p : Process} (h : ProcessInv t p)
    {last : Segment} (hlast : p.segments.getLast? = some last) {chunk : Word} {bg : Bool}
    (htwice : 2 * last.size.toNat ≤ chunk.toNat) (hchunk : chunk.toNat < 2 ^ 47) :
    ProcessInv t ⟨p.segments, .sized (getSizeUnlocked p.ranges) chunk bg⟩ := by
  refine ⟨h.listed, h.front, fun c hc => ?_⟩
  have hc' : c = (getSizeUnlocked p.ranges, chunk) := by simpa [Growth.carried] using hc.symm
  subst hc'
  obtain ⟨s0, rest, hs, -⟩ := h.front
  have hlen : 0 < p.segments.length := by simp [hs]
  have hranges : p.ranges = t.published.take p.segments.length := by
    simpa [Process.ranges] using List.prefix_iff_eq_take.mp h.listed
  have hle : p.segments.length ≤ t.count := by
    simpa [Process.ranges] using h.listed.length_le
  refine ⟨p.segments.length, hlen, Nat.le_refl _, ?_, ?_, hchunk⟩
  · rw [← hranges]
    exact ht.getSize_toNat h.listed
  · -- the last segment of the list is the table entry at its position
    have hget : p.ranges[p.segments.length - 1]? = some last.toFileRange := by
      rw [Process.ranges, List.getElem?_map, ← List.getLast?_eq_getElem?, hlast]
      rfl
    rw [hranges, List.getElem?_take_of_lt (by omega),
      List.getElem?_eq_getElem (by simp; omega), SegmentTable.published_getElem] at hget
    rw [Option.some.inj hget]
    exact htwice

theorem SegmentTable.published_eq_cons (hpos : 0 < t.count) :
    t.published = t.entries 0 :: t.published.drop 1 := by
  have hlen : 0 < t.published.length := by simpa using hpos
  conv_lhs => rw [← List.drop_zero (l := t.published), List.drop_eq_getElem_cons hlen]
  rw [SegmentTable.published_getElem]

/-- `open_all_segments` maps the whole table. -/
theorem processInv_attach (ht : TableInv t) {segments : List Segment}
    (hopen : openAllSegments t = some segments) : ProcessInv t ⟨segments, .idle⟩ := by
  have hcons := SegmentTable.published_eq_cons ht.nonempty
  have hsize := ht.doubling 0 ht.nonempty
  have hmin : kMinSegmentSize.toNat = 2 ^ 20 := rfl
  have hs0 : (if (t.entries 0).size > kMinSegmentSize then (t.entries 0).size
      else kMinSegmentSize) = (t.entries 0).size := by
    split
    · rfl
    · rename_i hle
      rw [gt_iff_lt, BitVec.lt_def] at hle
      apply BitVec.eq_of_toNat_eq
      have := ht.bound 0 ht.nonempty
      omega
  have hoff : (t.entries 0).fileOffset = 0 := by
    have hlaid := ht.laid
    rw [hcons, extents_cons, laidOut_cons] at hlaid
    exact BitVec.eq_of_toNat_eq hlaid.1
  unfold openAllSegments at hopen
  split at hopen
  · cases hopen
  · simp only [hs0, Option.some.injEq] at hopen
    subst hopen
    refine ⟨?_, ⟨_, _, rfl, rfl⟩, fun c hc => by cases hc⟩
    have hrest : (t.published.drop 1).map (Segment.toFileRange ∘ fun e => ⟨e, false⟩) =
        t.published.drop 1 := List.map_id _
    simp only [Process.ranges, List.map_cons, List.map_map, hrest]
    rw [← hoff]
    exact hcons ▸ List.prefix_rfl

/-- Discovery appends the published entries that are missing. -/
theorem ProcessInv.discover {p : Process} (h : ProcessInv t p) (required : Word) :
    ProcessInv t ⟨(lazyDiscoverGrowth t p.segments required).1, p.growth⟩ := by
  simp only [lazyDiscoverGrowth]
  split
  · exact h
  · refine ⟨?_, ?_, fun c hc => ?_⟩
    · have hrest : (t.published.drop p.segments.length).map
          (Segment.toFileRange ∘ fun e => ⟨e, false⟩) = t.published.drop p.segments.length :=
        List.map_id _
      have hranges : p.segments.map Segment.toFileRange =
          t.published.take p.segments.length := by
        simpa [Process.ranges] using List.prefix_iff_eq_take.mp h.listed
      simp only [Process.ranges, List.map_append, List.map_map, hrest, hranges,
        List.take_append_drop]
      exact List.prefix_rfl
    · obtain ⟨s0, rest, hs, hprim⟩ := h.front
      exact ⟨s0, _, by simp only [hs, List.cons_append]; rfl, hprim⟩
    · obtain ⟨k, hk, hlen, hrest⟩ := h.carried c hc
      exact ⟨k, hk, by simp only [List.length_append]; omega, hrest⟩

/-- Publishing from the end of the table appends the chunk to the table and to
    the list of the grower, whose list was the whole table. -/
theorem ProcessInv.publish (ht : TableInv t) {p : Process} (h : ProcessInv t p)
    {cur chunk : Word} (hc : (cur, chunk) ∈ p.growth.carried)
    (hend : cur = getSizeUnlocked t.published) :
    ∃ t', updateSegmentTable (p.segments ++ [⟨⟨cur, chunk⟩, false⟩]) t = some t' ∧
      TableInv t' ∧ t.published <+: t'.published ∧
      (∀ i, i < t.count → t'.entries i = t.entries i) ∧
      ProcessInv t' ⟨p.segments ++ [⟨⟨cur, chunk⟩, false⟩], .idle⟩ := by
  obtain ⟨k, hk, hlen, hcur, htwice, hchunk⟩ := h.carried _ hc
  obtain ⟨s0, rest, hs, hprim⟩ := h.front
  have hle : p.segments.length ≤ t.count := by
    simpa [Process.ranges] using h.listed.length_le
  have hkc : k = t.count := ht.eq_count (by omega) hcur hend
  have hcount : p.segments.length = t.count := by omega
  have hsmall := ht.count_le
  let t' : SegmentTable := { t with
    count := t.count + 1, entries := Function.update t.entries t.count ⟨cur, chunk⟩ }
  have hpub : t'.published = t.published ++ [⟨cur, chunk⟩] := t.published_update _
  have hupdate : updateSegmentTable (p.segments ++ [⟨⟨cur, chunk⟩, false⟩]) t = some t' := by
    have hfit : ¬ t.count ≥ kMaxSubSegments := by simp only [kMaxSubSegments]; omega
    rw [updateSegmentTable_concat ⟨s0, rest, hs, hprim⟩, hcount, if_neg hfit]
  refine ⟨t', hupdate, ht.append hend (hkc ▸ htwice) hchunk, hpub ▸ List.prefix_append _ _,
    fun i hi => Function.update_of_ne (Nat.ne_of_lt hi) _ _, ?_, ?_, fun c hc => by cases hc⟩
  · have hranges : p.segments.map Segment.toFileRange = t.published := by
      have htake := List.prefix_iff_eq_take.mp h.listed
      rw [Process.ranges, List.length_map, hcount, ← t.published_length, List.take_length]
        at htake
      exact htake
    simp only [Process.ranges, List.map_append, List.map_cons, List.map_nil, hranges, hpub]
    exact List.prefix_rfl
  · exact ⟨s0, rest ++ [⟨⟨cur, chunk⟩, false⟩], by simp [hs], hprim⟩

theorem ProcessInv.last_bound (ht : TableInv t) {p : Process} (h : ProcessInv t p)
    {last : Segment} (hlast : p.segments.getLast? = some last) : last.size.toNat < 2 ^ 47 := by
  have hmem : last.toFileRange ∈ t.published := by
    refine h.listed.subset ?_
    exact List.mem_map_of_mem (List.mem_of_getLast? hlast)
  simp only [SegmentTable.published, List.mem_map, List.mem_range] at hmem
  obtain ⟨i, hi, heq⟩ := hmem
  rw [← heq]
  exact ht.bound i hi

end steps

variable {P : Platform} {w w' : World I}

theorem GrowthInv.set (h : GrowthInv w) {i : I} {p : Process} (hp : ProcessInv w.table p) :
    GrowthInv (w.set i p) := by
  refine ⟨h.table, fun j q hq => ?_⟩
  by_cases hji : j = i
  · subst hji
    have hqp : q = p := by simpa [World.set] using hq.symm
    exact hqp ▸ hp
  · exact h.processes j q (by simpa [World.set, hji] using hq)

theorem growthInv_created (creator : I) {initialSize : Word}
    (hsize : initialSize.toNat < 2 ^ 47) : GrowthInv (created creator initialSize : World I) := by
  have hmax := umax_toNat initialSize kMinSegmentSize
  have hmin : kMinSegmentSize.toNat = 2 ^ 20 := rfl
  have hpub : (created creator initialSize : World I).table.published =
      [⟨0, umax initialSize kMinSegmentSize⟩] := rfl
  have hentry : (created creator initialSize : World I).table.entries 0 =
      ⟨0, umax initialSize kMinSegmentSize⟩ := rfl
  refine ⟨⟨?_, Nat.one_pos, fun i hi => ?_, fun i hi => ?_⟩, fun i p hp => ?_⟩
  · rw [hpub]
    exact ⟨rfl, trivial⟩
  · obtain rfl : i = 0 := Nat.lt_one_iff.mp hi
    simp only [hentry]
    omega
  · obtain rfl : i = 0 := Nat.lt_one_iff.mp hi
    simp only [hentry]
    omega
  · simp only [created] at hp
    split at hp
    · cases hp
      exact ⟨hpub ▸ List.prefix_rfl, ⟨_, [], rfl, rfl⟩, fun c hc => by cases hc⟩
    · cases hp

/-- The step lemma: a critical section of a grower that acts from the end of
    the table, or of anyone else, keeps the invariant. -/
theorem growthInv_step {l : Label I} (hinv : GrowthInv w) (hsizes : SizesBelow P w l)
    (hend : GrowsFromEnd w l) (h : step P w l = some w') : GrowthInv w' := by
  have ht := hinv.table
  cases l with
  | attach i =>
    simp only [step] at h
    split at h
    · cases h
    · obtain ⟨segments, hopen, rfl⟩ := Option.map_eq_some_iff.mp h
      exact hinv.set (processInv_attach ht hopen)
  | readSize i minBytes freeMemory =>
    simp only [step] at h
    split at h
    · rename_i segments hp
      have hproc := hinv.processes i _ hp
      split at h
      · cases h
        exact hinv
      · cases h
        obtain ⟨s0, rest, hs, -⟩ := hproc.front
        obtain ⟨last, hlast⟩ : ∃ last, segments.getLast? = some last :=
          ⟨_, List.getLast?_eq_some_getLast (by simp [show segments = s0 :: rest from hs])⟩
        obtain ⟨hmin, hchunk⟩ := hsizes (minBytes, growChunkSize P segments minBytes)
          (by simp [requestedChunk, hp])
        exact hinv.set (hproc.read ht hlast
          (growChunkSize_ge hlast (hproc.last_bound ht hlast) hmin) hchunk)
    · cases h
  | readSizeBackground i lastFreeMemory =>
    simp only [step] at h
    split at h
    · rename_i segments hp
      have hproc := hinv.processes i _ hp
      split at h
      · cases h
        exact hinv
      · rename_i last hlast
        split at h
        · cases h
          exact hinv
        · cases h
          obtain ⟨-, hchunk⟩ := hsizes (0, backgroundChunkSize P last)
            (by simp [requestedChunk, hp, hlast])
          exact hinv.set (hproc.read ht hlast
            (backgroundChunkSize_ge (hproc.last_bound ht hlast)) hchunk)
    · cases h
  | shmGrow i =>
    simp only [step] at h
    split at h
    · rename_i segments cur chunk background hp
      cases h
      have hproc := hinv.processes i _ hp
      have hbase : GrowthInv { w with fileSize := cur + chunk } := ⟨ht, hinv.processes⟩
      have hproc' : ProcessInv w.table ⟨segments, .extended cur chunk background⟩ :=
        ⟨hproc.listed, hproc.front, hproc.carried⟩
      exact hbase.set hproc'
    · cases h
  | publish i =>
    simp only [step] at h
    split at h
    · rename_i segments cur chunk background hp
      have hproc := hinv.processes i _ hp
      split at h
      · cases h
        exact hinv.set ⟨hproc.listed, hproc.front, fun c hc => by cases hc⟩
      · rename_i r hr
        have hrange : r = ⟨cur, chunk⟩ := by
          simp only [placementNew, hp] at hr
          split at hr
          · cases hr
          · exact (Option.some.inj hr).symm
        subst hrange
        have hcur : cur = getSizeUnlocked w.table.published :=
          hend cur (by simp [reliedOnSize, hr])
        obtain ⟨t', hupdate, ht', hpub, hent, hproc'⟩ :=
          hproc.publish ht (show (cur, chunk) ∈ _ from rfl) hcur
        rw [show updateSegmentTable (segments ++ [⟨⟨cur, chunk⟩, false⟩]) w.table = some t'
          from hupdate] at h
        cases h
        refine GrowthInv.set ⟨ht', fun j q hq => ?_⟩ hproc'
        exact (hinv.processes j q hq).mono hpub hent
    · cases h
  | discover i required =>
    simp only [step] at h
    split at h
    · rename_i segments growth hp
      cases h
      exact hinv.set ((hinv.processes i _ hp).discover required)
    · cases h

/-! ## 5. Results -/

/-- Every grower relies on a size that is still the end of the table. -/
def SerialisedGrowth (P : Platform) (w : World I) (l : Label I) : Prop :=
  SizesBelow P w l ∧ GrowsFromEnd w l

omit [DecidableEq I] in
instance (w : World I) (l : Label I) : Decidable (SerialisedGrowth P w l) :=
  inferInstanceAs (Decidable (_ ∧ _))

/-- Any number of processes, any interleaving: while growers act from the end
    of the table, the published ranges stay disjoint, no inner manager is
    constructed over a published range, and the file is never cut below one. -/
theorem serialised_growth_safe {creator : I} {initialSize : Word}
    (hsize : initialSize.toNat < 2 ^ 47)
    (hrun : Steps (step P) (SerialisedGrowth P) (created creator initialSize) w) :
    RangesDisjoint w.table ∧
      ∀ l, SerialisedGrowth P w l → (step P w l).isSome = true →
        NoOverwrite w l ∧ NoShrink w l := by
  have hinv := hrun.invariant GrowthInv (growthInv_created creator hsize)
    fun _ _ _ hi hC hs => growthInv_step hi hC.1 hC.2 hs
  have ht := hinv.table
  refine ⟨ht.rangesDisjoint, fun l hC _ => ⟨fun r hr i hi => ?_, fun n hn i hi => ?_⟩⟩
  · -- the chunk starts where the published ranges end
    have hoff : r.fileOffset = getSizeUnlocked w.table.published := by
      cases l with
      | publish j => exact hC.2 r.fileOffset (by simp [reliedOnSize, Option.mem_def.mp hr])
      | _ => cases hr
    have hstop := ht.stop_le hi
    exact .inl (by simp only [FileRange.extent, hoff] at hstop ⊢; exact hstop)
  · cases l with
    | shmGrow j =>
      simp only [shmGrowSize] at hn
      split at hn
      · rename_i p hp
        split at hn
        · rename_i cur chunk background hgrowth
          obtain rfl := Option.some.inj hn
          have hp' : w.process j = some ⟨p.segments, .sized cur chunk background⟩ := by
            rw [hp, ← hgrowth]
          have hcur := hC.2 cur (by simp [reliedOnSize, hp'])
          obtain ⟨-, -, -, -, -, hlt⟩ := (hinv.processes j p hp).carried (cur, chunk)
            (by rw [hgrowth]; rfl)
          have hchunk : chunk.toNat < 2 ^ 47 := hlt
          have hstop := ht.stop_le hi
          have hspan := ht.span_lt
          rw [← ht.getSize_toNat List.prefix_rfl, ← hcur] at hspan
          rw [← hcur] at hstop
          rw [BitVec.toNat_add, Nat.mod_eq_of_lt (by omega)]
          omega
        · cases hn
      · cases hn
    | _ => cases hn

/-- One whole growth: size read, file extended, chunk published. -/
def growSchedule {I : Type} (i : I) (minBytes : Word) : List (Label I) :=
  [.readSize i minBytes 0, .shmGrow i, .publish i]

/-- Two processes that take turns and attach or discover before they grow. -/
theorem serialised_growth_safe_two :
    ∃ w : World Bool, w.table.count = 3 ∧ RangesDisjoint w.table := by
  let schedule : List (Label Bool) :=
    .attach true :: growSchedule false kMinSegmentSize ++ [.discover true kMinSegmentSize] ++
      growSchedule true kMinSegmentSize
  have hex : ∃ w : World Bool, Steps (step fourKiBPages) (SerialisedGrowth fourKiBPages)
      (created false kMinSegmentSize) w ∧ decide (w.table.count = 3) = true :=
    Steps.exists_of_replay schedule (by decide)
  obtain ⟨w, hrun, hcount⟩ := hex
  exact ⟨w, of_decide_eq_true hcount, (serialised_growth_safe (by decide) hrun).1⟩

/-- A process that has read the file size before another one published a chunk
    constructs its inner manager over that chunk, cuts the file below later
    ones, and leaves a table with overlapping ranges. -/
theorem stale_growth_unsafe :
    (¬ ∀ w : World Bool, Steps (step fourKiBPages) (SizesBelow fourKiBPages)
        (created false kMinSegmentSize) w → RangesDisjoint w.table) ∧
    (¬ ∀ (w : World Bool) (l : Label Bool), Steps (step fourKiBPages) (SizesBelow fourKiBPages)
        (created false kMinSegmentSize) w → SizesBelow fourKiBPages w l →
        (step fourKiBPages w l).isSome = true → NoOverwrite w l) ∧
    (¬ ∀ (w : World Bool) (l : Label Bool), Steps (step fourKiBPages) (SizesBelow fourKiBPages)
        (created false kMinSegmentSize) w → SizesBelow fourKiBPages w l →
        (step fourKiBPages w l).isSome = true → NoShrink w l) := by
  refine ⟨fun hall => ?_, fun hall => ?_, fun hall => ?_⟩
  · -- the stale entry 1 reaches into entry 2, which the next growth publishes again
    let schedule : List (Label Bool) :=
      [.attach true, .readSize true 0x800000 0] ++ growSchedule false kMinSegmentSize ++
        growSchedule false kMinSegmentSize ++ [.shmGrow true, .publish true] ++
        growSchedule false kMinSegmentSize
    have hex : ∃ w : World Bool, Steps (step fourKiBPages) (SizesBelow fourKiBPages)
        (created false kMinSegmentSize) w ∧ decide (2 < w.table.count ∧
          (w.table.entries 1).extent = ⟨0x100000, 0x800000⟩ ∧
          (w.table.entries 2).extent = ⟨0x300000, 0x400000⟩) = true :=
      Steps.exists_of_replay schedule (by decide)
    obtain ⟨w, hrun, hw⟩ := hex
    obtain ⟨hcount, h1, h2⟩ := of_decide_eq_true hw
    have hdis := hall w hrun 1 2 (by omega) hcount (by decide)
    rw [h1, h2] at hdis
    exact absurd hdis (by decide)
  · let schedule : List (Label Bool) :=
      [.attach true, .readSize true kMinSegmentSize 0] ++ growSchedule false kMinSegmentSize ++
        [.shmGrow true]
    have hex : ∃ w : World Bool, Steps (step fourKiBPages) (SizesBelow fourKiBPages)
        (created false kMinSegmentSize) w ∧ decide (1 < w.table.count ∧
          (step fourKiBPages w (.publish true)).isSome = true ∧
          placementNew w (.publish true) = some (w.table.entries 1) ∧
          (w.table.entries 1).extent = ⟨0x100000, 0x200000⟩) = true :=
      Steps.exists_of_replay schedule (by decide)
    obtain ⟨w, hrun, hw⟩ := hex
    obtain ⟨hcount, hstep, hnew, h1⟩ := of_decide_eq_true hw
    have hdis := hall w (.publish true) hrun (by intro c hc; cases hc) hstep _ hnew 1 hcount
    rw [h1] at hdis
    exact absurd hdis (by decide)
  · let schedule : List (Label Bool) :=
      [.attach true, .readSize true kMinSegmentSize 0] ++ growSchedule false kMinSegmentSize ++
        growSchedule false kMinSegmentSize
    have hex : ∃ w : World Bool, Steps (step fourKiBPages) (SizesBelow fourKiBPages)
        (created false kMinSegmentSize) w ∧ decide (2 < w.table.count ∧
          (step fourKiBPages w (.shmGrow true)).isSome = true ∧
          shmGrowSize w (.shmGrow true) = some 0x300000 ∧
          (w.table.entries 2).extent = ⟨0x300000, 0x400000⟩) = true :=
      Steps.exists_of_replay schedule (by decide)
    obtain ⟨w, hrun, hw⟩ := hex
    obtain ⟨hcount, hstep, hsize, h2⟩ := of_decide_eq_true hw
    have hle := hall w (.shmGrow true) hrun (by intro c hc; cases hc) hstep _ hsize 2 hcount
    rw [h2] at hle
    exact absurd hle (by decide)
end Memnon.SharedGrowth
