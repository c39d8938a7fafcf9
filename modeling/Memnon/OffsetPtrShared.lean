import Memnon.OffsetPtrRoundTrip

/-!
# Pointers in shared segments mean the same in every process

A pointer in a SHM segment stores the distance between two file offsets. So a
process that has mapped the file elsewhere, and only part of it, decodes it to
its own address of the same file offset: it maps what the table lists and it has
not mapped yet when the offset is beyond what it has.
-/

namespace Memnon.OffsetPtr

open Memnon.Lib
open Memnon.Trie (Config HasPage InKeySpace keyBound pageOf)

variable {M : Type} [DecidableEq M]

/-- The process has mapped the segments that a prefix of the table lists. -/
structure Attached (cfg : Config) (t : SegmentTable) (mgr : M) (live : List (LiveSegment M))
    (p : Process M) : Prop where
  maps : Maps cfg live p
  shm : p.anon mgr = false
  kind : ∀ s ∈ segmentsOf live mgr, s.isAnon = false
  listed : fileRangesOf live mgr <+: t.published

/-- The segment that mapping a table entry makes. -/
def mapEntry (openShmChunk : M → Word → Word → Option Mapping) (mgr : M) (e : FileRange) :
    Option (LiveSegment M) :=
  (openShmChunk mgr e.size e.fileOffset).map fun mapping => ⟨discovered mgr e mapping, mapping.seg⟩

variable {cfg : Config} {pick : Trie.Memory Unit → Word}
  {openShmChunk : M → Word → Word → Option Mapping} {live new : List (LiveSegment M)}
  {p : Process M} {t : SegmentTable} {mgr : M} {s : LiveSegment M} {fileOffset addr : Word}

/-! ## 1. Addresses and file offsets -/

omit [DecidableEq M] in
theorem fileOffsetOf_addrOf (s : LiveSegment M) (fileOffset : Word) :
    s.fileOffsetOf (s.addrOf fileOffset) = fileOffset := by
  show s.fileOffset + (s.baseVaddr + (fileOffset - s.fileOffset) - s.baseVaddr) = fileOffset
  rw [add_sub_left, add_sub_self]

omit [DecidableEq M] in
/-- The address of a file offset of the segment is in the segment. -/
theorem contains_addrOf (hspace : s.baseVaddr.toNat + s.size.toNat ≤ 2 ^ 64)
    (hcovers : s.coversFileOffset fileOffset = true) : s.Contains (s.addrOf fileOffset) := by
  simp only [SubSegment.coversFileOffset, Bool.and_eq_true, decide_eq_true_eq, ge_iff_le,
    BitVec.le_def, BitVec.lt_def, BitVec.toNat_add] at hcovers
  have hdist : (fileOffset - s.fileOffset).toNat = fileOffset.toNat - s.fileOffset.toNat := by
    rw [BitVec.toNat_sub]
    omega
  have hin : fileOffset.toNat - s.fileOffset.toNat < s.size.toNat := by
    have hmod := Nat.mod_le (s.fileOffset.toNat + s.size.toNat) (2 ^ 64)
    omega
  have haddr : (s.addrOf fileOffset).toNat =
      s.baseVaddr.toNat + (fileOffset.toNat - s.fileOffset.toNat) := by
    rw [SubSegment.addrOf, BitVec.toNat_add, hdist, Nat.mod_eq_of_lt (by omega)]
  constructor
  · omega
  · omega

theorem Maps.contains_addrOf (h : Maps cfg live p) (hs : s ∈ live)
    (hcovers : s.coversFileOffset fileOffset = true) : s.Contains (s.addrOf fileOffset) :=
  OffsetPtr.contains_addrOf (Nat.le_trans (Nat.le_add_right _ _) (h.stop_le hs)) hcovers

theorem exists_covering (hlaid : LaidOut 0 (extents (fileRangesOf live mgr)))
    (hsize : span (extents (fileRangesOf live mgr)) < 2 ^ 64)
    (hin : fileOffset.toNat < span (extents (fileRangesOf live mgr))) :
    ∃ s ∈ segmentsOf live mgr, s.coversFileOffset fileOffset = true := by
  obtain ⟨e, he, hcovers⟩ := hlaid.exists_covers (Nat.zero_le _) (by rwa [Nat.zero_add])
  obtain ⟨range, hrange, rfl⟩ := List.mem_map.mp he
  obtain ⟨s, hs, rfl⟩ := List.mem_map.mp hrange
  exact ⟨s, hs, (coversFileOffset_eq hlaid hsize hs fileOffset).trans hcovers⟩

/-! ## 2. Discovery -/

/-- The loop maps every missing entry. -/
theorem discoverLoop_lists (cfg : Config) (pick : Trie.Memory Unit → Word)
    {es : List FileRange} (h : Lists live p)
    (hmapped : es.mapM (mapEntry openShmChunk mgr) = some new)
    (hfresh : ((live ++ new).map LiveSegment.seg).Nodup) :
    ∃ p', discoverLoop cfg pick openShmChunk mgr es p = some ((), p') ∧ Lists (live ++ new) p' := by
  induction es generalizing live new p with
  | nil =>
    obtain rfl : [] = new := Option.some.inj hmapped
    exact ⟨p, rfl, by rwa [List.append_nil]⟩
  | cons e es ih =>
    rw [List.mapM_cons] at hmapped
    obtain ⟨s, hs, hrest⟩ := Option.bind_eq_some_iff.mp hmapped
    obtain ⟨rest, hes, hnew⟩ := Option.bind_eq_some_iff.mp hrest
    obtain rfl : s :: rest = new := Option.some.inj hnew
    obtain ⟨mapping, hmap, rfl⟩ := Option.map_eq_some_iff.mp hs
    have hother : ∀ x ∈ live, x.seg ≠ mapping.seg := by
      intro x hx
      rw [List.map_append, List.nodup_append] at hfresh
      exact hfresh.2.2 x.seg (List.mem_map_of_mem hx) mapping.seg List.mem_cons_self
    rw [List.append_cons] at hfresh ⊢
    obtain ⟨p', hrun, hp'⟩ := ih (h.add cfg pick hother) hes hfresh
    exact ⟨p', by rw [discoverLoop, hmap]; exact hrun, hp'⟩

omit [DecidableEq M] in
/-- The segments of the missing entries, all of the one manager. -/
theorem mapM_mapEntry {es : List FileRange}
    (hmapped : es.mapM (mapEntry openShmChunk mgr) = some new) :
    (new.map fun s => (⟨s.fileOffset, s.size⟩ : FileRange)) = es ∧ ∀ s ∈ new, s.manager = mgr := by
  induction es generalizing new with
  | nil =>
    obtain rfl : [] = new := Option.some.inj hmapped
    exact ⟨rfl, fun s hs => by cases hs⟩
  | cons e es ih =>
    rw [List.mapM_cons] at hmapped
    obtain ⟨s, hs, hrest⟩ := Option.bind_eq_some_iff.mp hmapped
    obtain ⟨rest, hes, hnew⟩ := Option.bind_eq_some_iff.mp hrest
    obtain rfl : s :: rest = new := Option.some.inj hnew
    obtain ⟨mapping, -, rfl⟩ := Option.map_eq_some_iff.mp hs
    obtain ⟨hranges, hmgr⟩ := ih hes
    constructor
    · rw [List.map_cons, hranges]
      rfl
    · intro x hx
      rcases List.mem_cons.mp hx with rfl | hx
      · rfl
      · exact hmgr x hx

/-- After discovery the manager's list is the whole table. -/
theorem fileRangesOf_discovered (hpre : fileRangesOf live mgr <+: t.published)
    (hmapped : (t.published.drop (segmentsOf live mgr).length).mapM
      (mapEntry openShmChunk mgr) = some new) :
    segmentsOf (live ++ new) mgr = segmentsOf live mgr ++ new ∧
      fileRangesOf (live ++ new) mgr = t.published := by
  obtain ⟨hranges, hmgr⟩ := mapM_mapEntry hmapped
  have hsegs : segmentsOf (live ++ new) mgr = segmentsOf live mgr ++ new := by
    have hall : segmentsOf new mgr = new :=
      List.filter_eq_self.mpr fun s hs => decide_eq_true (hmgr s hs)
    rw [segmentsOf, List.filter_append]
    exact congrArg _ hall
  refine ⟨hsegs, ?_⟩
  have hold : fileRangesOf live mgr = t.published.take (segmentsOf live mgr).length := by
    have htake := List.prefix_iff_eq_take.mp hpre
    rwa [fileRangesOf, List.length_map] at htake
  rw [fileRangesOf, hsegs, List.map_append, hranges]
  exact (congrArg (· ++ _) hold).trans (List.take_append_drop _ _)

/-- A file offset that the table covers and the list does not is discovered. -/
theorem lazyDiscoverGrowth_missing {segments : List Memnon.Segment} {required : Word}
    (hpre : rangesOf segments <+: t.published) (hsize : span (extents t.published) < 2 ^ 63)
    (hbeyond : span (extents (rangesOf segments)) ≤ required.toNat)
    (hlisted : required.toNat < span (extents t.published)) :
    lazyDiscoverGrowth t segments required =
      (segments ++ (t.published.drop segments.length).map fun e => ⟨e, false⟩, true) := by
  obtain ⟨missing, hmissing⟩ := hpre
  have hspan : span (extents (rangesOf segments)) + span (extents missing) =
      span (extents t.published) := by
    rw [← span_append, ← extents_append, hmissing]
  have hdrop : t.published.drop segments.length = missing := by
    rw [← hmissing, ← rangesOf_length]
    exact List.drop_left
  have hcurrent :
      (getSizeUnlocked (rangesOf segments)).toNat = span (extents (rangesOf segments)) :=
    getSizeUnlocked_toNat (by omega)
  have htotal :
      missing.foldl (fun total e => total + e.size) (getSizeUnlocked (rangesOf segments)) =
        getSizeUnlocked t.published := by
    rw [getSizeUnlocked, getSizeUnlocked, ← List.foldl_append, hmissing]
  have hnew : ¬ required < getSizeUnlocked (rangesOf segments) := by
    rw [BitVec.lt_def, hcurrent]
    omega
  have hfound : required < getSizeUnlocked t.published := by
    rw [BitVec.lt_def, getSizeUnlocked_toNat (by omega)]
    exact hlisted
  have hsome : missing.isEmpty = false := by
    cases missing with
    | nil =>
      simp only [extents_nil, span_nil] at hspan
      omega
    | cons e es => rfl
  unfold lazyDiscoverGrowth
  rw [hdrop]
  show (if required < getSizeUnlocked (rangesOf segments) then _ else _) = _
  rw [if_neg hnew]
  show (_, !missing.isEmpty &&
    decide (required < missing.foldl _ (getSizeUnlocked (rangesOf segments)))) = _
  rw [hsome, htotal, decide_eq_true hfound]
  rfl

theorem Lists.discover (cfg : Config) (pick : Trie.Memory Unit → Word) (h : Lists live p)
    (hshm : p.anon mgr = false) (htable : p.table mgr = t)
    (hpre : fileRangesOf live mgr <+: t.published) (hsize : span (extents t.published) < 2 ^ 63)
    (hbeyond : span (extents (fileRangesOf live mgr)) ≤ fileOffset.toNat)
    (hlisted : fileOffset.toNat < span (extents t.published))
    (hmapped : (t.published.drop (segmentsOf live mgr).length).mapM
      (mapEntry openShmChunk mgr) = some new)
    (hfresh : ((live ++ new).map LiveSegment.seg).Nodup) :
    ∃ p', discoverGrowth cfg pick openShmChunk mgr fileOffset p = some (true, p') ∧
      Lists (live ++ new) p' := by
  have hsegs := h.map_object mgr SegmentObject.toSegment
  have hranges : rangesOf ((segmentsOf live mgr).map (·.toSegment)) = fileRangesOf live mgr := by
    rw [rangesOf, List.map_map]
    rfl
  have hlength : (p.segments mgr).length = (segmentsOf live mgr).length := by
    rw [h.segments, List.length_map]
  have hlazy := lazyDiscoverGrowth_missing (hranges.symm ▸ hpre) hsize (hranges.symm ▸ hbeyond)
    hlisted
  obtain ⟨p', hrun, hp'⟩ := discoverLoop_lists cfg pick h hmapped hfresh
  refine ⟨p', ?_, hp'⟩
  have hmissing : (((segmentsOf live mgr).map (·.toSegment) ++
      (t.published.drop (segmentsOf live mgr).length).map
        fun e => (⟨e, false⟩ : Memnon.Segment)).drop
          (segmentsOf live mgr).length).map Memnon.Segment.toFileRange =
      t.published.drop (segmentsOf live mgr).length := by
    rw [List.drop_left' (List.length_map _), List.map_map]
    exact List.map_id _
  unfold discoverGrowth
  rw [hshm, hsegs, htable, hlazy, hlength]
  simp only [Bool.false_eq_true, if_false, List.length_map, hmissing, hrun]

/-! ## 3. Two processes -/

/-- The segments are laid out as the table is. -/
theorem Attached.laid (h : Attached cfg t mgr live p) (hlaid : LaidOut 0 (extents t.published)) :
    LaidOut 0 (extents (fileRangesOf live mgr)) ∧
      span (extents (fileRangesOf live mgr)) ≤ span (extents t.published) := by
  obtain ⟨missing, hmissing⟩ := h.listed
  rw [← hmissing, extents_append, laidOut_append] at hlaid
  refine ⟨hlaid.1, ?_⟩
  rw [← hmissing, extents_append, span_append]
  exact Nat.le_add_right _ _

/-- What a mapped segment covers, the table covers. -/
theorem Attached.lt_span (h : Attached cfg t mgr live p) (hlaid : LaidOut 0 (extents t.published))
    (hsize : span (extents t.published) < 2 ^ 63) (hs : s ∈ segmentsOf live mgr)
    (hcovers : s.coversFileOffset fileOffset = true) :
    fileOffset.toNat < span (extents t.published) := by
  obtain ⟨hold, hspan⟩ := h.laid hlaid
  have hstop := stop_le_span hold hs
  rw [coversFileOffset_eq hold (by omega) hs, Extent.covers_iff] at hcovers
  exact Nat.lt_of_lt_of_le hcovers.2 (Nat.le_trans hstop hspan)

/-- `set` in a SHM segment stores the distance of the file offsets. -/
theorem Attached.set (pick : Trie.Memory Unit → Word)
    (openShmChunk : M → Word → Word → Option Mapping) (h : Attached cfg t mgr live p)
    {sx sy : LiveSegment M} {x y : Word}
    (hsx : sx ∈ segmentsOf live mgr) (hx : sx.coversFileOffset x = true)
    (hsy : sy ∈ segmentsOf live mgr) (hy : sy.coversFileOffset y = true)
    (hself : cfg.platform.ptrToVaddr (sx.addrOf x) = sx.addrOf x) :
    ∃ p', OffsetPtr.set cfg.platform (runtime cfg pick openShmChunk) (sx.addrOf x) (sy.addrOf y) p =
      some (.ok (if sy.addrOf y = 0 then kNull else y - x), p') := by
  obtain ⟨hsx', hmgr⟩ := mem_segmentsOf.mp hsx
  obtain ⟨hsy', hmgr'⟩ := mem_segmentsOf.mp hsy
  have hhas := h.maps.has_of_contains hsx' (h.maps.contains_addrOf hsx' hx)
  have hhas' := h.maps.has_of_contains hsy' (h.maps.contains_addrOf hsy' hy)
  obtain ⟨p', hrun, -⟩ := h.maps.set pick openShmChunk hself (h.maps.key_lt hsx' hhas)
    fun _ _ _ _ => h.maps.key_lt hsy' hhas'
  refine ⟨p', hrun.trans (congrArg (fun r => some (r, p')) ?_)⟩
  by_cases hnull : sy.addrOf y = 0
  · rw [liveSet, OffsetPtr.set, if_pos hnull, if_pos hnull]
    rfl
  · have hanon : ¬ sx.isAnon = true := by simp [h.kind sx hsx]
    have hsame : ¬ sy.manager ≠ sx.manager := by simp [hmgr, hmgr']
    rw [liveSet_eq hself hnull, h.maps.segmentAt_eq hsx' hhas, h.maps.segmentAt_eq hsy' hhas']
    simp only [if_neg hanon, if_neg hsame, if_neg hnull, fileOffsetOf_addrOf]

/-- `get` in a SHM segment goes to the segment of the file offset, and maps it
    first if need be. -/
theorem Attached.get (h : Attached cfg t mgr live p) (htable : p.table mgr = t)
    (hlaid : LaidOut 0 (extents t.published)) (hsize : span (extents t.published) < 2 ^ 63)
    {rx : LiveSegment M} {x y : Word} (hrx : rx ∈ segmentsOf live mgr)
    (hx : rx.coversFileOffset x = true)
    (hself : cfg.platform.ptrToVaddr (rx.addrOf x) = rx.addrOf x)
    (hlisted : y.toNat < span (extents t.published))
    (hmapped : (t.published.drop (segmentsOf live mgr).length).mapM
      (mapEntry openShmChunk mgr) = some new)
    (hfresh : ((live ++ new).map LiveSegment.seg).Nodup) (hne : y - x ≠ kNull) :
    ∃ s ∈ segmentsOf (live ++ new) mgr, s.coversFileOffset y = true ∧
      (∀ s' ∈ segmentsOf (live ++ new) mgr, s'.coversFileOffset y = true → s' = s) ∧
      ∃ p', OffsetPtr.get cfg.platform (runtime cfg pick openShmChunk) (rx.addrOf x) (y - x) p =
          some (s.addrOf y, p') ∧
        Lists (if s ∈ live then live else live ++ new) p' := by
  obtain ⟨hsegs, hall⟩ := fileRangesOf_discovered h.listed hmapped
  obtain ⟨hold, hspan⟩ := h.laid hlaid
  have hboth : LaidOut 0 (extents (fileRangesOf (live ++ new) mgr)) := hall ▸ hlaid
  have hboth' : span (extents (fileRangesOf (live ++ new) mgr)) < 2 ^ 64 :=
    hall ▸ Nat.lt_trans hsize (by decide)
  obtain ⟨s, hs, hcovers⟩ := exists_covering hboth hboth' (hall ▸ hlisted)
  have hunique : ∀ s' ∈ segmentsOf (live ++ new) mgr, s'.coversFileOffset y = true → s' = s := by
    intro s' hs' hcovers'
    have hfind := find_fileOffset hboth hboth' hs hcovers
    rw [find_fileOffset hboth hboth' hs' hcovers'] at hfind
    exact Option.some.inj hfind
  refine ⟨s, hs, hcovers, hunique, ?_⟩
  obtain ⟨hrx', hmgr⟩ := mem_segmentsOf.mp hrx
  have hhas := h.maps.has_of_contains hrx' (h.maps.contains_addrOf hrx' hx)
  obtain ⟨p₁, hfind, hp₁⟩ := h.maps.find pick (h.maps.key_lt hrx' hhas)
  have hat : (liveRuntime cfg live).find (rx.addrOf x) = some rx.toSubSegment :=
    congrArg (Option.map fun r : LiveSegment M => r.toSubSegment) (h.maps.segmentAt_eq hrx' hhas)
  have hanon : ¬ rx.isAnon = true := by simp [h.kind rx hrx]
  rw [OffsetPtr.get, if_neg hne, hself]
  simp only [run_bind (x := findSegment cfg pick (rx.addrOf x)) hfind, runtime, hat, if_neg hanon,
    fileOffsetOf_addrOf, add_sub_self, hmgr]
  by_cases hlive : s ∈ live
  · have hmem : s ∈ segmentsOf live mgr := mem_segmentsOf.mpr ⟨hlive, (mem_segmentsOf.mp hs).2⟩
    have hsearch := hp₁.maps.toLists.findByFileOffset mgr y
    rw [find_fileOffset hold (by omega) hmem hcovers] at hsearch
    refine ⟨p₁, run_bind hsearch, ?_⟩
    rw [if_pos hlive]
    exact hp₁.maps.toLists
  · have hnone : (segmentsOf live mgr).find? (·.coversFileOffset y) = none := by
      apply List.find?_eq_none.mpr
      intro x hx hcovers'
      have hmem : x ∈ segmentsOf (live ++ new) mgr := hsegs ▸ List.mem_append_left _ hx
      exact hlive (hunique x hmem hcovers' ▸ (mem_segmentsOf.mp hx).1)
    have hbeyond : span (extents (fileRangesOf live mgr)) ≤ y.toNat := by
      by_contra hlt
      obtain ⟨x, hx, hcovers'⟩ := exists_covering hold (by omega) (Nat.lt_of_not_le hlt)
      exact List.find?_eq_none.mp hnone x hx hcovers'
    have hsearch := hp₁.maps.toLists.findByFileOffset mgr y
    rw [hnone] at hsearch
    obtain ⟨p₂, hdiscover, hp₂⟩ := hp₁.maps.toLists.discover cfg pick
      ((congrFun hp₁.anon mgr).trans h.shm) ((congrFun hp₁.table mgr).trans htable)
      h.listed hsize hbeyond hlisted hmapped hfresh
    have hsearch₂ := hp₂.findByFileOffset mgr y
    rw [find_fileOffset hboth hboth' hs hcovers] at hsearch₂
    refine ⟨p₂, (run_bind hsearch).trans ((run_bind hdiscover).trans (run_bind hsearch₂)), ?_⟩
    rw [if_neg hlive]
    exact hp₂

/-- One process stores a pointer at file offset `x` to file offset `y`. In every
    process that has mapped a prefix of the table with the segment of `x`,
    wherever it lies there, `get` returns the address of `y`, in a segment that
    the process had mapped before or has discovered in the call. -/
theorem shared_pointer_position_independent {cfgA cfgB : Config}
    (pickA pickB : Trie.Memory Unit → Word) (openA openB : M → Word → Word → Option Mapping)
    {liveA liveB : List (LiveSegment M)} {pA pB : Process M} {a b : M} {sx sy rx : LiveSegment M}
    {x y : Word} (hlaid : LaidOut 0 (extents t.published))
    (hsize : span (extents t.published) < 2 ^ 63)
    (hA : Attached cfgA t a liveA pA) (hB : Attached cfgB t b liveB pB) (htable : pB.table b = t)
    (hsx : sx ∈ segmentsOf liveA a) (hx : sx.coversFileOffset x = true)
    (hsy : sy ∈ segmentsOf liveA a) (hy : sy.coversFileOffset y = true)
    (hrx : rx ∈ segmentsOf liveB b) (hx' : rx.coversFileOffset x = true)
    (hselfA : cfgA.platform.ptrToVaddr (sx.addrOf x) = sx.addrOf x)
    (hselfB : cfgB.platform.ptrToVaddr (rx.addrOf x) = rx.addrOf x)
    (hmapped : (t.published.drop (segmentsOf liveB b).length).mapM (mapEntry openB b) = some new)
    (hfresh : ((liveB ++ new).map LiveSegment.seg).Nodup) :
    ∃ mOffset pA', set cfgA.platform (runtime cfgA pickA openA) (sx.addrOf x) (sy.addrOf y) pA =
        some (.ok mOffset, pA') ∧
      (sy.addrOf y ≠ 0 → mOffset = y - x) ∧
      (mOffset ≠ kNull → ∃ s ∈ segmentsOf (liveB ++ new) b, s.coversFileOffset y = true ∧
        (∀ s' ∈ segmentsOf (liveB ++ new) b, s'.coversFileOffset y = true → s' = s) ∧
        ∃ pB', get cfgB.platform (runtime cfgB pickB openB) (rx.addrOf x) mOffset pB =
            some (s.addrOf y, pB') ∧
          Lists (if s ∈ liveB then liveB else liveB ++ new) pB') := by
  obtain ⟨pA', hset⟩ := hA.set pickA openA hsx hx hsy hy hselfA
  refine ⟨_, pA', hset, fun hptr => if_neg hptr, fun hne => ?_⟩
  have hlisted := hA.lt_span hlaid hsize hsy hy
  split at hne
  · exact absurd rfl hne
  · rename_i hptr
    rw [if_neg hptr]
    exact hB.get htable hlaid hsize hrx hx' hselfB hlisted hmapped hfresh hne

def sharedTable : SegmentTable where
  magic := kSegmentTableMagic
  version := kSegmentTableVersion
  capacity := 64
  count := 2
  entries := fun i => if i = 0 then ⟨0, 0x2000⟩ else ⟨0x2000, 0x4000⟩

/-- Another process has the first chunk at another address. -/
def firstElsewhere : LiveSegment Bool := ⟨⟨⟨0x30000000, 0x2000, 0, false, false⟩, true⟩, 0x70010⟩

/-- There the second one is mapped below it. -/
def secondElsewhere : LiveSegment Bool :=
  ⟨⟨⟨0x20000000, 0x4000, 0x2000, false, false⟩, false⟩, 0x70110⟩

def mapSecond (_ : Bool) (_ _ : Word) : Option Mapping := some ⟨0x20000000, 0x70110⟩

def heap : Trie.Memory Unit → Word := Trie.firstFree [0x2000, 0x3000, 0x4000, 0x5000]

/-- A process that has both chunks, and one that has the first. -/
def bothChunks : Process Bool :=
  (twoManagers.addSegment Trie.defaultConfig heap firstChunk.seg
    firstChunk.toSegmentObject).addSegment Trie.defaultConfig heap secondChunk.seg
      secondChunk.toSegmentObject

def oneChunk : Process Bool :=
  { twoManagers with table := fun _ => sharedTable }.addSegment Trie.defaultConfig heap
    firstElsewhere.seg firstElsewhere.toSegmentObject

theorem shared_pointer_position_independent_discovers :
    ∃ (mOffset : Word) (pA' pB' : Process Bool),
      set fourKiBPages (runtime Trie.defaultConfig heap mapSecond) 0x10001000 0x8000010 bothChunks =
        some (.ok mOffset, pA') ∧
      get fourKiBPages (runtime Trie.defaultConfig heap mapSecond) 0x30001000 mOffset oneChunk =
        some (0x20000010, pB') := by
  have hfirst : Pointers.CanAdd Trie.defaultConfig id ⟨[], []⟩ firstChunk := by decide
  have hsecond : Pointers.CanAdd Trie.defaultConfig id ⟨[firstChunk], []⟩ secondChunk := by decide
  have helsewhere : Pointers.CanAdd Trie.defaultConfig id ⟨[], []⟩ firstElsewhere := by decide
  have hboth : Maps Trie.defaultConfig [firstChunk, secondChunk] bothChunks :=
    Maps.add (Maps.add (maps_nil rfl fun _ => rfl) hfirst (by decide +kernel)) hsecond
      (by decide +kernel)
  have hone : Maps Trie.defaultConfig [firstElsewhere] oneChunk :=
    Maps.add (maps_nil rfl fun _ => rfl) helsewhere (by decide +kernel)
  have hA : Attached Trie.defaultConfig sharedTable false [firstChunk, secondChunk] bothChunks :=
    ⟨hboth, rfl, by decide, by decide⟩
  have hB : Attached Trie.defaultConfig sharedTable false [firstElsewhere] oneChunk :=
    ⟨hone, rfl, by decide, by decide⟩
  have hlaid : LaidOut 0 (extents sharedTable.published) := ⟨rfl, rfl, trivial⟩
  have hx : firstChunk.coversFileOffset 0x1000 = true := by decide
  have hy : secondChunk.coversFileOffset 0x2010 = true := by decide
  have hx' : firstElsewhere.coversFileOffset 0x1000 = true := by decide
  have hmapped : (sharedTable.published.drop 1).mapM (mapEntry mapSecond false) =
      some [secondElsewhere] := rfl
  obtain ⟨mOffset, pA', hset, hdistance, hget⟩ := shared_pointer_position_independent heap heap
    mapSecond mapSecond hlaid (by decide) hA hB rfl List.mem_cons_self hx
    (by decide) hy List.mem_cons_self hx' (by decide) (by decide) hmapped (by decide)
  have hne : mOffset ≠ kNull := by
    rw [hdistance (by decide)]
    decide
  obtain ⟨s, -, -, hunique, pB', hget, -⟩ := hget hne
  obtain rfl : secondElsewhere = s := hunique secondElsewhere (by decide) (by decide)
  exact ⟨mOffset, pA', pB', hset, hget⟩

end Memnon.OffsetPtr
