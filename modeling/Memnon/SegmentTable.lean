import Memnon.Platform
import Memnon.Lib.Layout

/-!
# The segment table

The table at the start of sub-segment 0 lists the file ranges of all
sub-segments; it is the only thing the processes attached to one file share
about growth. Each process keeps its own list of mapped sub-segments and reads
or extends the table from it. The chunk sizes of `grow` and `grow_background`
are computed here from such a list, with the wrap-around of `size_t`.
-/

namespace Memnon

open Memnon.Lib

def kMinSegmentSize : Word := 0x100000#64     -- 1 MiB
def kDefaultSegSize : Word := 0x1000000#64    -- 16 MiB
def kGrowMultiplier : Word := 2#64
def kMaxSubSegments : Nat := 64
def kSegmentTableMagic : Word := 0xB0015EF5DEADBEEF#64
def kSegmentTableVersion : BitVec 32 := 1#32

/-- `std::max` on `size_t`. -/
def umax (a b : Word) : Word := if a < b then b else a

theorem umax_toNat (a b : Word) : (umax a b).toNat = max a.toNat b.toNat := by
  unfold umax
  split <;> rename_i h <;> simp only [BitVec.lt_def] at h <;> omega

/-! ## 1. Ranges, segments and the table -/

/-- The contents of a `segment_entry`. -/
structure FileRange where
  fileOffset : Word
  size : Word
deriving DecidableEq, Repr

def FileRange.extent (r : FileRange) : Extent := ⟨r.fileOffset.toNat, r.size.toNat⟩

/-- A mapped sub-segment, as far as the file is concerned. -/
structure Segment extends FileRange where
  isPrimary : Bool
deriving DecidableEq, Repr

/-- `segment_table_t`; entries from `count` on are leftovers. -/
structure SegmentTable where
  magic : Word
  version : BitVec 32
  capacity : BitVec 32
  count : Nat
  entries : Nat → FileRange

/-- The table of a freshly created file, all zeros. -/
def SegmentTable.blank : SegmentTable where
  magic := 0
  version := 0
  capacity := 0
  count := 0
  entries := fun _ => ⟨0, 0⟩

/-- The entries a reader of `count` takes into account. -/
def SegmentTable.published (t : SegmentTable) : List FileRange :=
  (List.range t.count).map t.entries

/-- `get_size_unlocked`. -/
def getSizeUnlocked (segments : List FileRange) : Word :=
  segments.foldl (fun total r => total + r.size) 0

/-- `init_segment_table`. -/
def initSegmentTable (segments : List Segment) (t : SegmentTable) : SegmentTable :=
  match segments with
  | [] => t
  | s0 :: _ =>
      { magic := kSegmentTableMagic
        version := kSegmentTableVersion
        capacity := BitVec.ofNat 32 kMaxSubSegments
        count := 1
        entries := Function.update t.entries 0 ⟨0, s0.size⟩ }

/-- `update_segment_table`; `none` is the "Too many sub-segments" exception. -/
def updateSegmentTable (segments : List Segment) (t : SegmentTable) : Option SegmentTable :=
  match segments.head?, segments.getLast? with
  | some front, some ns =>
      if front.isPrimary then
        let newIdx := segments.length - 1
        if newIdx ≥ kMaxSubSegments then none
        else some { t with
          count := newIdx + 1
          entries := Function.update t.entries newIdx ns.toFileRange }
      else some t
  | _, _ => some t

/-- `open_all_segments`, every mapping call succeeding: segment 0 is remapped
    only when it is larger than the bootstrap mapping. `none` is the exception
    for a wrong magic number. -/
def openAllSegments (t : SegmentTable) : Option (List Segment) :=
  if t.magic ≠ kSegmentTableMagic then none
  else
    let s0Size := (t.entries 0).size
    some (⟨⟨0, if s0Size > kMinSegmentSize then s0Size else kMinSegmentSize⟩, true⟩ ::
      (t.published.drop 1).map fun e => ⟨e, false⟩)

/-- `lazy_discover_growth`, every mapping call succeeding. -/
def lazyDiscoverGrowth (t : SegmentTable) (segments : List Segment)
    (requiredFileOffset : Word) : List Segment × Bool :=
  let currentMappedSize := getSizeUnlocked (segments.map Segment.toFileRange)
  if requiredFileOffset < currentMappedSize then (segments, true)
  else
    let missing := t.published.drop segments.length
    (segments ++ missing.map fun e => ⟨e, false⟩,
      !missing.isEmpty &&
        decide (requiredFileOffset < missing.foldl (fun total e => total + e.size)
          currentMappedSize))

/-- `new_chunk_size` in `grow`. -/
def growChunkSize (P : Platform) (segments : List Segment) (minBytes : Word) : Word :=
  let wanted := match segments.getLast? with
    | none => kDefaultSegSize
    | some last => last.size * kGrowMultiplier
  alignUp (umax minBytes wanted) P.pageSize

/-- `new_chunk_size` in `grow_background`. -/
def backgroundChunkSize (P : Platform) (last : Segment) : Word :=
  alignUp (umax kMinSegmentSize (last.size * kGrowMultiplier)) P.pageSize

/-- Publishing the last segment of a list that starts with the primary one. -/
theorem updateSegmentTable_concat {segments : List Segment}
    (hfront : ∃ s0 rest, segments = s0 :: rest ∧ s0.isPrimary = true) (ns : Segment)
    (t : SegmentTable) :
    updateSegmentTable (segments ++ [ns]) t =
      if segments.length ≥ kMaxSubSegments then none
      else some { t with
        count := segments.length + 1
        entries := Function.update t.entries segments.length ns.toFileRange } := by
  obtain ⟨s0, rest, rfl, hprim⟩ := hfront
  rw [updateSegmentTable, List.getLast?_concat]
  simp [hprim]

/-! ## 2. Sums of sizes -/

def extents (rs : List FileRange) : List Extent := rs.map FileRange.extent

@[simp] theorem extents_nil : extents [] = [] := rfl

@[simp] theorem extents_cons (r : FileRange) (rs : List FileRange) :
    extents (r :: rs) = r.extent :: extents rs := rfl

@[simp] theorem extents_append (rs qs : List FileRange) :
    extents (rs ++ qs) = extents rs ++ extents qs := List.map_append

@[simp] theorem extents_length (rs : List FileRange) : (extents rs).length = rs.length :=
  List.length_map _

theorem extents_take (rs : List FileRange) (k : Nat) :
    extents (rs.take k) = (extents rs).take k := List.map_take

private theorem foldl_size_toNat (rs : List FileRange) (a : Word) :
    (rs.foldl (fun total r => total + r.size) a).toNat =
      (a.toNat + span (extents rs)) % 2 ^ 64 := by
  induction rs generalizing a with
  | nil => simp [Nat.mod_eq_of_lt a.isLt]
  | cons r rs ih =>
    rw [List.foldl_cons, ih, BitVec.toNat_add]
    simp only [extents_cons, span_cons, FileRange.extent]
    omega

/-- The running sum is exact as long as it fits. -/
theorem getSizeUnlocked_toNat {rs : List FileRange} (h : span (extents rs) < 2 ^ 64) :
    (getSizeUnlocked rs).toNat = span (extents rs) := by
  rw [getSizeUnlocked, foldl_size_toNat]
  simpa using Nat.mod_eq_of_lt h

@[simp] theorem SegmentTable.published_length (t : SegmentTable) :
    t.published.length = t.count := by
  simp [SegmentTable.published]

theorem SegmentTable.published_getElem (t : SegmentTable) {i : Nat} (h : i < t.published.length) :
    t.published[i] = t.entries i := by
  simp [SegmentTable.published]

/-- What discovery maps: nothing, or all that is missing. -/
theorem discovered_entries (t : SegmentTable) (segments : List Segment) (required : Word) :
    (((lazyDiscoverGrowth t segments required).1.drop segments.length).map
      Segment.toFileRange) =
      if required < getSizeUnlocked (segments.map Segment.toFileRange) then []
      else t.published.drop segments.length := by
  by_cases hknown : required < getSizeUnlocked (segments.map Segment.toFileRange)
  · rw [if_pos hknown, lazyDiscoverGrowth, if_pos hknown]
    simp
  · rw [if_neg hknown, lazyDiscoverGrowth, if_neg hknown]
    show ((segments ++ _).drop segments.length).map _ = _
    rw [List.drop_left, List.map_map]
    exact List.map_id _

/-- Publishing behind the last entry appends it. -/
theorem SegmentTable.published_update (t : SegmentTable) (r : FileRange) :
    { t with count := t.count + 1,
             entries := Function.update t.entries t.count r }.published =
      t.published ++ [r] := by
  have hold : ∀ i ∈ List.range t.count, Function.update t.entries t.count r i = t.entries i := by
    intro i hi
    exact Function.update_of_ne (Nat.ne_of_lt (List.mem_range.mp hi)) _ _
  simp only [SegmentTable.published, List.range_succ, List.map_append, List.map_cons,
    List.map_nil, Function.update_self, List.map_congr_left hold]

end Memnon
