import Memnon.SegmentTable

/-!
# The lists of segments that growth builds

A creator starts with the primary segment. Each growth appends a chunk that
starts where the others end and is at least twice as large as the one before it.
So the sums of sizes never wrap around and the table never runs out of entries.
A table that lists such a list is read back as that list.
-/

namespace Memnon

open Memnon.Lib

/-! ## 1. Lists built by growth -/

/-- The file ranges of a process's own list. -/
def rangesOf (segments : List Segment) : List FileRange := segments.map Segment.toFileRange

@[simp] theorem rangesOf_length (segments : List Segment) :
    (rangesOf segments).length = segments.length := List.length_map _

@[simp] theorem rangesOf_append (segments rest : List Segment) :
    rangesOf (segments ++ rest) = rangesOf segments ++ rangesOf rest := List.map_append

@[simp] theorem rangesOf_single (s : Segment) : rangesOf [s] = [s.toFileRange] := rfl

theorem rangesOf_take (segments : List Segment) (k : Nat) :
    rangesOf (segments.take k) = (rangesOf segments).take k := List.map_take

theorem rangesOf_drop (segments : List Segment) (k : Nat) :
    rangesOf (segments.drop k) = (rangesOf segments).drop k := List.map_drop

structure Grown (segments : List Segment) : Prop where
  primary : ∃ s0 rest, segments = s0 :: rest ∧ s0.isPrimary = true ∧
    ∀ s ∈ rest, s.isPrimary = false
  laid : LaidOut 0 (extents (rangesOf segments))
  minSize : ∀ s ∈ segments, 2 ^ 20 ≤ s.size.toNat
  last : ∀ last ∈ segments.getLast?, 2 ^ (19 + segments.length) ≤ last.size.toNat ∧
    span (extents (rangesOf segments)) ≤ 2 * last.size.toNat ∧ last.size.toNat < 2 ^ 63

theorem grown_single {size : Word} (hmin : 2 ^ 20 ≤ size.toNat) (hmax : size.toNat < 2 ^ 63) :
    Grown [⟨⟨0, size⟩, true⟩] := by
  constructor
  · exact ⟨_, [], rfl, rfl, fun s hs => by cases hs⟩
  · exact ⟨rfl, trivial⟩
  · intro s hs
    obtain rfl := List.mem_singleton.mp hs
    exact hmin
  · intro last hlast
    obtain rfl : ⟨⟨0, size⟩, true⟩ = last := Option.some.inj hlast
    refine ⟨hmin, ?_, hmax⟩
    simp only [rangesOf_single, extents_cons, extents_nil, span_cons, span_nil, FileRange.extent]
    omega

section grown

variable {segments : List Segment} {last : Segment} {P : Platform}

theorem Grown.front (h : Grown segments) :
    ∃ s0 rest, segments = s0 :: rest ∧ s0.isPrimary = true := by
  obtain ⟨s0, rest, hs, hprim, -⟩ := h.primary
  exact ⟨s0, rest, hs, hprim⟩

/-- Each segment starts at the sum of the sizes before it. -/
theorem Grown.fileOffset (h : Grown segments) {i : Nat} (hi : i < segments.length) :
    segments[i].fileOffset.toNat = ((segments.take i).map fun s => s.size.toNat).sum := by
  have hstart := h.laid.start_getElem (i := i) (by simpa using hi)
  rw [← extents_take, ← rangesOf_take, span_eq_sum] at hstart
  simpa [extents, rangesOf, FileRange.extent, Function.comp_def] using hstart

/-- Only the first segment is primary. -/
theorem Grown.isPrimary (h : Grown segments) {i : Nat} (hi : i < segments.length) :
    segments[i].isPrimary = true ↔ i = 0 := by
  obtain ⟨s0, rest, rfl, hprim, hrest⟩ := h.primary
  cases i with
  | zero => simp [hprim]
  | succ i =>
    have hi' : i < rest.length := Nat.lt_of_succ_lt_succ hi
    simp [hrest rest[i] (List.getElem_mem hi')]

/-- No two segments start at the same file offset. -/
theorem Grown.fileOffset_inj (h : Grown segments) {i j : Nat} (hi : i < segments.length)
    (hj : j < segments.length) (heq : segments[i].fileOffset = segments[j].fileOffset) : i = j := by
  by_contra hne
  have hdisjoint := h.laid.disjoint (i := i) (j := j) (by simpa using hi) (by simpa using hj) hne
  have hsizei := h.minSize _ (List.getElem_mem hi)
  have hsizej := h.minSize _ (List.getElem_mem hj)
  simp only [extents, rangesOf, List.getElem_map, FileRange.extent, Extent.Disjoint, Extent.stop,
    heq] at hdisjoint
  omega

/-- The segments behind the primary one are told by their ranges. -/
theorem Grown.drop_eq (h : Grown segments) {k : Nat} (hk : 0 < k) :
    (rangesOf (segments.drop k)).map (fun e => (⟨e, false⟩ : Segment)) = segments.drop k := by
  obtain ⟨s0, rest, rfl, -, hrest⟩ := h.primary
  rw [rangesOf, List.map_map]
  refine (List.map_congr_left fun s hs => ?_).trans (List.map_id _)
  obtain ⟨k, rfl⟩ := Nat.exists_eq_succ_of_ne_zero (Nat.ne_of_gt hk)
  have hnot : false = s.isPrimary := (hrest s (List.mem_of_mem_drop hs)).symm
  simp only [Function.comp_apply, hnot]
  rfl

theorem Grown.exists_last (h : Grown segments) : ∃ last, segments.getLast? = some last := by
  obtain ⟨s0, rest, rfl, -⟩ := h.primary
  exact ⟨_, List.getLast?_eq_some_getLast (List.cons_ne_nil _ _)⟩

theorem Grown.length_lt (h : Grown segments) : segments.length < kMaxSubSegments := by
  obtain ⟨last, hlast⟩ := h.exists_last
  obtain ⟨hlow, -, hhigh⟩ := h.last last hlast
  have hpow : 2 ^ (19 + segments.length) < 2 ^ 63 := Nat.lt_of_le_of_lt hlow hhigh
  have hlt := (Nat.pow_lt_pow_iff_right (by decide)).mp hpow
  simp only [kMaxSubSegments]
  omega

theorem Grown.span_lt (h : Grown segments) : span (extents (rangesOf segments)) < 2 ^ 64 := by
  obtain ⟨last, hlast⟩ := h.exists_last
  obtain ⟨-, hspan, hhigh⟩ := h.last last hlast
  omega

theorem Grown.getSize_toNat (h : Grown segments) :
    (getSizeUnlocked (rangesOf segments)).toNat = span (extents (rangesOf segments)) :=
  getSizeUnlocked_toNat h.span_lt

/-- A chunk from the end of the list, twice as large as the last segment. -/
theorem Grown.append (h : Grown segments) (hlast : segments.getLast? = some last)
    {cur chunk : Word} (hcur : cur = getSizeUnlocked (rangesOf segments))
    (htwice : 2 * last.size.toNat ≤ chunk.toNat) (hchunk : chunk.toNat < 2 ^ 63) :
    Grown (segments ++ [⟨⟨cur, chunk⟩, false⟩]) := by
  obtain ⟨hlow, hspan, hhigh⟩ := h.last last hlast
  constructor
  · obtain ⟨s0, rest, rfl, hprim, hrest⟩ := h.primary
    refine ⟨s0, rest ++ [_], rfl, hprim, fun s hs => ?_⟩
    rcases List.mem_append.mp hs with hs | hs
    · exact hrest s hs
    · obtain rfl := List.mem_singleton.mp hs
      rfl
  · rw [rangesOf_append, extents_append]
    apply laidOut_concat.mpr
    refine ⟨h.laid, ?_⟩
    simp only [FileRange.extent, hcur, h.getSize_toNat, Nat.zero_add]
  · intro s hs
    rcases List.mem_append.mp hs with hs | hs
    · exact h.minSize s hs
    · obtain rfl := List.mem_singleton.mp hs
      have hmin := h.minSize last (List.mem_of_getLast? hlast)
      show 2 ^ 20 ≤ chunk.toNat
      omega
  · intro last' hlast'
    rw [List.getLast?_concat] at hlast'
    obtain rfl := Option.some.inj hlast'
    refine ⟨?_, ?_, hchunk⟩
    · rw [List.length_append, List.length_singleton, ← Nat.add_assoc, Nat.pow_succ]
      show 2 ^ (19 + segments.length) * 2 ≤ chunk.toNat
      omega
    · simp only [rangesOf_append, rangesOf_single, extents_append, span_append, extents_cons,
        extents_nil, span_cons, span_nil, FileRange.extent]
      omega

/-- Doubling the last size does not wrap around. -/
theorem Grown.double_toNat (h : Grown segments) (hlast : segments.getLast? = some last) :
    (last.size * kGrowMultiplier).toNat = 2 * last.size.toNat := by
  obtain ⟨-, -, hhigh⟩ := h.last last hlast
  simp only [kGrowMultiplier, BitVec.toNat_mul, BitVec.toNat_ofNat]
  omega

/-- The chunk of `grow` is empty or twice as large as the last segment. -/
theorem Grown.growChunkSize (h : Grown segments) (hlast : segments.getLast? = some last)
    (minBytes : Word) : growChunkSize P segments minBytes = 0 ∨
      2 * last.size.toNat ≤ (growChunkSize P segments minBytes).toNat := by
  have hmax := umax_toNat minBytes (last.size * kGrowMultiplier)
  have hdouble := h.double_toNat hlast
  simp only [Memnon.growChunkSize, hlast]
  rcases P.alignUp_zero_or_ge (umax minBytes (last.size * kGrowMultiplier)) with h0 | hge
  · exact .inl h0
  · right
    omega

/-- The chunk of `grow_background` is empty or twice as large as the last segment. -/
theorem Grown.backgroundChunkSize (h : Grown segments) (hlast : segments.getLast? = some last) :
    backgroundChunkSize P last = 0 ∨
      2 * last.size.toNat ≤ (backgroundChunkSize P last).toNat := by
  have hmax := umax_toNat kMinSegmentSize (last.size * kGrowMultiplier)
  have hdouble := h.double_toNat hlast
  simp only [Memnon.backgroundChunkSize]
  rcases P.alignUp_zero_or_ge (umax kMinSegmentSize (last.size * kGrowMultiplier)) with h0 | hge
  · exact .inl h0
  · right
    omega

/-! ## 2. A list and its table -/

/-- The initialised table lists exactly these segments. -/
structure Lists (t : SegmentTable) (segments : List Segment) : Prop where
  magic : t.magic = kSegmentTableMagic
  published : t.published = rangesOf segments

theorem lists_initSegmentTable (size : Word) (t : SegmentTable) :
    Lists (initSegmentTable [⟨⟨0, size⟩, true⟩] t) [⟨⟨0, size⟩, true⟩] := by
  constructor
  · rfl
  · simp [initSegmentTable, SegmentTable.published]

variable {t : SegmentTable}

theorem Lists.count (h : Lists t segments) : t.count = segments.length := by
  rw [← t.published_length, h.published, rangesOf_length]

theorem Lists.entries (h : Lists t segments) {i : Nat} (hi : i < segments.length) :
    t.entries i = segments[i].toFileRange := by
  have hlt : i < t.published.length := by rw [t.published_length, h.count]; exact hi
  rw [← t.published_getElem hlt]
  simp [h.published, rangesOf]

/-- The first segment, as its table entry describes it. -/
theorem Lists.primary (h : Lists t segments) (hg : Grown segments) :
    ∃ s0 rest, segments = s0 :: rest ∧ s0 = ⟨⟨0, (t.entries 0).size⟩, true⟩ ∧
      ¬ s0.size < kMinSegmentSize ∧ rest = (t.published.drop 1).map fun e => ⟨e, false⟩ := by
  obtain ⟨s0, rest, rfl, hprim⟩ := hg.front
  have hentry : t.entries 0 = s0.toFileRange := h.entries (Nat.succ_pos _)
  have hoffset : s0.fileOffset = 0 := BitVec.eq_of_toNat_eq hg.laid.1
  have hsmall := hg.minSize s0 List.mem_cons_self
  refine ⟨s0, rest, rfl, ?_, ?_, ?_⟩
  · rw [hentry, ← hoffset, ← hprim]
  · have hmin : kMinSegmentSize.toNat = 2 ^ 20 := rfl
    rw [BitVec.lt_def, hmin]
    omega
  · have hdrop : t.published.drop 1 = rangesOf rest := by rw [h.published]; rfl
    rw [hdrop]
    exact (hg.drop_eq Nat.one_pos).symm

/-- There is room in the table for one more segment of a grown list. -/
theorem Lists.update (h : Lists t segments) (hg : Grown segments) (ns : Segment) :
    ∃ t', updateSegmentTable (segments ++ [ns]) t = some t' ∧ Lists t' (segments ++ [ns]) := by
  have hroom := hg.length_lt
  refine ⟨{ t with count := segments.length + 1,
                   entries := Function.update t.entries segments.length ns.toFileRange },
    ?_, h.magic, ?_⟩
  · rw [updateSegmentTable_concat hg.front, if_neg (by omega)]
  · rw [← h.count, t.published_update, h.published, rangesOf_append, rangesOf_single]

/-- Discovery has nothing to add to a list that the table lists. -/
theorem Lists.discover (h : Lists t segments) (required : Word) :
    (lazyDiscoverGrowth t segments required).1 = segments := by
  have hnone : t.published.drop segments.length = [] := by
    apply List.drop_eq_nil_of_le
    exact Nat.le_of_eq (t.published_length.trans h.count)
  unfold lazyDiscoverGrowth
  simp only [hnone, List.map_nil, List.append_nil]
  split <;> rfl

end grown

end Memnon
