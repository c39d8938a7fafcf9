import Memnon.SegmentList
import Mathlib.Logic.Relation

/-!
# Reading the table while others write it

`open_all_segments` and `lazy_discover_growth` of one process, load by load. A
step reads at most one field of the table; whatever is stored between two steps
is seen by the later one. What a reader has read so far is described against the
list of segments that the table stands for, which only grows.
-/

namespace Memnon.SharedFile

open Memnon.Lib

/-! ## 1. The steps of a reader -/

/-- The next thing a process does with the file. The loop over the entries is the
    same in both functions; `opening` tells them apart. -/
inductive ReaderPoint where
  | absent
  | readMagic
  | readCount
  | readPrimarySize
  | mapPrimary (s0Size : Word)
  | rereadCount
  | loop (opening : Bool) (i count : Nat)
  | readEntrySize (opening : Bool) (i count : Nat) (fileOffset : Word)
  | mapEntry (opening : Bool) (i count : Nat) (e : FileRange)
  | idle
  | discover (requiredFileOffset : Word)
  | failed
deriving DecidableEq

structure Reader where
  segments : List Segment
  point : ReaderPoint

/-- The size with which sub-segment 0 is listed. -/
def primarySize (s0Size : Word) : Word :=
  if s0Size > kMinSegmentSize then s0Size else kMinSegmentSize

/-- One step; `mapped` is the outcome of the mapping call in it, if there is one.
    An exception that leaves the constructor leaves no list behind. -/
def Reader.step (t : SegmentTable) (mapped : Bool) (r : Reader) : Option Reader :=
  match r.point with
  | .absent => some ⟨r.segments, if mapped then .readMagic else .failed⟩
  | .readMagic =>
      some ⟨r.segments, if t.magic = kSegmentTableMagic then .readCount else .failed⟩
  | .readCount => some ⟨r.segments, .readPrimarySize⟩     -- loaded again before it is used
  | .readPrimarySize => some ⟨r.segments, .mapPrimary (t.entries 0).size⟩
  | .mapPrimary s0Size =>
      if s0Size > kMinSegmentSize ∧ mapped = false then some ⟨r.segments, .failed⟩
      else some ⟨r.segments ++ [⟨⟨0, primarySize s0Size⟩, true⟩], .rereadCount⟩
  | .rereadCount => some ⟨r.segments, .loop true 1 t.count⟩
  | .loop opening i count =>
      if i < count then
        some ⟨r.segments, .readEntrySize opening i count (t.entries i).fileOffset⟩
      else some ⟨r.segments, .idle⟩
  | .readEntrySize opening i count fileOffset =>
      some ⟨r.segments, .mapEntry opening i count ⟨fileOffset, (t.entries i).size⟩⟩
  | .mapEntry opening i count e =>
      if mapped then some ⟨r.segments ++ [⟨e, false⟩], .loop opening (i + 1) count⟩
      else if opening then some ⟨[], .failed⟩
      else some ⟨r.segments, .idle⟩
  | .discover requiredFileOffset =>
      if requiredFileOffset < getSizeUnlocked (rangesOf r.segments) then
        some ⟨r.segments, .idle⟩
      else some ⟨r.segments, .loop false r.segments.length t.count⟩
  | .idle | .failed => none

/-- The entry of the table that the next step reads. -/
def Reader.readsEntry (r : Reader) : Option Nat :=
  match r.point with
  | .readPrimarySize => some 0
  | .loop _ i count => if i < count then some i else none
  | .readEntrySize _ i _ _ => some i
  | _ => none

/-- Past the check of the magic number, and the constructor has not thrown. -/
def ReaderPoint.attached : ReaderPoint → Bool
  | .absent | .readMagic | .failed => false
  | _ => true

/-! ## 2. A reader alone -/

/-- Steps of a reader on a table that nobody changes, all mappings succeeding. -/
def Reader.Alone (t : SegmentTable) : Reader → Reader → Prop :=
  Relation.ReflTransGen fun r r' => r.step t true = some r'

section alone

variable {t : SegmentTable} {segments : List Segment}

theorem Reader.Alone.head {r r' r'' : Reader} (hstep : r.step t true = some r')
    (h : Reader.Alone t r' r'') : Reader.Alone t r r'' := Relation.ReflTransGen.head hstep h

/-- The loop appends the entries from `i` on. -/
theorem loop_alone (opening : Bool) (i n : Nat) (segments : List Segment) :
    Reader.Alone t ⟨segments, .loop opening i (i + n)⟩
      ⟨segments ++ (List.range' i n).map fun j => ⟨t.entries j, false⟩, .idle⟩ := by
  induction n generalizing i segments with
  | zero =>
    have hend : (⟨segments, .loop opening i (i + 0)⟩ : Reader).step t true =
        some ⟨segments, .idle⟩ := by
      simp [Reader.step]
    simpa using Reader.Alone.head hend .refl
  | succ n ih =>
    have hoffset : (⟨segments, .loop opening i (i + (n + 1))⟩ : Reader).step t true =
        some ⟨segments, .readEntrySize opening i (i + (n + 1)) (t.entries i).fileOffset⟩ := by
      simp [Reader.step]
    refine .head hoffset (.head rfl (.head rfl ?_))
    have hrest := ih (i + 1) (segments ++ [⟨t.entries i, false⟩])
    rw [Nat.add_right_comm, Nat.add_assoc] at hrest
    simpa [List.range'_succ] using hrest

theorem published_drop (t : SegmentTable) (i : Nat) :
    t.published.drop i = (List.range' i (t.count - i)).map t.entries := by
  rw [SegmentTable.published, ← List.map_drop, List.range_eq_range', List.drop_range']
  simp

theorem loop_alone_count (opening : Bool) {i : Nat} (hi : i ≤ t.count) (segments : List Segment) :
    Reader.Alone t ⟨segments, .loop opening i t.count⟩
      ⟨segments ++ (t.published.drop i).map fun e => ⟨e, false⟩, .idle⟩ := by
  have hloop := loop_alone (t := t) opening i (t.count - i) segments
  rw [Nat.add_sub_cancel' hi] at hloop
  rw [published_drop, List.map_map]
  exact hloop

/-- `open_all_segments` in one go. -/
theorem open_alone (hcount : 0 < t.count) (h : openAllSegments t = some segments) :
    Reader.Alone t ⟨[], .absent⟩ ⟨segments, .idle⟩ := by
  unfold openAllSegments at h
  split at h
  · cases h
  · rename_i hmagic
    obtain rfl := Option.some.inj h
    have hread : (⟨[], .readMagic⟩ : Reader).step t true = some ⟨[], .readCount⟩ := by
      simp only [Reader.step, if_pos (not_not.mp hmagic)]
    have hmap : (⟨[], .mapPrimary (t.entries 0).size⟩ : Reader).step t true =
        some ⟨[⟨⟨0, primarySize (t.entries 0).size⟩, true⟩], .rereadCount⟩ := by
      simp [Reader.step]
    refine .head rfl (.head hread (.head rfl (.head rfl (.head hmap (.head rfl ?_)))))
    exact loop_alone_count true hcount _

/-- `lazy_discover_growth` in one go, by a process that has mapped some of the
    published entries. -/
theorem discover_alone (hcount : segments.length ≤ t.count) (required : Word) :
    Reader.Alone t ⟨segments, .discover required⟩
      ⟨(lazyDiscoverGrowth t segments required).1, .idle⟩ := by
  by_cases hmapped : required < getSizeUnlocked (rangesOf segments)
  · have hstep : (⟨segments, .discover required⟩ : Reader).step t true =
        some ⟨segments, .idle⟩ := by
      simp only [Reader.step, if_pos hmapped]
    have hsame : (lazyDiscoverGrowth t segments required).1 = segments := by
      simp only [rangesOf] at hmapped
      simp only [lazyDiscoverGrowth, if_pos hmapped]
    rw [hsame]
    exact .head hstep .refl
  · have hstep : (⟨segments, .discover required⟩ : Reader).step t true =
        some ⟨segments, .loop false segments.length t.count⟩ := by
      simp only [Reader.step, if_neg hmapped]
    have hmissing : (lazyDiscoverGrowth t segments required).1 =
        segments ++ (t.published.drop segments.length).map fun e => ⟨e, false⟩ := by
      simp only [rangesOf] at hmapped
      simp only [lazyDiscoverGrowth, if_neg hmapped]
    rw [hmissing]
    exact .head hstep (loop_alone_count false hcount segments)

end alone

/-! ## 3. What a reader knows -/

/-- A list that starts with the primary segment. -/
def Rooted (segments : List Segment) (s0 : Segment) : Prop :=
  ∃ rest, segments = s0 :: rest ∧ s0.fileOffset = 0 ∧ s0.isPrimary = true ∧
    ∀ s ∈ rest, s.isPrimary = false

variable {listed listed' : List Segment} {s0 : Segment} {t : SegmentTable} {r r' : Reader}

theorem Rooted.take (h : Rooted listed s0) {k : Nat} (hk : 0 < k) : Rooted (listed.take k) s0 := by
  obtain ⟨rest, rfl, hoffset, hprim, hrest⟩ := h
  obtain ⟨k, rfl⟩ := Nat.exists_eq_succ_of_ne_zero (Nat.ne_of_gt hk)
  refine ⟨rest.take k, rfl, hoffset, hprim, fun s hs => hrest s (List.mem_of_mem_take hs)⟩

theorem Rooted.isPrimary (h : Rooted listed s0) {i : Nat} (hi : i < listed.length)
    (hpos : 0 < i) : listed[i].isPrimary = false := by
  obtain ⟨rest, rfl, -, -, hrest⟩ := h
  obtain ⟨i, rfl⟩ := Nat.exists_eq_succ_of_ne_zero (Nat.ne_of_gt hpos)
  have hi' : i < rest.length := Nat.lt_of_succ_lt_succ hi
  exact hrest _ (List.getElem_mem hi')

/-- A prefix and the next element make a prefix. -/
theorem prefix_concat {segments : List Segment} (h : segments <+: listed)
    {s : Segment} (hs : listed[segments.length]? = some s) : segments ++ [s] <+: listed := by
  obtain ⟨rest, rfl⟩ := h
  rw [List.getElem?_append_right (Nat.le_refl _), Nat.sub_self] at hs
  cases rest with
  | nil => cases hs
  | cons s' rest =>
    obtain rfl := Option.some.inj hs
    exact ⟨rest, by simp⟩

/-- What has been read, against the list `listed` with the first segment `s0`. -/
def PointInv (listed : List Segment) (s0 : Segment) (r : Reader) : Prop :=
  match r.point with
  | .absent | .readMagic | .readCount | .readPrimarySize | .failed => r.segments = []
  | .mapPrimary s0Size => r.segments = [] ∧ primarySize s0Size = s0.size
  | .rereadCount => r.segments.length = 1
  | .loop _ i count => i = r.segments.length ∧ 0 < i ∧ count ≤ listed.length
  | .readEntrySize _ i count fileOffset =>
      i = r.segments.length ∧ 0 < i ∧ i < count ∧ count ≤ listed.length ∧
        ∀ s ∈ listed[i]?, fileOffset = s.fileOffset
  | .mapEntry _ i count e =>
      i = r.segments.length ∧ 0 < i ∧ i < count ∧ count ≤ listed.length ∧
        ∀ s ∈ listed[i]?, e = s.toFileRange
  | .idle | .discover _ => 0 < r.segments.length

structure ReaderInv (listed : List Segment) (s0 : Segment) (r : Reader) : Prop where
  prefixed : r.segments <+: listed
  point : PointInv listed s0 r

theorem readerInv_absent : ReaderInv listed s0 ⟨[], .absent⟩ := ⟨List.nil_prefix, rfl⟩

/-- What a reader knows stays true when the list grows. -/
theorem ReaderInv.mono (h : ReaderInv listed s0 r) (hlisted : listed <+: listed') :
    ReaderInv listed' s0 r := by
  have hlength := hlisted.length_le
  -- an index below `count` is in the shorter list already
  have hnext : ∀ {i count : Nat} {Q : Segment → Prop}, i < count → count ≤ listed.length →
      (∀ s ∈ listed[i]?, Q s) → ∀ s ∈ listed'[i]?, Q s := by
    intro i count Q hi hcount hQ s hs
    obtain ⟨rest, rfl⟩ := hlisted
    rw [List.getElem?_append_left (Nat.lt_of_lt_of_le hi hcount)] at hs
    exact hQ s hs
  obtain ⟨segments, point⟩ := r
  obtain ⟨hprefixed, hpoint⟩ := h
  refine ⟨hprefixed.trans hlisted, ?_⟩
  cases point with
  | loop opening i count =>
    obtain ⟨hi, hpos, hcount⟩ := hpoint
    exact ⟨hi, hpos, Nat.le_trans hcount hlength⟩
  | readEntrySize opening i count fileOffset =>
    obtain ⟨hi, hpos, hlt, hcount, hread⟩ := hpoint
    exact ⟨hi, hpos, hlt, Nat.le_trans hcount hlength, hnext hlt hcount hread⟩
  | mapEntry opening i count e =>
    obtain ⟨hi, hpos, hlt, hcount, hread⟩ := hpoint
    exact ⟨hi, hpos, hlt, Nat.le_trans hcount hlength, hnext hlt hcount hread⟩
  | _ => exact hpoint

/-- The step lemma of a reader: the count does not exceed the list, the entries
    below it describe the list, and so does the entry of sub-segment 0 when that
    is what the step reads. -/
theorem ReaderInv.step {mapped : Bool} (h : ReaderInv listed s0 r) (hroot : Rooted listed s0)
    (hcount : t.count ≤ listed.length)
    (hentries : ∀ (i : Nat) (hi : i < listed.length), 0 < i → t.entries i = listed[i].toFileRange)
    (hprimary : r.point = .readPrimarySize → primarySize (t.entries 0).size = s0.size)
    (hstep : r.step t mapped = some r') : ReaderInv listed s0 r' := by
  obtain ⟨segments, point⟩ := r
  obtain ⟨hprefixed, hpoint⟩ := h
  cases point with
  | absent =>
    cases hstep
    refine ⟨hprefixed, ?_⟩
    cases mapped <;> exact hpoint
  | readMagic =>
    cases hstep
    refine ⟨hprefixed, ?_⟩
    simp only
    split <;> exact hpoint
  | readCount =>
    cases hstep
    exact ⟨hprefixed, hpoint⟩
  | readPrimarySize =>
    cases hstep
    exact ⟨hprefixed, hpoint, hprimary rfl⟩
  | mapPrimary s0Size =>
    obtain ⟨rfl, hsize⟩ : segments = [] ∧ primarySize s0Size = s0.size := hpoint
    simp only [Reader.step] at hstep
    split at hstep
    · cases hstep
      exact ⟨hprefixed, rfl⟩
    · cases hstep
      obtain ⟨rest, rfl, hoffset, hprim, -⟩ := hroot
      refine ⟨⟨rest, ?_⟩, rfl⟩
      simp only [List.nil_append, List.singleton_append, hsize, ← hoffset, ← hprim]
  | rereadCount =>
    cases hstep
    have hone : segments.length = 1 := hpoint
    exact ⟨hprefixed, hone.symm, Nat.one_pos, hcount⟩
  | loop opening i count =>
    obtain ⟨hi, hpos, hle⟩ := hpoint
    simp only [Reader.step] at hstep
    split at hstep
    · rename_i hlt
      cases hstep
      refine ⟨hprefixed, hi, hpos, hlt, hle, fun s hs => ?_⟩
      obtain ⟨hlen, rfl⟩ := List.getElem?_eq_some_iff.mp hs
      rw [hentries i hlen hpos]
    · cases hstep
      exact ⟨hprefixed, Nat.lt_of_lt_of_eq hpos hi⟩
  | readEntrySize opening i count fileOffset =>
    obtain ⟨hi, hpos, hlt, hle, hread⟩ := hpoint
    cases hstep
    refine ⟨hprefixed, hi, hpos, hlt, hle, fun s hs => ?_⟩
    have hoffset := hread s hs
    obtain ⟨hlen, rfl⟩ := List.getElem?_eq_some_iff.mp hs
    rw [hoffset, hentries i hlen hpos]
  | mapEntry opening i count e =>
    obtain ⟨hi, hpos, hlt, hle, hread⟩ := hpoint
    simp only [Reader.step] at hstep
    split at hstep
    · cases hstep
      have hlen : i < listed.length := Nat.lt_of_lt_of_le hlt hle
      have he : (⟨e, false⟩ : Segment) = listed[i] := by
        rw [hread _ (List.getElem?_eq_getElem hlen), ← hroot.isPrimary hlen hpos]
      refine ⟨?_, ?_⟩
      · apply prefix_concat hprefixed
        have hi' : segments.length = i := hi.symm
        rw [hi', List.getElem?_eq_getElem hlen, he]
      · exact ⟨by simp [hi], Nat.succ_pos i, hle⟩
    · split at hstep
      · cases hstep
        exact ⟨List.nil_prefix, rfl⟩
      · cases hstep
        exact ⟨hprefixed, Nat.lt_of_lt_of_eq hpos hi⟩
  | idle => cases hstep
  | discover required =>
    have hpos : 0 < segments.length := hpoint
    simp only [Reader.step] at hstep
    split at hstep
    · cases hstep
      exact ⟨hprefixed, hpos⟩
    · cases hstep
      exact ⟨hprefixed, rfl, hpos, hcount⟩
  | failed => cases hstep

/-- A call of `lazy_discover_growth` by a process that runs nothing else. -/
theorem ReaderInv.discover (h : ReaderInv listed s0 r) (hidle : r.point = .idle)
    (required : Word) : ReaderInv listed s0 ⟨r.segments, .discover required⟩ := by
  obtain ⟨segments, point⟩ := r
  obtain rfl : point = .idle := hidle
  exact ⟨h.prefixed, h.point⟩

/-- A reader reads entries of sub-segments that the list has. -/
theorem ReaderInv.readsEntry_lt (h : ReaderInv listed s0 r) (hroot : Rooted listed s0) {i : Nat}
    (hi : r.readsEntry = some i) : i < listed.length := by
  obtain ⟨segments, point⟩ := r
  have hpoint := h.point
  cases point with
  | readPrimarySize =>
    cases hi
    obtain ⟨rest, rfl, -⟩ := hroot
    exact Nat.succ_pos _
  | loop opening j count =>
    simp only [Reader.readsEntry] at hi
    split at hi
    · rename_i hlt
      cases hi
      exact Nat.lt_of_lt_of_le hlt hpoint.2.2
    · cases hi
  | readEntrySize opening j count fileOffset =>
    cases hi
    exact Nat.lt_of_lt_of_le hpoint.2.2.1 hpoint.2.2.2.1
  | _ => cases hi

end Memnon.SharedFile
