import Memnon.FileWriter

/-!
# What readers of a file can rely on

A growth publishes safely: an entry below the count is final, the file reaches to
its end and its inner manager has been constructed, so that every reader has a
prefix of the published list. The creation of a file does not: the magic number
is stored before the entry of sub-segment 0, and an opener that reads the size in
between maps the guess of 1 MiB for good.
-/

namespace Memnon.SharedFile

open Memnon.Lib

variable {R : Type}

/-! ## 1. The invariant of the system -/

/-- The segments that a reader may list: the published ones, and sub-segment 0
    from the start. -/
def World.listed (w : World R) : List Segment :=
  w.writer.segments.take (max 1 w.file.table.count)

structure WorldInv (s0 : Segment) (w : World R) : Prop where
  writer : WriterInv w.file w.writer
  rooted : Rooted w.writer.segments s0
  readers : ∀ r, ReaderInv w.listed s0 (w.reader r)
  attached : ∀ r, (w.reader r).point.attached = true → s0.fileOffset ∈ w.file.constructed

section invariant

variable {s0 : Segment} {w w' : World R} {P : Platform} {f f' : File} {v v' : Writer}

theorem WriterInv.count_le (h : WriterInv f v) : max 1 f.table.count ≤ v.segments.length := by
  have hcount := h.count
  obtain ⟨s0, hs0⟩ := h.exists_head
  have hpos := List.length_pos_of_mem (List.mem_of_mem_head? hs0)
  omega

theorem Later.listed (h : Later f v f' v') (hv : WriterInv f v) :
    v.segments.take (max 1 f.table.count) <+: v'.segments.take (max 1 f'.table.count) := by
  have hle := hv.count_le
  obtain ⟨rest, hrest⟩ := h.segments
  have hcount := h.count
  have htake : (v.segments ++ rest).take (max 1 f.table.count) =
      v.segments.take (max 1 f.table.count) := List.take_append_of_le_length hle
  rw [← hrest, ← htake]
  exact List.take_prefix_take_left (by omega)

theorem Later.trans {f'' : File} {v'' : Writer} (h : Later f v f' v') (h' : Later f' v' f'' v'') :
    Later f v f'' v'' :=
  ⟨h.segments.trans h'.segments, Nat.le_trans h.count h'.count, fun _ hx =>
    h'.constructed (h.constructed hx), fun hcreated => h'.created (h.created hcreated)⟩

theorem Rooted.of_prefix {segments segments' : List Segment} (h : Rooted segments s0)
    (hpre : segments <+: segments') (hg : Grown segments') : Rooted segments' s0 := by
  obtain ⟨rest, rfl, hoffset, hprim, -⟩ := h
  obtain ⟨rest', rfl⟩ := hpre
  obtain ⟨s0', rest'', hs, -, hrest⟩ := hg.primary
  obtain ⟨rfl, rfl⟩ := List.cons.inj hs
  exact ⟨_, rfl, hoffset, hprim, hrest⟩

/-- The readers have nothing to do with a step of the writer. -/
theorem WorldInv.write (h : WorldInv s0 w)
    (hnext : WriterInv f' v' ∧ Later w.file w.writer f' v') :
    WorldInv s0 { w with file := f', writer := v' } := by
  obtain ⟨hv, hlater⟩ := hnext
  constructor
  · exact hv
  · exact h.rooted.of_prefix hlater.segments hv.grown
  · intro r
    exact (h.readers r).mono (hlater.listed h.writer)
  · intro r hr
    exact hlater.constructed (h.attached r hr)

theorem WorldInv.setReader [DecidableEq R] (h : WorldInv s0 w) {r : R} {reader : Reader}
    (hreader : ReaderInv w.listed s0 reader)
    (hattached : reader.point.attached = true → s0.fileOffset ∈ w.file.constructed) :
    WorldInv s0 (w.setReader r reader) := by
  constructor
  · exact h.writer
  · exact h.rooted
  · intro q
    by_cases hq : q = r
    · subst hq
      simp only [World.setReader, Function.update_self]
      exact hreader
    · simp only [World.setReader, Function.update_of_ne hq]
      exact h.readers q
  · intro q
    by_cases hq : q = r
    · subst hq
      simp only [World.setReader, Function.update_self]
      exact hattached
    · simp only [World.setReader, Function.update_of_ne hq]
      exact h.attached q

/-- A reader gets past the magic number only where it is stored. -/
theorem Reader.attached_of_step {t : SegmentTable} {mapped : Bool} {r r' : Reader}
    (h : r.step t mapped = some r') (hattached : r'.point.attached = true) :
    r.point.attached = true ∨ t.magic = kSegmentTableMagic := by
  obtain ⟨segments, point⟩ := r
  cases point with
  | absent =>
    cases h
    cases mapped <;> cases hattached
  | readMagic =>
    cases h
    right
    by_contra hmagic
    simp only [if_neg hmagic] at hattached
    cases hattached
  | idle => cases h
  | failed => cases h
  | _ => exact .inl rfl

/-- The magic number is stored after the inner manager of sub-segment 0 has been
    constructed. -/
theorem WorldInv.constructed_of_magic (h : WorldInv s0 w)
    (hmagic : w.file.table.magic = kSegmentTableMagic) : s0.fileOffset ∈ w.file.constructed := by
  have hpoint := h.writer.magic.mp hmagic
  have hconstructed := h.writer.constructed
  obtain ⟨rest, hs, -⟩ := h.rooted
  by_cases hplaced : w.writer.point.placed = true
  · rw [if_pos hplaced, hs] at hconstructed
    exact hconstructed s0 List.mem_cons_self
  · -- the creator is done, so sub-segment 0 is counted
    have hcounted : 0 < w.file.table.count := by
      apply h.writer.counted
      cases hp : w.writer.point with
      | constructFirst => simp [hp, WriterPoint.hasMagic] at hpoint
      | construct => rfl
      | _ => simp [hp, WriterPoint.placed] at hplaced
    rw [if_neg hplaced, hs] at hconstructed
    obtain ⟨k, hk⟩ := Nat.exists_eq_succ_of_ne_zero (Nat.ne_of_gt hcounted)
    rw [hk] at hconstructed
    exact hconstructed s0 List.mem_cons_self

/-- The size of sub-segment 0 that a reader finds is the one the writer maps. -/
def ReadsPrimarySize (s0 : Segment) (w : World R) : Label R → Prop
  | .read r _ => (w.reader r).point = .readPrimarySize →
      primarySize (w.file.table.entries 0).size = s0.size
  | _ => True

/-- The step lemma of the system. -/
theorem worldInv_step [DecidableEq R] {l : Label R} (h : WorldInv s0 w)
    (hfits : NoOverflow P w l) (hprimary : ReadsPrimarySize s0 w l)
    (hstep : step P w l = some w') :
    WorldInv s0 w' ∧ Later w.file w.writer w'.file w'.writer := by
  cases l with
  | readSize minBytes freeMemory =>
    obtain ⟨v', hv', rfl⟩ := Option.map_eq_some_iff.mp hstep
    have hnext := h.writer.readSize hfits hv'
    exact ⟨h.write hnext, hnext.2⟩
  | readSizeBackground lastFreeMemory =>
    obtain ⟨v', hv', rfl⟩ := Option.map_eq_some_iff.mp hstep
    have hnext := h.writer.readSizeBackground hfits hv'
    exact ⟨h.write hnext, hnext.2⟩
  | write =>
    obtain ⟨next, hnext', rfl⟩ := Option.map_eq_some_iff.mp hstep
    have hnext := h.writer.step hnext'
    exact ⟨h.write hnext, hnext.2⟩
  | writeFails =>
    obtain ⟨v', hv', rfl⟩ := Option.map_eq_some_iff.mp hstep
    have hnext := h.writer.fail hv'
    exact ⟨h.write hnext, hnext.2⟩
  | discover r required =>
    simp only [SharedFile.step] at hstep
    split at hstep
    · rename_i hidle
      cases hstep
      refine ⟨h.setReader ((h.readers r).discover hidle required) fun _ => ?_, .refl _ _⟩
      exact h.attached r (by rw [hidle]; rfl)
    · cases hstep
  | read r mapped =>
    obtain ⟨reader, hreader, rfl⟩ := Option.map_eq_some_iff.mp hstep
    have hle := h.writer.count_le
    have hlength : w.listed.length = max 1 w.file.table.count := by
      rw [World.listed, List.length_take]
      omega
    refine ⟨h.setReader ?_ ?_, .refl _ _⟩
    · apply (h.readers r).step (h.rooted.take (by omega)) _ _ hprimary hreader
      · rw [hlength]
        omega
      · intro i hi hpos
        have hlt : i < w.file.table.count := by omega
        simp only [World.listed, List.getElem_take]
        exact h.writer.entries i (by omega) hpos hlt
    · intro hattached
      rcases Reader.attached_of_step hreader hattached with hbefore | hmagic
      · exact h.attached r hbefore
      · exact h.constructed_of_magic hmagic

end invariant

/-! ## 2. Growth of a created file -/

section growth

variable {s0 : Segment} {w w' : World R} {P : Platform} {initialSize : Word}

/-- The primary segment of a creator. -/
def firstSegment (initialSize : Word) : Segment := ⟨⟨0, umax initialSize kMinSegmentSize⟩, true⟩

theorem grown_firstSegment (hsize : initialSize.toNat < 2 ^ 63) :
    Grown [firstSegment initialSize] := by
  have hmax := umax_toNat initialSize kMinSegmentSize
  have hmin : kMinSegmentSize.toNat = 2 ^ 20 := rfl
  exact grown_single (by omega) (by omega)

theorem span_firstSegment : span (extents (rangesOf [firstSegment initialSize])) =
    (umax initialSize kMinSegmentSize).toNat := by
  simp [firstSegment, FileRange.extent]

theorem worldInv_created (hsize : initialSize.toNat < 2 ^ 63) :
    WorldInv (firstSegment initialSize) (created initialSize : World R) := by
  have hg := grown_firstSegment hsize
  constructor
  · refine ⟨hg, nofun, rfl, ?_, ?_, ⟨fun _ => rfl, fun _ => rfl⟩, fun _ => Nat.one_pos,
      Nat.le_of_eq span_firstSegment, ?_, trivial⟩
    · intro i hi hpos hlt
      have hi' : i < 1 := hi
      omega
    · intro s hs
      obtain rfl : firstSegment initialSize = s := Option.some.inj hs
      rfl
    · intro s hs
      obtain rfl := List.mem_singleton.mp hs
      exact List.mem_cons_self
  · exact ⟨[], rfl, rfl, rfl, nofun⟩
  · exact fun _ => readerInv_absent
  · exact fun _ _ => List.mem_cons_self

/-- Once the constructor has returned, entry 0 has the size of the segment. -/
theorem WorldInv.readsPrimarySize {l : Label R} (h : WorldInv s0 w)
    (hcreated : w.writer.point.creating = false) : ReadsPrimarySize s0 w l := by
  cases l with
  | read r mapped =>
    intro _
    obtain ⟨rest, hs, -⟩ := h.rooted
    have hentry := h.writer.primary s0 (by rw [hs]; rfl)
    have hmin := h.writer.grown.minSize s0 (by rw [hs]; exact List.mem_cons_self)
    rw [hcreated] at hentry
    simp only [Bool.false_eq_true, if_false] at hentry
    rw [hentry, primarySize]
    split
    · rfl
    · rename_i hnot
      have hbound : kMinSegmentSize.toNat = 2 ^ 20 := rfl
      rw [gt_iff_lt, BitVec.lt_def, hbound] at hnot
      apply BitVec.eq_of_toNat_eq
      omega
  | _ => trivial

/-- A run from a state after the constructor, and what it leaves as it is. -/
theorem worldInv_steps [DecidableEq R] (h : WorldInv s0 w)
    (hcreated : w.writer.point.creating = false)
    (hrun : Steps (step P) (NoOverflow P) w w') :
    WorldInv s0 w' ∧ Later w.file w.writer w'.file w'.writer := by
  induction hrun with
  | refl => exact ⟨h, .refl _ _⟩
  | tail _ hfits hstep ih =>
    obtain ⟨hinv, hlater⟩ := ih
    have hcreated' := hlater.created hcreated
    obtain ⟨hinv', hnext⟩ := worldInv_step hinv hfits (hinv.readsPrimarySize hcreated') hstep
    exact ⟨hinv', hlater.trans hnext⟩

/-- An entry below the count describes a segment of the writer. -/
theorem WorldInv.entry (h : WorldInv s0 w) (hcreated : w.writer.point.creating = false) {i : Nat}
    (hi : i < w.file.table.count) : ∃ hlen : i < w.writer.segments.length,
      w.file.table.entries i = w.writer.segments[i].toFileRange := by
  have hlen : i < w.writer.segments.length := by
    have hcount := h.writer.count
    omega
  refine ⟨hlen, ?_⟩
  by_cases hpos : 0 < i
  · exact h.writer.entries i hlen hpos hi
  · obtain rfl : i = 0 := Nat.eq_zero_of_not_pos hpos
    obtain ⟨rest, hs, -⟩ := h.rooted
    have hentry := h.writer.primary s0 (by rw [hs]; rfl)
    rw [hentry, hcreated]
    simp [hs]

theorem WorldInv.published (h : WorldInv s0 w) (hcreated : w.writer.point.creating = false) :
    rangesOf (w.writer.segments.take w.file.table.count) = w.file.table.published := by
  have hcount := h.writer.count
  apply List.ext_getElem
  · rw [rangesOf_length, SegmentTable.published_length, List.length_take]
    omega
  · intro i hi hi'
    rw [SegmentTable.published_length] at hi'
    obtain ⟨hlen, hentry⟩ := h.entry hcreated hi'
    simp [SegmentTable.published, hentry, rangesOf]

/-- The file reaches to the end of a published entry. -/
theorem WorldInv.stop_le (h : WorldInv s0 w) (hcreated : w.writer.point.creating = false) {i : Nat}
    (hi : i < w.file.table.count) :
    (w.file.table.entries i).extent.stop ≤ w.file.size.toNat := by
  obtain ⟨hlen, hentry⟩ := h.entry hcreated hi
  have hmem : (w.file.table.entries i).extent ∈ extents (rangesOf w.writer.segments) := by
    rw [hentry]
    exact List.mem_map_of_mem (List.mem_map_of_mem (List.getElem_mem hlen))
  have hstop := (h.writer.grown.laid.bounds hmem).2
  rw [Nat.zero_add] at hstop
  exact Nat.le_trans hstop h.writer.fileSize

/-- The inner manager of a published entry has been constructed. -/
theorem WorldInv.entry_constructed (h : WorldInv s0 w)
    (hcreated : w.writer.point.creating = false) {i : Nat} (hi : i < w.file.table.count) :
    (w.file.table.entries i).fileOffset ∈ w.file.constructed := by
  obtain ⟨hlen, hentry⟩ := h.entry hcreated hi
  rw [hentry]
  apply h.writer.constructed
  split
  · exact List.getElem_mem hlen
  · exact List.mem_take_iff_getElem.mpr ⟨i, by omega, rfl⟩

/-- With one growing process, whoever reads an entry below the count finds it
    final, the file reaching to its end and its inner manager constructed; and
    every list is a prefix of the published one. -/
theorem growth_publishes_safely [DecidableEq R] (hsize : initialSize.toNat < 2 ^ 63)
    (hrun : Steps (step P) (NoOverflow P) (created initialSize : World R) w) :
    (∀ r, (w.reader r).segments <+: w.writer.segments.take w.file.table.count) ∧
    rangesOf (w.writer.segments.take w.file.table.count) = w.file.table.published ∧
    (∀ r i, (w.reader r).readsEntry = some i → i < w.file.table.count) ∧
    ∀ i, i < w.file.table.count →
      (w.file.table.entries i).extent.stop ≤ w.file.size.toNat ∧
      (w.file.table.entries i).fileOffset ∈ w.file.constructed ∧
      ∀ w', Steps (step P) (NoOverflow P) w w' →
        w'.file.table.entries i = w.file.table.entries i := by
  obtain ⟨hinv, hlater⟩ := worldInv_steps (worldInv_created hsize) rfl hrun
  have hcreated : w.writer.point.creating = false := hlater.created rfl
  have hpos : 0 < w.file.table.count := hinv.writer.counted hcreated
  have hmax : max 1 w.file.table.count = w.file.table.count := Nat.max_eq_right hpos
  have hlisted : w.listed = w.writer.segments.take w.file.table.count := by
    rw [World.listed, hmax]
  refine ⟨fun r => ?_, hinv.published hcreated, fun r i hreads => ?_, fun i hi => ⟨?_, ?_, ?_⟩⟩
  · rw [← hlisted]
    exact (hinv.readers r).prefixed
  · have hrooted : Rooted w.listed (firstSegment initialSize) := by
      rw [hlisted]
      exact hinv.rooted.take hpos
    have hlt := (hinv.readers r).readsEntry_lt hrooted hreads
    rw [hlisted, List.length_take] at hlt
    omega
  · exact hinv.stop_le hcreated hi
  · exact hinv.entry_constructed hcreated hi
  · intro w' hrun'
    obtain ⟨hinv', hlater'⟩ := worldInv_steps hinv hcreated hrun'
    obtain ⟨hlen, hentry⟩ := hinv.entry hcreated hi
    obtain ⟨hlen', hentry'⟩ := hinv'.entry (hlater'.created hcreated)
      (Nat.lt_of_lt_of_le hi hlater'.count)
    rw [hentry, hentry', hlater'.segments.getElem hlen]

end growth

/-- A process attaches while the first growth is under way and discovers the
    second one, after an attempt whose chunk could not be mapped. -/
theorem growth_publishes_safely_twice : ∃ w : World Unit, w.file.table.count = 3 ∧
    (w.reader ()).segments.length = 3 ∧
    (w.reader ()).segments <+: w.writer.segments.take w.file.table.count := by
  let read : Label Unit := .read () true
  let growth : List (Label Unit) := .readSize 0x100000 0 :: List.replicate 6 .write
  let schedule : List (Label Unit) :=
    growth.take 5 ++ List.replicate 6 read ++ growth.drop 5 ++ [read] ++
      growth.take 2 ++ [.writeFails] ++ growth ++
      .discover () 0x300000 :: List.replicate 8 read
  have hex : ∃ w : World Unit, Steps (step fourKiBPages) (NoOverflow fourKiBPages)
      (created 0x100000) w ∧
      decide (w.file.table.count = 3 ∧ (w.reader ()).segments.length = 3) = true :=
    Steps.exists_of_replay schedule (by decide +kernel)
  obtain ⟨w, hrun, hw⟩ := hex
  obtain ⟨hcount, hlength⟩ := of_decide_eq_true hw
  exact ⟨w, hcount, hlength, (growth_publishes_safely (by decide) hrun).1 ()⟩

/-! ## 3. Creation of a file -/

section creation

variable {s0 : Segment} {w : World R} {P : Platform} {initialSize : Word}

/-- What an opener that has not thrown may expect of the creator's file. -/
structure Agrees (w : World R) (r : R) : Prop where
  first : ∀ s ∈ (w.reader r).segments.head?, w.writer.segments.head? = some s
  constructed : (w.reader r).point.attached = true → 0 ∈ w.file.constructed
  listed : (w.reader r).segments <+: w.writer.segments

/-- An opener reads the size of sub-segment 0 after the creator has stored it,
    or the size is that of the guess. -/
def ReadsStoredSize (w : World R) : Label R → Prop
  | .read r _ => (w.reader r).point = .readPrimarySize → w.writer.point.creating = false ∨
      w.writer.segments.head?.map (fun s0 => s0.size) = some kMinSegmentSize
  | _ => True

instance (w : World R) : (l : Label R) → Decidable (ReadsStoredSize w l)
  | .read r _ =>
      inferInstanceAs (Decidable ((w.reader r).point = .readPrimarySize →
        w.writer.point.creating = false ∨
          w.writer.segments.head?.map (fun s0 => s0.size) = some kMinSegmentSize))
  | .readSize _ _ | .readSizeBackground _ | .write | .writeFails | .discover _ _ =>
      .isTrue trivial

theorem worldInv_mapped (hsize : initialSize.toNat < 2 ^ 63) :
    WorldInv (firstSegment initialSize) (mapped initialSize : World R) := by
  have hg := grown_firstSegment hsize
  constructor
  · refine ⟨hg, fun _ => rfl, rfl, ?_, ?_, ?_, nofun, Nat.le_of_eq span_firstSegment, nofun,
      trivial⟩
    · intro i hi hpos hlt
      cases hlt
    · intro s hs
      rfl
    · constructor
      · intro hmagic
        have hblank : (0 : Word) = kSegmentTableMagic := hmagic
        exact absurd hblank (by decide)
      · nofun
  · exact ⟨[], rfl, rfl, rfl, nofun⟩
  · exact fun _ => readerInv_absent
  · exact fun _ hattached => by cases hattached

/-- An entry 0 that is still empty is read as the size of the guess. -/
theorem WorldInv.readsPrimarySize_of_stored {l : Label R} (h : WorldInv s0 w)
    (hread : ReadsStoredSize w l) : ReadsPrimarySize s0 w l := by
  by_cases hcreated : w.writer.point.creating = false
  · exact h.readsPrimarySize hcreated
  · cases l with
    | read r mapped =>
      intro hpoint
      obtain ⟨rest, hs, -⟩ := h.rooted
      have hhead : w.writer.segments.head? = some s0 := by rw [hs]; rfl
      have hentry := h.writer.primary s0 hhead
      rw [if_pos (Bool.not_eq_false _ ▸ hcreated)] at hentry
      have hguess := (hread hpoint).resolve_left hcreated
      rw [hhead] at hguess
      rw [hentry, show s0.size = kMinSegmentSize from Option.some.inj hguess]
      rfl
    | _ => trivial

/-- While openers read the size of sub-segment 0 after it is stored, what they
    have is the creator's. -/
theorem creation_publishes_stored_size [DecidableEq R] (hsize : initialSize.toNat < 2 ^ 63)
    (hrun : Steps (step P) (fun w l => NoOverflow P w l ∧ ReadsStoredSize w l)
      (mapped initialSize : World R) w) (r : R) : Agrees w r := by
  have hinv : WorldInv (firstSegment initialSize) w := by
    apply hrun.invariant (WorldInv (firstSegment initialSize)) (worldInv_mapped hsize)
    rintro a l b hinv ⟨hfits, hread⟩ hstep
    exact (worldInv_step hinv hfits (hinv.readsPrimarySize_of_stored hread) hstep).1
  have hlisted : (w.reader r).segments <+: w.writer.segments :=
    (hinv.readers r).prefixed.trans (List.take_prefix _ _)
  constructor
  · intro s hs
    obtain ⟨rest, hrest⟩ := hlisted
    rw [← hrest, List.head?_append, Option.mem_def.mp hs]
    rfl
  · exact hinv.attached r
  · exact hlisted

end creation

/-- A file of 16 MiB, opened after its creator is done. -/
theorem creation_publishes_stored_size_after : ∃ w : World Unit,
    (w.reader ()).point = .idle ∧ (w.reader ()).segments = [firstSegment 0x1000000] ∧
      Agrees w () := by
  let schedule : List (Label Unit) := List.replicate 7 .write ++ List.replicate 7 (.read () true)
  have hex : ∃ w : World Unit, Steps (step fourKiBPages)
      (fun w l => NoOverflow fourKiBPages w l ∧ ReadsStoredSize w l) (mapped 0x1000000) w ∧
      decide ((w.reader ()).point = .idle ∧
        (w.reader ()).segments = [firstSegment 0x1000000]) = true :=
    Steps.exists_of_replay schedule (by decide +kernel)
  obtain ⟨w, hrun, hw⟩ := hex
  obtain ⟨hidle, hlist⟩ := of_decide_eq_true hw
  exact ⟨w, hidle, hlist, creation_publishes_stored_size (by decide) hrun ()⟩

/-- The opener reads the size of sub-segment 0 between the store of the magic
    number and that of the size: it maps 1 MiB of a segment of 16 MiB. -/
theorem early_opener_disagrees : ¬ ∀ w : World Unit,
    Steps (step fourKiBPages) (NoOverflow fourKiBPages) (mapped 0x1000000) w →
    (w.reader ()).point = .idle → Agrees w () := by
  intro hall
  let schedule : List (Label Unit) := [.write, .write] ++ List.replicate 7 (.read () true)
  have hex : ∃ w : World Unit, Steps (step fourKiBPages) (NoOverflow fourKiBPages)
      (mapped 0x1000000) w ∧ decide ((w.reader ()).point = .idle ∧
        (w.reader ()).segments.head? = some ⟨⟨0, 0x100000⟩, true⟩ ∧
        w.writer.segments.head? = some ⟨⟨0, 0x1000000⟩, true⟩) = true :=
    Steps.exists_of_replay schedule (by decide +kernel)
  obtain ⟨w, hrun, hw⟩ := hex
  obtain ⟨hidle, hreader, hwriter⟩ := of_decide_eq_true hw
  have hfirst := (hall w hrun hidle).first _ hreader
  rw [hwriter] at hfirst
  exact absurd hfirst (by decide)

end Memnon.SharedFile
