import Memnon.FileReader
import Memnon.Lib.TransitionSystem

/-!
# One process writes the table, the others read it

The creator of a file and the grower of it, store by store, against any number
of readers. The writer appends a segment to its own list before it constructs
the inner manager in it, and publishes it by the store of the count, after both
fields of the entry. The creator stores the count before the fields of entry 0.
-/

namespace Memnon.SharedFile

open Memnon.Lib

/-! ## 1. The writer -/

/-- The next single step of the writer: first those of the constructor, then
    those of a growth, whose chunk is the last segment once it is mapped. -/
inductive WriterPoint where
  | constructFirst
  | storeMagic
  | storeVersion
  | storeCapacity
  | storeFirstCount
  | storeFirstOffset
  | storeFirstSize
  | idle
  | truncate (newChunkSize currentFileSize : Word) (background : Bool)
  | map (newChunkSize currentFileSize : Word) (background : Bool)
  | construct
  | storeOffset
  | storeSize
  | storeCount
  | terminated
deriving DecidableEq

structure Writer where
  segments : List Segment
  point : WriterPoint

/-- The backing file; `constructed` has the file offsets of the segments whose
    inner manager has been constructed. -/
structure File where
  table : SegmentTable
  size : Word
  constructed : List Word

def File.construct (f : File) (segments : List Segment) : File :=
  match segments.getLast? with
  | some last => { f with constructed := last.fileOffset :: f.constructed }
  | none => f

/-- A store to a field of one entry. -/
def File.store (f : File) (i : Nat) (change : FileRange → FileRange) : File :=
  { f with table := { f.table with
      entries := Function.update f.table.entries i (change (f.table.entries i)) } }

/-- `update_segment_table` gets to its stores: otherwise it returns, or throws
    "Too many sub-segments". -/
def publishes (segments : List Segment) : Bool :=
  segments.head?.any Segment.isPrimary && decide (segments.length - 1 < kMaxSubSegments)

theorem publishes_of_front {segments : List Segment}
    (hfront : ∃ s0 rest, segments = s0 :: rest ∧ s0.isPrimary = true)
    (hroom : segments.length - 1 < kMaxSubSegments) : publishes segments = true := by
  obtain ⟨s0, rest, rfl, hprim⟩ := hfront
  simp only [publishes, List.head?_cons, Option.any_some, hprim, Bool.true_and,
    decide_eq_true_eq]
  exact hroom

def Writer.step (f : File) (w : Writer) : Option (File × Writer) :=
  let newIdx := w.segments.length - 1
  match w.point with
  | .constructFirst => some (f.construct w.segments, ⟨w.segments, .storeMagic⟩)
  | .storeMagic =>
      some ({ f with table := { f.table with magic := kSegmentTableMagic } },
        ⟨w.segments, .storeVersion⟩)
  | .storeVersion =>
      some ({ f with table := { f.table with version := kSegmentTableVersion } },
        ⟨w.segments, .storeCapacity⟩)
  | .storeCapacity =>
      some ({ f with table := { f.table with capacity := BitVec.ofNat 32 kMaxSubSegments } },
        ⟨w.segments, .storeFirstCount⟩)
  | .storeFirstCount =>
      some ({ f with table := { f.table with count := 1 } }, ⟨w.segments, .storeFirstOffset⟩)
  | .storeFirstOffset =>
      some (f.store 0 fun e => { e with fileOffset := 0 }, ⟨w.segments, .storeFirstSize⟩)
  | .storeFirstSize =>
      match w.segments.head? with
      | some s0 => some (f.store 0 fun e => { e with size := s0.size }, ⟨w.segments, .idle⟩)
      | none => none
  | .idle => none
  | .truncate newChunkSize currentFileSize background =>
      some ({ f with size := currentFileSize + newChunkSize },
        ⟨w.segments, .map newChunkSize currentFileSize background⟩)
  | .map newChunkSize currentFileSize background =>
      if background ∧ currentFileSize ≠ getSizeUnlocked (rangesOf w.segments) then
        some (f, ⟨w.segments, .idle⟩)
      else
        some (f, ⟨w.segments ++ [⟨⟨currentFileSize, newChunkSize⟩, false⟩], .construct⟩)
  | .construct => some (f.construct w.segments, ⟨w.segments, .storeOffset⟩)
  | .storeOffset =>
      match w.segments.getLast? with
      | some ns =>
          if publishes w.segments then
            some (f.store newIdx fun e => { e with fileOffset := ns.fileOffset },
              ⟨w.segments, .storeSize⟩)
          else some (f, ⟨w.segments, .idle⟩)
      | none => none
  | .storeSize =>
      match w.segments.getLast? with
      | some ns => some (f.store newIdx fun e => { e with size := ns.size },
          ⟨w.segments, .storeCount⟩)
      | none => none
  | .storeCount =>
      some ({ f with table := { f.table with count := newIdx + 1 } }, ⟨w.segments, .idle⟩)
  | .terminated => none

/-- The system call of a growth fails: `shm_grow`, or the mapping of the chunk, whose
    exception cannot leave `grow_background`. -/
def Writer.fail (w : Writer) : Option Writer :=
  match w.point with
  | .truncate _ _ _ => some ⟨w.segments, .idle⟩
  | .map _ currentFileSize background =>
      if background then
        if currentFileSize = getSizeUnlocked (rangesOf w.segments) then
          some ⟨w.segments, .terminated⟩
        else none
      else some ⟨w.segments, .idle⟩
  | _ => none

/-- The first section of `grow`, with the free memory it finds. -/
def Writer.readSize (P : Platform) (minBytes freeMemory : Word) (w : Writer) : Option Writer :=
  if w.point ≠ .idle then none
  else if freeMemory ≥ minBytes then some w
  else some ⟨w.segments, .truncate (growChunkSize P w.segments minBytes)
    (getSizeUnlocked (rangesOf w.segments)) false⟩

/-- The first section of `grow_background`. -/
def Writer.readSizeBackground (P : Platform) (lastFreeMemory : Word) (w : Writer) :
    Option Writer :=
  if w.point ≠ .idle then none
  else
    match w.segments.getLast? with
    | none => some w
    | some last =>
        if lastFreeMemory ≥ last.size / 2 then some w
        else some ⟨w.segments, .truncate (backgroundChunkSize P last)
          (getSizeUnlocked (rangesOf w.segments)) true⟩

/-- Steps of the writer, whatever the readers do. -/
def WriterSteps : File × Writer → File × Writer → Prop :=
  Relation.ReflTransGen fun a b => a.2.step a.1 = some b

theorem WriterSteps.head {a b c : File × Writer} (hstep : a.2.step a.1 = some b)
    (h : WriterSteps b c) : WriterSteps a c := Relation.ReflTransGen.head hstep h

theorem File.store_store (f : File) (i : Nat) (change change' : FileRange → FileRange) :
    (f.store i change).store i change' = f.store i fun e => change' (change e) := by
  simp [File.store]

/-- The stores of the constructor are `init_segment_table`. -/
theorem init_stores (f : File) (size : Word) :
    WriterSteps (f, ⟨[⟨⟨0, size⟩, true⟩], .storeMagic⟩)
      ({ f with table := initSegmentTable [⟨⟨0, size⟩, true⟩] f.table },
        ⟨[⟨⟨0, size⟩, true⟩], .idle⟩) := by
  refine .head rfl (.head rfl (.head rfl (.head rfl (.head rfl (.head rfl ?_)))))
  rw [File.store_store]
  exact .refl

/-- The stores of a growth are `update_segment_table`, on the list that ends with
    the new chunk. -/
theorem update_stores {f : File} {segments : List Segment} {ns : Segment} {t : SegmentTable}
    (hfront : ∃ s0 rest, segments = s0 :: rest ∧ s0.isPrimary = true)
    (h : updateSegmentTable (segments ++ [ns]) f.table = some t) :
    WriterSteps (f, ⟨segments ++ [ns], .storeOffset⟩)
      ({ f with table := t }, ⟨segments ++ [ns], .idle⟩) := by
  rw [updateSegmentTable_concat hfront] at h
  split at h
  · cases h
  · rename_i hroom
    obtain rfl := Option.some.inj h
    have hpublishes : publishes (segments ++ [ns]) = true := by
      obtain ⟨s0, rest, hs, hprim⟩ := hfront
      apply publishes_of_front ⟨s0, rest ++ [ns], by rw [hs]; rfl, hprim⟩
      rw [List.length_append, List.length_singleton]
      omega
    have hidx : (segments ++ [ns]).length - 1 = segments.length := by simp
    have hoffset : (⟨segments ++ [ns], .storeOffset⟩ : Writer).step f =
        some (f.store segments.length fun e => { e with fileOffset := ns.fileOffset },
          ⟨segments ++ [ns], .storeSize⟩) := by
      simp only [Writer.step, List.getLast?_concat, hpublishes, if_true, hidx]
    refine .head hoffset ?_
    have hsize : ∀ f' : File, (⟨segments ++ [ns], .storeSize⟩ : Writer).step f' =
        some (f'.store segments.length fun e => { e with size := ns.size },
          ⟨segments ++ [ns], .storeCount⟩) := by
      intro f'
      simp only [Writer.step, List.getLast?_concat, hidx]
    refine .head (hsize _) (.head rfl ?_)
    rw [File.store_store, hidx]
    exact .refl

/-! ## 2. The system -/

structure World (R : Type) where
  file : File
  writer : Writer
  reader : R → Reader

inductive Label (R : Type) where
  | readSize (minBytes freeMemory : Word)
  | readSizeBackground (lastFreeMemory : Word)
  | write
  | writeFails
  | discover (r : R) (requiredFileOffset : Word)
  | read (r : R) (mapped : Bool)
deriving DecidableEq

variable {R : Type}

def World.setReader [DecidableEq R] (w : World R) (r : R) (reader : Reader) : World R :=
  { w with reader := Function.update w.reader r reader }

def step [DecidableEq R] (P : Platform) (w : World R) : Label R → Option (World R)
  | .readSize minBytes freeMemory =>
      (w.writer.readSize P minBytes freeMemory).map fun writer => { w with writer := writer }
  | .readSizeBackground lastFreeMemory =>
      (w.writer.readSizeBackground P lastFreeMemory).map fun writer =>
        { w with writer := writer }
  | .write =>
      (w.writer.step w.file).map fun next => { w with file := next.1, writer := next.2 }
  | .writeFails => w.writer.fail.map fun writer => { w with writer := writer }
  | .discover r requiredFileOffset =>
      if (w.reader r).point = .idle then
        some (w.setReader r ⟨(w.reader r).segments, .discover requiredFileOffset⟩)
      else none
  | .read r mapped =>
      ((w.reader r).step w.file.table mapped).map (w.setReader r)

/-- The file has been made and mapped by its creator, nothing is stored in it. -/
def mapped (initialSize : Word) : World R :=
  let size := umax initialSize kMinSegmentSize
  { file := ⟨.blank, size, []⟩
    writer := ⟨[⟨⟨0, size⟩, true⟩], .constructFirst⟩
    reader := fun _ => ⟨[], .absent⟩ }

/-- The creator's constructor has returned. -/
def created (initialSize : Word) : World R :=
  let size := umax initialSize kMinSegmentSize
  { file := ⟨initSegmentTable [⟨⟨0, size⟩, true⟩] .blank, size, [0]⟩
    writer := ⟨[⟨⟨0, size⟩, true⟩], .idle⟩
    reader := fun _ => ⟨[], .absent⟩ }

/-- The chunk that the bytes `wanted` ask for fits into the file behind the
    others, with all sums exact. -/
def Fits (P : Platform) (segments : List Segment) (wanted : Nat) : Prop :=
  wanted + 2 ^ P.pageShift + span (extents (rangesOf segments)) ≤ 2 ^ 63

instance (P : Platform) (segments : List Segment) (wanted : Nat) :
    Decidable (Fits P segments wanted) :=
  inferInstanceAs (Decidable (_ ≤ _))

/-- No request is large enough to overflow. -/
def NoOverflow (P : Platform) (w : World R) : Label R → Prop
  | .readSize minBytes _ => ∀ last ∈ w.writer.segments.getLast?,
      Fits P w.writer.segments (max minBytes.toNat (2 * last.size.toNat))
  | .readSizeBackground _ => ∀ last ∈ w.writer.segments.getLast?,
      Fits P w.writer.segments (max kMinSegmentSize.toNat (2 * last.size.toNat))
  | _ => True

instance (P : Platform) (w : World R) : (l : Label R) → Decidable (NoOverflow P w l)
  | .readSize _ _ | .readSizeBackground _ => Option.decidableForallMem w.writer.segments.getLast?
  | .write | .writeFails | .discover _ _ | .read _ _ => .isTrue trivial

/-! ## 3. What the writer keeps -/

/-- The constructor has not returned. -/
def WriterPoint.creating : WriterPoint → Bool
  | .constructFirst | .storeMagic | .storeVersion | .storeCapacity | .storeFirstCount
  | .storeFirstOffset | .storeFirstSize => true
  | _ => false

/-- The magic number is stored. -/
def WriterPoint.hasMagic : WriterPoint → Bool
  | .constructFirst | .storeMagic => false
  | _ => true

/-- The count does not include the last segment yet. -/
def WriterPoint.pending : WriterPoint → Bool
  | .constructFirst | .storeMagic | .storeVersion | .storeCapacity | .storeFirstCount
  | .construct | .storeOffset | .storeSize | .storeCount => true
  | _ => false

/-- The inner manager of the last segment has been constructed. -/
def WriterPoint.placed : WriterPoint → Bool
  | .constructFirst | .construct => false
  | _ => true

/-- The chunk of a growth from the end of the list, with all sums exact. -/
structure FromEnd (segments : List Segment) (newChunkSize currentFileSize : Word) : Prop where
  cur : currentFileSize = getSizeUnlocked (rangesOf segments)
  twice : ∀ last ∈ segments.getLast?, 2 * last.size.toNat ≤ newChunkSize.toNat
  fits : currentFileSize.toNat + newChunkSize.toNat < 2 ^ 63

/-- What the writer has stored, or carries, when it is at a point. -/
def WriterPointInv (f : File) (w : Writer) : Prop :=
  match w.point with
  | .truncate newChunkSize currentFileSize _ => FromEnd w.segments newChunkSize currentFileSize
  | .map newChunkSize currentFileSize _ => FromEnd w.segments newChunkSize currentFileSize ∧
      f.size = currentFileSize + newChunkSize
  | .storeSize => ∀ ns ∈ w.segments.getLast?,
      (f.table.entries f.table.count).fileOffset = ns.fileOffset
  | .storeCount => ∀ ns ∈ w.segments.getLast?,
      f.table.entries f.table.count = ns.toFileRange
  | _ => True

structure WriterInv (f : File) (w : Writer) : Prop where
  grown : Grown w.segments
  alone : w.point.creating = true → w.segments.length = 1
  count : w.segments.length = f.table.count + if w.point.pending then 1 else 0
  entries : ∀ (i : Nat) (h : i < w.segments.length), 0 < i → i < f.table.count →
    f.table.entries i = w.segments[i].toFileRange
  primary : ∀ s0 ∈ w.segments.head?, f.table.entries 0 =
    if w.point.creating then ⟨0, 0⟩ else s0.toFileRange
  magic : f.table.magic = kSegmentTableMagic ↔ w.point.hasMagic = true
  counted : w.point.creating = false → 0 < f.table.count
  fileSize : span (extents (rangesOf w.segments)) ≤ f.size.toNat
  constructed : ∀ s ∈ if w.point.placed then w.segments else w.segments.take f.table.count,
    s.fileOffset ∈ f.constructed
  point : WriterPointInv f w

/-- What a step of the writer does not take back. -/
structure Later (f : File) (w : Writer) (f' : File) (w' : Writer) : Prop where
  segments : w.segments <+: w'.segments
  count : f.table.count ≤ f'.table.count
  constructed : f.constructed ⊆ f'.constructed
  created : w.point.creating = false → w'.point.creating = false

theorem Later.refl (f : File) (w : Writer) : Later f w f w :=
  ⟨List.prefix_rfl, Nat.le_refl _, fun _ h => h, id⟩

section writer

variable {P : Platform} {f f' : File} {w w' : Writer}

theorem WriterInv.exists_last (h : WriterInv f w) :
    ∃ ns, w.segments.getLast? = some ns := h.grown.exists_last

theorem WriterInv.exists_head (h : WriterInv f w) : ∃ s0, w.segments.head? = some s0 := by
  obtain ⟨s0, rest, hs, -⟩ := h.grown.primary
  exact ⟨s0, by rw [hs]; rfl⟩

/-- While the last segment is not counted, its entry is the one behind the others. -/
theorem WriterInv.newIdx (h : WriterInv f w) (hpending : w.point.pending = true) :
    w.segments.length - 1 = f.table.count := by
  have hcount := h.count
  rw [hpending, if_pos rfl] at hcount
  omega

theorem File.store_entries_self (f : File) (i : Nat) (change : FileRange → FileRange) :
    (f.store i change).table.entries i = change (f.table.entries i) :=
  Function.update_self _ _ _

theorem WriterInv.publishes (h : WriterInv f w) : publishes w.segments = true := by
  have hroom := h.grown.length_lt
  exact publishes_of_front h.grown.front (by omega)

/-- A store to the entry behind the published ones. -/
theorem WriterInv.store (h : WriterInv f w) (hcreated : w.point.creating = false)
    (hpending : w.point.pending = true) (hplaced : w.point.placed = true) (p' : WriterPoint)
    (hp' : p'.creating = false ∧ p'.pending = true ∧ p'.placed = true)
    (hmagic : p'.hasMagic = w.point.hasMagic) {change : FileRange → FileRange}
    (hpoint : WriterPointInv (f.store (w.segments.length - 1) change) ⟨w.segments, p'⟩) :
    WriterInv (f.store (w.segments.length - 1) change) ⟨w.segments, p'⟩ ∧
      Later f w (f.store (w.segments.length - 1) change) ⟨w.segments, p'⟩ := by
  have hpos := h.counted hcreated
  have hcount := h.count
  rw [hpending, if_pos rfl] at hcount
  have hold : ∀ i, i < f.table.count →
      (f.store (w.segments.length - 1) change).table.entries i = f.table.entries i := by
    intro i hi
    exact Function.update_of_ne (by omega) _ _
  refine ⟨⟨h.grown, fun hcreating => ?_, ?_, ?_, ?_, ?_, fun _ => hpos, h.fileSize, ?_, hpoint⟩, ?_⟩
  · rw [hp'.1] at hcreating
    cases hcreating
  · simp only [hp'.2.1, if_pos]
    exact hcount
  · intro i hi hpos' hlt
    rw [hold i hlt]
    exact h.entries i hi hpos' hlt
  · intro s0 hs0
    rw [hold 0 hpos, h.primary s0 hs0]
    simp only [hp'.1, hcreated]
  · simp only [hmagic]
    exact h.magic
  · have hconstructed := h.constructed
    simp only [hplaced, hp'.2.2, if_pos] at hconstructed ⊢
    exact hconstructed
  · exact ⟨List.prefix_rfl, Nat.le_refl _, fun _ hx => hx, fun _ => hp'.1⟩

/-- A store of the creator to a field of the table that is neither the count nor
    in an entry. -/
theorem WriterInv.storeHeader (h : WriterInv f w) {t : SegmentTable} {p' : WriterPoint}
    (ht : t.count = f.table.count ∧ t.entries = f.table.entries)
    (hp : w.point.creating = true ∧ w.point.pending = true ∧ w.point.placed = true)
    (hp' : p'.creating = true ∧ p'.pending = true ∧ p'.placed = true)
    (hmagic : t.magic = kSegmentTableMagic ↔ p'.hasMagic = true)
    (hpoint : WriterPointInv { f with table := t } ⟨w.segments, p'⟩) :
    WriterInv { f with table := t } ⟨w.segments, p'⟩ ∧
      Later f w { f with table := t } ⟨w.segments, p'⟩ := by
  obtain ⟨hcount, hentries⟩ := ht
  refine ⟨⟨h.grown, fun _ => h.alone hp.1, ?_, ?_, ?_, hmagic, ?_, h.fileSize, ?_, hpoint⟩, ?_⟩
  · have hlength := h.count
    rw [hp.2.1] at hlength
    simp only [hp'.2.1, hcount]
    exact hlength
  · intro i hi hpos hlt
    simp only [hcount, hentries] at hlt ⊢
    exact h.entries i hi hpos hlt
  · intro s0 hs0
    simp only [hentries, h.primary s0 hs0, hp.1, hp'.1]
  · intro hcreated
    rw [hp'.1] at hcreated
    cases hcreated
  · have hconstructed := h.constructed
    simp only [hp.2.2, hp'.2.2, if_pos] at hconstructed ⊢
    exact hconstructed
  · refine ⟨List.prefix_rfl, Nat.le_of_eq hcount.symm, fun _ hx => hx, fun hcreated => ?_⟩
    rw [hp.1] at hcreated
    cases hcreated

/-- The placement-new of the inner manager of the last segment. -/
theorem WriterInv.construct (h : WriterInv f w) {p' : WriterPoint}
    (hp : w.point.pending = true ∧ w.point.placed = false)
    (hp' : p'.creating = w.point.creating ∧ p'.pending = true ∧ p'.placed = true)
    (hmagic : p'.hasMagic = w.point.hasMagic)
    (hpoint : WriterPointInv (f.construct w.segments) ⟨w.segments, p'⟩) :
    WriterInv (f.construct w.segments) ⟨w.segments, p'⟩ ∧
      Later f w (f.construct w.segments) ⟨w.segments, p'⟩ := by
  obtain ⟨ns, hns⟩ := h.exists_last
  have hlength := h.count
  rw [hp.1, if_pos rfl] at hlength
  have hfile : f.construct w.segments =
      { f with constructed := ns.fileOffset :: f.constructed } := by
    simp only [File.construct, hns]
  rw [hfile] at hpoint ⊢
  refine ⟨⟨h.grown, fun hcreating => h.alone (hp'.1 ▸ hcreating), ?_, h.entries, ?_, ?_,
    fun hcreated => h.counted (hp'.1 ▸ hcreated), h.fileSize, ?_, hpoint⟩, ?_⟩
  · simp only [hp'.2.1, if_pos]
    exact hlength
  · intro s0 hs0
    simp only [h.primary s0 hs0, hp'.1]
  · simp only [hmagic]
    exact h.magic
  · have hconstructed := h.constructed
    simp only [hp.2, Bool.false_eq_true, if_false] at hconstructed
    simp only [hp'.2.2, if_pos]
    intro s hs
    -- the last segment, or one of those that were counted already
    obtain ⟨pre, hpre⟩ := List.getLast?_eq_some_iff.mp hns
    rw [hpre] at hs hconstructed hlength
    have htake : (pre ++ [ns]).take f.table.count = pre := by
      rw [List.length_append, List.length_singleton] at hlength
      exact List.take_left' (by omega)
    rw [htake] at hconstructed
    rcases List.mem_append.mp hs with hs | hs
    · exact List.mem_cons_of_mem _ (hconstructed s hs)
    · obtain rfl := List.mem_singleton.mp hs
      exact List.mem_cons_self
  · exact ⟨List.prefix_rfl, Nat.le_refl _, fun _ hx => List.mem_cons_of_mem _ hx,
      fun hcreated => hp'.1.trans hcreated⟩

/-- The store of the count makes the last segment known. -/
theorem WriterInv.storeCount (h : WriterInv f w) {p' : WriterPoint} {newCount : Nat}
    (hnew : newCount = w.segments.length)
    (hp : w.point.pending = true ∧ w.point.placed = true)
    (hp' : p'.creating = w.point.creating ∧ p'.pending = false ∧ p'.placed = true)
    (hmagic : p'.hasMagic = w.point.hasMagic)
    (hlast : 1 < w.segments.length → ∀ ns ∈ w.segments.getLast?,
      f.table.entries f.table.count = ns.toFileRange)
    (hpoint : WriterPointInv { f with table := { f.table with count := newCount } }
      ⟨w.segments, p'⟩) :
    WriterInv { f with table := { f.table with count := newCount } } ⟨w.segments, p'⟩ ∧
      Later f w { f with table := { f.table with count := newCount } } ⟨w.segments, p'⟩ := by
  have hlength := h.count
  rw [hp.1, if_pos rfl] at hlength
  refine ⟨⟨h.grown, fun hcreating => h.alone (hp'.1 ▸ hcreating), ?_, ?_, ?_, ?_, fun _ => ?_,
    h.fileSize, ?_, hpoint⟩, ?_⟩
  · simp only [hp'.2.1, Bool.false_eq_true, if_false, Nat.add_zero]
    exact hnew.symm
  · intro i hi hpos hlt
    by_cases hbefore : i < f.table.count
    · exact h.entries i hi hpos hbefore
    · obtain ⟨ns, hns⟩ := h.exists_last
      have hi' : i = f.table.count := by
        have hlt' : i < newCount := hlt
        omega
      have hget : w.segments[i] = ns := by
        rw [List.getLast?_eq_getElem?, List.getElem?_eq_some_iff] at hns
        obtain ⟨hlen, hns⟩ := hns
        rw [← hns]
        congr 1
        omega
      rw [hget, hi']
      exact hlast (by omega) ns hns
  · intro s0 hs0
    simp only [h.primary s0 hs0, hp'.1]
  · simp only [hmagic]
    exact h.magic
  · show 0 < newCount
    omega
  · have hconstructed := h.constructed
    simp only [hp.2, hp'.2.2, if_pos] at hconstructed ⊢
    exact hconstructed
  · refine ⟨List.prefix_rfl, ?_, fun _ hx => hx, fun hcreated => hp'.1.trans hcreated⟩
    show f.table.count ≤ newCount
    omega

/-- A change of point only. -/
theorem WriterInv.moveTo (h : WriterInv f w) (p' : WriterPoint)
    (hp' : p'.creating = w.point.creating ∧ p'.pending = w.point.pending ∧
      p'.placed = w.point.placed) (hmagic : p'.hasMagic = w.point.hasMagic) {size : Word}
    (hsize : span (extents (rangesOf w.segments)) ≤ size.toNat)
    (hpoint : WriterPointInv { f with size := size } ⟨w.segments, p'⟩) :
    WriterInv { f with size := size } ⟨w.segments, p'⟩ ∧
      Later f w { f with size := size } ⟨w.segments, p'⟩ := by
  obtain ⟨hcreating, hpending, hplaced⟩ := hp'
  refine ⟨⟨h.grown, ?_, ?_, h.entries, ?_, ?_, ?_, hsize, ?_, hpoint⟩, ?_⟩
  · simp only [hcreating]
    exact h.alone
  · simp only [hpending]
    exact h.count
  · simp only [hcreating]
    exact h.primary
  · simp only [hmagic]
    exact h.magic
  · simp only [hcreating]
    exact h.counted
  · simp only [hplaced]
    exact h.constructed
  · exact ⟨List.prefix_rfl, Nat.le_refl _, fun _ hx => hx, fun hcreated =>
      hcreating.trans hcreated⟩

/-- The chunk is mapped and listed, behind everything that is published. -/
theorem WriterInv.mapChunk (h : WriterInv f w) {newChunkSize currentFileSize : Word}
    (hp : w.point.creating = false ∧ w.point.pending = false ∧ w.point.placed = true)
    (hmagic : w.point.hasMagic = true) (hc : FromEnd w.segments newChunkSize currentFileSize)
    (hsize : f.size = currentFileSize + newChunkSize) :
    WriterInv f ⟨w.segments ++ [⟨⟨currentFileSize, newChunkSize⟩, false⟩], .construct⟩ ∧
      Later f w f ⟨w.segments ++ [⟨⟨currentFileSize, newChunkSize⟩, false⟩], .construct⟩ := by
  obtain ⟨last, hlast⟩ := h.exists_last
  have hfits := hc.fits
  have hlength := h.count
  rw [hp.2.1] at hlength
  simp only [Bool.false_eq_true, if_false, Nat.add_zero] at hlength
  have hgrown : Grown (w.segments ++ [⟨⟨currentFileSize, newChunkSize⟩, false⟩]) :=
    h.grown.append hlast hc.cur (hc.twice last hlast) (by omega)
  refine ⟨⟨hgrown, nofun, ?_, ?_, ?_, ?_, fun _ => h.counted hp.1, ?_, ?_, trivial⟩, ?_⟩
  · rw [List.length_append, hlength]
    rfl
  · intro i hi hpos hlt
    rw [h.entries i (by omega) hpos hlt]
    simp only [List.getElem_append_left (by omega : i < w.segments.length)]
  · intro s0 hs0
    obtain ⟨s0', rest, hs, -⟩ := h.grown.primary
    have hhead := h.primary s0' (by rw [hs]; rfl)
    rw [hs] at hs0
    obtain rfl : s0' = s0 := Option.some.inj hs0
    rw [hhead, hp.1]
    rfl
  · rw [h.magic, hmagic]
    rfl
  · have hcur : currentFileSize.toNat = span (extents (rangesOf w.segments)) := by
      rw [hc.cur, h.grown.getSize_toNat]
    rw [hsize, BitVec.toNat_add]
    simp only [rangesOf_append, rangesOf_single, extents_append, span_append, extents_cons,
      extents_nil, span_cons, span_nil, FileRange.extent]
    omega
  · have hconstructed := h.constructed
    rw [hp.2.2, if_pos rfl] at hconstructed
    simp only [WriterPoint.placed, Bool.false_eq_true, if_false]
    rw [← hlength, List.take_left]
    exact hconstructed
  · exact ⟨List.prefix_append _ _, Nat.le_refl _, fun _ hx => hx, fun _ => rfl⟩

/-- The last store of the constructor. -/
theorem WriterInv.storeFirstSize {segments : List Segment} {s0 : Segment}
    (h : WriterInv f ⟨segments, .storeFirstSize⟩) (hs0 : segments.head? = some s0) :
    WriterInv (f.store 0 fun e => { e with size := s0.size }) ⟨segments, .idle⟩ ∧
      Later f ⟨segments, .storeFirstSize⟩ (f.store 0 fun e => { e with size := s0.size })
        ⟨segments, .idle⟩ := by
  have hone : segments.length = 1 := h.alone rfl
  have hcount : segments.length = f.table.count := h.count
  have hentry : f.table.entries 0 = ⟨0, 0⟩ := h.primary s0 hs0
  refine ⟨⟨h.grown, nofun, hcount, ?_, ?_, h.magic, fun _ => ?_, h.fileSize, h.constructed,
    trivial⟩, ?_⟩
  · intro i hi hpos hlt
    have hi' : i < segments.length := hi
    omega
  · intro s0' hs0'
    obtain rfl : s0 = s0' := Option.some.inj (hs0.symm.trans hs0')
    have hoffset : s0.fileOffset = 0 := by
      obtain ⟨rest, rfl⟩ : ∃ rest, segments = s0 :: rest := ⟨_, List.eq_cons_of_mem_head? hs0⟩
      exact BitVec.eq_of_toNat_eq h.grown.laid.1
    rw [File.store_entries_self, hentry]
    simp only [WriterPoint.creating, Bool.false_eq_true, if_false, ← hoffset]
  · show 0 < f.table.count
    omega
  · exact ⟨List.prefix_rfl, Nat.le_refl _, fun _ hx => hx, fun _ => rfl⟩

/-- The step lemma of the writer. -/
theorem WriterInv.step (h : WriterInv f w) (hstep : w.step f = some (f', w')) :
    WriterInv f' w' ∧ Later f w f' w' := by
  obtain ⟨segments, point⟩ := w
  obtain ⟨ns, hns⟩ := h.exists_last
  cases point with
  | constructFirst =>
    cases hstep
    exact h.construct ⟨rfl, rfl⟩ ⟨rfl, rfl, rfl⟩ rfl trivial
  | storeMagic =>
    cases hstep
    exact h.storeHeader ⟨rfl, rfl⟩ ⟨rfl, rfl, rfl⟩ ⟨rfl, rfl, rfl⟩ ⟨fun _ => rfl, fun _ => rfl⟩
      trivial
  | storeVersion =>
    cases hstep
    exact h.storeHeader ⟨rfl, rfl⟩ ⟨rfl, rfl, rfl⟩ ⟨rfl, rfl, rfl⟩ h.magic trivial
  | storeCapacity =>
    cases hstep
    exact h.storeHeader ⟨rfl, rfl⟩ ⟨rfl, rfl, rfl⟩ ⟨rfl, rfl, rfl⟩ h.magic trivial
  | storeFirstCount =>
    cases hstep
    have hone : segments.length = 1 := h.alone rfl
    refine h.storeCount hone.symm ⟨rfl, rfl⟩ ⟨rfl, rfl, rfl⟩ rfl (fun hlt => ?_) trivial
    exact absurd hone (Nat.ne_of_gt hlt)
  | storeFirstOffset =>
    cases hstep
    -- the offset stored is the 0 that stands there
    have hsame : f.store 0 (fun e => { e with fileOffset := 0 }) = { f with size := f.size } := by
      obtain ⟨s0, hs0⟩ := h.exists_head
      have hentry : f.table.entries 0 = ⟨0, 0⟩ := h.primary s0 hs0
      simp only [File.store, hentry]
      rw [← hentry, Function.update_eq_self]
    rw [hsame]
    exact h.moveTo .storeFirstSize ⟨rfl, rfl, rfl⟩ rfl h.fileSize trivial
  | storeFirstSize =>
    obtain ⟨s0, hs0⟩ := h.exists_head
    simp only [Writer.step, hs0] at hstep
    cases hstep
    exact h.storeFirstSize hs0
  | idle | terminated => cases hstep
  | truncate newChunkSize currentFileSize background =>
    cases hstep
    have hc : FromEnd segments newChunkSize currentFileSize := h.point
    have hpoint : WriterPointInv { f with size := currentFileSize + newChunkSize }
      ⟨segments, .map newChunkSize currentFileSize background⟩ := ⟨hc, rfl⟩
    refine h.moveTo (.map newChunkSize currentFileSize background) ⟨rfl, rfl, rfl⟩ rfl ?_ hpoint
    have hfits := hc.fits
    have hcur : currentFileSize.toNat = span (extents (rangesOf segments)) := by
      rw [hc.cur, h.grown.getSize_toNat]
    show span (extents (rangesOf segments)) ≤ _
    rw [BitVec.toNat_add]
    omega
  | map newChunkSize currentFileSize background =>
    obtain ⟨hc, hsize⟩ : FromEnd segments newChunkSize currentFileSize ∧
      f.size = currentFileSize + newChunkSize := h.point
    have hsame : ¬ (background = true ∧ currentFileSize ≠ getSizeUnlocked (rangesOf segments)) :=
      fun hb => hb.2 hc.cur
    simp only [Writer.step, if_neg hsame] at hstep
    cases hstep
    exact h.mapChunk ⟨rfl, rfl, rfl⟩ rfl hc hsize
  | construct =>
    cases hstep
    exact h.construct ⟨rfl, rfl⟩ ⟨rfl, rfl, rfl⟩ rfl trivial
  | storeOffset =>
    simp only [Writer.step, hns, h.publishes, if_true] at hstep
    cases hstep
    refine h.store rfl rfl rfl .storeSize ⟨rfl, rfl, rfl⟩ rfl fun ns' hns' => ?_
    obtain rfl : ns = ns' := Option.some.inj (hns.symm.trans hns')
    have hidx := h.newIdx rfl
    show ((f.store (segments.length - 1) _).table.entries f.table.count).fileOffset = _
    rw [← hidx, File.store_entries_self]
  | storeSize =>
    have hoffset := h.point ns hns
    simp only [Writer.step, hns] at hstep
    cases hstep
    refine h.store rfl rfl rfl .storeCount ⟨rfl, rfl, rfl⟩ rfl fun ns' hns' => ?_
    obtain rfl : ns = ns' := Option.some.inj (hns.symm.trans hns')
    have hidx := h.newIdx rfl
    show (f.store (segments.length - 1) _).table.entries f.table.count = _
    rw [← hidx] at hoffset ⊢
    rw [File.store_entries_self, hoffset]
  | storeCount =>
    cases hstep
    have hidx := h.newIdx rfl
    have hlength := h.count
    refine h.storeCount ?_ ⟨rfl, rfl⟩ ⟨rfl, rfl, rfl⟩ rfl (fun _ => h.point) trivial
    simp only [WriterPoint.pending, if_true] at hidx hlength ⊢
    omega

theorem WriterInv.fail (h : WriterInv f w) (hstep : w.fail = some w') :
    WriterInv f w' ∧ Later f w f w' := by
  obtain ⟨segments, point⟩ := w
  cases point with
  | truncate newChunkSize currentFileSize background =>
    cases hstep
    exact h.moveTo .idle ⟨rfl, rfl, rfl⟩ rfl h.fileSize trivial
  | map newChunkSize currentFileSize background =>
    simp only [Writer.fail] at hstep
    split at hstep
    · split at hstep
      · cases hstep
        exact h.moveTo .terminated ⟨rfl, rfl, rfl⟩ rfl h.fileSize trivial
      · cases hstep
    · cases hstep
      exact h.moveTo .idle ⟨rfl, rfl, rfl⟩ rfl h.fileSize trivial
  | _ => cases hstep

/-- Rounding up a size that fits gives a chunk that fits. -/
theorem FromEnd.of_fits {segments : List Segment} {last : Segment} (size : Word)
    (hg : Grown segments) (hlast : segments.getLast? = some last)
    (htwice : 2 * last.size.toNat ≤ size.toNat) (hfits : Fits P segments size.toNat) :
    FromEnd segments (alignUp size P.pageSize) (getSizeUnlocked (rangesOf segments)) := by
  have hcur := hg.getSize_toNat
  unfold Fits at hfits
  have hpos : 0 < 2 ^ P.pageShift := Nat.two_pow_pos _
  have hge := P.alignUp_ge (v := size) (by omega)
  have hlt := P.alignUp_lt (v := size) (by omega)
  refine ⟨rfl, fun last' hlast' => ?_, by omega⟩
  obtain rfl : last = last' := Option.some.inj (hlast.symm.trans hlast')
  omega

theorem WriterInv.startGrowth (h : WriterInv f w) (hidle : w.point = .idle)
    {newChunkSize currentFileSize : Word} {background : Bool}
    (hc : FromEnd w.segments newChunkSize currentFileSize) :
    WriterInv f ⟨w.segments, .truncate newChunkSize currentFileSize background⟩ ∧
      Later f w f ⟨w.segments, .truncate newChunkSize currentFileSize background⟩ := by
  obtain ⟨segments, point⟩ := w
  obtain rfl : point = .idle := hidle
  exact h.moveTo (.truncate newChunkSize currentFileSize background) ⟨rfl, rfl, rfl⟩ rfl
    h.fileSize hc

theorem WriterInv.readSize (h : WriterInv f w) {minBytes freeMemory : Word}
    (hfits : ∀ last ∈ w.segments.getLast?,
      Fits P w.segments (max minBytes.toNat (2 * last.size.toNat)))
    (hstep : w.readSize P minBytes freeMemory = some w') : WriterInv f w' ∧ Later f w f w' := by
  unfold Writer.readSize at hstep
  split at hstep
  · cases hstep
  · rename_i hidle
    split at hstep
    · cases hstep
      exact ⟨h, .refl f w⟩
    · cases hstep
      obtain ⟨last, hlast⟩ := h.exists_last
      have hsize := umax_toNat minBytes (last.size * kGrowMultiplier)
      rw [h.grown.double_toNat hlast] at hsize
      have hc := FromEnd.of_fits (umax minBytes (last.size * kGrowMultiplier)) h.grown
        hlast (by omega) (hsize ▸ hfits last hlast)
      refine h.startGrowth (not_not.mp hidle) ?_
      simpa only [growChunkSize, hlast] using hc

theorem WriterInv.readSizeBackground (h : WriterInv f w) {lastFreeMemory : Word}
    (hfits : ∀ last ∈ w.segments.getLast?,
      Fits P w.segments (max kMinSegmentSize.toNat (2 * last.size.toNat)))
    (hstep : w.readSizeBackground P lastFreeMemory = some w') :
    WriterInv f w' ∧ Later f w f w' := by
  unfold Writer.readSizeBackground at hstep
  split at hstep
  · cases hstep
  · rename_i hidle
    obtain ⟨last, hlast⟩ := h.exists_last
    simp only [hlast] at hstep
    split at hstep
    · cases hstep
      exact ⟨h, .refl f w⟩
    · cases hstep
      have hsize := umax_toNat kMinSegmentSize (last.size * kGrowMultiplier)
      rw [h.grown.double_toNat hlast] at hsize
      refine h.startGrowth (not_not.mp hidle) ?_
      exact .of_fits _ h.grown hlast (by omega) (hsize ▸ hfits last hlast)

end writer

end Memnon.SharedFile
