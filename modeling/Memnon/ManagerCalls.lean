import Memnon.ManagerSessions
import Memnon.ManagerNames

/-!
# The system calls of a growth

Which calls of the operating system a request makes and with which arguments. A
growth extends the file by the new chunk and maps the chunk at the old end; both
numbers come from sums and roundings on `size_t`. The size asked for covers the
segments as long as the sum does not wrap around, and the offset is page-aligned
when the first segment is.
-/

namespace Memnon

open Memnon.Lib

variable {H N : Type}

/-! ## 1. Calls -/

inductive SysCall where
  | createAnon (size : Word)
  | shmGrow (newSize : Word)
  | openShmChunk (size fileOffset : Word)
deriving DecidableEq

section calls

variable (P : Platform) (I : InnerManager H N) (m : Manager H)

/-- `grow` has something to do: the memory that is free does not suffice. -/
def growWants (env : Env H) (minBytes : Word) : Option (Env H × Word) :=
  if getFreeMemoryUnlocked I m.segments ≥ minBytes then none else some (env, minBytes)

/-- The growth that a request starts: its environment and the least number of
    bytes the chunk is to have. -/
def Request.growth : Request H N → Option (Env H × Word)
  | .allocate env bytes =>
      if (allocateLoop I m.segments bytes).isSome then none
      else growWants I m env (bytes + kMinSegmentSize)
  | .grow env minBytes => growWants I m env minBytes
  | .growBackground env =>
      match m.segments.getLast? with
      | none => none
      | some last =>
          if I.getFreeMemory last.smgr ≥ last.size / 2 then none else some (env, kMinSegmentSize)
  | .construct env name bytes =>
      match constructLoop I name bytes m.segments with
      | .exhausted => growWants I m env (bytes + 1024#64)
      | .constructed _ _ | .refused => none
  | .deallocate _ | .find _ | .destroy _ => none

/-- The calls of a growth, up to the first that fails. -/
def growthCalls (env : Env H) (minBytes : Word) : List SysCall :=
  let newChunkSize := growChunkSize P (segmentsOf m) minBytes
  let currentFileSize := getSizeUnlocked (fileRanges m.segments)
  if m.anon then [.createAnon newChunkSize]
  else .shmGrow (currentFileSize + newChunkSize) ::
    if env.shmGrow (currentFileSize + newChunkSize) then
      [.openShmChunk newChunkSize currentFileSize]
    else []

/-- The calls of a request, in order. -/
def Request.sysCalls (r : Request H N) : List SysCall :=
  match r.growth I m with
  | none => []
  | some (env, minBytes) => growthCalls P m env minBytes

end calls

/-! ## 2. Runs on one file -/

/-- What the only process with the file open does: it calls its manager, or
    leaves the file and opens it again. -/
inductive FileUse (H N : Type) where
  | request (r : Request H N)
  | reopen (env : Env H) (registry : Word → Option Word)

def useFile (P : Platform) (I : InnerManager H N) (m : Manager H) :
    FileUse H N → Option (Manager H)
  | .request r => serve P I m r
  | .reopen env registry =>
      Sessions.returned
        ((openAllSegmentsMapped P I env).run (.empty false m.table registry))

/-- `allocate`, `grow` and `grow_background`. -/
def Request.Allocates : Request H N → Prop
  | .allocate env _ | .grow env _ | .growBackground env => SizesMapped env
  | .deallocate _ | .construct _ _ _ | .find _ | .destroy _ => False

def FileUse.OnPlatform : FileUse H N → Prop
  | .request r => r.Allocates
  | .reopen _ _ => True

/-- The sizes handed to `shm_grow`; to open a file extends nothing. -/
def FileUse.grownSizes (P : Platform) (I : InnerManager H N) (m : Manager H) :
    FileUse H N → List Word
  | .request r => (r.sysCalls P I m).filterMap fun
      | .shmGrow newSize => some newSize
      | .createAnon _ | .openShmChunk _ _ => none
  | .reopen _ _ => []

section runs

variable {P : Platform} {I : InnerManager H N} {env : Env H} {m₀ m m' : Manager H}

theorem appended_serve {r : Request H N} (h : InStep (fun _ => True) m) (hr : r.Allocates)
    (hs : serve P I m r = some m') : Appended P (fun _ => True) m m' := by
  cases r with
  | allocate env bytes => exact h.allocate hr (fun _ => trivial) (fun _ _ => trivial) hs
  | grow env minBytes => exact h.grow hr (fun _ => trivial) hs
  | growBackground env => exact h.growBackground hr (fun _ => trivial) hs
  | deallocate ptr => exact hr.elim
  | construct env name bytes => exact hr.elim
  | find name => exact hr.elim
  | destroy name => exact hr.elim

theorem inStep_useFile {u : FileUse H N} (h : InStep (fun _ => True) m) (hu : u.OnPlatform)
    (hs : useFile P I m u = some m') : InStep (fun _ => True) m' := by
  cases u with
  | request r => exact (appended_serve h hu hs).inStep
  | reopen env registry =>
    obtain ⟨u, hrun⟩ := Sessions.returned_eq_some hs
    exact (Sessions.open_value h.lists h.grown (fun _ => trivial) hrun).1

end runs

/-! ## 3. The size of the file -/

/-- The sum of the sizes of the segments. -/
def mappedSize (m : Manager H) : Nat := (m.segments.map fun info => info.size.toNat).sum

/-- No growth starts; or the chunk, in whole pages and without wrap-around, is at
    least `2 ^ 64` bytes, or below it together with what is mapped. -/
def Request.FitsFile (P : Platform) (I : InnerManager H N) (m : Manager H) (r : Request H N) :
    Prop :=
  ∀ g ∈ r.growth I m, ∀ last ∈ m.segments.getLast?,
    2 ^ 64 ≤ P.roundedUp (max g.2.toNat (2 * last.size.toNat)) ∨
    mappedSize m + P.roundedUp (max g.2.toNat (2 * last.size.toNat)) < 2 ^ 64

def FileUse.FitsFile (P : Platform) (I : InnerManager H N) (m : Manager H) : FileUse H N → Prop
  | .request r => r.FitsFile P I m
  | .reopen _ _ => True

section size

variable {P : Platform} {I : InnerManager H N} {m : Manager H} {Q : H → Prop}

theorem InStep.mappedSize_eq (h : InStep Q m) :
    (getSizeUnlocked (fileRanges m.segments)).toNat = mappedSize m := by
  rw [fileRanges_eq, h.grown.getSize_toNat, span_eq_sum]
  simp [extents, rangesOf, segmentsOf, mappedSize, FileRange.extent, Function.comp_def]

theorem InStep.mappedSize_lt (h : InStep Q m) : mappedSize m < 2 ^ 64 := by
  rw [← h.mappedSize_eq]
  exact BitVec.isLt _

theorem InStep.growChunkSize_toNat (h : InStep Q m) {last : SegInfo H}
    (hlast : m.segments.getLast? = some last) (minBytes : Word) :
    (growChunkSize P (segmentsOf m) minBytes).toNat =
      if P.roundedUp (max minBytes.toNat (2 * last.size.toNat)) < 2 ^ 64 then
        P.roundedUp (max minBytes.toNat (2 * last.size.toNat))
      else 0 := by
  have hsegs : (segmentsOf m).getLast? = some last.toSegment := by
    simp [segmentsOf, List.getLast?_map, hlast]
  simp only [growChunkSize, hsegs]
  rw [P.alignUp_toNat_eq, umax_toNat, h.grown.double_toNat hsegs]

/-- The new size of the file wraps around below the old one exactly when the
    chunk itself fits and the sum does not. -/
theorem InStep.grownSize_covers_iff (h : InStep Q m) {last : SegInfo H}
    (hlast : m.segments.getLast? = some last) (minBytes : Word) :
    mappedSize m ≤ (getSizeUnlocked (fileRanges m.segments) +
      growChunkSize P (segmentsOf m) minBytes).toNat ↔
    (2 ^ 64 ≤ P.roundedUp (max minBytes.toNat (2 * last.size.toNat)) ∨
      mappedSize m + P.roundedUp (max minBytes.toNat (2 * last.size.toNat)) < 2 ^ 64) := by
  have hlt := h.mappedSize_lt
  rw [BitVec.toNat_add, h.mappedSize_eq, h.growChunkSize_toNat hlast minBytes]
  split <;> omega

theorem mem_grownSizes (hshm : m.anon = false) {r : Request H N} {size : Word} :
    size ∈ (FileUse.request r).grownSizes P I m ↔ ∃ g ∈ r.growth I m,
      size = getSizeUnlocked (fileRanges m.segments) + growChunkSize P (segmentsOf m) g.2 := by
  simp only [FileUse.grownSizes, Request.sysCalls]
  cases hgrowth : r.growth I m with
  | none => simp
  | some g =>
    simp only [growthCalls, hshm, Bool.false_eq_true, if_false]
    split <;> simp

/-- Every size handed to `shm_grow` covers the segments exactly when the request
    fits the file. -/
theorem InStep.fitsFile_iff (h : InStep Q m) (u : FileUse H N) :
    (∀ size ∈ u.grownSizes P I m, mappedSize m ≤ size.toNat) ↔ u.FitsFile P I m := by
  cases u with
  | reopen env registry => simp [FileUse.grownSizes, FileUse.FitsFile]
  | request r =>
    constructor
    · intro hsizes g hg last hlast
      apply (h.grownSize_covers_iff hlast g.2).mp
      exact hsizes _ ((mem_grownSizes h.shm).mpr ⟨g, hg, rfl⟩)
    · intro hfits size hsize
      obtain ⟨g, hg, rfl⟩ := (mem_grownSizes h.shm).mp hsize
      obtain ⟨last, hlast⟩ := h.exists_last
      exact (h.grownSize_covers_iff hlast g.2).mpr (hfits g hg last hlast)

/-- In every run of requests to a SHM manager and of reopenings of its file: each
    size handed to `shm_grow` covers the segments mapped at that moment exactly
    when each step fits the file. -/
theorem file_covers_segments_iff {env : Env H} {table : SegmentTable}
    {registry : Word → Option Word} {initialSize : Word} {m₀ m : Manager H}
    {past : List (Manager H × FileUse H N)} (henv : SizesMapped env)
    (hcreate : (constructCreator P I env initialSize).run (.empty false table registry) =
      .value () m₀)
    (hrun : Steps (logged (useFile P I) visited) (fun _ u => u.OnPlatform) (m₀, []) (m, past)) :
    (∀ q ∈ past, ∀ size ∈ q.2.grownSizes P I q.1, mappedSize q.1 ≤ size.toNat) ↔
      ∀ q ∈ past, q.2.FitsFile P I q.1 := by
  have hm₀ : InStep (fun _ => True) m₀ := .created henv (fun _ => trivial) hcreate
  have hinv := hrun.invariant_visited (InStep fun _ => True) hm₀
    fun _ _ _ h hu hs => inStep_useFile h hu hs
  constructor
  · intro hcovers q hq
    exact ((hinv.2 q hq).1.fitsFile_iff q.2).mp (hcovers q hq)
  · intro hfits q hq
    exact ((hinv.2 q hq).1.fitsFile_iff q.2).mpr (hfits q hq)

end size

instance (P : Platform) (I : InnerManager H N) (m : Manager H) (r : Request H N) :
    Decidable (r.FitsFile P I m) :=
  inferInstanceAs (Decidable (∀ g ∈ r.growth I m, ∀ last ∈ m.segments.getLast?, _ ∨ _))

instance (P : Platform) (I : InnerManager H N) (m : Manager H) :
    (u : FileUse H N) → Decidable (u.FitsFile P I m)
  | .request r => inferInstanceAs (Decidable (r.FitsFile P I m))
  | .reopen _ _ => .isTrue trivial

/-- A file of 2 MiB that is grown twice, and opened again in between. -/
theorem file_covers_segments_twice : ∃ past : List (Manager Arena × FileUse Arena Nat),
    past.length = 3 ∧ ∀ q ∈ past, ∀ size ∈ q.2.grownSizes fourKiBPages arena q.1,
      mappedSize q.1 ≤ size.toNat := by
  let schedule : List (FileUse Arena Nat) :=
    [.request (.grow boundedEnv 0x400000), .reopen boundedEnv fun _ => none,
      .request (.allocate boundedEnv 0x1000000)]
  let empty : Manager Arena := .empty false .blank fun _ => none
  have hcreate : ∃ m, (constructCreator fourKiBPages arena boundedEnv 0x200000).run empty =
      .value () m := ⟨_, rfl⟩
  obtain ⟨m₀, hm₀⟩ := hcreate
  have hex : ∃ s, Steps (logged (useFile fourKiBPages arena) visited)
      (fun _ u => u.OnPlatform) (m₀, []) s ∧
      decide (s.2.length = 3 ∧ ∀ q ∈ s.2, q.2.FitsFile fourKiBPages arena q.1) = true := by
    apply Steps.exists_of_replay_labels schedule
    · intro u hu s
      simp only [schedule, List.mem_cons, List.not_mem_nil, or_false] at hu
      rcases hu with rfl | rfl | rfl
      · exact boundedEnv_sizesMapped
      · trivial
      · exact boundedEnv_sizesMapped
    · cases hm₀
      decide +kernel
  obtain ⟨⟨m, past⟩, hrun, htest⟩ := hex
  obtain ⟨hlength, hfits⟩ := of_decide_eq_true htest
  exact ⟨past, hlength, (file_covers_segments_iff boundedEnv_sizesMapped hm₀ hrun).mpr hfits⟩

/-- In a file of 16 MiB, a growth by all but one page of the address space asks
    for a file that is one page short of the segments. -/
theorem growth_shrinks_file :
    ¬ ∀ (m₀ m : Manager Arena) (past : List (Manager Arena × FileUse Arena Nat)),
      (constructCreator fourKiBPages arena boundedEnv 0x1000000).run
        (.empty false .blank fun _ => none) = .value () m₀ →
      Steps (logged (useFile fourKiBPages arena) visited) (fun _ u => u.OnPlatform)
        (m₀, []) (m, past) →
      ∀ q ∈ past, ∀ size ∈ q.2.grownSizes fourKiBPages arena q.1,
        mappedSize q.1 ≤ size.toNat := by
  intro hall
  let empty : Manager Arena := .empty false .blank fun _ => none
  have hcreate : ∃ m, (constructCreator fourKiBPages arena boundedEnv 0x1000000).run empty =
      .value () m := ⟨_, rfl⟩
  obtain ⟨m₀, hm₀⟩ := hcreate
  have hex : ∃ s, Steps (logged (useFile fourKiBPages arena) visited)
      (fun _ u => u.OnPlatform) (m₀, []) s ∧
      (s.2.any fun q => (q.2.grownSizes fourKiBPages arena q.1).any fun size =>
        decide (size.toNat < mappedSize q.1)) = true := by
    apply Steps.exists_of_replay_labels [.request (.grow boundedEnv 0xFFFFFFFFFFFFF000)]
    · intro u hu s
      obtain rfl := List.mem_singleton.mp hu
      exact boundedEnv_sizesMapped
    · cases hm₀
      decide +kernel
  obtain ⟨⟨m, past⟩, hrun, htest⟩ := hex
  obtain ⟨q, hq, htest⟩ := List.any_eq_true.mp htest
  obtain ⟨size, hsize, hlt⟩ := List.any_eq_true.mp htest
  exact absurd (of_decide_eq_true hlt) (Nat.not_lt.mpr (hall m₀ m past hm₀ hrun q hq size hsize))

/-! ## 4. Where chunks are mapped -/

section offsets

variable {P : Platform} {I : InnerManager H N} {m m' : Manager H}

/-- The first segment has this size, and the others are whole pages. -/
def PagesBehind (P : Platform) (first : Word) (segments : List Segment) : Prop :=
  ∃ s0 rest, segments = s0 :: rest ∧ s0.size = first ∧ ∀ s ∈ rest, P.Whole s.size

theorem PagesBehind.appended {Q : H → Prop} {first : Word}
    (h : PagesBehind P first (segmentsOf m)) (hm : Appended P Q m m') :
    PagesBehind P first (segmentsOf m') := by
  rcases hm.list with hsame | ⟨chunk, hwhole, hgrown⟩
  · exact hsame ▸ h
  · obtain ⟨s0, rest, hs, hfirst, hrest⟩ := h
    refine ⟨s0, rest ++ [_], by rw [hgrown, hs]; rfl, hfirst, fun s hs => ?_⟩
    rcases List.mem_append.mp hs with hs | hs
    · exact hrest s hs
    · obtain rfl := List.mem_singleton.mp hs
      exact hwhole

/-- The sum of the sizes is whole pages exactly when the first size is. -/
theorem PagesBehind.whole_iff {Q : H → Prop} {first : Word} (h : InStep Q m)
    (hpages : PagesBehind P first (segmentsOf m)) :
    P.Whole (getSizeUnlocked (fileRanges m.segments)) ↔ P.Whole first := by
  obtain ⟨s0, rest, hs, rfl, hrest⟩ := hpages
  have hsum : (getSizeUnlocked (fileRanges m.segments)).toNat =
      s0.size.toNat + span (extents (rangesOf rest)) := by
    rw [fileRanges_eq, h.grown.getSize_toNat, hs]
    rfl
  have hdvd : 2 ^ P.pageShift ∣ span (extents (rangesOf rest)) := by
    clear hs hsum
    induction rest with
    | nil => exact Nat.dvd_zero _
    | cons s rest ih =>
      obtain ⟨hs, hrest⟩ := List.forall_mem_cons.mp hrest
      exact Nat.dvd_add hs (ih hrest)
  rw [Platform.Whole, hsum]
  exact (Nat.dvd_add_iff_left hdvd).symm

theorem segmentsOf_creator {env : Env H} {table : SegmentTable}
    {registry : Word → Option Word} {initialSize : Word}
    (h : (constructCreator P I env initialSize).run (.empty false table registry) = .value () m) :
    segmentsOf m = [⟨⟨0, umax initialSize kMinSegmentSize⟩, true⟩] := by
  unfold constructCreator addSegmentShm at h
  simp only [if_true] at h
  cases hmap : env.createShm (umax initialSize kMinSegmentSize) with
  | none =>
    simp only [hmap] at h
    cases h
  | some mapping =>
    simp only [hmap] at h
    cases h
    rfl

/-- The file offsets handed to `shm_map_chunk`. -/
def Request.mappedOffsets (P : Platform) (I : InnerManager H N) (m : Manager H)
    (r : Request H N) : List Word :=
  (r.sysCalls P I m).filterMap fun
    | .openShmChunk _ fileOffset => some fileOffset
    | .createAnon _ | .shmGrow _ => none

theorem mem_mappedOffsets {r : Request H N} {offset : Word}
    (h : offset ∈ r.mappedOffsets P I m) :
    offset = getSizeUnlocked (fileRanges m.segments) := by
  simp only [Request.mappedOffsets, Request.sysCalls] at h
  cases hgrowth : r.growth I m with
  | none =>
    rw [hgrowth] at h
    cases h
  | some g =>
    rw [hgrowth] at h
    simp only [growthCalls] at h
    split at h
    · cases h
    · split at h
      · exact List.mem_singleton.mp h
      · cases h

/-- In every run of a SHM creator, a chunk is mapped at a whole number of pages
    exactly when sub-segment 0 is whole pages. -/
theorem chunks_page_aligned_iff {env : Env H} {table : SegmentTable}
    {registry : Word → Option Word} {initialSize : Word} {m₀ m : Manager H}
    {past : List (Manager H × Request H N)} (henv : SizesMapped env)
    (hcreate : (constructCreator P I env initialSize).run (.empty false table registry) =
      .value () m₀)
    (hrun : Steps (logged (serve P I) visited) (fun _ r => r.Allocates) (m₀, []) (m, past)) :
    ∀ q ∈ past, ∀ offset ∈ q.2.mappedOffsets P I q.1,
      P.Whole offset ↔ P.Whole (umax initialSize kMinSegmentSize) := by
  have hm₀ : InStep (fun _ => True) m₀ := .created henv (fun _ => trivial) hcreate
  have hfirst : PagesBehind P (umax initialSize kMinSegmentSize) (segmentsOf m₀) :=
    ⟨_, [], segmentsOf_creator hcreate, rfl, by simp⟩
  have hinv := hrun.invariant_visited
    (fun a => InStep (fun _ => True) a ∧
      PagesBehind P (umax initialSize kMinSegmentSize) (segmentsOf a)) ⟨hm₀, hfirst⟩
    fun _ _ _ ha hr hs => ⟨(appended_serve ha.1 hr hs).inStep,
      ha.2.appended (appended_serve ha.1 hr hs)⟩
  intro q hq offset hoffset
  obtain ⟨hstep, hpages⟩ := (hinv.2 q hq).1
  rw [mem_mappedOffsets hoffset]
  exact hpages.whole_iff hstep

end offsets

/-- A file of 2 MiB that is grown twice. -/
theorem chunks_page_aligned_twice : ∃ past : List (Manager Arena × Request Arena Nat),
    (past.map fun q => (q.2.mappedOffsets fourKiBPages arena q.1).length) = [1, 1] ∧
    ∀ q ∈ past, ∀ offset ∈ q.2.mappedOffsets fourKiBPages arena q.1,
      fourKiBPages.Whole offset := by
  let schedule : List (Request Arena Nat) :=
    [.grow boundedEnv 0x400000, .allocate boundedEnv 0x1000000]
  let empty : Manager Arena := .empty false .blank fun _ => none
  have hcreate : ∃ m, (constructCreator fourKiBPages arena boundedEnv 0x200000).run empty =
      .value () m := ⟨_, rfl⟩
  obtain ⟨m₀, hm₀⟩ := hcreate
  have hex : ∃ s, Steps (logged (serve fourKiBPages arena) visited) (fun _ r => r.Allocates)
      (m₀, []) s ∧
      decide ((s.2.map fun q => (q.2.mappedOffsets fourKiBPages arena q.1).length) = [1, 1]) =
        true := by
    apply Steps.exists_of_replay_labels schedule
    · intro r hr s
      simp only [schedule, List.mem_cons, List.not_mem_nil, or_false] at hr
      rcases hr with rfl | rfl
      · exact boundedEnv_sizesMapped
      · exact boundedEnv_sizesMapped
    · cases hm₀
      decide +kernel
  obtain ⟨⟨m, past⟩, hrun, htest⟩ := hex
  have haligned := chunks_page_aligned_iff boundedEnv_sizesMapped hm₀ hrun
  have hfirst : fourKiBPages.Whole (umax 0x200000 kMinSegmentSize) := ⟨512, by decide⟩
  exact ⟨past, of_decide_eq_true htest, fun q hq offset ho => (haligned q hq offset ho).mpr hfirst⟩

/-- A file of which no chunk can be mapped. -/
def unmappableEnv : Env Arena := { boundedEnv with openShmChunk := fun _ _ => none }

/-- A file of one byte more than 1 MiB: the first chunk would start at its end. -/
theorem chunk_mapped_off_page :
    ¬ ∀ (m₀ m : Manager Arena) (past : List (Manager Arena × Request Arena Nat)),
      (constructCreator fourKiBPages arena unmappableEnv 0x100001).run
        (.empty false .blank fun _ => none) = .value () m₀ →
      Steps (logged (serve fourKiBPages arena) visited) (fun _ r => r.Allocates)
        (m₀, []) (m, past) →
      ∀ q ∈ past, ∀ offset ∈ q.2.mappedOffsets fourKiBPages arena q.1,
        fourKiBPages.Whole offset := by
  intro hall
  let empty : Manager Arena := .empty false .blank fun _ => none
  have hcreate : ∃ m, (constructCreator fourKiBPages arena unmappableEnv 0x100001).run empty =
      .value () m := ⟨_, rfl⟩
  obtain ⟨m₀, hm₀⟩ := hcreate
  have henv : SizesMapped unmappableEnv :=
    ⟨boundedEnv_sizesMapped.createShm, fun _ _ _ h => by cases h⟩
  have hex : ∃ s, Steps (logged (serve fourKiBPages arena) visited) (fun _ r => r.Allocates)
      (m₀, []) s ∧
      (s.2.any fun q => (q.2.mappedOffsets fourKiBPages arena q.1).any fun offset =>
        offset == 0x100001) = true := by
    apply Steps.exists_of_replay_labels [.grow unmappableEnv 0x400000]
    · intro r hr s
      obtain rfl := List.mem_singleton.mp hr
      exact henv
    · cases hm₀
      decide +kernel
  obtain ⟨⟨m, past⟩, hrun, htest⟩ := hex
  obtain ⟨q, hq, htest⟩ := List.any_eq_true.mp htest
  obtain ⟨offset, hoffset, hend⟩ := List.any_eq_true.mp htest
  obtain rfl := eq_of_beq hend
  have hwhole := hall m₀ m past hm₀ hrun q hq _ hoffset
  have hnot : ¬ 2 ^ 12 ∣ (0x100001 : Word).toNat := by decide
  exact hnot hwhole

end Memnon
