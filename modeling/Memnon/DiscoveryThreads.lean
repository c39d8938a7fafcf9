import Memnon.ManagerReentry
import Memnon.Lib.Lock

/-!
# Threads that discover

Any number of threads of one process call `lazy_discover_growth`, while another
process publishes entries. `list_mtx_` is held from the comparison with the sum of
sizes to the return; the table is read load by load, and may be written between
any two loads. The comparison adds up sizes where the search looks at file ranges.
In a file whose entries are contiguous both ask whether the offset is mapped.
-/

namespace Memnon.Discovery

open Memnon.Lib

variable {H N T : Type}

/-! ## 1. The system -/

/-- The variables of the loop. -/
structure Frame where
  required : Word
  i : Nat
  count : Nat
  currentMappedSize : Word
  discovered : Bool
deriving DecidableEq

/-- Where a thread stands in `lazy_discover_growth`. -/
inductive Point where
  | idle
  | lockList (required : Word)
  | sumSizes (required : Word)
  | readCount (required currentMappedSize : Word)
  | loop (f : Frame)
  | readSize (f : Frame) (fileOffset : Word)
  | addSegment (f : Frame) (e : FileRange)
  | rereadSize (f : Frame)
  /-- about to return; without a result, by an exception -/
  | unlock (required : Word) (result : Option Bool)
deriving DecidableEq

structure State (T H : Type) where
  manager : Manager H
  listMtx : Option T
  point : T → Point

/-- A thread calls, or takes its next step; or another process stores a field of
    the entry behind the last one, or the count. -/
inductive Label (T H : Type) where
  | call (t : T) (required : Word)
  | run (t : T) (env : Env H)
  | storeOffset (fileOffset : Word)
  | storeSize (size : Word)
  | storeCount

/-- The next step of `t`: the manager, the owner of `list_mtx_` and the point after
    it. -/
def advance (P : Platform) (I : InnerManager H N) (env : Env H) (t : T) (m : Manager H)
    (listMtx : Option T) : Point → Option (Manager H × Option T × Point)
  | .idle => none
  | .lockList required =>
      match listMtx with
      | some _ => none
      | none => some (m, some t, .sumSizes required)
  | .sumSizes required =>
      let currentMappedSize := getSizeUnlocked (fileRanges m.segments)
      if required < currentMappedSize then some (m, listMtx, .unlock required (some true))
      else some (m, listMtx, .readCount required currentMappedSize)
  | .readCount required currentMappedSize =>
      match m.segments with
      | [] => none      -- `segments_.front()` of no segments
      | _ :: _ =>
          some (m, listMtx,
            .loop ⟨required, m.segments.length, m.table.count, currentMappedSize, false⟩)
  | .loop f =>
      if f.i < f.count then some (m, listMtx, .readSize f (m.table.entries f.i).fileOffset)
      else
        some (m, listMtx, .unlock f.required
          (some (f.discovered && decide (f.required < f.currentMappedSize))))
  | .readSize f fileOffset =>
      some (m, listMtx, .addSegment f ⟨fileOffset, (m.table.entries f.i).size⟩)
  | .addSegment f e =>
      match (addSegmentShm P I env e.fileOffset e.size false false false).run m with
      | .value _ m' => some (m', listMtx, .rereadSize f)
      | .thrown _ m' => some (m', listMtx, .unlock f.required none)
      | .stuck => none
  | .rereadSize f =>
      some (m, listMtx, .loop { f with
        i := f.i + 1
        currentMappedSize := f.currentMappedSize + (m.table.entries f.i).size
        discovered := true })
  | .unlock _ _ => some (m, none, .idle)

/-- The entry behind the last published one. -/
def setEntry (t : SegmentTable) (e : FileRange) : SegmentTable :=
  { t with entries := Function.update t.entries t.count e }

/-- A store of another process. -/
def store (m : Manager H) (table : SegmentTable) : Manager H := { m with table := table }

def step [DecidableEq T] (P : Platform) (I : InnerManager H N) (s : State T H) :
    Label T H → Option (State T H)
  | .call t required =>
      if s.point t = .idle then
        some { s with
          point := Function.update s.point t
            (if s.manager.anon then .idle else .lockList required) }
      else none
  | .run t env =>
      (advance P I env t s.manager s.listMtx (s.point t)).map fun (m, listMtx, point) =>
        ⟨m, listMtx, Function.update s.point t point⟩
  | .storeOffset fileOffset =>
      let last := s.manager.table.entries s.manager.table.count
      some { s with manager := store s.manager (setEntry s.manager.table ⟨fileOffset, last.size⟩) }
  | .storeSize size =>
      let last := s.manager.table.entries s.manager.table.count
      some { s with manager := store s.manager (setEntry s.manager.table ⟨last.fileOffset, size⟩) }
  | .storeCount =>
      let table := { s.manager.table with count := s.manager.table.count + 1 }
      some { s with manager := store s.manager table }

/-- All threads idle. -/
def started (m : Manager H) : State T H := ⟨m, none, fun _ => .idle⟩

/-- The published ranges follow one another in a file whose length is a `size_t`. -/
def Contiguous (t : SegmentTable) : Prop :=
  LaidOut 0 (extents t.published) ∧ span (extents t.published) < 2 ^ 64

instance (t : SegmentTable) : Decidable (Contiguous t) := inferInstanceAs (Decidable (_ ∧ _))

/-- The other process publishes an entry only when it starts where the last one
    ends. -/
def PublishesContiguous (s : State T H) : Label T H → Prop
  | .storeCount => Contiguous { s.manager.table with count := s.manager.table.count + 1 }
  | .call _ _ | .run _ _ | .storeOffset _ | .storeSize _ => True

instance (s : State T H) : ∀ l, Decidable (PublishesContiguous s l)
  | .storeCount => inferInstanceAs (Decidable (Contiguous _))
  | .call _ _ | .run _ _ | .storeOffset _ | .storeSize _ => .isTrue trivial

/-! ## 2. Mapped so far, two ways -/

section covered

variable {segments : List (SegInfo H)} {info : SegInfo H} {t : SegmentTable} {required : Word}

theorem coversFileOffset_eq (hlaid : LaidOut 0 (extents (fileRanges segments)))
    (hspan : span (extents (fileRanges segments)) < 2 ^ 64) (hinfo : info ∈ segments) :
    coversFileOffset required info = info.toFileRange.extent.covers required.toNat := by
  have hmem : info.toFileRange.extent ∈ extents (fileRanges segments) :=
    List.mem_map_of_mem (List.mem_map_of_mem hinfo)
  have hstop := (hlaid.bounds hmem).2
  simp only [Extent.stop, FileRange.extent, Nat.zero_add] at hstop
  rw [coversFileOffset, Bool.eq_iff_iff, Extent.covers_iff]
  simp only [Bool.and_eq_true, decide_eq_true_eq, ge_iff_le, BitVec.le_def, BitVec.lt_def,
    BitVec.toNat_add, FileRange.extent]
  rw [Nat.mod_eq_of_lt (by omega)]

/-- In a contiguous list the sum of sizes is the end of what is mapped. -/
theorem lt_getSize_iff (hlaid : LaidOut 0 (extents (fileRanges segments)))
    (hspan : span (extents (fileRanges segments)) < 2 ^ 64) :
    required < getSizeUnlocked (fileRanges segments) ↔
      ∃ info, segments.find? (coversFileOffset required) = some info := by
  rw [BitVec.lt_def, getSizeUnlocked_toNat hspan, ← Option.isSome_iff_exists,
    List.find?_isSome]
  constructor
  · intro hlt
    obtain ⟨e, he, hcovers⟩ := hlaid.exists_covers (Nat.zero_le _) (by rwa [Nat.zero_add])
    obtain ⟨r, hr, rfl⟩ := List.mem_map.mp he
    obtain ⟨info, hinfo, rfl⟩ := List.mem_map.mp hr
    exact ⟨info, hinfo, (coversFileOffset_eq hlaid hspan hinfo).trans hcovers⟩
  · rintro ⟨info, hinfo, hcovers⟩
    rw [coversFileOffset_eq hlaid hspan hinfo, Extent.covers_iff] at hcovers
    have hmem : info.toFileRange.extent ∈ extents (fileRanges segments) :=
      List.mem_map_of_mem (List.mem_map_of_mem hinfo)
    have hstop := (hlaid.bounds hmem).2
    simp only [Extent.stop, Nat.zero_add] at hstop
    omega

/-- What holds of the table holds of the ranges that a process has mapped of it. -/
theorem Contiguous.mapped (h : Contiguous t) (hpre : fileRanges segments <+: t.published) :
    LaidOut 0 (extents (fileRanges segments)) ∧
      span (extents (fileRanges segments)) < 2 ^ 64 := by
  obtain ⟨hlaid, hspan⟩ := h
  obtain ⟨rest, hrest⟩ := hpre
  rw [← hrest, extents_append] at hlaid hspan
  rw [span_append] at hspan
  exact ⟨(laidOut_append.mp hlaid).1, by omega⟩

theorem getSize_concat (segments : List (SegInfo H)) (info : SegInfo H) :
    getSizeUnlocked (fileRanges (segments ++ [info])) =
      getSizeUnlocked (fileRanges segments) + info.size := by
  simp [getSizeUnlocked, fileRanges, List.foldl_append]

end covered

/-! ## 3. What a thread knows -/

/-- Between `lock` and `unlock`. -/
def Point.holdsList : Point → Bool
  | .idle | .lockList _ => false
  | .sumSizes _ | .readCount _ _ | .loop _ | .readSize _ _ | .addSegment _ _ | .rereadSize _
  | .unlock _ _ => true

/-- At the head of the loop. -/
structure Frame.Valid (m : Manager H) (f : Frame) : Prop where
  index : f.i = m.segments.length
  count : f.count ≤ m.table.published.length
  mapped : f.currentMappedSize = getSizeUnlocked (fileRanges m.segments)
  missed : f.discovered = true ∨ ¬ f.required < f.currentMappedSize

def PointInv (m : Manager H) : Point → Prop
  | .idle | .lockList _ | .sumSizes _ | .unlock _ none => True
  | .readCount required currentMappedSize =>
      currentMappedSize = getSizeUnlocked (fileRanges m.segments) ∧ ¬ required < currentMappedSize
  | .loop f => f.Valid m
  | .readSize f fileOffset =>
      f.Valid m ∧ f.i < f.count ∧ ∀ e ∈ m.table.published[f.i]?, fileOffset = e.fileOffset
  | .addSegment f e => f.Valid m ∧ f.i < f.count ∧ e ∈ m.table.published[f.i]?
  | .rereadSize f =>
      f.i + 1 = m.segments.length ∧ f.i < f.count ∧ f.count ≤ m.table.published.length ∧
        ∃ e ∈ m.table.published[f.i]?,
          getSizeUnlocked (fileRanges m.segments) = f.currentMappedSize + e.size
  | .unlock required (some result) =>
      result = true ↔ required < getSizeUnlocked (fileRanges m.segments)

theorem pointInv_outside {m : Manager H} {p : Point} (h : p.holdsList = false) : PointInv m p := by
  cases p with
  | idle => trivial
  | lockList required => trivial
  | _ => cases h

/-- Nothing of this is disturbed when the table grows. -/
theorem PointInv.mono {m m' : Manager H} {p : Point} (h : PointInv m p)
    (hsegments : m'.segments = m.segments)
    (htable : m.table.published <+: m'.table.published) : PointInv m' p := by
  have hlength := htable.length_le
  have hentry : ∀ {i count : Nat}, i < count → count ≤ m.table.published.length →
      m'.table.published[i]? = m.table.published[i]? := by
    intro i count hi hcount
    obtain ⟨rest, hrest⟩ := htable
    rw [← hrest, List.getElem?_append_left (Nat.lt_of_lt_of_le hi hcount)]
  have hvalid : ∀ {f : Frame}, f.Valid m → f.Valid m' := by
    intro f hf
    constructor
    · rw [hsegments]
      exact hf.index
    · exact Nat.le_trans hf.count hlength
    · rw [hsegments]
      exact hf.mapped
    · exact hf.missed
  cases p with
  | idle | lockList required | sumSizes required => trivial
  | readCount required currentMappedSize =>
    rw [PointInv, hsegments]
    exact h
  | loop f => exact hvalid h
  | readSize f fileOffset =>
    obtain ⟨hf, hi, hoffset⟩ := h
    refine ⟨hvalid hf, hi, ?_⟩
    rw [hentry hi hf.count]
    exact hoffset
  | addSegment f e =>
    obtain ⟨hf, hi, he⟩ := h
    refine ⟨hvalid hf, hi, ?_⟩
    rw [hentry hi hf.count]
    exact he
  | rereadSize f =>
    obtain ⟨hlast, hi, hcount, hmapped⟩ := h
    refine ⟨?_, hi, Nat.le_trans hcount hlength, ?_⟩
    · rw [hsegments]
      exact hlast
    · rw [hsegments, hentry hi hcount]
      exact hmapped
  | unlock required result =>
    cases result with
    | none => trivial
    | some result =>
      rw [PointInv, hsegments]
      exact h

structure Inv (s : State T H) : Prop where
  free : s.manager.listHeld = false
  prefixed : fileRanges s.manager.segments <+: s.manager.table.published
  contiguous : Contiguous s.manager.table
  owner : Owned s.listMtx fun t => (s.point t).holdsList
  points : ∀ t, PointInv s.manager (s.point t)

/-- What a step of `t` does: under `list_mtx_` it may append the segment of the
    first entry that is missing. -/
structure Advanced (t : T) (m m' : Manager H) (listMtx listMtx' : Option T) (p p' : Point) :
    Prop where
  free : m'.listHeld = m.listHeld
  table : m'.table = m.table
  lock : LockStep listMtx listMtx' t p.holdsList p'.holdsList
  point : PointInv m' p'
  segments : m'.segments = m.segments ∨ p.holdsList = true ∧
    ∃ info, m'.segments = m.segments ++ [info] ∧
      info.toFileRange ∈ m.table.published[m.segments.length]?

section steps

variable {P : Platform} {I : InnerManager H N} {env : Env H} {t : T} {m m' : Manager H}
  {listMtx listMtx' : Option T} {p p' : Point}

theorem Advanced.within (hp : p.holdsList = true) (hp' : PointInv m p') :
    Advanced t m m listMtx listMtx p p' :=
  ⟨rfl, rfl, .inl ⟨rfl, fun _ => hp⟩, hp', .inl rfl⟩

theorem published_get (t : SegmentTable) {i : Nat} (hi : i < t.published.length) :
    t.published[i]? = some (t.entries i) := by
  rw [List.getElem?_eq_getElem hi, t.published_getElem]

theorem advanced_of_advance (hpoint : PointInv m p)
    (h : advance P I env t m listMtx p = some (m', listMtx', p')) :
    Advanced t m m' listMtx listMtx' p p' := by
  cases p with
  | idle => cases h
  | lockList required =>
    cases listMtx with
    | some o => cases h
    | none =>
      cases h
      exact ⟨rfl, rfl, .inr (.inl ⟨rfl, rfl⟩), trivial, .inl rfl⟩
  | sumSizes required =>
    simp only [advance] at h
    split at h
    · rename_i hmapped
      cases h
      exact .within rfl (iff_of_true rfl hmapped)
    · rename_i hmapped
      cases h
      exact .within rfl ⟨rfl, hmapped⟩
  | readCount required currentMappedSize =>
    obtain ⟨hmapped, hmissed⟩ := hpoint
    cases hsegs : m.segments with
    | nil =>
      simp only [advance, hsegs] at h
      cases h
    | cons info rest =>
      simp only [advance, hsegs] at h
      cases h
      refine .within rfl ⟨by rw [hsegs], ?_, hmapped, .inr hmissed⟩
      exact Nat.le_of_eq m.table.published_length.symm
  | loop f =>
    simp only [advance] at h
    split at h
    · rename_i hi
      cases h
      refine .within rfl ⟨hpoint, hi, fun e he => ?_⟩
      rw [published_get _ (Nat.lt_of_lt_of_le hi hpoint.count)] at he
      obtain rfl := Option.some.inj he
      rfl
    · cases h
      apply Advanced.within rfl
      rw [PointInv, ← hpoint.mapped, Bool.and_eq_true, decide_eq_true_eq]
      constructor
      · exact fun hboth => hboth.2
      · intro hlt
        exact ⟨hpoint.missed.resolve_right (not_not.mpr hlt), hlt⟩
  | readSize f fileOffset =>
    obtain ⟨hf, hi, hoffset⟩ := hpoint
    cases h
    refine .within rfl ⟨hf, hi, ?_⟩
    rw [published_get _ (Nat.lt_of_lt_of_le hi hf.count)] at hoffset ⊢
    rw [hoffset _ rfl]
    rfl
  | addSegment f e =>
    obtain ⟨hf, hi, he⟩ := hpoint
    cases hmap : env.openShmChunk e.size e.fileOffset with
    | none =>
      simp only [advance, addSegmentShm, Bool.false_eq_true, if_false, hmap] at h
      cases h
      exact .within rfl trivial
    | some mapping =>
      simp only [advance, addSegmentShm, Bool.false_eq_true, if_false, hmap] at h
      cases h
      refine ⟨rfl, rfl, .inl ⟨rfl, fun _ => rfl⟩, ?_, .inr ⟨rfl, _, rfl, hf.index ▸ he⟩⟩
      refine ⟨?_, hi, hf.count, e, he, ?_⟩
      · simp [hf.index]
      · rw [hf.mapped]
        exact getSize_concat _ _
  | rereadSize f =>
    obtain ⟨hlast, hi, hcount, e, he, hmapped⟩ := hpoint
    cases h
    rw [published_get _ (Nat.lt_of_lt_of_le hi hcount)] at he
    obtain rfl := Option.some.inj he
    exact .within rfl ⟨hlast, hcount, hmapped.symm, .inl rfl⟩
  | unlock required result =>
    cases h
    exact ⟨rfl, rfl, .inr (.inr ⟨rfl, rfl, rfl⟩), trivial, .inl rfl⟩

variable [DecidableEq T] {s s' : State T H} {l : Label T H}

theorem Inv.move (hinv : Inv s)
    (h : Advanced t s.manager m' s.listMtx listMtx' (s.point t) p') :
    Inv ⟨m', listMtx', Function.update s.point t p'⟩ := by
  constructor
  · exact h.free.trans hinv.free
  · show fileRanges m'.segments <+: m'.table.published
    rw [h.table]
    rcases h.segments with hsame | ⟨-, info, hsegs, hentry⟩
    · rw [hsame]
      exact hinv.prefixed
    · have hlength : (fileRanges s.manager.segments).length = s.manager.segments.length :=
        List.length_map _
      have hnew : fileRanges m'.segments = fileRanges s.manager.segments ++ [info.toFileRange] := by
        rw [hsegs, fileRanges, List.map_append]
        rfl
      obtain ⟨rest, hrest⟩ := hinv.prefixed
      rw [← hrest, ← hlength, List.getElem?_append_right (Nat.le_refl _), Nat.sub_self] at hentry
      cases rest with
      | nil => cases hentry
      | cons e rest =>
        obtain rfl : e = info.toFileRange := Option.some.inj hentry
        exact ⟨rest, by rw [hnew, ← hrest, List.append_assoc]; rfl⟩
  · show Contiguous m'.table
    rw [h.table]
    exact hinv.contiguous
  · apply hinv.owner.step (o := t)
    · intro u hu
      simp only [Function.update_of_ne hu]
    · simp only [Function.update_self]
      exact h.lock
  · intro u
    show PointInv m' (Function.update s.point t p' u)
    by_cases hu : u = t
    · subst hu
      rw [Function.update_self]
      exact h.point
    · rw [Function.update_of_ne hu]
      rcases h.segments with hsame | ⟨hholds, -⟩
      · exact (hinv.points u).mono hsame (h.table ▸ List.prefix_rfl)
      · -- only the owner of `list_mtx_` appends
        apply pointInv_outside
        cases hother : (s.point u).holdsList with
        | false => rfl
        | true => exact absurd (hinv.owner.exclusive hother hholds) hu

omit [DecidableEq T] in
/-- A store that leaves the published entries as they are. -/
theorem Inv.store (hinv : Inv s) {table : SegmentTable}
    (hpublished : s.manager.table.published <+: table.published) (hcontiguous : Contiguous table) :
    Inv { s with manager := store s.manager table } :=
  ⟨hinv.free, hinv.prefixed.trans hpublished, hcontiguous, hinv.owner,
    fun t => (hinv.points t).mono rfl hpublished⟩

theorem published_setEntry (t : SegmentTable) (e : FileRange) :
    (setEntry t e).published = t.published := by
  simp only [setEntry, SegmentTable.published]
  apply List.map_congr_left
  intro i hi
  exact Function.update_of_ne (Nat.ne_of_lt (List.mem_range.mp hi)) _ _

omit [DecidableEq T] in
theorem Inv.setEntry (hinv : Inv s) (e : FileRange) :
    Inv { s with manager := Discovery.store s.manager (setEntry s.manager.table e) } := by
  have hsame := published_setEntry s.manager.table e
  apply hinv.store
  · exact hsame ▸ List.prefix_rfl
  · rw [Contiguous, hsame]
    exact hinv.contiguous

theorem published_succ (t : SegmentTable) :
    t.published <+: { t with count := t.count + 1 }.published := by
  refine ⟨[t.entries t.count], ?_⟩
  simp [SegmentTable.published, List.range_succ]

theorem inv_step (hinv : Inv s) (hl : PublishesContiguous s l) (h : step P I s l = some s') :
    Inv s' := by
  cases l with
  | call t required =>
    simp only [step] at h
    split at h
    · rename_i hidle
      cases h
      apply hinv.move
      refine ⟨rfl, rfl, .inl ⟨rfl, ?_⟩, ?_, .inl rfl⟩
      · cases s.manager.anon <;> nofun
      · cases s.manager.anon <;> trivial
    · cases h
  | run t env =>
    simp only [step, Option.map_eq_some_iff] at h
    obtain ⟨⟨m', listMtx', p'⟩, hadvance, rfl⟩ := h
    exact hinv.move (advanced_of_advance (hinv.points t) hadvance)
  | storeOffset fileOffset =>
    cases h
    exact hinv.setEntry _
  | storeSize size =>
    cases h
    exact hinv.setEntry _
  | storeCount =>
    cases h
    exact hinv.store (published_succ _) hl

/-- A step leaves the segments that there are. -/
theorem segments_step (hinv : Inv s) (h : step P I s l = some s') :
    s.manager.segments <+: s'.manager.segments := by
  cases l with
  | call t required =>
    simp only [step] at h
    split at h
    · cases h
      exact List.prefix_rfl
    · cases h
  | run t env =>
    simp only [step, Option.map_eq_some_iff] at h
    obtain ⟨⟨m', listMtx', p'⟩, hadvance, rfl⟩ := h
    rcases (advanced_of_advance (hinv.points t) hadvance).segments with hsame | ⟨-, info, hnew, -⟩
    · exact hsame ▸ List.prefix_rfl
    · exact hnew ▸ List.prefix_append _ _
  | storeOffset fileOffset | storeSize size | storeCount =>
    cases h
    exact List.prefix_rfl

omit [DecidableEq T] in
theorem inv_started (hfree : m.listHeld = false)
    (hpre : fileRanges m.segments <+: m.table.published) (hcontiguous : Contiguous m.table) :
    Inv (started m : State T H) :=
  ⟨hfree, hpre, hcontiguous, fun _ hholds => absurd hholds Bool.false_ne_true,
    fun _ => trivial⟩

end steps

/-! ## 4. Result -/

end Memnon.Discovery
