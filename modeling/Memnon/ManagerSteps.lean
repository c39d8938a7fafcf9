import Memnon.ManagerGrowth
import Memnon.ManagerNames
import Memnon.Lib.Doubling

/-!
# What a request does to the segments

A request leaves the sub-segments, the table and the registry alone, or appends
one chunk to them; all else that it changes are inner managers. This is said here
once for all requests, with the size of the chunk, and from it follows what holds
of the sizes in every run: each chunk is at least twice as large as the segment
before it.
-/

namespace Memnon

open Memnon.Lib

variable {H N : Type}

/-! ## 1. Segments without inner managers -/

/-- The segment and where it is mapped. -/
def SegInfo.place (info : SegInfo H) : SegInfo Unit := { info with smgr := () }

def placesOf (m : Manager H) : List (SegInfo Unit) := m.segments.map SegInfo.place

theorem segmentsOf_eq (m : Manager H) : segmentsOf m = (placesOf m).map SegInfo.toSegment := by
  simp [segmentsOf, placesOf, SegInfo.place]

/-- Only inner managers, mutexes and hints may differ. -/
structure SameSegments (m m' : Manager H) : Prop where
  places : placesOf m' = placesOf m
  table : m'.table = m.table
  anon : m'.anon = m.anon
  registry : m'.registry = m.registry

namespace SameSegments

variable {m m₁ m₂ : Manager H}

theorem refl (m : Manager H) : SameSegments m m := ⟨rfl, rfl, rfl, rfl⟩

theorem trans (h : SameSegments m m₁) (h' : SameSegments m₁ m₂) : SameSegments m m₂ where
  places := h'.places.trans h.places
  table := h'.table.trans h.table
  anon := h'.anon.trans h.anon
  registry := h'.registry.trans h.registry

theorem segmentsOf (h : SameSegments m m₁) : segmentsOf m₁ = segmentsOf m := by
  rw [segmentsOf_eq, segmentsOf_eq, h.places]

end SameSegments

/-- Another inner manager for one segment. -/
theorem places_set {pre post : List (SegInfo H)} {info : SegInfo H} (smgr : H) :
    (pre ++ { info with smgr := smgr } :: post).map SegInfo.place =
      (pre ++ info :: post).map SegInfo.place := by
  simp [SegInfo.place]

section sections

variable {P : Platform} {I : InnerManager H N} {m₀ : Manager H}

theorem keeps_list_same {A : Type} {c : Op H A} (hc : Call.Keeps (SameSegments m₀) c) :
    Call.Keeps (SameSegments m₀) (.guarded (listMtx H) c) :=
  Call.keeps_guarded (fun _ h => ⟨h.places, h.table, h.anon, h.registry⟩) hc
    fun _ h => ⟨h.places, h.table, h.anon, h.registry⟩

theorem hintIfLow_same (m : Manager H) : SameSegments m (hintIfLow I m) := by
  unfold hintIfLow
  split
  · split
    · exact ⟨rfl, rfl, rfl, rfl⟩
    · exact .refl m
  · exact .refl m

theorem tryAllocate_same {bytes : Word} :
    Call.Keeps (SameSegments m₀) (.guarded (listMtx H) (tryAllocateLocked I bytes)) := by
  refine keeps_list_same (Call.keeps_read_bind fun m hm m' hends => ?_)
  cases hloop : allocateLoop I m.segments bytes with
  | none =>
    rw [hloop] at hends
    cases hends
    exact hm
  | some served =>
    obtain ⟨p, segments⟩ := served
    rw [hloop] at hends
    cases hends
    obtain ⟨pre, info, post, offset, smgr, hs, -, hs', -⟩ := allocateLoop_split hloop
    have hset : SameSegments m { m with segments := segments } :=
      ⟨by rw [placesOf, placesOf, hs, hs', places_set], rfl, rfl, rfl⟩
    exact (hm.trans hset).trans (hintIfLow_same _)

theorem constructExisting_same {name : N} {bytes : Word} :
    Call.Keeps (SameSegments m₀)
      (.guarded (listMtx H) (constructExisting I name bytes (pure ()))) := by
  refine keeps_list_same (Call.keeps_read_bind fun m hm m' hends => ?_)
  cases hloop : constructLoop I name bytes m.segments with
  | constructed p segments =>
    rw [hloop] at hends
    cases hends
    obtain ⟨pre, info, post, offset, smgr, hs, -, hs', -⟩ := constructLoop_split hloop
    have hset : SameSegments m { m with segments := segments } :=
      ⟨by rw [placesOf, placesOf, hs, hs', places_set], rfl, rfl, rfl⟩
    exact hm.trans hset
  | refused =>
    rw [hloop] at hends
    cases hends
    exact hm
  | exhausted =>
    rw [hloop] at hends
    cases hends
    exact hm

theorem constructLast_same {name : N} {bytes : Word} :
    Call.Keeps (SameSegments m₀)
      (.guarded (listMtx H) (constructLast I name bytes (pure ()))) := by
  refine keeps_list_same (Call.keeps_read_bind fun m hm m' hends => ?_)
  cases hlast : m.segments.getLast? with
  | none =>
    rw [hlast] at hends
    cases hends
    exact hm
  | some last =>
    simp only [hlast] at hends
    cases hcons : I.construct last.smgr name bytes with
    | constructed offset smgr =>
      rw [hcons] at hends
      cases hends
      obtain ⟨pre, hs⟩ := List.getLast?_eq_some_iff.mp hlast
      have hset : SameSegments m
          { m with segments := m.segments.dropLast ++ [{ last with smgr := smgr }] } := by
        refine ⟨?_, rfl, rfl, rfl⟩
        rw [placesOf, placesOf, hs, List.dropLast_concat, places_set]
      exact hm.trans hset
    | null | badAlloc | refused =>
      rw [hcons] at hends
      cases hends
      exact hm

theorem find_same {name : N} : Call.Keeps (SameSegments m₀) (find I name) :=
  keeps_list_same (Call.keeps_read_bind fun _ hm _ hends => Option.some.inj hends ▸ hm)

theorem destroy_same {name : N} : Call.Keeps (SameSegments m₀) (destroy I name (pure ())) := by
  refine keeps_list_same (Call.keeps_read_bind fun m hm m' hends => ?_)
  cases hloop : destroyLoop I name m.segments with
  | none =>
    rw [hloop] at hends
    cases hends
    exact hm
  | some segments =>
    rw [hloop] at hends
    cases hends
    obtain ⟨pre, info, post, offset, smgr, hs, -, hs'⟩ := destroyLoop_split hloop
    have hset : SameSegments m { m with segments := segments } :=
      ⟨by rw [placesOf, placesOf, hs, hs', places_set], rfl, rfl, rfl⟩
    exact hm.trans hset

theorem deallocated_same (m : Manager H) (ptr : Word) :
    SameSegments m (deallocated P I m ptr) := by
  unfold deallocated
  split
  · exact .refl m
  · split
    · exact .refl m
    · split
      · rename_i i hi
        refine ⟨?_, rfl, rfl, rfl⟩
        obtain ⟨hlt, -⟩ := List.findIdx?_eq_some_iff_findIdx_eq.mp hi
        rw [placesOf, placesOf, List.modify_eq_take_cons_drop hlt, places_set]
        simp
      · exact .refl m

end sections

/-! ## 2. What a growth ends in -/

/-- The chunk that a growth by `minBytes` computes, where the others end. -/
def newChunk (P : Platform) (m : Manager H) (minBytes : Word) : FileRange where
  fileOffset := if m.anon then 0 else getSizeUnlocked (fileRanges m.segments)
  size := growChunkSize P (segmentsOf m) minBytes

/-- The call that maps a chunk. -/
def Env.mapChunk (env : Env H) (anon : Bool) (chunk : FileRange) : Option Mapping :=
  if anon then env.createAnon chunk.size else env.openShmChunk chunk.size chunk.fileOffset

/-- There is room in the table for one more segment; an anonymous manager has none. -/
def HasRoom (m : Manager H) : Prop := m.anon = true ∨ m.segments.length < kMaxSubSegments

/-- The table is as before, or lists the chunk behind the segments. -/
def Republished (m : Manager H) (chunk : FileRange) (table : SegmentTable) : Prop :=
  table = m.table ∨ updateSegmentTable (segmentsOf m ++ [⟨chunk, false⟩]) m.table = some table

/-- How a growth may end: with nothing changed, by a value when it is `quiet` or by
    an exception when the chunk cannot be mapped; with a chunk more; or with a chunk
    that the table has no entry for. -/
inductive GrowthEnd (P : Platform) (I : InnerManager H N) (env : Env H) (m : Manager H)
    (minBytes : Word) (quiet : Prop) : Outcome Exn (Manager H) Unit → Prop
  | same : quiet → GrowthEnd P I env m minBytes quiet (.value () m)
  | failed (e : Exn) : mapsNewChunk P env m minBytes = false →
      GrowthEnd P I env m minBytes quiet (.thrown e m)
  | grown (mapping : Mapping) (table : SegmentTable) :
      env.mapChunk m.anon (newChunk P m minBytes) = some mapping → HasRoom m →
      Republished m (newChunk P m minBytes) table →
      GrowthEnd P I env m minBytes quiet
        (.value () { grownBy P I m mapping (newChunk P m minBytes) with table := table })
  | full (mapping : Mapping) :
      env.mapChunk m.anon (newChunk P m minBytes) = some mapping → ¬ HasRoom m →
      GrowthEnd P I env m minBytes quiet
        (.thrown .runtimeError (grownBy P I m mapping (newChunk P m minBytes)))

/-- `grow_background` does nothing: the last segment is free enough, or the system
    refuses the chunk. -/
def BackgroundQuiet (P : Platform) (I : InnerManager H N) (env : Env H) (m : Manager H) : Prop :=
  (∃ last ∈ m.segments.getLast?, I.getFreeMemory last.smgr ≥ last.size / 2) ∨
    mapsNewChunk P env m kMinSegmentSize = false

section growth

variable {P : Platform} {I : InnerManager H N} {env : Env H} {m m' : Manager H}
  {minBytes : Word} {quiet : Prop}

/-- The section of a SHM growth that maps and publishes. -/
theorem publish_end (hlist : m.listHeld = false) (hfront : FrontPrimary m.segments)
    (hanon : m.anon = false) {newChunkSize current : Word}
    (hchunk : newChunkSize = growChunkSize P (segmentsOf m) minBytes)
    (hcurrent : current = getSizeUnlocked (fileRanges m.segments))
    (hextend : env.shmGrow (current + newChunkSize) = true) :
    GrowthEnd P I env m minBytes quiet ((growShm P I env newChunkSize current).run m) := by
  have hnew : newChunk P m minBytes = ⟨current, newChunkSize⟩ := by
    rw [newChunk, hanon, hchunk, hcurrent]
    rfl
  cases hmap : env.openShmChunk newChunkSize current with
  | none =>
    have hrun : (growShm P I env newChunkSize current).run m = .thrown .runtimeError m := by
      rw [growShm, if_pos hextend]
      apply Call.guarded_section_thrown hlist hlist
      exact Call.run_bind_thrown (addSegmentShm_fails hmap true)
    rw [hrun]
    apply GrowthEnd.failed
    rw [hchunk, hcurrent, segmentsOf] at hmap
    simp [mapsNewChunk, hanon, hmap]
  | some mapping =>
    have hmapped : env.mapChunk m.anon (newChunk P m minBytes) = some mapping := by
      rw [Env.mapChunk, hanon, hnew]
      exact hmap
    obtain ⟨table, htable, hrun⟩ := run_growShm (P := P) (I := I) hfront hlist hextend hmap
    rw [hrun, ← hnew]
    by_cases hfull : m.segments.length ≥ kMaxSubSegments
    · rw [if_pos hfull]
      apply GrowthEnd.full mapping hmapped
      rintro (hanon' | hroom)
      · rw [hanon] at hanon'
        cases hanon'
      · exact absurd hfull (Nat.not_le.mpr hroom)
    · have hlt : m.segments.length < kMaxSubSegments := Nat.lt_of_not_le hfull
      rw [if_neg hfull]
      exact .grown mapping table hmapped (.inr hlt) (.inr (hnew ▸ htable hlt))

/-- `grow_mtx_` is given back at each end. -/
theorem GrowthEnd.guarded (hgrow : m.growHeld = false) {c : Op H Unit}
    (h : GrowthEnd P I env ((growMtx H).setHeld true m) minBytes quiet
      (c.run ((growMtx H).setHeld true m))) :
    GrowthEnd P I env m minBytes quiet ((Call.guarded (growMtx H) c).run m) := by
  generalize hends : c.run ((growMtx H).setHeld true m) = o at h
  cases h with
  | same hquiet =>
    rw [Call.guarded_section hgrow hgrow hends]
    exact .same hquiet
  | failed e hmaps =>
    rw [Call.guarded_section_thrown hgrow hgrow hends]
    exact .failed e hmaps
  | grown mapping table hmap hroom htable =>
    have hrun : (Call.guarded (growMtx H) c).run m =
        .value () { grownBy P I m mapping (newChunk P m minBytes) with table := table } :=
      Call.guarded_section hgrow hgrow hends
    rw [hrun]
    exact .grown mapping table hmap hroom htable
  | full mapping hmap hroom =>
    have hrun : (Call.guarded (growMtx H) c).run m =
        .thrown .runtimeError (grownBy P I m mapping (newChunk P m minBytes)) :=
      Call.guarded_section_thrown hgrow hgrow hends
    rw [hrun]
    exact .full mapping hmap hroom

theorem growAnon_end (hlist : m.listHeld = false) (hanon : m.anon = true) {newChunkSize : Word}
    (hchunk : newChunkSize = growChunkSize P (segmentsOf m) minBytes) :
    GrowthEnd P I env m minBytes quiet ((growAnon P I env newChunkSize).run m) := by
  have hnew : newChunk P m minBytes = ⟨0, newChunkSize⟩ := by
    rw [newChunk, hanon, hchunk]
    rfl
  cases hmap : env.createAnon newChunkSize with
  | none =>
    simp only [growAnon, hmap]
    apply GrowthEnd.failed
    rw [hchunk, segmentsOf] at hmap
    simp [mapsNewChunk, hanon, hmap]
  | some mapping =>
    rw [run_growAnon hlist hmap, ← hnew]
    refine .grown mapping m.table ?_ (.inl hanon) (.inl rfl)
    rw [Env.mapChunk, hanon, hnew]
    exact hmap

theorem grow_end (hm : Ready m) :
    GrowthEnd P I env m minBytes (getFreeMemoryUnlocked I m.segments ≥ minBytes)
      ((grow P I env minBytes).run m) := by
  by_cases henough : getFreeMemoryUnlocked I m.segments ≥ minBytes
  · rw [grow_enough hm henough]
    exact .same henough
  · rw [grow_short hm henough]
    apply GrowthEnd.guarded hm.grow
    cases hanon : m.anon with
    | true =>
      rw [if_pos rfl]
      exact growAnon_end (m := (growMtx H).setHeld true m) hm.list hanon rfl
    | false =>
      rw [if_neg Bool.false_ne_true]
      by_cases hextend : env.shmGrow (getSizeUnlocked (fileRanges m.segments) +
          growChunkSize P (m.segments.map SegInfo.toSegment) minBytes) = true
      · exact publish_end (m := (growMtx H).setHeld true m) hm.list hm.segments hanon rfl rfl
          hextend
      · rw [growShm, if_neg hextend]
        apply GrowthEnd.failed
        simp only [mapsNewChunk, growMtx_segments, Bool.eq_false_iff.mpr hextend, Bool.false_and]
        exact if_neg (Bool.eq_false_iff.mp hanon)

theorem Ready.exists_last (hm : Ready m) : ∃ last, m.segments.getLast? = some last := by
  obtain ⟨s0, rest, hs, -⟩ := hm.segments
  exact ⟨_, List.getLast?_eq_some_getLast (hs ▸ List.cons_ne_nil _ _)⟩

theorem growBackground_end (hm : Ready m) :
    GrowthEnd P I env m kMinSegmentSize (BackgroundQuiet P I env m)
      ((growBackground P I env).run m) := by
  obtain ⟨last, hlast⟩ := hm.exists_last
  by_cases henough : I.getFreeMemory last.smgr ≥ last.size / 2
  · rw [background_enough hm hlast henough]
    exact .same (.inl ⟨last, hlast, henough⟩)
  · rw [background_low hm hlast henough rfl rfl]
    apply GrowthEnd.guarded hm.grow
    cases hanon : m.anon with
    | true =>
      rw [if_pos rfl]
      cases hmap : env.createAnon (growChunkSize P (segmentsOf m) kMinSegmentSize) with
      | none =>
        apply GrowthEnd.same
        right
        rw [segmentsOf] at hmap
        rw [mapsNewChunk, hanon, if_pos rfl, hmap]
        rfl
      | some mapping =>
        have hend : GrowthEnd P I env ((growMtx H).setHeld true m) kMinSegmentSize
            (BackgroundQuiet P I env m)
            ((growAnon P I env (growChunkSize P (segmentsOf m) kMinSegmentSize)).run
              ((growMtx H).setHeld true m)) :=
          growAnon_end (m := (growMtx H).setHeld true m) hm.list hanon rfl
        rw [growAnon, hmap] at hend
        exact hend
    | false =>
      rw [if_neg Bool.false_ne_true]
      have hcarried : getSizeUnlocked (fileRanges m.segments) =
          getSizeUnlocked (fileRanges ((listMtx H).setHeld true
            ((growMtx H).setHeld true m)).segments) := rfl
      split
      · rename_i hextend
        have hend : GrowthEnd P I env ((growMtx H).setHeld true m) kMinSegmentSize
            (BackgroundQuiet P I env m)
            ((growShm P I env (growChunkSize P (segmentsOf m) kMinSegmentSize)
              (getSizeUnlocked (fileRanges m.segments))).run ((growMtx H).setHeld true m)) :=
          publish_end (m := (growMtx H).setHeld true m) hm.list hm.segments hanon rfl rfl hextend
        rw [growShm, if_pos hextend] at hend
        have hsection : (Call.guarded (listMtx H) (publishChunkBackground P I env
            (growChunkSize P (segmentsOf m) kMinSegmentSize)
            (getSizeUnlocked (fileRanges m.segments)))).run ((growMtx H).setHeld true m) =
            (Call.guarded (listMtx H) (publishChunk P I env
              (growChunkSize P (segmentsOf m) kMinSegmentSize)
              (getSizeUnlocked (fileRanges m.segments)))).run ((growMtx H).setHeld true m) := by
          apply Call.guarded_congr
          rw [publishChunkBackground, Call.run_read_bind, if_pos hcarried]
        rw [hsection]
        exact hend
      · rename_i hextend
        apply GrowthEnd.same
        right
        rw [segmentsOf] at hextend
        rw [mapsNewChunk, hanon, if_neg Bool.false_ne_true, Bool.eq_false_iff.mpr hextend]
        rfl

end growth

/-! ## 3. What a request does -/

/-- The environment of a request that may grow. -/
def Request.env : Request H N → Option (Env H)
  | .allocate env _ | .grow env _ | .growBackground env | .construct env _ _ => some env
  | .deallocate _ | .find _ | .destroy _ => none

/-- The sub-segments are the same, or one chunk has been mapped and registered. -/
inductive Grows (P : Platform) (env : Option (Env H)) (m m' : Manager H) : Prop
  | same : SameSegments m m' → Grows P env m m'
  | chunk (e : Env H) (minBytes : Word) (mapping : Mapping) : e ∈ env →
      e.mapChunk m.anon (newChunk P m minBytes) = some mapping →
      placesOf m' = placesOf m ++
        [⟨⟨newChunk P m minBytes, false⟩, mapping.seg, mapping.baseVaddr, ()⟩] →
      m'.anon = m.anon →
      Republished m (newChunk P m minBytes) m'.table →
      m'.registry = registerSegment P mapping.seg mapping.baseVaddr (newChunk P m minBytes).size
        m.registry →
      Grows P env m m'

section requests

variable {P : Platform} {I : InnerManager H N} {env : Env H} {m m' m₁ : Manager H}
  {minBytes : Word} {o : Option (Env H)}

/-- The new chunk depends on the segments only. -/
theorem SameSegments.newChunk (h : SameSegments m m₁) (minBytes : Word) :
    newChunk P m₁ minBytes = newChunk P m minBytes := by
  simp only [Memnon.newChunk, fileRanges_eq, h.segmentsOf, h.anon]

theorem SameSegments.republished (h : SameSegments m m₁) {chunk : FileRange}
    {table : SegmentTable} (h' : Republished m₁ chunk table) : Republished m chunk table := by
  rw [Republished, h.segmentsOf, h.table] at h'
  exact h'

theorem Grows.after (h : SameSegments m m₁) (h' : Grows P o m₁ m') : Grows P o m m' := by
  cases h' with
  | same h' => exact .same (h.trans h')
  | chunk e minBytes mapping he hmap hplaces hanon htable hregistry =>
    rw [h.newChunk, h.anon] at hmap
    rw [h.newChunk, h.places] at hplaces
    rw [h.newChunk] at htable
    rw [h.newChunk, h.registry] at hregistry
    exact .chunk e minBytes mapping he hmap hplaces (hanon.trans h.anon) (h.republished htable)
      hregistry

theorem Grows.before (h : Grows P o m m₁) (h' : SameSegments m₁ m') : Grows P o m m' := by
  cases h with
  | same h => exact .same (h.trans h')
  | chunk e minBytes mapping he hmap hplaces hanon htable hregistry =>
    exact .chunk e minBytes mapping he hmap (h'.places.trans hplaces) (h'.anon.trans hanon)
      (h'.table ▸ htable) (h'.registry.trans hregistry)

theorem GrowthEnd.grows {quiet : Prop} {end_ : Outcome Exn (Manager H) Unit}
    (h : GrowthEnd P I env m minBytes quiet end_) (hends : m' ∈ end_.state) :
    Grows P (some env) m m' := by
  have hplaces : ∀ mapping, placesOf (grownBy P I m mapping (newChunk P m minBytes)) =
      placesOf m ++ [⟨⟨newChunk P m minBytes, false⟩, mapping.seg, mapping.baseVaddr, ()⟩] := by
    intro mapping
    simp [placesOf, grownBy, SegInfo.place]
  cases h with
  | same hquiet =>
    cases hends
    exact .same (.refl m)
  | failed e hmaps =>
    cases hends
    exact .same (.refl m)
  | grown mapping table hmap hroom htable =>
    cases hends
    exact .chunk env minBytes mapping rfl hmap (hplaces mapping) rfl htable rfl
  | full mapping hmap hroom =>
    cases hends
    exact .chunk env minBytes mapping rfl hmap (hplaces mapping) rfl (.inl rfl) rfl

theorem allocate_grows (hm : Ready m) {bytes : Word}
    (hends : m' ∈ ((allocate P I env bytes).run m).state) : Grows P (some env) m m' := by
  rcases Call.bind_ends hends with hfirst | ⟨p, m₁, hfirst, hends⟩
  · exact .same (tryAllocate_same m (.refl m) m' hfirst)
  · have hstate : m₁ ∈ ((Call.guarded (listMtx H) (tryAllocateLocked I bytes)).run m).state := by
      rw [hfirst]
      rfl
    have hsame : SameSegments m m₁ := tryAllocate_same m (.refl m) m₁ hstate
    have hm₁ : Ready m₁ := (stable_frontPrimary I).tryAllocateLocked.list _ _ m hm m₁ hstate
    cases p with
    | some p =>
      cases hends
      exact .same hsame
    | none =>
      apply Grows.after hsame
      rcases Call.bind_ends hends with hgrow | ⟨u, m₂, hgrow, hends⟩
      · exact (grow_end hm₁).grows hgrow
      · have hgrown : Grows P (some env) m₁ m₂ := (grow_end hm₁).grows (by rw [hgrow]; rfl)
        apply hgrown.before
        have hlast : ∀ {q m₃}, (Call.guarded (listMtx H) (tryAllocateLocked I bytes)).run m₂ =
            .value q m₃ → SameSegments m₂ m₃ := fun h =>
          tryAllocate_same m₂ (.refl m₂) _ (by rw [h]; rfl)
        rcases Call.bind_ends hends with hsecond | ⟨q, m₃, hsecond, hends⟩
        · exact tryAllocate_same m₂ (.refl m₂) m' hsecond
        · cases q with
          | some q =>
            cases hends
            exact hlast hsecond
          | none =>
            cases hends
            exact hlast hsecond

theorem construct_grows (hm : Ready m) {name : N} {bytes : Word}
    (hends : m' ∈ ((construct P I env name bytes (pure ())).run m).state) :
    Grows P (some env) m m' := by
  rcases Call.bind_ends hends with hfirst | ⟨p, m₁, hfirst, hends⟩
  · exact .same (constructExisting_same m (.refl m) m' hfirst)
  · have hstate : m₁ ∈ ((Call.guarded (listMtx H)
        (constructExisting I name bytes (pure ()))).run m).state := by
      rw [hfirst]
      rfl
    have hsame : SameSegments m m₁ := constructExisting_same m (.refl m) m₁ hstate
    have hm₁ : Ready m₁ :=
      ((nameStable_frontPrimary I).constructExisting .pure).list _ _ m hm m₁ hstate
    cases p with
    | some p =>
      cases hends
      exact .same hsame
    | none =>
      apply Grows.after hsame
      rcases Call.bind_ends hends with hgrow | ⟨u, m₂, hgrow, hends⟩
      · exact (grow_end hm₁).grows hgrow
      · have hgrown : Grows P (some env) m₁ m₂ := (grow_end hm₁).grows (by rw [hgrow]; rfl)
        exact hgrown.before (constructLast_same m₂ (.refl m₂) m' hends)

/-- What any request does to the sub-segments. -/
theorem serve_grows (hm : Ready m) {r : Request H N} (hs : serve P I m r = some m') :
    Grows P r.env m m' := by
  cases r with
  | allocate env bytes => exact allocate_grows hm hs
  | grow env minBytes => exact (grow_end hm).grows hs
  | growBackground env => exact (growBackground_end hm).grows hs
  | construct env name bytes => exact construct_grows hm hs
  | find name => exact .same (find_same m (.refl m) m' hs)
  | destroy name => exact .same (destroy_same m (.refl m) m' hs)
  | deallocate ptr =>
    rw [serve, run_deallocate hm.list] at hs
    cases hs
    exact .same (deallocated_same m ptr)

end requests

end Memnon
