import Memnon.ManagerSections

/-!
# Growth as a whole

What `grow`, `grow_background` and `allocate` leave behind when they end, by a
value or by an exception: a list and a table in step, and at most one chunk of
whole pages more, which starts where the others end.
-/

namespace Memnon

open Memnon.Lib

variable {H N : Type}

/-! ## 1. The end of a growth -/

/-- The list is as before, or one chunk of whole pages has been appended. -/
structure Appended (P : Platform) (Q : H → Prop) (m m' : Manager H) : Prop where
  inStep : InStep Q m'
  list : segmentsOf m' = segmentsOf m ∨ ∃ chunk, P.Whole chunk ∧
    segmentsOf m' = segmentsOf m ++
      [⟨⟨getSizeUnlocked (rangesOf (segmentsOf m)), chunk⟩, false⟩]

section growth

variable {P : Platform} {I : InnerManager H N} {env : Env H} {m m' m₁ : Manager H}
  {Q : H → Prop} {minBytes bytes : Word}

theorem Appended.same (h : InStep Q m') (hsame : segmentsOf m' = segmentsOf m) :
    Appended P Q m m' := ⟨h, .inl hsame⟩

theorem Appended.after (h : Appended P Q m₁ m') (hsame : segmentsOf m₁ = segmentsOf m) :
    Appended P Q m m' := ⟨h.inStep, hsame ▸ h.list⟩

theorem Appended.before (h : Appended P Q m m₁) (hm' : InStep Q m')
    (hsame : segmentsOf m' = segmentsOf m₁) : Appended P Q m m' :=
  ⟨hm', hsame ▸ h.list⟩

/-- A manager in step whose growth mutex is free. -/
theorem InStep.ready (h : InStep Q m) (hgrow : m.growHeld = false) : Ready m := by
  refine ⟨h.free, hgrow, ?_⟩
  obtain ⟨s0, rest, hs, hprim⟩ := h.grown.front
  cases hsegs : m.segments with
  | nil =>
    rw [segmentsOf, hsegs] at hs
    cases hs
  | cons info infos =>
    rw [segmentsOf, hsegs] at hs
    cases hs
    exact ⟨info, infos, rfl, hprim⟩

theorem InStep.exists_last (h : InStep Q m) : ∃ last, m.segments.getLast? = some last := by
  obtain ⟨last, hlast⟩ := h.grown.exists_last
  obtain ⟨info, hinfo, -⟩ : ∃ info, m.segments.getLast? = some info ∧ info.toSegment = last := by
    simpa [segmentsOf, List.getLast?_map] using hlast
  exact ⟨info, hinfo⟩

/-- The last section of a growth, whether it throws or not. -/
theorem InStep.publish_ends (h : InStep Q m) (henv : SizesMapped env)
    (hQ : ∀ size, Q (I.create size)) {chunk : Word} (hwhole : P.Whole chunk)
    (hc : Carries m chunk (getSizeUnlocked (rangesOf (segmentsOf m))))
    (hends : m' ∈ ((Call.guarded (listMtx H) (publishChunk P I env chunk
      (getSizeUnlocked (rangesOf (segmentsOf m))))).run m).state) : Appended P Q m m' := by
  rcases h.publish (P := P) henv hQ hc with hthrown | ⟨m₁, hvalue, hm₁, hsegs⟩
  · rw [hthrown] at hends
    cases hends
    exact .same h rfl
  · rw [hvalue] at hends
    cases hends
    exact ⟨hm₁, .inr ⟨chunk, hwhole, hsegs⟩⟩

theorem InStep.carries_grow (h : InStep Q m) (minBytes : Word) :
    Carries m (growChunkSize P (segmentsOf m) minBytes)
      (getSizeUnlocked (rangesOf (segmentsOf m))) := by
  obtain ⟨last, hlast⟩ := h.grown.exists_last
  exact ⟨rfl, last, hlast, h.grown.growChunkSize hlast minBytes⟩

theorem whole_growChunkSize (segments : List Segment) (minBytes : Word) :
    P.Whole (growChunkSize P segments minBytes) := P.whole_alignUp _

theorem InStep.grow (h : InStep Q m) (henv : SizesMapped env) (hQ : ∀ size, Q (I.create size))
    (hends : m' ∈ ((grow P I env minBytes).run m).state) : Appended P Q m m' := by
  cases hgrow : m.growHeld with
  | true =>
    rw [Memnon.grow, Call.guarded_held hgrow] at hends
    cases hends
  | false =>
    have hm := h.ready hgrow
    by_cases henough : getFreeMemoryUnlocked I m.segments ≥ minBytes
    · rw [grow_enough hm henough] at hends
      cases hends
      exact .same h rfl
    · rw [grow_short hm henough, h.shm, if_neg Bool.false_ne_true] at hends
      obtain ⟨m₁, hbody, rfl⟩ := Call.guarded_ends hends
      have hm₁ : Appended P Q ((growMtx H).setHeld true m) m₁ := by
        rw [growShm] at hbody
        split at hbody
        · rw [fileRanges_eq] at hbody
          exact (h.setGrow true).publish_ends henv hQ (whole_growChunkSize _ _)
            ((h.setGrow true).carries_grow minBytes) hbody
        · cases hbody
          exact .same (h.setGrow true) rfl
      exact ⟨hm₁.inStep.setGrow false, hm₁.list⟩

/-- `grow_background` computes its chunk as a growth by `kMinSegmentSize` does. -/
theorem backgroundChunkSize_eq {segments : List Segment} {last : Segment}
    (hlast : segments.getLast? = some last) :
    backgroundChunkSize P last = growChunkSize P segments kMinSegmentSize := by
  simp only [backgroundChunkSize, growChunkSize, hlast]

theorem run_readSizeBackground {last : SegInfo H} (hlast : m.segments.getLast? = some last) :
    (readSizeBackground P I).run m =
      .value (if I.getFreeMemory last.smgr ≥ last.size / 2 then none
        else some (growChunkSize P (segmentsOf m) kMinSegmentSize,
          getSizeUnlocked (fileRanges m.segments))) m := by
  have hsegs : (segmentsOf m).getLast? = some last.toSegment := by
    simp [segmentsOf, List.getLast?_map, hlast]
  rw [readSizeBackground, Call.run_read_bind, hlast, ← backgroundChunkSize_eq hsegs]
  simp only
  split <;> rfl

theorem background_enough (hm : Ready m) {last : SegInfo H}
    (hlast : m.segments.getLast? = some last)
    (henough : I.getFreeMemory last.smgr ≥ last.size / 2) :
    (growBackground P I env).run m = .value () m := by
  have hread : (Call.guarded (listMtx H) (readSizeBackground P I)).run
      ((growMtx H).setHeld true m) = .value none ((growMtx H).setHeld true m) := by
    have hlocked : ((listMtx H).setHeld true ((growMtx H).setHeld true m)).segments.getLast? =
        some last := hlast
    refine Call.guarded_section hm.list hm.list ((run_readSizeBackground hlocked).trans ?_)
    rw [if_pos henough]
  refine Call.guarded_section hm.grow hm.grow ?_
  rw [Call.run_bind_value hread]
  rfl

/-- What is left of `grow_background` when the last segment is more than half
    full. -/
theorem background_low (hm : Ready m) {last : SegInfo H} (hlast : m.segments.getLast? = some last)
    (hlow : ¬ I.getFreeMemory last.smgr ≥ last.size / 2) {chunk current : Word}
    (hchunk : chunk = growChunkSize P (segmentsOf m) kMinSegmentSize)
    (hcurrent : current = getSizeUnlocked (fileRanges m.segments)) :
    (growBackground P I env).run m =
      (Call.guarded (growMtx H)
        (if m.anon then
          match env.createAnon chunk with
          | none => return ()
          | some mapping =>
              .guarded (listMtx H) (addSegmentAnonPreallocated P I mapping chunk false)
        else if env.shmGrow (current + chunk) then
          .guarded (listMtx H) (publishChunkBackground P I env chunk current)
        else return ())).run m := by
  have hread : (Call.guarded (listMtx H) (readSizeBackground P I)).run
      ((growMtx H).setHeld true m) =
      .value (some (chunk, current)) ((growMtx H).setHeld true m) := by
    subst hchunk hcurrent
    have hlocked : ((listMtx H).setHeld true ((growMtx H).setHeld true m)).segments.getLast? =
        some last := hlast
    refine Call.guarded_section hm.list hm.list ((run_readSizeBackground hlocked).trans ?_)
    rw [if_neg hlow]
    rfl
  refine Call.guarded_congr ?_
  rw [Call.run_bind_value hread]
  rfl

theorem InStep.growBackground (h : InStep Q m) (henv : SizesMapped env)
    (hQ : ∀ size, Q (I.create size)) (hends : m' ∈ ((growBackground P I env).run m).state) :
    Appended P Q m m' := by
  cases hgrow : m.growHeld with
  | true =>
    rw [Memnon.growBackground, Call.guarded_held hgrow] at hends
    cases hends
  | false =>
    have hm := h.ready hgrow
    obtain ⟨last, hlast⟩ := h.exists_last
    by_cases henough : I.getFreeMemory last.smgr ≥ last.size / 2
    · rw [background_enough hm hlast henough] at hends
      cases hends
      exact .same h rfl
    · rw [background_low hm hlast henough rfl rfl, h.shm, if_neg Bool.false_ne_true] at hends
      obtain ⟨m₁, hbody, rfl⟩ := Call.guarded_ends hends
      have hcarries : Carries ((growMtx H).setHeld true m)
          (growChunkSize P (segmentsOf m) kMinSegmentSize)
          (getSizeUnlocked (rangesOf (segmentsOf m))) := h.carries_grow kMinSegmentSize
      have hm₁ : Appended P Q ((growMtx H).setHeld true m) m₁ := by
        split at hbody
        · rw [fileRanges_eq] at hbody
          rw [publishChunkBackground_eq hcarries] at hbody
          exact (h.setGrow true).publish_ends henv hQ (whole_growChunkSize _ _) hcarries hbody
        · cases hbody
          exact .same (h.setGrow true) rfl
      exact ⟨hm₁.inStep.setGrow false, hm₁.list⟩

theorem InStep.allocate (h : InStep Q m) (henv : SizesMapped env) (hQ : ∀ size, Q (I.create size))
    (halloc : ∀ {smgr smgr' bytes offset}, Q smgr →
      I.allocate smgr bytes = some (offset, smgr') → Q smgr')
    (hends : m' ∈ ((allocate P I env bytes).run m).state) : Appended P Q m m' := by
  obtain ⟨p, m₁, hfirst, hm₁, hsame₁⟩ := h.tryAllocate halloc bytes
  rw [Memnon.allocate, Call.run_bind_value hfirst] at hends
  cases p with
  | some p =>
    cases hends
    exact .same hm₁ hsame₁
  | none =>
    cases hgrow : (Memnon.grow P I env (bytes + kMinSegmentSize)).run m₁ with
    | stuck =>
      rw [Call.run_bind_stuck hgrow] at hends
      cases hends
    | thrown e m₂ =>
      rw [Call.run_bind_thrown hgrow] at hends
      cases hends
      exact (hm₁.grow henv hQ (by rw [hgrow]; rfl)).after hsame₁
    | value u m₂ =>
      rw [Call.run_bind_value hgrow] at hends
      have hgrown : Appended P Q m m₂ := (hm₁.grow henv hQ (by rw [hgrow]; rfl)).after hsame₁
      obtain ⟨q, m₃, hsecond, hm₃, hsame₃⟩ := hgrown.inStep.tryAllocate halloc bytes
      rw [Call.run_bind_value hsecond] at hends
      have hm' : m' = m₃ := by
        cases q <;> (cases hends; rfl)
      rw [hm']
      exact hgrown.before hm₃ hsame₃

end growth

end Memnon
