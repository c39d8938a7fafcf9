import Memnon.SharedFiles

/-!
# What explicit growth adds

The managed memory documents `grow` as adding at least so many bytes of new
capacity. The manager's `grow`, which also serves allocations that found no room,
returns at once when the free memory of all segments adds up to the request. So
capacity is added as documented exactly when it does not.
-/

namespace Memnon.Shared

open Memnon.Lib

variable {K F H N : Type}

/-! ## 1. Growth through the managed memory -/

section managedMemory

variable (P : Platform) (I : InnerManager H N) (env : Env H)

/-- `segmented_managed_memory::grow`. -/
def managedGrow (additionalBytes : Word) : Op H Unit := grow P I env additionalBytes

/-- `get_size`. -/
def getSize : Op H Word :=
  .guarded (listMtx H) do
    let m ← .read
    return getSizeUnlocked (fileRanges m.segments)

/-- An explicit growth, and what `get_size` says before and after it. -/
def growMeasured (additionalBytes : Word) : Op H (Word × Word) := do
  let before ← getSize
  managedGrow P I env additionalBytes
  let after ← getSize
  return (before, after)

end managedMemory

section growth

variable {P : Platform} {I : InnerManager H N} {env : Env H} {m m' : Manager H} {bits : Nat}
  {additionalBytes before after : Word}

theorem run_getSize (hlist : m.listHeld = false) :
    (getSize : Op H Word).run m = .value (getSizeUnlocked (fileRanges m.segments)) m :=
  Call.guarded_section hlist hlist rfl

/-- What is measured, when the growth returns. -/
theorem growMeasured_value (hm : Ready m)
    (h : (growMeasured P I env additionalBytes).run m = .value (before, after) m') :
    before = getSizeUnlocked (fileRanges m.segments) ∧
      (grow P I env additionalBytes).run m = .value () m' ∧
      after = getSizeUnlocked (fileRanges m'.segments) := by
  rw [growMeasured, Call.run_bind_value (run_getSize hm.list)] at h
  obtain ⟨u, m₁, hgrow, h⟩ := Call.run_bind_eq_value h
  have hends : serve P I m (.grow env additionalBytes) = some m₁ := congrArg Outcome.state hgrow
  have hm₁ : Ready m₁ := ready_serve hm hends
  rw [Call.run_bind_value (run_getSize hm₁.list)] at h
  cases h
  exact ⟨rfl, hgrow, rfl⟩

/-- A chunk that could be mapped has the bytes that were asked for. -/
theorem newChunk_covers {minBytes : Word} (hpos : (newChunk P m minBytes).size ≠ 0) :
    minBytes.toNat ≤ (newChunk P m minBytes).size.toNat := by
  obtain ⟨wanted, hchunk⟩ : ∃ wanted, (newChunk P m minBytes).size =
      alignUp (umax minBytes wanted) P.pageSize := ⟨_, rfl⟩
  have hmax := umax_toNat minBytes wanted
  rw [hchunk] at hpos ⊢
  rcases P.alignUp_zero_or_ge (umax minBytes wanted) with h0 | hge
  · exact absurd h0 hpos
  · omega

/-- A growth that returns without early return has mapped what was asked for. -/
theorem Member.grow_short (h : Member bits m) (henv : MapsBelow bits env) (hbits : bits ≤ 58)
    (hshort : ¬ getFreeMemoryUnlocked I m.segments ≥ additionalBytes)
    (hgrow : (grow P I env additionalBytes).run m = .value () m') :
    (getSizeUnlocked (fileRanges m.segments)).toNat + additionalBytes.toNat ≤
      (getSizeUnlocked (fileRanges m'.segments)).toNat := by
  have hm' : Member bits m' := by
    apply h.serve (Nat.le_trans hbits (by decide)) (r := .grow env additionalBytes)
    · intro e he
      exact Option.some.inj he ▸ henv
    · exact congrArg Outcome.state hgrow
  have hmaps : ∃ ns : SegInfo H, additionalBytes.toNat ≤ ns.size.toNat ∧
      m'.segments = m.segments ++ [ns] := by
    have hend : GrowthEnd P I env m additionalBytes _ ((grow P I env additionalBytes).run m) :=
      grow_end h.ready
    rw [hgrow] at hend
    cases hend with
    | same henough => exact absurd henough hshort
    | grown mapping table hmap hroom htable =>
      exact ⟨_, newChunk_covers (henv.mapChunk hmap).1, rfl⟩
  obtain ⟨ns, hcovers, hsegs⟩ := hmaps
  rw [h.sized.getSize_toNat hbits, hm'.sized.getSize_toNat hbits, span_fileRanges, span_fileRanges,
    hsegs, List.map_append, List.sum_append]
  simpa using hcovers

theorem growMeasured_of_grow (hm : Ready m)
    (hgrow : (grow P I env additionalBytes).run m = .value () m') :
    (growMeasured P I env additionalBytes).run m =
      .value (getSizeUnlocked (fileRanges m.segments), getSizeUnlocked (fileRanges m'.segments))
        m' := by
  have hends : serve P I m (.grow env additionalBytes) = some m' := congrArg Outcome.state hgrow
  have hm' : Ready m' := ready_serve hm hends
  have hmanaged : (managedGrow P I env additionalBytes).run m = .value () m' := hgrow
  rw [growMeasured, Call.run_bind_value (run_getSize hm.list), Call.run_bind_value hmanaged,
    Call.run_bind_value (run_getSize hm'.list)]
  rfl

end growth

/-! ## 2. When the capacity is added -/

section capacity

variable [DecidableEq K] [DecidableEq F] [Inhabited H] {P : Platform} {I : InnerManager H N}
  {file : K → F} {env : Env H} {w : World K F H} {k : K} {m m' : Manager H} {bits : Nat}
  {additionalBytes before after : Word}

/-- An explicit growth that returns has added its bytes exactly when there were
    none to add or the free memory of all segments was less. -/
theorem grow_adds_capacity_iff (hbits : bits ≤ 58)
    (hrun : Steps (step P I file) (Bounded bits) .start w) (hmanager : w.manager k = some m)
    (henv : MapsBelow bits env)
    (hgrow : (growMeasured P I env additionalBytes).run (w.view file k m) =
      .value (before, after) m') :
    before.toNat + additionalBytes.toNat ≤ after.toNat ↔
      additionalBytes = 0 ∨
        getFreeMemoryUnlocked I (w.view file k m).segments < additionalBytes := by
  have hm : Member bits (w.view file k m) :=
    (inv_of_steps (Nat.le_trans hbits (by decide)) hrun).member k m hmanager
  by_cases henough : getFreeMemoryUnlocked I (w.view file k m).segments ≥ additionalBytes
  · rw [growMeasured_of_grow hm.ready (grow_enough hm.ready henough)] at hgrow
    cases hgrow
    constructor
    · intro hle
      left
      apply BitVec.eq_of_toNat_eq
      show additionalBytes.toNat = 0
      omega
    · rintro (rfl | hlow)
      · exact Nat.le_refl _
      · exact absurd henough (BitVec.not_le.mpr hlow)
  · obtain ⟨rfl, hgrown, rfl⟩ := growMeasured_value hm.ready hgrow
    apply iff_of_true
    · exact hm.grow_short henv hbits henough hgrown
    · exact .inr (BitVec.not_le.mp henough)

end capacity

/-- A manager of 16 MiB. -/
theorem world_of_16MiB : ∃ w : World Unit Unit Arena, ∃ m : Manager Arena,
    Steps (step fourKiBPages arena id) (Bounded 47) .start w ∧ w.manager () = some m ∧
      (w.view id () m).anon = true ∧
      (w.view id () m).segments = (arenaManager 0x1000000).segments ∧
      Ready (w.view id () m) := by
  have h₀ : Steps (step fourKiBPages arena (id : Unit → Unit)) (Bounded 47)
      (.start : World Unit Unit Arena) .start := .refl _
  have h₁ := h₀.tail (l := .constructAnon () userSpaceEnv (fun _ => none) 0x1000000)
    (fun env henv => Option.some.inj henv ▸ userSpaceEnv_mapsBelow) rfl
  refine ⟨_, _, h₁, rfl, rfl, rfl, ?_⟩
  exact ((inv_of_steps (by decide) h₁).member () _ rfl).ready

/-- Growing it by 32 MiB. -/
theorem grow_adds_capacity_32MiB : ∃ (w : World Unit Unit Arena) (m m' : Manager Arena)
    (before after : Word),
    (growMeasured fourKiBPages arena userSpaceEnv 0x2000000).run (w.view id () m) =
      .value (before, after) m' ∧ before.toNat + 0x2000000 ≤ after.toNat := by
  obtain ⟨w, m, hrun, hm, hanon, hsegments, hready⟩ := world_of_16MiB
  have hshort : getFreeMemoryUnlocked arena (w.view id () m).segments < 0x2000000 := by
    rw [hsegments]
    decide
  have hmaps : mapsNewChunk fourKiBPages userSpaceEnv (w.view id () m) 0x2000000 = true := by
    rw [mapsNewChunk, hanon, hsegments]
    decide
  obtain ⟨mapping, table, hgrow⟩ := grow_succeeds (I := arena) hready (.inl hanon)
    (BitVec.not_le.mpr hshort) hmaps
  have hmeasured := growMeasured_of_grow hready hgrow
  exact ⟨w, m, _, _, _, hmeasured, (grow_adds_capacity_iff (by decide) hrun hm
    userSpaceEnv_mapsBelow hmeasured).mpr (.inr hshort)⟩

/-- Growing it by 1 MiB. -/
theorem grow_returns_without_capacity :
    ¬ ∀ (w : World Unit Unit Arena) (m m' : Manager Arena) (additionalBytes before after : Word),
      Steps (step fourKiBPages arena id) (Bounded 47) .start w → w.manager () = some m →
      additionalBytes.toNat < 2 ^ 46 →
      (growMeasured fourKiBPages arena userSpaceEnv additionalBytes).run (w.view id () m) =
        .value (before, after) m' →
      before.toNat + additionalBytes.toNat ≤ after.toNat := by
  intro hall
  obtain ⟨w, m, hrun, hm, -, hsegments, hready⟩ := world_of_16MiB
  have henough : getFreeMemoryUnlocked arena (w.view id () m).segments ≥ 0x100000 := by
    rw [hsegments]
    decide
  have hle := hall w m _ 0x100000 _ _ hrun hm (by decide)
    (growMeasured_of_grow hready (grow_enough hready henough))
  have hpos : (0x100000 : Word).toNat = 2 ^ 20 := rfl
  omega

end Memnon.Shared
