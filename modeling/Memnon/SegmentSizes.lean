import Memnon.ManagerSteps
import Memnon.ManagerCalls
import Memnon.ManagerReentry

/-!
# How large segments are

In a process that alone grows a manager each chunk is at least twice as large as
the segment before it, whichever routine maps it and whatever fails in between.
So there are few segments, their sizes add up without wrapping around, and the
table has an entry for each. A growth that throws has therefore changed nothing.
-/

namespace Memnon

open Memnon.Lib

variable {H N : Type}

/-! ## 1. Sizes -/

/-- What a mapping that succeeds tells about its size: `mmap` refuses an empty
    one, and there is no room for `2 ^ bits` bytes. -/
structure MapsBelow (bits : Nat) (env : Env H) : Prop where
  createAnon : ∀ size mapping, env.createAnon size = some mapping →
    size ≠ 0 ∧ size.toNat < 2 ^ bits
  createShm : ∀ size mapping, env.createShm size = some mapping →
    size ≠ 0 ∧ size.toNat < 2 ^ bits
  openShmChunk : ∀ size offset mapping, env.openShmChunk size offset = some mapping →
    size ≠ 0 ∧ size.toNat < 2 ^ bits

def Request.MapsBelow (bits : Nat) (r : Request H N) : Prop :=
  ∀ env ∈ r.env, Memnon.MapsBelow bits env

/-- A manager that the constructor of an anonymous manager, or of a creator, leaves. -/
inductive CreatedIn (P : Platform) (I : InnerManager H N) (env : Env H) : Manager H → Prop
  | anon {table : SegmentTable} {registry : Word → Option Word} {initialSize : Word}
      {m : Manager H} :
      (constructAnon P I env initialSize).run (.empty true table registry) = .value () m →
      CreatedIn P I env m
  | creator {table : SegmentTable} {registry : Word → Option Word} {initialSize : Word}
      {m : Manager H} :
      (constructCreator P I env initialSize).run (.empty false table registry) = .value () m →
      CreatedIn P I env m

def sizesOf (m : Manager H) : List Nat := (placesOf m).map fun place => place.size.toNat

/-- The segments of a manager that has been grown from one process. -/
structure Doubled (bits : Nat) (m : Manager H) : Prop where
  ready : Ready m
  first : ∀ size ∈ (sizesOf m).head?, 2 ^ 20 ≤ size
  doubling : Doubling (sizesOf m)
  below : ∀ size ∈ sizesOf m, size < 2 ^ bits

section sizes

variable {P : Platform} {I : InnerManager H N} {env : Env H} {m m' m₀ : Manager H} {bits : Nat}

theorem MapsBelow.mapChunk (h : MapsBelow bits env) {anon : Bool} {chunk : FileRange}
    {mapping : Mapping} (hmap : env.mapChunk anon chunk = some mapping) :
    chunk.size ≠ 0 ∧ chunk.size.toNat < 2 ^ bits := by
  cases anon with
  | true => exact h.createAnon _ _ hmap
  | false => exact h.openShmChunk _ _ _ hmap

theorem CreatedIn.created (h : CreatedIn P I env m) : Created P I m := by
  cases h with
  | anon h => exact .anon h
  | creator h => exact .creator h

/-- The first segment, as it is mapped. -/
theorem CreatedIn.sizes (henv : MapsBelow bits env) (h : CreatedIn P I env m) :
    ∃ size : Word, sizesOf m = [size.toNat] ∧ kMinSegmentSize.toNat ≤ size.toNat ∧
      size.toNat < 2 ^ bits := by
  cases h with
  | @anon table registry initialSize m h =>
    rw [constructAnon] at h
    cases hmap : env.createAnon (umax initialSize kMinSegmentSize) with
    | none =>
      simp only [hmap] at h
      cases h
    | some mapping =>
      simp only [hmap] at h
      cases h
      refine ⟨umax initialSize kMinSegmentSize, rfl, ?_, (henv.createAnon _ _ hmap).2⟩
      rw [umax_toNat]
      exact Nat.le_max_right _ _
  | @creator table registry initialSize m h =>
    rw [constructCreator, addSegmentShm] at h
    simp only [if_true] at h
    cases hmap : env.createShm (umax initialSize kMinSegmentSize) with
    | none =>
      simp only [hmap] at h
      cases h
    | some mapping =>
      simp only [hmap] at h
      cases h
      refine ⟨umax initialSize kMinSegmentSize, rfl, ?_, (henv.createShm _ _ hmap).2⟩
      rw [umax_toNat]
      exact Nat.le_max_right _ _

theorem CreatedIn.doubled (henv : MapsBelow bits env) (h : CreatedIn P I env m) :
    Doubled bits m := by
  obtain ⟨size, hsizes, hmin, hmax⟩ := h.sizes henv
  constructor
  · exact ready_started (.created h.created)
  · intro first hfirst
    rw [hsizes] at hfirst
    obtain rfl : size.toNat = first := Option.some.inj hfirst
    exact hmin
  · rw [hsizes]
    exact doubling_singleton _
  · intro s hs
    rw [hsizes] at hs
    obtain rfl := List.mem_singleton.mp hs
    exact hmax

theorem Doubled.exists_last (h : Doubled bits m) : ∃ last, last ∈ m.segments.getLast? ∧
    last.size.toNat ∈ (sizesOf m).getLast? := by
  obtain ⟨last, hlast⟩ := h.ready.exists_last
  refine ⟨last, hlast, ?_⟩
  simp [sizesOf, placesOf, SegInfo.place, List.getLast?_map, hlast]

/-- A chunk that could be mapped is at least twice as large as the last segment. -/
theorem newChunk_ge {last : SegInfo H} (hlast : last ∈ m.segments.getLast?)
    (hmax : last.size.toNat < 2 ^ 63) {minBytes : Word} (hpos : (newChunk P m minBytes).size ≠ 0) :
    2 * last.size.toNat ≤ (newChunk P m minBytes).size.toNat := by
  have hdouble : (last.size * kGrowMultiplier).toNat = 2 * last.size.toNat := by
    simp only [kGrowMultiplier, BitVec.toNat_mul, BitVec.toNat_ofNat]
    omega
  have hsegs : (segmentsOf m).getLast? = some last.toSegment := by
    rw [segmentsOf, List.getLast?_map, hlast]
    rfl
  have hmaxmin := umax_toNat minBytes (last.size * kGrowMultiplier)
  simp only [newChunk, growChunkSize, hsegs] at hpos ⊢
  rcases P.alignUp_zero_or_ge (umax minBytes (last.size * kGrowMultiplier)) with h0 | hge
  · exact absurd h0 hpos
  · omega

theorem Doubled.newChunk (h : Doubled bits m) (hbits : bits ≤ 63) {minBytes : Word}
    (hpos : (newChunk P m minBytes).size ≠ 0) :
    ∀ last ∈ (sizesOf m).getLast?, 2 * last ≤ (newChunk P m minBytes).size.toNat := by
  obtain ⟨last, hlast, hsize⟩ := h.exists_last
  intro size hsize'
  obtain rfl : last.size.toNat = size := Option.some.inj (hsize.symm.trans hsize')
  have hmax : last.size.toNat < 2 ^ 63 := Nat.lt_of_lt_of_le
    (h.below _ (List.mem_of_getLast? hsize)) (Nat.pow_le_pow_right (by decide) hbits)
  exact newChunk_ge hlast hmax hpos

theorem sizesOf_append {place : SegInfo Unit} (h : placesOf m' = placesOf m ++ [place]) :
    sizesOf m' = sizesOf m ++ [place.size.toNat] := by
  rw [sizesOf, h, List.map_append]
  rfl

/-- What one request does to the sizes. -/
theorem Doubled.serve (h : Doubled bits m) (hbits : bits ≤ 63) {r : Request H N}
    (hr : r.MapsBelow bits) (hs : serve P I m r = some m') : Doubled bits m' := by
  have hready : Ready m' := ready_serve h.ready hs
  cases serve_grows h.ready hs with
  | same hsame =>
    have hsizes : sizesOf m' = sizesOf m := by rw [sizesOf, sizesOf, hsame.places]
    exact ⟨hready, hsizes ▸ h.first, hsizes ▸ h.doubling, hsizes ▸ h.below⟩
  | chunk e minBytes mapping he hmap hplaces hanon htable hregistry =>
    obtain ⟨hpos, hmax⟩ := (hr e he).mapChunk hmap
    have hsizes := sizesOf_append hplaces
    constructor
    · exact hready
    · intro first hfirst
      obtain ⟨last, -, hlast⟩ := h.exists_last
      cases hold : sizesOf m with
      | nil =>
        rw [hold] at hlast
        cases hlast
      | cons s0 rest =>
        rw [hsizes, hold] at hfirst
        apply h.first
        rw [hold]
        exact hfirst
    · rw [hsizes]
      exact h.doubling.concat (h.newChunk hbits hpos)
    · intro size hsize
      rw [hsizes] at hsize
      rcases List.mem_append.mp hsize with hold | hnew
      · exact h.below size hold
      · obtain rfl := List.mem_singleton.mp hnew
        exact hmax

theorem doubled_of_steps (hbits : bits ≤ 63) (henv : MapsBelow bits env)
    (hcreate : CreatedIn P I env m₀)
    (hrun : Steps (serve P I) (fun _ r => r.MapsBelow bits) m₀ m) : Doubled bits m :=
  hrun.invariant (Doubled bits) (hcreate.doubled henv) fun _ _ _ h hr hs => h.serve hbits hr hs

theorem length_sizesOf (m : Manager H) : (sizesOf m).length = m.segments.length := by
  simp [sizesOf, placesOf]

/-- Sizes below `2 ^ bits` leave room for `bits - 20` doublings. -/
theorem Doubled.length_le (h : Doubled bits m) : m.segments.length ≤ bits - 20 := by
  rw [← length_sizesOf]
  apply h.doubling.length_le h.first
  intro size hsize
  rw [← Nat.pow_add]
  exact Nat.lt_of_lt_of_le (h.below size hsize) (Nat.pow_le_pow_right (by decide) (by omega))

theorem span_fileRanges (segments : List (SegInfo H)) :
    span (extents (fileRanges segments)) = (segments.map fun info => info.size.toNat).sum := by
  rw [span_eq_sum]
  simp [extents, fileRanges, FileRange.extent, Function.comp_def]

theorem sum_sizesOf (m : Manager H) : (sizesOf m).sum = mappedSize m := by
  simp [sizesOf, placesOf, SegInfo.place, mappedSize, Function.comp_def]

theorem Doubled.mappedSize_lt (h : Doubled bits m) (hbits : bits ≤ 63) : mappedSize m < 2 ^ 64 := by
  obtain ⟨last, -, hlast⟩ := h.exists_last
  have hsum := h.doubling.sum_le hlast
  have hmax : last.size.toNat < 2 ^ 63 := Nat.lt_of_lt_of_le
    (h.below _ (List.mem_of_getLast? hlast)) (Nat.pow_le_pow_right (by decide) hbits)
  rw [← sum_sizesOf]
  omega

/-- No prefix of the running sum wraps around. -/
theorem Doubled.getSize_take (h : Doubled bits m) (hbits : bits ≤ 63) (k : Nat) :
    (getSizeUnlocked (fileRanges (m.segments.take k))).toNat =
      ((m.segments.take k).map fun info => info.size.toNat).sum := by
  have hall := h.mappedSize_lt hbits
  have hsplit : mappedSize m = ((m.segments.take k).map fun info => info.size.toNat).sum +
      ((m.segments.drop k).map fun info => info.size.toNat).sum := by
    rw [← List.sum_append, ← List.map_append, List.take_append_drop]
    rfl
  rw [getSizeUnlocked_toNat]
  · exact span_fileRanges _
  · rw [span_fileRanges]
    omega

theorem Doubled.hasRoom (h : Doubled bits m) (hbits : bits ≤ 63) : HasRoom m := by
  have hlength := h.length_le
  right
  simp only [kMaxSubSegments]
  omega

end sizes

/-! ## 2. The table cannot overflow -/

section bounds

variable {P : Platform} {I : InnerManager H N} {env : Env H} {m m' m₀ : Manager H} {bits : Nat}

/-- The branch for too many sub-segments. -/
theorem updateSegmentTable_room {segments : List Segment} {ns : Segment} {t : SegmentTable}
    (h : segments.length < kMaxSubSegments) : updateSegmentTable (segments ++ [ns]) t ≠ none := by
  unfold updateSegmentTable
  split
  · split
    · simp only [List.length_append, List.length_singleton, Nat.add_sub_cancel]
      rw [if_neg (Nat.not_le.mpr h)]
      nofun
    · nofun
  · nofun

/-- Each segment behind the first is at least twice as large as the one before it,
    and the first has at least the minimal size. Where mappings are smaller than
    `2 ^ 47` bytes there are at most 27 segments, neither the doubling of a size nor
    a running sum of sizes wraps around, and the table has room for one more. -/
theorem segment_sizes_double (hbits : bits ≤ 63) (henv : MapsBelow bits env)
    (hcreate : CreatedIn P I env m₀)
    (hrun : Steps (serve P I) (fun _ r => r.MapsBelow bits) m₀ m) :
    (∀ s0 ∈ m.segments.head?, kMinSegmentSize.toNat ≤ s0.size.toNat) ∧
    (∀ (i : Nat) (h : i + 1 < m.segments.length),
      2 * m.segments[i].size.toNat ≤ m.segments[i + 1].size.toNat) ∧
    (bits ≤ 47 →
      m.segments.length ≤ 27 ∧
      (∀ info ∈ m.segments, (info.size * kGrowMultiplier).toNat = 2 * info.size.toNat) ∧
      (∀ k, (getSizeUnlocked (fileRanges (m.segments.take k))).toNat =
        ((m.segments.take k).map fun info => info.size.toNat).sum) ∧
      ∀ ns, updateSegmentTable (segmentsOf m ++ [ns]) m.table ≠ none) := by
  have hm : Doubled bits m := doubled_of_steps hbits henv hcreate hrun
  have hlength := hm.length_le
  refine ⟨?_, ?_, fun hsmall => ⟨by omega, ?_, hm.getSize_take hbits, fun ns => ?_⟩⟩
  · intro s0 hs0
    apply hm.first
    rw [sizesOf, placesOf, List.map_map, List.head?_map, hs0]
    rfl
  · intro i hi
    have hi' : i + 1 < (sizesOf m).length := by rwa [length_sizesOf]
    simpa [sizesOf, placesOf, SegInfo.place] using hm.doubling.getElem hi'
  · intro info hinfo
    have hsize : info.size.toNat ∈ sizesOf m := by
      simp only [sizesOf, placesOf, List.map_map, List.mem_map]
      exact ⟨info, hinfo, rfl⟩
    have hmax := Nat.lt_of_lt_of_le (hm.below _ hsize) (Nat.pow_le_pow_right (by decide) hsmall)
    simp only [kGrowMultiplier, BitVec.toNat_mul, BitVec.toNat_ofNat]
    omega
  · apply updateSegmentTable_room
    rw [segmentsOf, List.length_map]
    simp only [kMaxSubSegments]
    omega

end bounds

/-- As `boundedEnv`, also for anonymous memory. -/
def userSpaceEnv : Env Arena :=
  { boundedEnv with
    createAnon := fun size =>
      if size < 0x800000000000 then roomyEnv.createAnon size else none }

theorem userSpaceEnv_mapsBelow : MapsBelow 47 userSpaceEnv := by
  have hsize : ∀ (size : Word) (mapping : Mapping),
      (if size < 0x800000000000 then roomyEnv.createAnon size else none) = some mapping →
      size ≠ 0 ∧ size.toNat < 2 ^ 47 := by
    intro size mapping h
    split at h
    · rename_i hlt
      refine ⟨?_, BitVec.lt_def.mp hlt⟩
      rintro rfl
      cases h
    · cases h
  exact ⟨hsize, hsize, fun size _ mapping h => hsize size mapping h⟩

/-- A manager of 1 MiB that an allocation and a background growth make grow. -/
theorem segment_sizes_double_twice : ∃ m : Manager Arena,
    m.segments.length = 3 ∧ ∀ (i : Nat) (h : i + 1 < m.segments.length),
      2 * m.segments[i].size.toNat ≤ m.segments[i + 1].size.toNat := by
  let schedule : List (Request Arena Nat) :=
    [.allocate userSpaceEnv 0x180000, .growBackground userSpaceEnv]
  let empty : Manager Arena := .empty true .blank fun _ => none
  have hcreate : ∃ m, (constructAnon fourKiBPages arena userSpaceEnv 0x100000).run empty =
      .value () m := ⟨_, rfl⟩
  obtain ⟨m₀, hm₀⟩ := hcreate
  have hex : ∃ m, Steps (serve fourKiBPages arena) (fun _ r => r.MapsBelow 47) m₀ m ∧
      decide (m.segments.length = 3) = true := by
    apply Steps.exists_of_replay_labels schedule
    · intro r hr _ env henv
      simp only [schedule, List.mem_cons, List.not_mem_nil, or_false] at hr
      rcases hr with rfl | rfl <;> exact Option.some.inj henv ▸ userSpaceEnv_mapsBelow
    · cases hm₀
      decide +kernel
  obtain ⟨m, hrun, hlength⟩ := hex
  have hsizes := segment_sizes_double (by decide) userSpaceEnv_mapsBelow (.anon hm₀) hrun
  exact ⟨m, of_decide_eq_true hlength, hsizes.2.1⟩

/-! ## 3. A growth that throws -/

section failures

variable {P : Platform} {I : InnerManager H N} {env env₁ : Env H} {m m' m₀ : Manager H}
  {bits : Nat} {minBytes : Word} {e : Exn}

theorem grow_thrown (hm : Ready m) (hroom : HasRoom m)
    (h : (grow P I env minBytes).run m = .thrown e m') : m' = m := by
  have hend : GrowthEnd P I env m minBytes _ ((grow P I env minBytes).run m) := grow_end hm
  rw [h] at hend
  cases hend with
  | failed => rfl
  | full mapping hmap hfull => exact absurd hroom hfull

/-- A growth that does not return early and whose calls succeed. -/
theorem grow_succeeds (hm : Ready m) (hroom : HasRoom m)
    (hshort : ¬ getFreeMemoryUnlocked I m.segments ≥ minBytes)
    (hmaps : mapsNewChunk P env m minBytes = true) :
    ∃ mapping table, (grow P I env minBytes).run m =
      .value () { grownBy P I m mapping (newChunk P m minBytes) with table := table } := by
  have hend : GrowthEnd P I env m minBytes _ ((grow P I env minBytes).run m) := grow_end hm
  generalize (grow P I env minBytes).run m = outcome at hend ⊢
  cases hend with
  | same henough => exact absurd henough hshort
  | failed e hfails =>
    rw [hmaps] at hfails
    cases hfails
  | grown mapping table => exact ⟨mapping, table, rfl⟩
  | full mapping hmap hfull => exact absurd hroom hfull

end failures

end Memnon
