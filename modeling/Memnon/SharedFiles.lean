import Memnon.SegmentSizes
import Memnon.ManagerSessions

/-!
# Processes on common files

Any number of managers, of one or of several processes, on memory of their own or
on files that they share. Each has its own list of sub-segments; of a file they
share the table and the memory in which the inner managers lie, so a manager that
constructs one at an offset replaces what the others have there. Who grows writes
the entry of the chunk that it has mapped itself, so the entries of every table
are large enough for their places, and so is every segment mapped from them.
-/

namespace Memnon.Shared

open Memnon.Lib Memnon.Sessions

variable {K F H N : Type}

/-! ## 1. The system -/

structure World (K F H : Type) where
  manager : K → Option (Manager H)
  /-- the segment tables of the files -/
  table : F → SegmentTable
  /-- the inner managers in the files, by the offset of their chunk -/
  inner : F → Word → H

/-- No manager, and files full of zeros. -/
def World.start [Inhabited H] : World K F H :=
  ⟨fun _ => none, fun _ => .blank, fun _ _ => default⟩

inductive Event (K H N : Type) where
  | constructAnon (k : K) (env : Env H) (registry : Word → Option Word) (initialSize : Word)
  | constructCreator (k : K) (env : Env H) (registry : Word → Option Word) (initialSize : Word)
  | openAllSegments (k : K) (env : Env H) (registry : Word → Option Word)
  | request (k : K) (r : Request H N)
  | discover (k : K) (env : Env H) (requiredFileOffset : Word)
  /-- other processes use the inner managers in the file of `k` -/
  | others (k : K) (smgr : SegInfo H → H)
  | destruct (k : K)

section system

variable [DecidableEq K] [DecidableEq F] (P : Platform) (I : InnerManager H N) (file : K → F)

/-- The segments with other inner managers. -/
def withInner (smgr : SegInfo H → H) (segments : List (SegInfo H)) : List (SegInfo H) :=
  segments.map fun info => { info with smgr := smgr info }

/-- A manager as it is now: the table and the inner managers of a SHM manager lie in its
    file. -/
def World.view (w : World K F H) (k : K) (m : Manager H) : Manager H :=
  { m with
    table := w.table (file k)
    segments := if m.anon then m.segments
      else withInner (fun info => w.inner (file k) info.fileOffset) m.segments }

/-- The memory of a file after its segments have been written. -/
def writeInner (inner : Word → H) (segments : List (SegInfo H)) : Word → H :=
  segments.foldl (fun inner info => Function.update inner info.fileOffset info.smgr) inner

def World.put (w : World K F H) (k : K) (m : Manager H) : World K F H where
  manager := Function.update w.manager k (some m)
  table := Function.update w.table (file k) m.table
  inner := if m.anon then w.inner
    else Function.update w.inner (file k) (writeInner (w.inner (file k)) m.segments)

/-- What a process that maps a chunk of the file finds in it. -/
def World.inFile (w : World K F H) (k : K) (env : Env H) : Env H :=
  { env with inPlace := fun range => w.inner (file k) range.fileOffset }

/-- A manager that a constructor makes; one that throws leaves none. -/
def World.construct (w : World K F H) (k : K) (anon : Bool) (registry : Word → Option Word)
    (constructor : Op H Unit) : Option (World K F H) :=
  match w.manager k with
  | some _ => none
  | none =>
      (returned (constructor.run (.empty anon (w.table (file k)) registry))).map (w.put file k)

def step (w : World K F H) : Event K H N → Option (World K F H)
  | .constructAnon k env registry initialSize =>
      w.construct file k true registry (Memnon.constructAnon P I env initialSize)
  | .constructCreator k env registry initialSize =>
      w.construct file k false registry (Memnon.constructCreator P I env initialSize)
  | .openAllSegments k env registry =>
      w.construct file k false registry (openAllSegmentsMapped P I (w.inFile file k env))
  | .request k r =>
      match w.manager k with
      | none => none
      | some m => (serve P I (w.view file k m) r).map (w.put file k)
  | .discover k env requiredFileOffset =>
      match w.manager k with
      | none => none
      | some m =>
          ((discoverGrowth P I (w.inFile file k env) requiredFileOffset).run
            (w.view file k m)).state.map (w.put file k)
  | .others k smgr =>
      match w.manager k with
      | none => none
      | some m =>
          if m.anon then none
          else
            let v := w.view file k m
            some (w.put file k { v with segments := withInner smgr v.segments })
  | .destruct k => some { w with manager := Function.update w.manager k none }

end system

/-- Where the event may map a chunk. -/
def Event.env : Event K H N → Option (Env H)
  | .constructAnon _ env _ _ | .constructCreator _ env _ _ | .openAllSegments _ env _
  | .discover _ env _ => some env
  | .request _ r => r.env
  | .others _ _ | .destruct _ => none

/-- Mappings are never empty and smaller than `2 ^ bits` bytes. -/
def Bounded (bits : Nat) (_ : World K F H) (e : Event K H N) : Prop :=
  ∀ env ∈ e.env, MapsBelow bits env

/-! ## 2. Large enough for its place -/

/-- The `i`-th size is at least `2 ^ (20 + i)`. -/
def Scaled (sizes : List Nat) : Prop := ∀ (i : Nat) (h : i < sizes.length), 2 ^ (20 + i) ≤ sizes[i]

theorem Scaled.concat {sizes : List Nat} {size : Nat} (h : Scaled sizes)
    (hsize : 2 ^ (20 + sizes.length) ≤ size) : Scaled (sizes ++ [size]) := by
  intro i hi
  by_cases hold : i < sizes.length
  · rw [List.getElem_append_left hold]
    exact h i hold
  · have hlast : i = sizes.length := by
      simp only [List.length_append, List.length_singleton] at hi
      omega
    subst hlast
    simpa using hsize

/-- Also of the entries behind `count`, as long as they are not zero. -/
def EntriesScaled (t : SegmentTable) : Prop :=
  ∀ i, (t.entries i).size ≠ 0 → 2 ^ (20 + i) ≤ (t.entries i).size.toNat

theorem entriesScaled_blank : EntriesScaled .blank := fun _ h => absurd rfl h

theorem EntriesScaled.update {t : SegmentTable} (h : EntriesScaled t) {k : Nat} {e : FileRange}
    (he : 2 ^ (20 + k) ≤ e.size.toNat) {t' : SegmentTable}
    (ht' : t'.entries = Function.update t.entries k e) : EntriesScaled t' := by
  intro i hi
  rw [ht'] at hi ⊢
  by_cases hik : i = k
  · subst hik
    rwa [Function.update_self]
  · rw [Function.update_of_ne hik] at hi ⊢
    exact h i hi

/-- The segments of a manager, and the table that it sees. -/
structure Sized (bits : Nat) (m : Manager H) : Prop where
  scaled : Scaled (sizesOf m)
  below : ∀ size ∈ sizesOf m, size < 2 ^ bits
  entries : EntriesScaled m.table

section members

variable {P : Platform} {I : InnerManager H N} {env : Env H} {m m' : Manager H} {bits : Nat}
  {table : SegmentTable} {registry : Word → Option Word}

/-- One segment more. -/
theorem Sized.append (h : Sized bits m) {size : Nat} (hsizes : sizesOf m' = sizesOf m ++ [size])
    (hscaled : 2 ^ (20 + m.segments.length) ≤ size) (hbelow : size < 2 ^ bits)
    (hentries : EntriesScaled m'.table) : Sized bits m' := by
  refine ⟨?_, ?_, hentries⟩
  · rw [hsizes]
    apply h.scaled.concat
    rwa [length_sizesOf]
  · intro s hs
    rw [hsizes] at hs
    rcases List.mem_append.mp hs with hs | hs
    · exact h.below s hs
    · obtain rfl := List.mem_singleton.mp hs
      exact hbelow

theorem sized_single {size : Nat} (hsizes : sizesOf m = [size]) (hmin : 2 ^ 20 ≤ size)
    (hbelow : size < 2 ^ bits) (hentries : EntriesScaled m.table) : Sized bits m := by
  refine ⟨?_, ?_, hentries⟩
  · intro i hi
    simp only [hsizes, List.length_singleton, Nat.lt_one_iff] at hi ⊢
    subst hi
    exact hmin
  · intro s hs
    rw [hsizes] at hs
    obtain rfl := List.mem_singleton.mp hs
    exact hbelow

theorem Sized.length_le (h : Sized bits m) : m.segments.length ≤ bits - 20 := by
  by_contra hlong
  have hlast : m.segments.length - 1 < (sizesOf m).length := by
    rw [length_sizesOf]
    omega
  have hlow := h.scaled _ hlast
  have hhigh := h.below _ (List.getElem_mem hlast)
  have hlt := (Nat.pow_lt_pow_iff_right (by decide)).mp (Nat.lt_of_le_of_lt hlow hhigh)
  omega

theorem Sized.hasRoom (h : Sized bits m) (hbits : bits ≤ 63) : HasRoom m := by
  have hlength := h.length_le
  right
  simp only [kMaxSubSegments]
  omega

theorem Sized.last (h : Sized bits m) {last : SegInfo H} (hlast : last ∈ m.segments.getLast?) :
    last.size.toNat < 2 ^ bits ∧ 2 ^ (19 + m.segments.length) ≤ last.size.toNat := by
  obtain ⟨pre, hs⟩ := List.getLast?_eq_some_iff.mp hlast
  have hsizes : sizesOf m = pre.map (fun info => info.size.toNat) ++ [last.size.toNat] := by
    simp [sizesOf, placesOf, SegInfo.place, hs, Function.comp_def]
  have hlow := h.scaled pre.length (by rw [length_sizesOf, hs]; simp)
  have hlength : 19 + m.segments.length = 20 + pre.length := by
    rw [hs, List.length_append, List.length_singleton]
    omega
  constructor
  · apply h.below
    rw [hsizes]
    simp
  · rw [hlength]
    simpa [hsizes] using hlow

/-- The sum of sizes is exact. -/
theorem Sized.getSize_toNat (h : Sized bits m) (hbits : bits ≤ 58) :
    (getSizeUnlocked (fileRanges m.segments)).toNat = span (extents (fileRanges m.segments)) := by
  have hspan : span (extents (fileRanges m.segments)) ≤ m.segments.length * 2 ^ bits := by
    have hle : ∀ e ∈ extents (fileRanges m.segments), e.len ≤ 2 ^ bits := by
      intro e he
      obtain ⟨r, hr, rfl⟩ := List.mem_map.mp he
      obtain ⟨info, hinfo, rfl⟩ := List.mem_map.mp hr
      apply Nat.le_of_lt
      apply h.below
      simp only [sizesOf, placesOf, List.map_map, List.mem_map]
      exact ⟨info, hinfo, rfl⟩
    simpa [extents, fileRanges] using span_le_of_forall_le hle
  have hlength : m.segments.length < 2 ^ 6 := Nat.lt_of_le_of_lt h.length_le (by omega)
  apply getSizeUnlocked_toNat
  calc span (extents (fileRanges m.segments)) ≤ m.segments.length * 2 ^ bits := hspan
    _ ≤ m.segments.length * 2 ^ 58 :=
        Nat.mul_le_mul_left _ (Nat.pow_le_pow_right (by decide) hbits)
    _ < 2 ^ 64 := by omega

/-- A chunk that could be mapped is large enough for its place. -/
theorem Sized.chunk_scaled (h : Sized bits m) (hready : Ready m) (hbits : bits ≤ 63)
    {minBytes : Word}
    (hpos : (newChunk P m minBytes).size ≠ 0) :
    2 ^ (20 + m.segments.length) ≤ (newChunk P m minBytes).size.toNat := by
  obtain ⟨last, hlast⟩ := hready.exists_last
  obtain ⟨hhigh, hlow⟩ := h.last hlast
  have hmax : last.size.toNat < 2 ^ 63 :=
    Nat.lt_of_lt_of_le hhigh (Nat.pow_le_pow_right (by decide) hbits)
  calc 2 ^ (20 + m.segments.length) = 2 * 2 ^ (19 + m.segments.length) := by
        rw [← Nat.pow_succ']
        congr 1
        omega
    _ ≤ 2 * last.size.toNat := Nat.mul_le_mul_left 2 hlow
    _ ≤ (newChunk P m minBytes).size.toNat := newChunk_ge hlast hmax hpos

/-- The chunk that a request may publish is large enough for its entry. -/
theorem Sized.republished (h : Sized bits m) (hready : Ready m) {chunk : FileRange}
    (hchunk : 2 ^ (20 + m.segments.length) ≤ chunk.size.toNat) {table : SegmentTable}
    (htable : Republished m chunk table) : EntriesScaled table := by
  rcases htable with rfl | hup
  · exact h.entries
  · have hfront : ∃ s0 rest, segmentsOf m = s0 :: rest ∧ s0.isPrimary = true := by
      obtain ⟨s0, rest, hs, hprim⟩ := hready.segments
      exact ⟨s0.toSegment, _, by rw [segmentsOf, hs]; rfl, hprim⟩
    rw [updateSegmentTable_concat hfront] at hup
    split at hup
    · cases hup
    · obtain rfl := Option.some.inj hup
      apply h.entries.update (k := (segmentsOf m).length) (e := chunk) _ rfl
      rwa [segmentsOf, List.length_map]

theorem Sized.same (h : Sized bits m) (hsame : SameSegments m m') : Sized bits m' := by
  have hsizes : sizesOf m' = sizesOf m := by rw [sizesOf, sizesOf, hsame.places]
  exact ⟨hsizes ▸ h.scaled, hsizes ▸ h.below, hsame.table ▸ h.entries⟩

theorem Sized.serve (h : Sized bits m) (hready : Ready m) (hbits : bits ≤ 63) {r : Request H N}
    (hr : r.MapsBelow bits) (hs : serve P I m r = some m') : Sized bits m' := by
  cases serve_grows hready hs with
  | same hsame => exact h.same hsame
  | chunk e minBytes mapping he hmap hplaces hanon htable hregistry =>
    obtain ⟨hpos, hmax⟩ := (hr e he).mapChunk hmap
    have hchunk := h.chunk_scaled hready hbits hpos
    exact h.append (sizesOf_append hplaces) hchunk hmax (h.republished hready hchunk htable)

/-- What `open_all_segments` and `lazy_discover_growth` map of a table. -/
theorem Sized.discoverLoop (henv : MapsBelow bits env) {entries : List FileRange}
    (h : Sized bits m) (hentries : ∀ (j : Nat) (hj : j < entries.length), entries[j].size ≠ 0 →
      2 ^ (20 + (m.segments.length + j)) ≤ entries[j].size.toNat)
    (hends : m' ∈ ((discoverLoop P I env entries).run m).state) : Sized bits m' := by
  induction entries generalizing m with
  | nil =>
    cases hends
    exact h
  | cons e rest ih =>
    cases hmap : env.openShmChunk e.size e.fileOffset with
    | none =>
      rw [discoverLoop_fails hmap] at hends
      cases hends
      exact h
    | some mapping =>
      obtain ⟨hpos, hmax⟩ := henv.openShmChunk _ _ _ hmap
      let m₁ : Manager H := withChunk P m mapping e (env.inPlace e)
      have hsizes : sizesOf m₁ = sizesOf m ++ [e.size.toNat] := by
        simp [m₁, withChunk, sizesOf, placesOf, SegInfo.place]
      have hm₁ : Sized bits m₁ := by
        apply h.append hsizes _ hmax h.entries
        simpa using hentries 0 (Nat.succ_pos _) hpos
      rw [discoverLoop_maps hmap] at hends
      apply ih hm₁ _ hends
      intro j hj hne
      have hlength : m₁.segments.length + j = m.segments.length + (j + 1) := by
        simp only [m₁, withChunk, List.length_append, List.length_singleton]
        omega
      rw [hlength]
      exact hentries (j + 1) (Nat.succ_lt_succ hj) hne

/-- The entries behind the mapped segments are large enough for their places. -/
theorem EntriesScaled.missing (h : EntriesScaled table) (n : Nat) (j : Nat)
    (hj : j < (table.published.drop n).length) (hne : (table.published.drop n)[j].size ≠ 0) :
    2 ^ (20 + (n + j)) ≤ (table.published.drop n)[j].size.toNat := by
  have hentry : (table.published.drop n)[j] = table.entries (n + j) := by
    rw [List.getElem_drop, table.published_getElem]
  rw [hentry] at hne ⊢
  exact h (n + j) hne

theorem Sized.discoverGrowth (henv : MapsBelow bits env) (h : Sized bits m) {required : Word}
    (hends : m' ∈ ((discoverGrowth P I env required).run m).state) : Sized bits m' := by
  rw [Memnon.discoverGrowth, Call.run_read_bind] at hends
  split at hends
  · cases hends
    exact h
  · obtain ⟨m₁, hbody, rfl⟩ := Call.guarded_ends hends
    rw [Call.run_read_bind] at hbody
    have hloop : m₁ ∈ ((Memnon.discoverLoop P I env
        (((lazyDiscoverGrowth m.table (segmentsOf m) required).1.drop (segmentsOf m).length).map
          Segment.toFileRange)).run ((listMtx H).setHeld true m)).state := by
      rw [segmentsOf, List.length_map, ← Call.state_bind_pure]
      exact hbody
    have hlength : (segmentsOf m).length = m.segments.length := List.length_map _
    rw [discovered_entries, hlength] at hloop
    have hlocked : Sized bits ((listMtx H).setHeld true m) := ⟨h.scaled, h.below, h.entries⟩
    have hm₁ : Sized bits m₁ := by
      apply hlocked.discoverLoop henv _ hloop
      split
      · intro r hr
        cases hr
      · exact h.entries.missing m.segments.length
    exact ⟨hm₁.scaled, hm₁.below, hm₁.entries⟩

theorem openPrimary_below (henv : MapsBelow bits env) {seg0 : Mapping × Word}
    (h : (openPrimary P env).run m = .value seg0 m') :
    2 ^ 20 ≤ seg0.2.toNat ∧ seg0.2.toNat < 2 ^ bits ∧ SameList m m' := by
  obtain ⟨hmap, hsize, hsame⟩ := openPrimary_maps h
  refine ⟨?_, (henv.openShmChunk _ _ _ hmap).2, hsame⟩
  rw [hsize, umax_toNat]
  exact Nat.le_max_right _ _

/-- A manager between two of its operations. -/
structure Member (bits : Nat) (m : Manager H) : Prop where
  ready : Ready m
  sized : Sized bits m

theorem constructAnon_member (henv : MapsBelow bits env) (htable : EntriesScaled table)
    {initialSize : Word}
    (h : (constructAnon P I env initialSize).run (.empty true table registry) = .value () m) :
    Member bits m := by
  have hcreate : CreatedIn P I env m := .anon h
  obtain ⟨size, hsizes, hmin, hmax⟩ := hcreate.sizes henv
  refine ⟨ready_started (.created hcreate.created), sized_single hsizes hmin hmax ?_⟩
  rw [constructAnon] at h
  split at h
  · cases h
  · cases h
    exact htable

theorem constructCreator_member (henv : MapsBelow bits env) (htable : EntriesScaled table)
    {initialSize : Word}
    (h : (constructCreator P I env initialSize).run (.empty false table registry) = .value () m) :
    Member bits m := by
  have hcreate : CreatedIn P I env m := .creator h
  obtain ⟨size, hsizes, hmin, hmax⟩ := hcreate.sizes henv
  refine ⟨ready_started (.created hcreate.created), sized_single hsizes hmin hmax ?_⟩
  rw [constructCreator, addSegmentShm] at h
  simp only [if_true] at h
  split at h
  · cases h
  · cases h
    have hsize : umax initialSize kMinSegmentSize = size :=
      BitVec.eq_of_toNat_eq (List.singleton_injective hsizes)
    rw [← hsize] at hmin
    exact htable.update (k := 0) (e := ⟨0, umax initialSize kMinSegmentSize⟩) hmin rfl

theorem openAllSegments_member (henv : MapsBelow bits env) (htable : EntriesScaled table)
    (h : (openAllSegmentsMapped P I env).run (.empty false table registry) = .value () m) :
    Member bits m := by
  obtain ⟨seg0, m₁, hprimary, hloop⟩ := Call.run_bind_eq_value h
  obtain ⟨hmin, hmax, registry', rfl⟩ := openPrimary_below henv hprimary
  rw [pushPrimary, Call.run_modify_bind, Call.run_read_bind] at hloop
  have hends := congrArg Outcome.state hloop
  constructor
  · exact discoverLoop_keeps _ ⟨rfl, rfl, _, _, rfl, rfl⟩ m hends
  · apply Sized.discoverLoop henv (sized_single rfl hmin hmax htable) _ hends
    exact htable.missing 1

theorem Member.serve (h : Member bits m) (hbits : bits ≤ 63) {r : Request H N}
    (hr : r.MapsBelow bits) (hs : serve P I m r = some m') : Member bits m' :=
  ⟨ready_serve h.ready hs, h.sized.serve h.ready hbits hr hs⟩

/-- The inner managers and the table may be others. -/
theorem Member.of_places (h : Member bits m) (hplaces : placesOf m' = placesOf m)
    (hlist : m'.listHeld = m.listHeld) (hgrow : m'.growHeld = m.growHeld)
    (hentries : EntriesScaled m'.table) : Member bits m' := by
  have hsizes : sizesOf m' = sizesOf m := by rw [sizesOf, sizesOf, hplaces]
  refine ⟨⟨hlist.trans h.ready.list, hgrow.trans h.ready.grow, ?_⟩, hsizes ▸ h.sized.scaled,
    hsizes ▸ h.sized.below, hentries⟩
  obtain ⟨s0, rest, hs, hprim⟩ := h.ready.segments
  rw [placesOf, placesOf, hs, List.map_cons] at hplaces
  obtain ⟨s0', rest', hs', hplace, -⟩ := List.map_eq_cons_iff.mp hplaces
  refine ⟨s0', rest', hs', ?_⟩
  exact (congrArg (fun info => info.isPrimary) hplace).trans hprim

theorem placesOf_withInner (smgr : SegInfo H → H) (segments : List (SegInfo H)) :
    (withInner smgr segments).map SegInfo.place = segments.map SegInfo.place := by
  simp [withInner, SegInfo.place]

theorem discoverGrowth_keeps {required : Word} :
    KeepsSegments FrontPrimary (discoverGrowth P I env required) := by
  apply KeepsSegments.read_bind
  intro m _
  split
  · exact .pure
  · apply KeepsSegments.list
    apply KeepsSegments.read_bind
    intro m _
    exact .bind (fun _ _ => discoverLoop_keeps) fun _ => .pure

theorem Member.discoverGrowth (h : Member bits m) (henv : MapsBelow bits env) {required : Word}
    (hends : m' ∈ ((discoverGrowth P I env required).run m).state) : Member bits m' :=
  ⟨discoverGrowth_keeps _ _ m h.ready m' hends, h.sized.discoverGrowth henv hends⟩

end members

/-! ## 3. Every manager of every process -/

structure Inv [DecidableEq K] [DecidableEq F] (file : K → F) (bits : Nat) (w : World K F H) :
    Prop where
  entries : ∀ f, EntriesScaled (w.table f)
  member : ∀ k m, w.manager k = some m → Member bits (w.view file k m)

section worlds

variable [DecidableEq K] [DecidableEq F] {P : Platform} {I : InnerManager H N} {file : K → F}
  {w w' : World K F H} {bits : Nat} {k : K} {m : Manager H}

omit [DecidableEq K] [DecidableEq F] in
theorem mapsBelow_inFile {env : Env H} (h : MapsBelow bits env) :
    MapsBelow bits (w.inFile file k env) :=
  ⟨h.createAnon, h.createShm, h.openShmChunk⟩

omit [DecidableEq K] [DecidableEq F] in
@[simp] theorem World.placesOf_view (w : World K F H) (k : K) (m : Manager H) :
    placesOf (w.view file k m) = placesOf m := by
  cases hanon : m.anon with
  | true => simp [placesOf, World.view, hanon]
  | false => simp [placesOf, World.view, hanon, placesOf_withInner]

omit [DecidableEq K] [DecidableEq F] in
theorem Member.view {v : World K F H} (h : Member bits (v.view file k m))
    (hentries : EntriesScaled (w.table (file k))) : Member bits (w.view file k m) :=
  h.of_places (by simp) rfl rfl hentries

omit [DecidableEq K] [DecidableEq F] in
theorem Member.view_self (h : Member bits m) (hentries : EntriesScaled (w.table (file k))) :
    Member bits (w.view file k m) :=
  h.of_places (by simp) rfl rfl hentries

theorem inv_start [Inhabited H] : Inv file bits (.start : World K F H) :=
  ⟨fun _ => entriesScaled_blank, nofun⟩

/-- What one manager does: the files of the others may change too. -/
theorem Inv.put (h : Inv file bits w) (hm : Member bits m) : Inv file bits (w.put file k m) := by
  have hentries : ∀ f, EntriesScaled ((w.put file k m).table f) := by
    intro f
    show EntriesScaled (Function.update w.table (file k) m.table f)
    by_cases hf : f = file k
    · subst hf
      rw [Function.update_self]
      exact hm.sized.entries
    · rw [Function.update_of_ne hf]
      exact h.entries f
  refine ⟨hentries, fun k' m' hm' => ?_⟩
  change Function.update w.manager k (some m) k' = some m' at hm'
  by_cases hk : k' = k
  · subst hk
    rw [Function.update_self] at hm'
    obtain rfl := Option.some.inj hm'
    exact hm.view_self (w := w.put file k' m) (hentries _)
  · rw [Function.update_of_ne hk] at hm'
    exact (h.member k' m' hm').view (w := w.put file k m) (hentries _)

theorem Inv.construct (h : Inv file bits w) {anon : Bool} {registry : Word → Option Word}
    {constructor : Op H Unit}
    (hmember : ∀ m, constructor.run (.empty anon (w.table (file k)) registry) = .value () m →
      Member bits m)
    (hs : w.construct file k anon registry constructor = some w') : Inv file bits w' := by
  rw [World.construct] at hs
  split at hs
  · cases hs
  · obtain ⟨m, hm, rfl⟩ := Option.map_eq_some_iff.mp hs
    obtain ⟨u, hrun⟩ := returned_eq_some hm
    exact h.put (hmember m hrun)

theorem Inv.step (h : Inv file bits w) (hbits : bits ≤ 63) {e : Event K H N}
    (he : Bounded bits w e) (hs : step P I file w e = some w') : Inv file bits w' := by
  cases e with
  | constructAnon k env registry initialSize =>
    exact h.construct (fun m => constructAnon_member (he env rfl) (h.entries _)) hs
  | constructCreator k env registry initialSize =>
    exact h.construct (fun m => constructCreator_member (he env rfl) (h.entries _)) hs
  | openAllSegments k env registry =>
    exact h.construct
      (fun m => openAllSegments_member (mapsBelow_inFile (he env rfl)) (h.entries _)) hs
  | request k r =>
    simp only [Shared.step] at hs
    split at hs
    · cases hs
    · rename_i m hm
      obtain ⟨m', hm', rfl⟩ := Option.map_eq_some_iff.mp hs
      exact h.put ((h.member k m hm).serve hbits he hm')
  | discover k env requiredFileOffset =>
    simp only [Shared.step] at hs
    split at hs
    · cases hs
    · rename_i m hm
      obtain ⟨m', hm', rfl⟩ := Option.map_eq_some_iff.mp hs
      exact h.put ((h.member k m hm).discoverGrowth (mapsBelow_inFile (he env rfl)) hm')
  | others k smgr =>
    simp only [Shared.step] at hs
    split at hs
    · cases hs
    · rename_i m hm
      split at hs
      · cases hs
      · cases hs
        have hv := h.member k m hm
        exact h.put (hv.of_places (placesOf_withInner _ _) rfl rfl hv.sized.entries)
  | destruct k =>
    cases hs
    refine ⟨h.entries, fun k' m' hm' => ?_⟩
    change Function.update w.manager k none k' = some m' at hm'
    by_cases hk : k' = k
    · rw [hk, Function.update_self] at hm'
      cases hm'
    · rw [Function.update_of_ne hk] at hm'
      exact h.member k' m' hm'

theorem inv_of_steps [Inhabited H] (hbits : bits ≤ 63)
    (hrun : Steps (Shared.step P I file) (Bounded bits) .start w) : Inv file bits w :=
  hrun.invariant (Inv file bits) inv_start fun _ _ _ h he hs => h.step hbits he hs

end worlds

end Memnon.Shared
