import Memnon.ExplicitGrowth

/-!
# Draining the queue of hints

`hint_growth` keeps a manager out of the queue only when it is the last one in it,
so the queue may name a manager any number of times. `grow_background` looks at
the last segment again each time, and a fresh chunk is at least half free. So the
repeated hints of a manager make one chunk. Managers on one file must not meet in
it, though: one that has missed the growth of another constructs its chunk over the
other's last segment, which then looks fresh to the other's hint.
-/

namespace Memnon.Shared

open Memnon.Lib Memnon.Sessions

variable {K F H N : Type}

/-- Less than half of the last segment is free. -/
def LastLow (I : InnerManager H N) (m : Manager H) : Prop :=
  ∃ last ∈ m.segments.getLast?, I.getFreeMemory last.smgr < last.size / 2

/-- A fresh inner manager on a chunk of at least `kMinSegmentSize` bytes has half of
    it free. -/
def FreshHalfFree (I : InnerManager H N) : Prop :=
  ∀ size : Word, kMinSegmentSize ≤ size → size / 2 ≤ I.getFreeMemory (I.create size)

instance (I : InnerManager H N) (m : Manager H) : Decidable (LastLow I m) :=
  inferInstanceAs (Decidable (∃ last ∈ m.segments.getLast?, _))

/-! ## 1. The worker -/

section worker

variable [DecidableEq K] [DecidableEq F] (P : Platform) (I : InnerManager H N) (file : K → F)

/-- `worker_loop` takes one hint; its `grow_background` must not throw. -/
def serveHint (w : World K F H) (hint : K × Env H) : Option (World K F H) :=
  match w.manager hint.1 with
  | none => none
  | some m =>
      (returned ((growBackground P I hint.2).run (w.view file hint.1 m))).map (w.put file hint.1)

/-- `worker_loop` until the queue is empty. -/
def drain (w : World K F H) : List (K × Env H) → Option (World K F H)
  | [] => some w
  | hint :: rest =>
      match serveHint P I file w hint with
      | some w' => drain w' rest
      | none => none

/-- Each chunk that is asked for on the way is mapped. -/
def CallsSucceed (w : World K F H) : List (K × Env H) → Prop
  | [] => True
  | hint :: rest =>
      (∀ m ∈ w.manager hint.1, LastLow I (w.view file hint.1 m) →
        mapsNewChunk P hint.2 (w.view file hint.1 m) kMinSegmentSize = true) ∧
      ∀ w' ∈ serveHint P I file w hint, CallsSucceed w' rest

instance decidableCallsSucceed : (w : World K F H) → (queue : List (K × Env H)) →
    Decidable (CallsSucceed P I file w queue)
  | _, [] => .isTrue trivial
  | w, hint :: rest =>
      have := fun w' => decidableCallsSucceed w' rest
      inferInstanceAs (Decidable ((∀ m ∈ w.manager hint.1, _) ∧
        ∀ w' ∈ serveHint P I file w hint, CallsSucceed P I file w' rest))

end worker

def Hinted (queue : List (K × Env H)) (k : K) : Prop := ∃ hint ∈ queue, hint.1 = k

/-- The chunk that `m` adds in the background does not begin where the last segment of
    `m'` does; where `m'` adds one as well and at the same place, it adds the same. -/
structure Spares (P : Platform) (I : InnerManager H N) (m m' : Manager H) : Prop where
  last : ∀ last ∈ m'.segments.getLast?,
    last.fileOffset ≠ (newChunk P m kMinSegmentSize).fileOffset
  next : LastLow I m' →
    (newChunk P m' kMinSegmentSize).fileOffset = (newChunk P m kMinSegmentSize).fileOffset →
    newChunk P m' kMinSegmentSize = newChunk P m kMinSegmentSize

/-- Each hinted manager that is about to grow spares the other ones on its file. -/
def Apart (P : Platform) (I : InnerManager H N) (file : K → F) (w : World K F H)
    (queue : List (K × Env H)) : Prop :=
  ∀ k k', Hinted queue k → Hinted queue k' → k ≠ k' → file k = file k' →
    ∀ m m', w.manager k = some m → w.manager k' = some m' → m.anon = false → m'.anon = false →
      LastLow I (w.view file k m) → Spares P I (w.view file k m) (w.view file k' m')

/-! ## 2. One growth in the background -/

section background

variable {P : Platform} {I : InnerManager H N} {env : Env H} {m m' : Manager H} {bits : Nat}

theorem newChunk_of_places (hplaces : placesOf m' = placesOf m) (hanon : m'.anon = m.anon)
    (minBytes : Word) : newChunk P m' minBytes = newChunk P m minBytes := by
  simp only [newChunk, fileRanges_eq, segmentsOf_eq, hplaces, hanon]

/-- A manager that ends with a fresh chunk. -/
theorem not_lastLow_of_fresh (hfresh : FreshHalfFree I) {ns : SegInfo H}
    {segments : List (SegInfo H)} (hsegs : m.segments = segments ++ [ns])
    (hsmgr : ns.smgr = I.create ns.size) (hmin : kMinSegmentSize ≤ ns.size) : ¬ LastLow I m := by
  rintro ⟨last, hlast, hlow⟩
  rw [hsegs, List.getLast?_concat] at hlast
  obtain rfl : ns = last := Option.some.inj hlast
  rw [hsmgr] at hlow
  exact absurd (hfresh _ hmin) (BitVec.not_le.mpr hlow)

/-- A manager with one chunk more, which is at least as large as it must be. -/
structure GrownBy (P : Platform) (I : InnerManager H N) (m m' : Manager H) (ns : SegInfo H) :
    Prop where
  segments : m'.segments = m.segments ++ [ns]
  anon : m'.anon = m.anon
  range : ns.toFileRange = newChunk P m kMinSegmentSize
  fresh : ns.smgr = I.create ns.size
  large : kMinSegmentSize ≤ ns.size

/-- What one hint does to its manager: one fresh chunk when the last segment is low. -/
theorem Member.background (h : Member bits m) (hbits : bits ≤ 63) (henv : MapsBelow bits env)
    (hmaps : LastLow I m → mapsNewChunk P env m kMinSegmentSize = true) :
    (¬ LastLow I m ∧ (growBackground P I env).run m = .value () m) ∨
      LastLow I m ∧ ∃ m' ns, (growBackground P I env).run m = .value () m' ∧
        GrownBy P I m m' ns := by
  obtain ⟨last, hlast⟩ := h.ready.exists_last
  by_cases hlow : LastLow I m
  · right
    refine ⟨hlow, ?_⟩
    obtain ⟨last', hlast', hlt⟩ := hlow
    have hend : GrowthEnd P I env m kMinSegmentSize _ ((growBackground P I env).run m) :=
      growBackground_end h.ready
    have hmapped := hmaps ⟨last', hlast', hlt⟩
    generalize (growBackground P I env).run m = outcome at hend ⊢
    cases hend with
    | same hquiet =>
      rcases hquiet with ⟨last'', hlast'', henough⟩ | hrefused
      · obtain rfl : last' = last'' := Option.some.inj (hlast'.symm.trans hlast'')
        exact absurd henough (BitVec.not_le.mpr hlt)
      · rw [hmapped] at hrefused
        cases hrefused
    | failed e hrefused =>
      rw [hmapped] at hrefused
      cases hrefused
    | full mapping hmap hfull => exact absurd (h.sized.hasRoom hbits) hfull
    | grown mapping table hmap hroom htable =>
      refine ⟨_, _, rfl, rfl, rfl, rfl, ?_, ?_⟩
      · show I.create (smgrSize I _ false) = I.create _
        simp [smgrSize]
      · exact BitVec.le_def.mpr (newChunk_covers (henv.mapChunk hmap).1)
  · left
    have henough : I.getFreeMemory last.smgr ≥ last.size / 2 := by
      apply BitVec.not_lt.mp
      intro hlt
      exact hlow ⟨last, hlast, hlt⟩
    exact ⟨hlow, background_enough h.ready hlast henough⟩

end background

/-! ## 3. What a growth does to the other managers -/

section files

variable [DecidableEq K] [DecidableEq F] {P : Platform} {I : InnerManager H N} {file : K → F}
  {env : Env H} {w w' : World K F H} {k : K} {m m' : Manager H} {bits : Nat}

theorem getLast?_withInner (smgr : SegInfo H → H) (segments : List (SegInfo H)) :
    (withInner smgr segments).getLast? =
      segments.getLast?.map fun info => { info with smgr := smgr info } := by
  rw [withInner, List.getLast?_map]

omit [DecidableEq K] [DecidableEq F] in
theorem view_shm (hanon : m.anon = false) : (w.view file k m).segments =
    withInner (fun info => w.inner (file k) info.fileOffset) m.segments := by
  simp [World.view, hanon]

omit [DecidableEq K] [DecidableEq F] in
/-- A SHM manager is low or not by the inner manager that lies at its last segment. -/
theorem lastLow_view_shm (hanon : m.anon = false) {last : SegInfo H}
    (hlast : last ∈ m.segments.getLast?) : LastLow I (w.view file k m) ↔
      I.getFreeMemory (w.inner (file k) last.fileOffset) < last.size / 2 := by
  have heq : m.segments.getLast? = some last := hlast
  rw [LastLow, view_shm hanon, getLast?_withInner, heq]
  simp

omit [DecidableEq K] [DecidableEq F] in
theorem lastLow_view_congr (hlast : m.anon = false → ∀ last ∈ m.segments.getLast?,
    w'.inner (file k) last.fileOffset = w.inner (file k) last.fileOffset) :
    LastLow I (w'.view file k m) ↔ LastLow I (w.view file k m) := by
  cases hanon : m.anon with
  | true => simp [LastLow, World.view, hanon]
  | false =>
    cases hm : m.segments.getLast? with
    | none => simp [LastLow, view_shm hanon, getLast?_withInner, hm]
    | some last =>
      rw [lastLow_view_shm hanon hm, lastLow_view_shm hanon hm, hlast hanon last hm]

/-- Segments as they lie in the file change nothing when they are written. -/
theorem writeInner_same {inner : Word → H} {segments : List (SegInfo H)}
    (hsame : ∀ info ∈ segments, info.smgr = inner info.fileOffset) :
    writeInner inner segments = inner := by
  induction segments with
  | nil => rfl
  | cons info rest ih =>
    obtain ⟨hinfo, hrest⟩ := List.forall_mem_cons.mp hsame
    rw [writeInner, List.foldl_cons, hinfo, Function.update_eq_self]
    exact ih hrest

omit [DecidableEq K] [DecidableEq F] in
theorem view_lies_in_file (hanon : m.anon = false) :
    ∀ info ∈ (w.view file k m).segments, info.smgr = w.inner (file k) info.fileOffset := by
  rw [view_shm hanon]
  intro info hinfo
  obtain ⟨info', -, rfl⟩ := List.mem_map.mp hinfo
  rfl

/-- Putting a manager back as it was. -/
theorem put_view_inner : (w.put file k (w.view file k m)).inner = w.inner := by
  cases hanon : m.anon with
  | true => simp [World.put, World.view, hanon]
  | false =>
    have hview : (w.view file k m).anon = false := hanon
    simp [World.put, hview, writeInner_same (view_lies_in_file hanon)]

/-- A growth changes the file at one place. -/
theorem put_grown_inner {ns : SegInfo H} (h : GrownBy P I (w.view file k m) m' ns)
    (hanon : m.anon = false) (offset : Word) :
    (w.put file k m').inner (file k) offset =
      if offset = ns.fileOffset then I.create ns.size else w.inner (file k) offset := by
  have hm' : m'.anon = false := h.anon.trans hanon
  have hwritten : writeInner (w.inner (file k)) (w.view file k m).segments = w.inner (file k) :=
    writeInner_same (view_lies_in_file hanon)
  rw [writeInner] at hwritten
  simp [World.put, hm', writeInner, h.segments, hwritten, Function.update_apply, h.fresh]

theorem put_inner_of_ne {f : F} (hf : f ≠ file k ∨ m.anon = true) :
    (w.put file k m).inner f = w.inner f := by
  cases hanon : m.anon with
  | true => simp [World.put, hanon]
  | false =>
    rcases hf with hf | hf
    · simp [World.put, hanon, Function.update_of_ne hf]
    · rw [hanon] at hf
      cases hf

end files

/-! ## 4. The state of the draining -/

/-- As before, as far as the segments go and whether the last one is low. -/
structure Untouched (I : InnerManager H N) (m m' : Manager H) : Prop where
  places : placesOf m' = placesOf m
  low : LastLow I m' ↔ LastLow I m

/-- With the chunk that the manager was low for. -/
structure Relieved (P : Platform) (I : InnerManager H N) (m m' : Manager H) : Prop where
  places : ∃ place, placesOf m' = placesOf m ++ [place] ∧
    place.toFileRange = newChunk P m kMinSegmentSize
  free : ¬ LastLow I m'

/-- What draining has made of one manager; `served` says whether its hint has been taken. -/
structure Drained (P : Platform) (I : InnerManager H N) (served : Prop) (m m' : Manager H) :
    Prop where
  anon : m'.anon = m.anon
  relieved : served → LastLow I m → Relieved P I m m'
  untouched : ¬ (served ∧ LastLow I m) → Untouched I m m'

section members

variable {P : Platform} {I : InnerManager H N} {m m' m₁ : Manager H} {served : Prop}

theorem Drained.start (m : Manager H) : Drained P I False m m :=
  ⟨rfl, nofun, fun _ => ⟨rfl, .rfl⟩⟩

/-- A hint for a manager that is not low. -/
theorem Drained.again (h : Drained P I served m m') (hfree : ¬ LastLow I m') :
    Drained P I True m m' := by
  refine ⟨h.anon, fun _ hlow => ?_, fun hnot => h.untouched fun hboth => hnot ⟨trivial, hboth.2⟩⟩
  by_cases hserved : served
  · exact h.relieved hserved hlow
  · exact absurd ((h.untouched fun hboth => hserved hboth.1).low.mpr hlow) hfree

/-- A low manager has not been served, or was not low. -/
theorem Drained.first (h : Drained P I served m m') (hlow : LastLow I m') : Untouched I m m' :=
  h.untouched fun hboth => (h.relieved hboth.1 hboth.2).free hlow

/-- The hint that a manager is low for. -/
theorem Drained.grow (h : Drained P I served m m') (hlow : LastLow I m') {ns : SegInfo H}
    (hplaces : placesOf m₁ = placesOf m' ++ [ns.place]) (hanon : m₁.anon = m'.anon)
    (hrange : ns.toFileRange = newChunk P m' kMinSegmentSize) (hfree : ¬ LastLow I m₁) :
    Drained P I True m m₁ := by
  have hsame := h.first hlow
  refine ⟨hanon.trans h.anon, fun _ _ => ⟨⟨ns.place, ?_, ?_⟩, hfree⟩,
    fun hnot => absurd ⟨trivial, hsame.low.mp hlow⟩ hnot⟩
  · rw [hplaces, hsame.places]
  · exact hrange.trans (newChunk_of_places hsame.places h.anon _)

theorem last_of_places (hplaces : placesOf m' = placesOf m) {last : SegInfo H}
    (hlast : last ∈ m'.segments.getLast?) :
    ∃ last₀ ∈ m.segments.getLast?, last₀.fileOffset = last.fileOffset := by
  have hmap := congrArg List.getLast? hplaces
  rw [placesOf, placesOf, List.getLast?_map, List.getLast?_map, hlast] at hmap
  obtain ⟨last₀, hlast₀, hplace⟩ := Option.map_eq_some_iff.mp hmap.symm
  exact ⟨last₀, hlast₀, congrArg (fun place => place.fileOffset) hplace⟩

theorem last_of_concat {places : List (SegInfo Unit)} {place : SegInfo Unit}
    (hplaces : placesOf m = places ++ [place]) :
    ∃ last ∈ m.segments.getLast?, last.toFileRange = place.toFileRange := by
  have hmap := congrArg List.getLast? hplaces
  rw [placesOf, List.getLast?_map, List.getLast?_concat] at hmap
  obtain ⟨last, hlast, hplace⟩ := Option.map_eq_some_iff.mp hmap
  exact ⟨last, hlast, congrArg (fun place => place.toFileRange) hplace⟩

end members

section step

variable [DecidableEq K] [DecidableEq F] {P : Platform} {I : InnerManager H N} {file : K → F}
  {w : World K F H} {j k : K} {m m₀ mj v₀ m₁ : Manager H} {served : Prop} {ns : SegInfo H}

/-- The growth of a manager that spares another one leaves that one as it is. -/
theorem Drained.spared (h : Drained P I served m₀ (w.view file k m)) (hfresh : FreshHalfFree I)
    (hgrown : GrownBy P I (w.view file j mj) m₁ ns)
    (hchunk : newChunk P v₀ kMinSegmentSize = ns.toFileRange)
    (hspares : file j = file k → mj.anon = false → m.anon = false → Spares P I v₀ m₀) :
    Drained P I served m₀ ((w.put file j m₁).view file k m) := by
  have hplaces : placesOf ((w.put file j m₁).view file k m) = placesOf (w.view file k m) := by
    simp
  have hanon₁ : m₁.anon = mj.anon := hgrown.anon
  by_cases hmeet : file j = file k ∧ mj.anon = false ∧ m.anon = false
  · obtain ⟨hfile, hmj, hm⟩ := hmeet
    obtain ⟨hlast, hnext⟩ := hspares hfile hmj hm
    have hinner : ∀ offset, (w.put file j m₁).inner (file k) offset =
        if offset = ns.fileOffset then I.create ns.size else w.inner (file k) offset := by
      rw [← hfile]
      exact put_grown_inner hgrown hmj
    refine ⟨h.anon, fun hserved hlow => ?_, fun hnot => ?_⟩
    · obtain ⟨⟨place, hplace, hrange⟩, hfree⟩ := h.relieved hserved hlow
      refine ⟨⟨place, hplaces.trans hplace, hrange⟩, ?_⟩
      obtain ⟨last, hmem, hlastPlace⟩ :=
        last_of_concat ((World.placesOf_view w k m).symm.trans hplace)
      have hlastRange : last.toFileRange = newChunk P m₀ kMinSegmentSize :=
        hlastPlace.trans hrange
      rw [lastLow_view_shm hm hmem] at hfree ⊢
      rw [hinner]
      split
      · rename_i hsame
        -- the two have added the same chunk, and it is fresh again
        have hequal : last.toFileRange = ns.toFileRange := by
          rw [hlastRange, ← hchunk]
          apply hnext hlow
          rw [← hlastRange, hchunk]
          exact hsame
        have hsize : last.size = ns.size := congrArg FileRange.size hequal
        rw [hsize]
        exact BitVec.not_lt.mpr (hfresh _ hgrown.large)
      · exact hfree
    · obtain ⟨hsame, hlow⟩ := h.untouched hnot
      refine ⟨hplaces.trans hsame, Iff.trans (lastLow_view_congr fun _ last hmem => ?_) hlow⟩
      rw [hinner, if_neg]
      obtain ⟨last₀, hlast₀, hoffset⟩ := last_of_places
        ((World.placesOf_view w k m).symm.trans hsame) hmem
      rw [← hoffset, ← hchunk]
      exact hlast last₀ hlast₀
  · have hview : LastLow I ((w.put file j m₁).view file k m) ↔ LastLow I (w.view file k m) := by
      apply lastLow_view_congr
      intro hm last _
      rw [put_inner_of_ne]
      by_cases hfile : file j = file k
      · right
        rw [hanon₁]
        by_contra hmj
        exact hmeet ⟨hfile, by simpa using hmj, hm⟩
      · exact .inl (Ne.symm hfile)
    refine ⟨h.anon, fun hserved hlow => ?_, fun hnot => ?_⟩
    · obtain ⟨⟨place, hplace, hrange⟩, hfree⟩ := h.relieved hserved hlow
      exact ⟨⟨place, hplaces.trans hplace, hrange⟩, fun hagain => hfree (hview.mp hagain)⟩
    · obtain ⟨hsame, hlow⟩ := h.untouched hnot
      exact ⟨hplaces.trans hsame, hview.trans hlow⟩

end step

/-! ## 5. Draining -/

/-- Some hints of the queue, `past`, have been taken. -/
structure Draining [DecidableEq K] [DecidableEq F] (P : Platform) (I : InnerManager H N)
    (file : K → F) (bits : Nat) (w₀ : World K F H) (queue past : List (K × Env H))
    (w : World K F H) : Prop where
  inv : Inv file bits w
  hinted : ∀ k m₀, Hinted queue k → w₀.manager k = some m₀ → ∃ m, w.manager k = some m ∧
    Drained P I (Hinted past k) (w₀.view file k m₀) (w.view file k m)
  others : ∀ k, ¬ Hinted queue k → w.manager k = w₀.manager k

section drain

variable [DecidableEq K] [DecidableEq F] {P : Platform} {I : InnerManager H N} {file : K → F}
  {w₀ w : World K F H} {queue past rest : List (K × Env H)} {hint : K × Env H} {k : K}
  {m m₁ : Manager H} {bits : Nat}

omit [DecidableEq K] in
theorem hinted_concat_self : Hinted (past ++ [hint]) hint.1 ↔ True :=
  iff_true_intro ⟨hint, by simp, rfl⟩

omit [DecidableEq K] in
theorem hinted_concat_of_ne (hk : k ≠ hint.1) :
    Hinted (past ++ [hint]) k ↔ Hinted past k := by
  constructor
  · rintro ⟨hint', hmem, rfl⟩
    rcases List.mem_append.mp hmem with hmem | hmem
    · exact ⟨hint', hmem, rfl⟩
    · exact absurd (congrArg Prod.fst (List.mem_singleton.mp hmem)) hk
  · rintro ⟨hint', hmem, hfst⟩
    exact ⟨hint', List.mem_append_left _ hmem, hfst⟩

omit [DecidableEq K] [DecidableEq F] in
theorem view_view (w : World K F H) (k : K) (m : Manager H) :
    w.view file k (w.view file k m) = w.view file k m := by
  cases hanon : m.anon <;> simp [World.view, hanon, withInner]

/-- A hint that finds its manager free enough changes nothing that can be seen. -/
theorem put_view_view (j : K) (mj : Manager H) (k : K) (m : Manager H) :
    (w.put file j (w.view file j mj)).view file k m = w.view file k m := by
  have htable : (w.put file j (w.view file j mj)).table = w.table := by
    simp [World.put, World.view]
  have hinner : (w.put file j (w.view file j mj)).inner = w.inner := put_view_inner
  generalize w.put file j (w.view file j mj) = w' at htable hinner ⊢
  rw [World.view, World.view, htable, hinner]

theorem put_manager_of_ne {j : K} (hk : k ≠ j) : (w.put file j m).manager k = w.manager k := by
  simp [World.put, hk]

theorem put_manager_self {j : K} : (w.put file j m).manager j = some m := by
  simp [World.put]

/-- A manager that has just grown is not low, also as it lies in its file. -/
theorem GrownBy.not_lastLow_view {ns : SegInfo H} {j : K}
    (h : GrownBy P I (w.view file j m) m₁ ns) (hfresh : FreshHalfFree I) :
    ¬ LastLow I ((w.put file j m₁).view file j m₁) := by
  cases hanon : m.anon with
  | true =>
    have hanon₁ : m₁.anon = true := h.anon.trans hanon
    have hsegments : ((w.put file j m₁).view file j m₁).segments = m₁.segments := by
      simp [World.view, hanon₁]
    exact not_lastLow_of_fresh hfresh (hsegments.trans h.segments) h.fresh h.large
  | false =>
    have hlast : ns ∈ m₁.segments.getLast? := by
      rw [h.segments, List.getLast?_concat]
      rfl
    rw [lastLow_view_shm (h.anon.trans hanon) hlast, put_grown_inner h hanon, if_pos rfl]
    exact BitVec.not_lt.mpr (hfresh _ h.large)

theorem Draining.serve (h : Draining P I file bits w₀ queue past w) (hbits : bits ≤ 63)
    (hfresh : FreshHalfFree I) (hapart : Apart P I file w₀ queue) (hhint : hint ∈ queue)
    (hlive : ∃ m₀, w₀.manager hint.1 = some m₀) (henv : MapsBelow bits hint.2)
    (hmaps : ∀ m ∈ w.manager hint.1, LastLow I (w.view file hint.1 m) →
      mapsNewChunk P hint.2 (w.view file hint.1 m) kMinSegmentSize = true) :
    ∃ w', serveHint P I file w hint = some w' ∧
      Draining P I file bits w₀ queue (past ++ [hint]) w' := by
  have hown : Hinted queue hint.1 := ⟨hint, hhint, rfl⟩
  obtain ⟨m₀, hm₀⟩ := hlive
  obtain ⟨m, hm, hdrained⟩ := h.hinted hint.1 m₀ hown hm₀
  have hmember : Member bits (w.view file hint.1 m) := h.inv.member hint.1 m hm
  have hothers : ∀ m' k, ¬ Hinted queue k →
      (w.put file hint.1 m').manager k = w₀.manager k := fun m' k hk =>
    (put_manager_of_ne fun heq : k = hint.1 => hk (heq ▸ hown)).trans (h.others k hk)
  rcases hmember.background hbits henv (hmaps m hm) with
    ⟨hfree, hrun⟩ | ⟨hlow, m₁, ns, hrun, hgrown⟩
  · refine ⟨w.put file hint.1 (w.view file hint.1 m), ?_, h.inv.put hmember, ?_, hothers _⟩
    · simp only [serveHint, hm, hrun]
      rfl
    · intro k m₀' hk hm₀'
      by_cases hkj : k = hint.1
      · subst hkj
        obtain rfl : m₀ = m₀' := Option.some.inj (hm₀.symm.trans hm₀')
        refine ⟨_, put_manager_self, ?_⟩
        rw [put_view_view, view_view, propext hinted_concat_self]
        exact hdrained.again hfree
      · obtain ⟨m', hm', hdrained'⟩ := h.hinted k m₀' hk hm₀'
        refine ⟨m', (put_manager_of_ne hkj).trans hm', ?_⟩
        rw [put_view_view, propext (hinted_concat_of_ne hkj)]
        exact hdrained'
  · have hsame := hdrained.first hlow
    have hmember₁ : Member bits m₁ := by
      apply hmember.serve hbits (r := .growBackground hint.2)
      · intro e he
        exact Option.some.inj he ▸ henv
      · exact congrArg Outcome.state hrun
    refine ⟨w.put file hint.1 m₁, ?_, h.inv.put hmember₁, ?_, hothers _⟩
    · simp only [serveHint, hm, hrun]
      rfl
    · intro k m₀' hk hm₀'
      by_cases hkj : k = hint.1
      · subst hkj
        obtain rfl : m₀ = m₀' := Option.some.inj (hm₀.symm.trans hm₀')
        refine ⟨_, put_manager_self, ?_⟩
        rw [propext hinted_concat_self]
        refine hdrained.grow hlow ?_ hgrown.anon hgrown.range (hgrown.not_lastLow_view hfresh)
        rw [World.placesOf_view, placesOf, hgrown.segments, List.map_append]
        rfl
      · obtain ⟨m', hm', hdrained'⟩ := h.hinted k m₀' hk hm₀'
        refine ⟨m', (put_manager_of_ne hkj).trans hm', ?_⟩
        rw [propext (hinted_concat_of_ne hkj)]
        have hchunk := newChunk_of_places (P := P) hsame.places hdrained.anon kMinSegmentSize
        refine hdrained'.spared hfresh hgrown (hchunk.symm.trans hgrown.range.symm) ?_
        intro hfile hshm hshm'
        exact hapart hint.1 k hown hk (Ne.symm hkj) hfile m₀ m₀' hm₀ hm₀'
          (hdrained.anon.symm.trans hshm) (hdrained'.anon.symm.trans hshm')
          (hsame.low.mp hlow)

theorem Draining.drain (hbits : bits ≤ 63) (hfresh : FreshHalfFree I)
    (hapart : Apart P I file w₀ queue) (hlive : ∀ hint ∈ queue, ∃ m₀, w₀.manager hint.1 = some m₀)
    (henv : ∀ hint ∈ queue, MapsBelow bits hint.2)
    (h : Draining P I file bits w₀ queue past w) (hrest : ∀ hint ∈ rest, hint ∈ queue)
    (hcalls : CallsSucceed P I file w rest) :
    ∃ w', drain P I file w rest = some w' ∧
      Draining P I file bits w₀ queue (past ++ rest) w' := by
  induction rest generalizing past w with
  | nil => exact ⟨w, rfl, by rwa [List.append_nil]⟩
  | cons hint rest ih =>
    obtain ⟨hhint, hrest⟩ := List.forall_mem_cons.mp hrest
    obtain ⟨w₁, hserve, h₁⟩ :=
      h.serve hbits hfresh hapart hhint (hlive hint hhint) (henv hint hhint) hcalls.1
    obtain ⟨w', hdrain, h'⟩ := ih h₁ hrest (hcalls.2 w₁ hserve)
    refine ⟨w', by rw [Shared.drain, hserve]; exact hdrain, ?_⟩
    rwa [List.append_assoc] at h'

end drain

/-! ## 6. Managers that spare each other -/

/-- Not stale: the manager lists what the table of its file publishes, chunk after chunk. -/
structure Current (file : K → F) (w : World K F H) (k : K) (m : Manager H) : Prop where
  ranges : fileRanges m.segments = (w.table (file k)).published
  laidOut : LaidOut 0 (extents (fileRanges m.segments))

section current

variable {P : Platform} {I : InnerManager H N} {file : K → F} {w : World K F H}
  {queue : List (K × Env H)} {m m' : Manager H} {bits : Nat}

theorem fileRanges_getLast? {last : SegInfo H} (hlast : last ∈ m.segments.getLast?) :
    (fileRanges m.segments).getLast? = some last.toFileRange := by
  rw [fileRanges, List.getLast?_map, hlast]
  rfl

theorem growChunkSize_eq (segments : List (SegInfo H)) (minBytes : Word) :
    growChunkSize P (segments.map SegInfo.toSegment) minBytes = alignUp (umax minBytes
      (((fileRanges segments).getLast?.map fun r => r.size * kGrowMultiplier).getD
        kDefaultSegSize)) P.pageSize := by
  rw [growChunkSize, fileRanges, List.getLast?_map, List.getLast?_map]
  cases segments.getLast? <;> rfl

/-- The file ends behind the last segment. -/
theorem Sized.last_lt (h : Sized bits m) (hbits : bits ≤ 58)
    (hlaid : LaidOut 0 (extents (fileRanges m.segments))) {last : SegInfo H}
    (hlast : last ∈ m.segments.getLast?) :
    last.fileOffset.toNat < (getSizeUnlocked (fileRanges m.segments)).toNat := by
  rw [h.getSize_toNat hbits]
  obtain ⟨-, hlarge⟩ := h.last hlast
  have hpos := Nat.two_pow_pos (19 + m.segments.length)
  have hmem : last.toFileRange.extent ∈ extents (fileRanges m.segments) :=
    List.mem_map.mpr ⟨_, List.mem_of_getLast? (fileRanges_getLast? hlast), rfl⟩
  obtain ⟨-, hstop⟩ := hlaid.bounds hmem
  simp only [Extent.stop, FileRange.extent] at hstop
  omega

/-- Two managers with the same segments spare each other. -/
theorem spares_of_ranges (h : Sized bits m) (hbits : bits ≤ 58) (hanon : m.anon = false)
    (hanon' : m'.anon = false) (hranges : fileRanges m'.segments = fileRanges m.segments)
    (hlaid : LaidOut 0 (extents (fileRanges m.segments))) : Spares P I m m' := by
  constructor
  · intro last' hlast' hmeet
    have hrange' := fileRanges_getLast? hlast'
    rw [hranges, fileRanges, List.getLast?_map] at hrange'
    obtain ⟨last, hlast, hrange⟩ := Option.map_eq_some_iff.mp hrange'
    have hlt := h.last_lt hbits hlaid hlast
    have hoffset : last.fileOffset = last'.fileOffset := congrArg FileRange.fileOffset hrange
    rw [hoffset, hmeet, newChunk, hanon] at hlt
    exact Nat.lt_irrefl _ hlt
  · intro _ _
    simp only [newChunk, hanon, hanon', hranges, segmentsOf, growChunkSize_eq]

end current

section spare

variable [DecidableEq K] [DecidableEq F] {P : Platform} {I : InnerManager H N} {file : K → F}
  {w : World K F H} {queue : List (K × Env H)} {bits : Nat}

omit [DecidableEq K] [DecidableEq F] in
theorem fileRanges_view (w : World K F H) (k : K) (m : Manager H) :
    fileRanges (w.view file k m).segments = fileRanges m.segments := by
  cases hanon : m.anon <;> simp [World.view, hanon, withInner, fileRanges]

omit [DecidableEq K] [DecidableEq F] in
/-- Managers on files of their own spare each other. -/
theorem apart_of_files (hfiles : ∀ k k', Hinted queue k → Hinted queue k' →
    file k = file k' → k = k') : Apart P I file w queue :=
  fun k k' hk hk' hne hfile => absurd (hfiles k k' hk hk' hfile) hne

/-- So do managers none of which is stale. -/
theorem apart_of_current (hinv : Inv file bits w) (hbits : bits ≤ 58)
    (hcurrent : ∀ k m, Hinted queue k → w.manager k = some m → m.anon = false →
      Current file w k m) : Apart P I file w queue := by
  intro k k' hk hk' _ hfile m m' hm hm' hanon hanon' _
  obtain ⟨hranges, hlaid⟩ := hcurrent k m hk hm hanon
  obtain ⟨hranges', -⟩ := hcurrent k' m' hk' hm' hanon'
  have hview : (w.view file k' m').anon = false := hanon'
  refine spares_of_ranges (hinv.member k m hm).sized hbits hanon hview ?_ ?_
  · rw [fileRanges_view, fileRanges_view, hranges, hranges', hfile]
  · rw [fileRanges_view]
    exact hlaid

end spare

theorem arena_freshHalfFree : FreshHalfFree arena := by
  intro size _
  have hfree : arena.getFreeMemory (arena.create size) = size := by
    simp [arena, Arena.top]
  rw [hfree, BitVec.le_def, BitVec.toNat_udiv]
  exact Nat.div_le_self _ _

/-! ## 7. Two managers on one file -/

def oneFile : Bool → Unit := fun _ => ()

/-- A creator and an opener of a file of 1 MiB, whose memory is nearly used up. -/
def twoManagers : List (Event Bool Arena Nat) :=
  [.constructCreator true userSpaceEnv (fun _ => none) 0x100000,
    .openAllSegments false userSpaceEnv (fun _ => none),
    .request true (.allocate userSpaceEnv 0xC0000)]

/-- Then the creator grows, and uses up the new chunk as well. -/
def staleManager : List (Event Bool Arena Nat) :=
  twoManagers ++ [.request true (.growBackground userSpaceEnv),
    .request true (.allocate userSpaceEnv 0x180000)]

theorem staleManager_bounded :
    ∀ e ∈ staleManager, ∀ w : World Bool Unit Arena, Bounded 47 w e := by
  intro e he w env henv
  have henv' : env = userSpaceEnv := by
    simp only [staleManager, twoManagers, List.cons_append, List.nil_append, List.mem_cons,
      List.not_mem_nil, or_false] at he
    rcases he with rfl | rfl | rfl | rfl | rfl <;> exact (Option.some.inj henv).symm
  exact henv' ▸ userSpaceEnv_mapsBelow

def hintsFor (ks : List Bool) : List (Bool × Env Arena) := ks.map fun k => (k, userSpaceEnv)

theorem hintsFor_mapsBelow {ks : List Bool} : ∀ hint ∈ hintsFor ks, MapsBelow 47 hint.2 := by
  intro hint hmem
  obtain ⟨k, -, rfl⟩ := List.mem_map.mp hmem
  exact userSpaceEnv_mapsBelow

/-- Every manager is low and has missed nothing. -/
def BothLow (w : World Bool Unit Arena) : Prop :=
  CallsSucceed fourKiBPages arena oneFile w (hintsFor [true, false, true]) ∧
    ∀ k, ∃ m ∈ w.manager k, LastLow arena (w.view oneFile k m) ∧
      fileRanges m.segments = (w.table ()).published ∧ LaidOut 0 (extents (fileRanges m.segments))

instance (w : World Bool Unit Arena) : Decidable (BothLow w) :=
  inferInstanceAs (Decidable (_ ∧ _))

/-- The creator is low, and draining gives it nothing. -/
def CreatorLeftLow (w : World Bool Unit Arena) : Prop :=
  CallsSucceed fourKiBPages arena oneFile w (hintsFor [false, true]) ∧
    (∃ m ∈ w.manager true, m.segments.length = 2 ∧ LastLow arena (w.view oneFile true m) ∧
      ∃ w' ∈ drain fourKiBPages arena oneFile w (hintsFor [false, true]),
      ∃ m' ∈ w'.manager true, m'.segments.length = 2) ∧ ∃ m ∈ w.manager false, m.anon = false

instance (w : World Bool Unit Arena) : Decidable (CreatorLeftLow w) :=
  inferInstanceAs (Decidable (_ ∧ _))

end Memnon.Shared
