import Memnon.OffsetPtrStore
import Memnon.OffsetPtrShared
import Memnon.ManagerReentry
import Memnon.ManagerCalls

/-!
# What leaves the noexcept operations

`grow_background`, `get` and the converting assignment are `noexcept`, but call
functions that throw: a chunk that cannot be mapped or listed, and a raw pointer
that may not be stored. This module says in which states an exception leaves
them, which ends the process.
-/

namespace Memnon

open Memnon.Lib

/-! ## 1. Growth in the background -/

section background

variable {H N : Type}

/-- What happens to a manager: a request, a lookup that discovers growth, or
    another process that writes the segment table. -/
inductive ManagerEvent (H N : Type) where
  | request (r : Request H N)
  | discover (env : Env H) (requiredFileOffset : Word)
  | writeTable (table : SegmentTable)

def ManagerEvent.after (P : Platform) (I : InnerManager H N) (m : Manager H) :
    ManagerEvent H N → Option (Manager H)
  | .request r => serve P I m r
  | .discover env requiredFileOffset => ((discoverGrowth P I env requiredFileOffset).run m).state
  | .writeTable table => some { m with table := table }

/-- The file could be extended for the chunk of `grow_background`, but the chunk
    cannot be mapped, or the table is full. -/
def ChunkLost (P : Platform) (I : InnerManager H N) (env : Env H) (m : Manager H) : Prop :=
  m.anon = false ∧ ∃ last, m.segments.getLast? = some last ∧
    I.getFreeMemory last.smgr < last.size / 2 ∧
    env.shmGrow (getSizeUnlocked (fileRanges m.segments) +
      backgroundChunkSize P last.toSegment) = true ∧
    (env.openShmChunk (backgroundChunkSize P last.toSegment)
        (getSizeUnlocked (fileRanges m.segments)) = none ∨
      m.segments.length ≥ kMaxSubSegments)

variable {P : Platform} {I : InnerManager H N} {env : Env H} {m₀ m m' : Manager H}

theorem ready_after {e : ManagerEvent H N} (hm : Ready m) (h : e.after P I m = some m') :
    Ready m' := by
  cases e with
  | request r => exact ready_serve hm h
  | discover env required =>
    have hkeeps : Call.Keeps Ready (discoverGrowth P I env required) := by
      apply Call.keeps_read_bind
      intro m hm
      split
      · exact Call.keeps_pure m hm
      · refine Call.keeps_guarded (Q := Holding FrontPrimary true false)
          (fun _ h => ⟨rfl, h.grow, h.segments⟩) ?_ (fun _ h => ⟨rfl, h.grow, h.segments⟩) m hm
        apply Call.keeps_read_bind
        intro m hm
        exact Call.keeps_bind discoverLoop_keeps (fun _ => Call.keeps_pure) m hm
    exact hkeeps m hm m' h
  | writeTable table =>
    cases h
    exact ⟨hm.list, hm.grow, hm.segments⟩

/-- What a chunk that is lost throws is not caught. -/
theorem growBackground_throws_iff (hm : Ready m) :
    (∃ e m', (growBackground P I env).run m = .thrown e m') ↔ ChunkLost P I env m := by
  obtain ⟨s0, rest, hs, -⟩ := hm.segments
  have hne : m.segments ≠ [] := hs ▸ List.cons_ne_nil _ _
  obtain ⟨last, hlast⟩ : ∃ last, m.segments.getLast? = some last :=
    ⟨_, List.getLast?_eq_some_getLast hne⟩
  have hlost : ChunkLost P I env m ↔ m.anon = false ∧
      I.getFreeMemory last.smgr < last.size / 2 ∧
      env.shmGrow (getSizeUnlocked (fileRanges m.segments) +
        backgroundChunkSize P last.toSegment) = true ∧
      (env.openShmChunk (backgroundChunkSize P last.toSegment)
          (getSizeUnlocked (fileRanges m.segments)) = none ∨
        m.segments.length ≥ kMaxSubSegments) := by
    simp only [ChunkLost, hlast, Option.some.injEq, exists_eq_left']
  rw [hlost]
  by_cases henough : I.getFreeMemory last.smgr ≥ last.size / 2
  · rw [background_enough hm hlast henough]
    constructor
    · rintro ⟨e, m', h⟩
      cases h
    · rintro ⟨-, hlow, -⟩
      exact absurd henough (BitVec.not_le.mpr hlow)
  · have hsegs : (segmentsOf m).getLast? = some last.toSegment := by
      simp [segmentsOf, List.getLast?_map, hlast]
    rw [background_low hm hlast henough (backgroundChunkSize_eq hsegs) rfl]
    generalize backgroundChunkSize P last.toSegment = chunk
    generalize hcurrent : getSizeUnlocked (fileRanges m.segments) = current
    cases hanon : m.anon with
    | true =>
      simp only [if_true, Bool.true_eq_false, false_and, iff_false]
      rintro ⟨e, m', h⟩
      cases hmap : env.createAnon chunk with
      | none =>
        simp only [hmap] at h
        rw [Call.guarded_section hm.grow hm.grow rfl] at h
        cases h
      | some mapping =>
        simp only [hmap] at h
        have hinner := run_growAnon (P := P) (I := I) (m := (growMtx H).setHeld true m) hm.list hmap
        simp only [growAnon, hmap] at hinner
        rw [Call.guarded_value hm.grow hinner] at h
        cases h
    | false =>
      simp only [Bool.false_eq_true, if_false, true_and, BitVec.not_le.mp henough]
      cases hextend : env.shmGrow (current + chunk) with
      | false =>
        simp only [Bool.false_eq_true, if_false, false_and, iff_false]
        rintro ⟨e, m', h⟩
        rw [Call.guarded_section hm.grow hm.grow rfl] at h
        cases h
      | true =>
        simp only [if_true, true_and]
        have hsame : (Call.guarded (listMtx H)
            (publishChunkBackground P I env chunk current)).run ((growMtx H).setHeld true m) =
            (growShm P I env chunk current).run ((growMtx H).setHeld true m) := by
          rw [growShm, if_pos hextend]
          refine Call.guarded_congr ?_
          rw [publishChunkBackground, Call.run_read_bind, listMtx_segments, growMtx_segments,
            if_pos hcurrent.symm]
          rfl
        cases hmap : env.openShmChunk chunk current with
        | none =>
          refine iff_of_true ⟨.runtimeError, m, ?_⟩ (.inl rfl)
          refine Call.guarded_section_thrown hm.grow hm.grow (hsame.trans ?_)
          rw [growShm, if_pos hextend]
          refine Call.guarded_section_thrown hm.list hm.list ?_
          exact Call.run_bind_thrown (addSegmentShm_fails hmap true)
        | some mapping =>
          obtain ⟨table, -, hrun⟩ := run_growShm (P := P) (I := I) (m := (growMtx H).setHeld true m)
            hm.segments hm.list hextend hmap
          rw [growMtx_segments] at hrun
          by_cases hfull : m.segments.length ≥ kMaxSubSegments
          · rw [if_pos hfull] at hrun
            exact iff_of_true ⟨_, _, Call.guarded_thrown hm.grow (hsame.trans hrun)⟩ (.inr hfull)
          · rw [if_neg hfull] at hrun
            refine iff_of_false ?_ (by simpa using hfull)
            rintro ⟨e, m', h⟩
            rw [Call.guarded_value hm.grow (hsame.trans hrun)] at h
            cases h

end background

/-! ## 2. Allocation that returns null -/

section allocation

variable {H N : Type} (P : Platform) (I : InnerManager H N) (env : Env H) (bytes : Word)

/-- A `try` block with a handler for all exceptions, which returns `a`. -/
def caught {A : Type} (body : Op H A) (a : A) : Op H A := ⟨fun m =>
  match body.run m with
  | .value b m' => .value b m'
  | .thrown _ m' => .value a m'
  | .stuck => .stuck⟩

/-- `allocate` with `std::nothrow`. -/
def allocateNothrow : Op H (Option Word) :=
  caught (do
    match ← .guarded (listMtx H) (tryAllocateLocked I bytes) with
    | some p => return some p
    | none =>
        grow P I env (bytes + kMinSegmentSize)
        .guarded (listMtx H) (tryAllocateLocked I bytes)) none

/-- It answers as `allocate` does and leaves the same manager, with null for every
    exception. -/
theorem run_allocateNothrow (m : Manager H) :
    (allocateNothrow P I env bytes).run m =
      match (allocate P I env bytes).run m with
      | .value p m' => .value (some p) m'
      | .thrown _ m' => .value none m'
      | .stuck => .stuck := by
  simp only [allocateNothrow, caught, allocate]
  cases hfirst : (Call.guarded (listMtx H) (tryAllocateLocked I bytes)).run m with
  | thrown e m₁ => simp only [Call.run_bind_thrown hfirst]
  | stuck => simp only [Call.run_bind_stuck hfirst]
  | value p m₁ =>
    simp only [Call.run_bind_value hfirst]
    cases p with
    | some p => rfl
    | none =>
      cases hgrow : (grow P I env (bytes + kMinSegmentSize)).run m₁ with
      | thrown e m₂ => simp only [Call.run_bind_thrown hgrow]
      | stuck => simp only [Call.run_bind_stuck hgrow]
      | value u m₂ =>
        simp only [Call.run_bind_value hgrow]
        cases hsecond : (Call.guarded (listMtx H) (tryAllocateLocked I bytes)).run m₂ with
        | thrown e m₃ => simp only [Call.run_bind_thrown hsecond]
        | stuck => simp only [Call.run_bind_stuck hsecond]
        | value p m₃ =>
          simp only [Call.run_bind_value hsecond]
          cases p <;> rfl

end allocation

/-! ## 3. Resolving a pointer -/

namespace OffsetPtr

open Memnon.Trie (Config keyBound pageOf)

variable {M : Type}

/-- No segment of the object's manager has the file offset, it lies behind what
    the manager has mapped, and an entry of the table that is not mapped yet
    cannot be mapped. -/
def ResolutionFails [DecidableEq M] (cfg : Config) (openShmChunk : M → Word → Word → Option Mapping)
    (live : List (LiveSegment M)) (p : Process M) (self mOffset : Word) : Prop :=
  mOffset ≠ kNull ∧ ∃ s ∈ live, s.Has cfg self ∧ s.isAnon = false ∧
    p.anon s.manager = false ∧
    (∀ s' ∈ segmentsOf live s.manager,
      s'.coversFileOffset (s.fileOffsetOf self + mOffset) = false) ∧
    getSizeUnlocked (fileRangesOf live s.manager) ≤ s.fileOffsetOf self + mOffset ∧
    ∃ e ∈ (p.table s.manager).published.drop (segmentsOf live s.manager).length,
      openShmChunk s.manager e.size e.fileOffset = none

/-- Assignment from a pointer object of another type; `convert` is the
    `static_cast` between the pointers. -/
def convertAssign [DecidableEq M] (cfg : Config) (pick : Trie.Memory Unit → Word)
    (openShmChunk : M → Word → Word → Option Mapping) (convert : Word → Word)
    (dst src srcOffset : Word) : Run M (Except SetError Word) := do
  let ptr ← get cfg.platform (runtime cfg pick openShmChunk) src srcOffset
  set cfg.platform (runtime cfg pick openShmChunk) dst (convert ptr)

section resolution

variable [DecidableEq M] {cfg : Config} {pick : Trie.Memory Unit → Word}
  {openShmChunk : M → Word → Word → Option Mapping} {live : List (LiveSegment M)}
  {p : Process M} {mgr : M} {self mOffset fileOffset : Word}

omit [DecidableEq M] in
theorem run_bind_eq_none {A B : Type} {x : Run M A} {f : A → Run M B} :
    (x >>= f) p = none ↔ x p = none ∨ ∃ a p', x p = some (a, p') ∧ f a p' = none := by
  show (x p).bind _ = none ↔ _
  cases x p with
  | none => simp
  | some r => simp [eq_comm, Prod.ext_iff]

theorem discoverLoop_eq_none {entries : List FileRange} :
    discoverLoop cfg pick openShmChunk mgr entries p = none ↔
      ∃ e ∈ entries, openShmChunk mgr e.size e.fileOffset = none := by
  induction entries generalizing p with
  | nil => simp [discoverLoop]
  | cons e rest ih =>
    rw [discoverLoop]
    cases hmap : openShmChunk mgr e.size e.fileOffset with
    | none => simp [hmap]
    | some mapping => simp [hmap, ih]

/-- The only exception of a discovery is that of an entry that cannot be
    mapped. -/
theorem Lists.discoverGrowth_eq_none (h : Lists live p) :
    discoverGrowth cfg pick openShmChunk mgr fileOffset p = none ↔
      p.anon mgr = false ∧ getSizeUnlocked (fileRangesOf live mgr) ≤ fileOffset ∧
      ∃ e ∈ (p.table mgr).published.drop (segmentsOf live mgr).length,
        openShmChunk mgr e.size e.fileOffset = none := by
  have hsegs := h.map_object mgr SegmentObject.toSegment
  have hranges : ((segmentsOf live mgr).map (·.toSegment)).map Memnon.Segment.toFileRange =
      fileRangesOf live mgr := by
    rw [List.map_map]
    rfl
  have hentries := discovered_entries (p.table mgr) ((segmentsOf live mgr).map (·.toSegment))
    fileOffset
  rw [hranges, List.length_map] at hentries
  rw [discoverGrowth, hsegs, h.segments, List.length_map]
  cases hanon : p.anon mgr with
  | true => simp
  | false =>
    simp only [Bool.false_eq_true, if_false, true_and, hentries]
    by_cases hknown : fileOffset < getSizeUnlocked (fileRangesOf live mgr)
    · rw [if_pos hknown]
      constructor
      · intro hnone
        cases hnone
      · rintro ⟨hbehind, -⟩
        exact absurd hknown (BitVec.not_lt.mpr hbehind)
    · have hloop : discoverLoop cfg pick openShmChunk mgr
          ((p.table mgr).published.drop (segmentsOf live mgr).length) p = none ↔ _ :=
        discoverLoop_eq_none
      rw [if_neg hknown, ← hloop]
      cases discoverLoop cfg pick openShmChunk mgr
          ((p.table mgr).published.drop (segmentsOf live mgr).length) p with
      | none => simp [BitVec.not_lt.mp hknown]
      | some r => simp

theorem Maps.get_eq_none (h : Maps cfg live p) (hself : Canonical cfg self) :
    OffsetPtr.get cfg.platform (runtime cfg pick openShmChunk) self mOffset p = none ↔
      ResolutionFails cfg openShmChunk live p self mOffset := by
  by_cases hnull : mOffset = kNull
  · rw [OffsetPtr.get, if_pos hnull]
    constructor
    · intro hnone
      cases hnone
    · rintro ⟨hne, -⟩
      exact absurd hnull hne
  · obtain ⟨p₁, hfind, hp₁⟩ := h.find pick hself.2
    rw [OffsetPtr.get, if_neg hnull, hself.1]
    have hrun : ∀ {B : Type} (f : Option (SubSegment M) → Run M B),
        ((runtime cfg pick openShmChunk).find self >>= f) p =
          f ((liveRuntime cfg live).find self) p₁ := fun f => run_bind hfind
    rw [hrun]
    simp only [liveRuntime]
    cases hat : segmentAt cfg live self with
    | none =>
      constructor
      · intro hnone
        cases hnone
      · rintro ⟨-, s, hs, hhas, -⟩
        rw [h.segmentAt_eq hs hhas] at hat
        cases hat
    | some s =>
      have hs : s ∈ live := List.mem_of_find?_eq_some hat
      have hhas : s.Has cfg self := by simpa using List.find?_some hat
      have hunique : ResolutionFails cfg openShmChunk live p self mOffset ↔
          s.isAnon = false ∧ p.anon s.manager = false ∧
          (∀ s' ∈ segmentsOf live s.manager,
            s'.coversFileOffset (s.fileOffsetOf self + mOffset) = false) ∧
          getSizeUnlocked (fileRangesOf live s.manager) ≤ s.fileOffsetOf self + mOffset ∧
          ∃ e ∈ (p.table s.manager).published.drop (segmentsOf live s.manager).length,
            openShmChunk s.manager e.size e.fileOffset = none := by
        constructor
        · rintro ⟨-, s', hs', hhas', hfails⟩
          obtain rfl := h.eq_of_has hs hs' hhas hhas'
          exact hfails
        · intro hfails
          exact ⟨hnull, s, hs, hhas, hfails⟩
      rw [hunique]
      simp only [Option.map_some]
      cases hanon : s.isAnon with
      | true =>
        simp only [if_true, Bool.true_eq_false, false_and, iff_false]
        intro hnone
        cases hnone
      | false =>
        simp only [Bool.false_eq_true, if_false, true_and]
        generalize s.fileOffsetOf self + mOffset = target
        have hsearch := hp₁.maps.toLists.findByFileOffset s.manager target
        have hrun₂ : ∀ {B : Type} (f : Option (SubSegment M) → Run M B),
            ((runtime cfg pick openShmChunk).findByFileOffset s.manager target >>= f) p₁ =
              f (((segmentsOf live s.manager).find? (·.coversFileOffset target)).map
                (·.toSubSegment)) p₁ := fun f => run_bind hsearch
        rw [hrun₂]
        cases hfirst : (segmentsOf live s.manager).find? (·.coversFileOffset target) with
        | some s' =>
          constructor
          · intro hnone
            cases hnone
          · rintro ⟨-, huncovered, -⟩
            have hcovers : s'.coversFileOffset target = true := by
              simpa using List.find?_some hfirst
            rw [huncovered s' (List.mem_of_find?_eq_some hfirst)] at hcovers
            cases hcovers
        | none =>
          have huncovered : ∀ s' ∈ segmentsOf live s.manager,
              s'.coversFileOffset target = false := by
            simpa using List.find?_eq_none.mp hfirst
          have hdiscover : discoverGrowth cfg pick openShmChunk s.manager target p₁ = none ↔ _ :=
            hp₁.maps.toLists.discoverGrowth_eq_none
          rw [hp₁.anon, hp₁.table] at hdiscover
          simp only [Option.map_none, run_bind_eq_none]
          constructor
          · rintro (hnone | ⟨found, p₂, -, hnone⟩)
            · obtain ⟨hmgr, hbehind, hentry⟩ := hdiscover.mp hnone
              exact ⟨hmgr, huncovered, hbehind, hentry⟩
            · -- once discovery has returned, nothing throws
              cases found with
              | false => cases hnone
              | true =>
                rcases run_bind_eq_none.mp hnone with hnone | ⟨t, p₃, -, hnone⟩
                · cases hnone
                · cases t <;> cases hnone
          · rintro ⟨hmgr, -, hbehind, hentry⟩
            exact .inl (hdiscover.mpr ⟨hmgr, hbehind, hentry⟩)

theorem Maps.convertAssign_finishes_iff {live₁ : List (LiveSegment M)} {convert : Word → Word}
    {dst src : Word} (h : Maps cfg live p) (hsrc : Canonical cfg src) (hdst : Canonical cfg dst)
    (hresolved : ∀ ptr p₁,
      OffsetPtr.get cfg.platform (runtime cfg pick openShmChunk) src mOffset p = some (ptr, p₁) →
      Maps cfg live₁ p₁ ∧
        (InShm cfg live₁ dst → (pageOf cfg (convert ptr)).toNat < keyBound cfg)) :
    (∃ stored p', convertAssign cfg pick openShmChunk convert dst src mOffset p =
        some (.ok stored, p')) ↔
      ¬ ResolutionFails cfg openShmChunk live p src mOffset ∧
      ∀ ptr p₁, OffsetPtr.get cfg.platform (runtime cfg pick openShmChunk) src mOffset p =
        some (ptr, p₁) → ¬ Misuse cfg live₁ dst (convert ptr) := by
  have hnone : OffsetPtr.get cfg.platform (runtime cfg pick openShmChunk) src mOffset p = none ↔
      _ := h.get_eq_none hsrc
  rw [← hnone]
  cases hget : OffsetPtr.get cfg.platform (runtime cfg pick openShmChunk) src mOffset p with
  | none =>
    refine iff_of_false ?_ fun hfinishes => hfinishes.1 rfl
    rintro ⟨stored, p', hrun⟩
    obtain ⟨ptr, p₁, hsome, -⟩ := run_bind_eq_some hrun
    rw [hget] at hsome
    cases hsome
  | some r =>
    obtain ⟨ptr, p₁⟩ := r
    obtain ⟨hmaps₁, hkey⟩ := hresolved ptr p₁ hget
    obtain ⟨p₂, hset, -⟩ := hmaps₁.set pick openShmChunk hdst.1 hdst.2
      fun s hs hhas hshm => hkey ⟨s, hs, hhas, hshm⟩
    have hrun : convertAssign cfg pick openShmChunk convert dst src mOffset p =
        some (liveSet cfg live₁ dst (convert ptr), p₂) := (run_bind hget).trans hset
    have hmisuse : (∃ e, liveSet cfg live₁ dst (convert ptr) = .error e) ↔ _ :=
      hmaps₁.liveSet_error_iff hdst.1
    rw [hrun]
    constructor
    · rintro ⟨stored, p', hok⟩
      refine ⟨by simp, fun ptr' p' hsame hmis => ?_⟩
      cases hsame
      obtain ⟨e, he⟩ := hmisuse.mpr hmis
      rw [he] at hok
      cases hok
    · rintro ⟨-, hnot⟩
      cases hlive : liveSet cfg live₁ dst (convert ptr) with
      | ok stored => exact ⟨stored, p₂, rfl⟩
      | error e => exact absurd (hmisuse.mp ⟨e, hlive⟩) (hnot ptr p₁ rfl)

end resolution

end OffsetPtr

/-! ## 4. Result -/

open OffsetPtr (Process LiveSegment Maps Canonical InShm Misuse ResolutionFails convertAssign
  SetError)

/-- In every state that a manager reaches, `grow_background` returns exactly when
    its chunk is not lost. In every process, `get` returns exactly when its
    resolution does not fail, and the converting assignment exactly when, in
    addition, the pointer so resolved may be stored. -/
theorem noexcept_operations_return_iff {H N M : Type} [DecidableEq M] {P : Platform}
    {I : InnerManager H N} {env : Env H} {m₀ m : Manager H} (hstart : Started P I m₀)
    (hrun : Steps (ManagerEvent.after P I) anyStep m₀ m)
    {cfg : Trie.Config} {pick : Trie.Memory Unit → Word}
    {openShmChunk : M → Word → Word → Option Mapping} {live live₁ : List (LiveSegment M)}
    {p : Process M} {dst src mOffset : Word} {convert : Word → Word} (hmaps : Maps cfg live p)
    (hsrc : Canonical cfg src) (hdst : Canonical cfg dst)
    (hresolved : ∀ ptr p₁, OffsetPtr.get cfg.platform (OffsetPtr.runtime cfg pick openShmChunk)
      src mOffset p = some (ptr, p₁) → Maps cfg live₁ p₁ ∧
        (InShm cfg live₁ dst → (Trie.pageOf cfg (convert ptr)).toNat < Trie.keyBound cfg)) :
    ((∀ e m', (growBackground P I env).run m ≠ .thrown e m') ↔ ¬ ChunkLost P I env m) ∧
    ((∃ ptr p₁, OffsetPtr.get cfg.platform (OffsetPtr.runtime cfg pick openShmChunk)
        src mOffset p = some (ptr, p₁)) ↔
      ¬ ResolutionFails cfg openShmChunk live p src mOffset) ∧
    ((∃ stored p', convertAssign cfg pick openShmChunk convert dst src mOffset p =
        some (.ok stored, p')) ↔
      ¬ ResolutionFails cfg openShmChunk live p src mOffset ∧
      ∀ ptr p₁, OffsetPtr.get cfg.platform (OffsetPtr.runtime cfg pick openShmChunk)
        src mOffset p = some (ptr, p₁) → ¬ Misuse cfg live₁ dst (convert ptr)) := by
  have hm : Ready m := hrun.invariant Ready (ready_started hstart)
    fun _ _ _ ha _ hs => ready_after ha hs
  refine ⟨?_, ?_, hmaps.convertAssign_finishes_iff hsrc hdst hresolved⟩
  · rw [← growBackground_throws_iff hm]
    constructor
    · rintro hreturns ⟨e, m', hthrown⟩
      exact hreturns e m' hthrown
    · intro hreturns e m' hthrown
      exact hreturns ⟨e, m', hthrown⟩
  · have hnone : OffsetPtr.get cfg.platform (OffsetPtr.runtime cfg pick openShmChunk) src mOffset
        p = none ↔ _ := hmaps.get_eq_none hsrc
    rw [← hnone, ← ne_eq, Option.ne_none_iff_exists']
    constructor
    · rintro ⟨ptr, p₁, hget⟩
      exact ⟨_, hget⟩
    · rintro ⟨⟨ptr, p₁⟩, hget⟩
      exact ⟨ptr, p₁, hget⟩

/-- A fresh manager, and two pointer objects of one chunk. -/
theorem noexcept_operations_return_here :
    (∀ e m', (growBackground fourKiBPages arena roomyEnv).run arenaShmManager ≠ .thrown e m') ∧
    ∃ stored p', convertAssign Trie.defaultConfig OffsetPtr.heap OffsetPtr.mapSecond id
      0x30000100 0x30001000 0x10 OffsetPtr.oneChunk = some (.ok stored, p') := by
  have hadd : OffsetPtr.Pointers.CanAdd Trie.defaultConfig id ⟨[], []⟩
      OffsetPtr.firstElsewhere := by decide
  have hmaps : Maps Trie.defaultConfig [OffsetPtr.firstElsewhere] OffsetPtr.oneChunk :=
    Maps.add (OffsetPtr.maps_nil rfl fun _ => rfl) hadd (by decide +kernel)
  have hsrc : Canonical Trie.defaultConfig 0x30001000 := by decide
  have hdst : Canonical Trie.defaultConfig 0x30000100 := by decide
  have hcovers : OffsetPtr.SubSegment.coversFileOffset 0x1010
      OffsetPtr.firstElsewhere.toSubSegment = true := by decide
  have hsource : OffsetPtr.SubSegment.fileOffsetOf OffsetPtr.firstElsewhere.toSubSegment
      0x30001000 + 0x10 = 0x1010 := by decide
  obtain ⟨p₁, hget, hp₁⟩ : ∃ p₁, OffsetPtr.get Trie.defaultConfig.platform (OffsetPtr.runtime
      Trie.defaultConfig OffsetPtr.heap OffsetPtr.mapSecond) 0x30001000 0x10 OffsetPtr.oneChunk =
        some (_, p₁) ∧ OffsetPtr.Searched _ _ _ p₁ := by
    apply hmaps.get_found OffsetPtr.heap OffsetPtr.mapSecond hsrc.1 hsrc.2
    intro _ s hs _ hnone
    obtain rfl := List.mem_singleton.mp (List.mem_of_find?_eq_some hs)
    have hmem : OffsetPtr.firstElsewhere ∈
        OffsetPtr.segmentsOf [OffsetPtr.firstElsewhere] false := by decide
    have huncovered := List.find?_eq_none.mp hnone _ hmem
    rw [hsource] at huncovered
    exact huncovered hcovers
  have hvalue : OffsetPtr.liveGet Trie.defaultConfig [OffsetPtr.firstElsewhere] 0x30001000 0x10 =
      0x30001010 := by decide
  rw [hvalue] at hget
  have hresolved : ∀ ptr p', OffsetPtr.get Trie.defaultConfig.platform (OffsetPtr.runtime
      Trie.defaultConfig OffsetPtr.heap OffsetPtr.mapSecond) 0x30001000 0x10 OffsetPtr.oneChunk =
        some (ptr, p') → Maps Trie.defaultConfig [OffsetPtr.firstElsewhere] p' ∧
        (InShm Trie.defaultConfig [OffsetPtr.firstElsewhere] 0x30000100 →
          (Trie.pageOf Trie.defaultConfig (id ptr)).toNat < Trie.keyBound Trie.defaultConfig) := by
    intro ptr p' hsame
    cases hget.symm.trans hsame
    exact ⟨hp₁.maps, fun _ => by decide⟩
  have hresult := @noexcept_operations_return_iff Arena Nat _ _ fourKiBPages arena roomyEnv _ _
    (.created arenaShmManager_created) (.refl _) _ _ _ _ _ _ _ _ _ _ hmaps hsrc hdst hresolved
  have hresolves : ¬ ResolutionFails Trie.defaultConfig OffsetPtr.mapSecond
      [OffsetPtr.firstElsewhere] OffsetPtr.oneChunk 0x30001000 0x10 := by
    rintro ⟨-, s, hs, -, -, -, huncovered, -⟩
    obtain rfl := List.mem_singleton.mp hs
    have hnot := huncovered OffsetPtr.firstElsewhere (by decide)
    rw [hsource, hcovers] at hnot
    cases hnot
  constructor
  · apply hresult.1.mpr
    rintro ⟨-, last, hlast, hlow, -⟩
    obtain rfl := Option.some.inj hlast
    exact absurd hlow (by decide)
  · apply hresult.2.2.mpr
    refine ⟨hresolves, fun ptr p' hsame hmisuse => ?_⟩
    cases hget.symm.trans hsame
    obtain ⟨-, s, hs, -, -, hother⟩ := hmisuse
    obtain rfl := List.mem_singleton.mp hs
    exact hother OffsetPtr.firstElsewhere (by decide) (by decide) rfl

/-- A chunk behind a file that was extended, a table entry, and a pointer into
    another manager's segment: each operation is left by an exception. -/
theorem noexcept_operations_throw :
    (∃ m e m', Steps (ManagerEvent.after fourKiBPages arena) anyStep arenaShmManager m ∧
      (growBackground fourKiBPages arena unmappableEnv).run m = .thrown e m') ∧
    OffsetPtr.get fourKiBPages (OffsetPtr.runtime Trie.defaultConfig OffsetPtr.heap
      fun _ _ _ => none) 0x30001000 0x1010 OffsetPtr.oneChunk = none ∧
    ∃ e p', convertAssign Trie.defaultConfig OffsetPtr.heap (fun _ _ _ => none) id 0x10000010
      0x50000000 (0x20000010 - 0x50000000) OffsetPtr.mixedChunks = some (.error e, p') := by
  refine ⟨?_, ?_, ?_⟩
  · have hex : ∃ m, Steps (ManagerEvent.after fourKiBPages arena) anyStep arenaShmManager m ∧
        (m.segments.getLast?.any fun last =>
          decide (m.anon = false ∧ arena.getFreeMemory last.smgr < last.size / 2 ∧
            boundedEnv.shmGrow (getSizeUnlocked (fileRanges m.segments) +
              backgroundChunkSize fourKiBPages last.toSegment) = true)) = true :=
      Steps.exists_of_replay [.request (.allocate roomyEnv 0xC00000)] (by decide +kernel)
    obtain ⟨m, hrun, htest⟩ := hex
    obtain ⟨last, hlast, htest⟩ := (Option.any_eq_true _ _).mp htest
    obtain ⟨hshm, hlow, hextend⟩ := of_decide_eq_true htest
    have hm : Ready m := hrun.invariant Ready
      (ready_started (.created arenaShmManager_created)) fun _ _ _ ha _ hs => ready_after ha hs
    have hlost : ChunkLost fourKiBPages arena unmappableEnv m :=
      ⟨hshm, last, hlast, hlow, hextend, .inl rfl⟩
    obtain ⟨e, m', hthrown⟩ := (growBackground_throws_iff hm).mpr hlost
    exact ⟨m, e, m', hrun, hthrown⟩
  · have hadd : OffsetPtr.Pointers.CanAdd Trie.defaultConfig id ⟨[], []⟩
        OffsetPtr.firstElsewhere := by decide
    have hmaps : Maps Trie.defaultConfig [OffsetPtr.firstElsewhere] OffsetPtr.oneChunk :=
      Maps.add (OffsetPtr.maps_nil rfl fun _ => rfl) hadd (by decide +kernel)
    have hself : Canonical Trie.defaultConfig 0x30001000 := by decide
    apply (hmaps.get_eq_none hself).mpr
    refine ⟨by decide, OffsetPtr.firstElsewhere, List.mem_cons_self, by decide, rfl, rfl, ?_,
      by decide, ⟨0x2000, 0x4000⟩, by decide, rfl⟩
    intro s hs
    obtain rfl := List.mem_singleton.mp (List.mem_of_mem_filter hs)
    decide
  · have hthrown : (convertAssign Trie.defaultConfig OffsetPtr.heap (fun _ _ _ => none) id
        0x10000010 0x50000000 (0x20000010 - 0x50000000) OffsetPtr.mixedChunks).map Prod.fst =
        some (.error .acrossManagers) := by
      decide +kernel
    obtain ⟨⟨r, p'⟩, hrun, rfl⟩ := Option.map_eq_some_iff.mp hthrown
    exact ⟨_, p', hrun⟩

end Memnon
