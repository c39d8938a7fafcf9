import Memnon.ManagerGrowth
import Memnon.Lib.TransitionSystem

/-!
# Sessions on one file

A creator grows its file and leaves; an opener rebuilds the list of segments from
the table, grows the file further and leaves, and so on. Entry 0 of the table is
written by `init_segment_table`, each later one by `update_segment_table`, and
all of them are read by `open_all_segments`, which first maps 1 MiB in order to
see how large sub-segment 0 is.
-/

namespace Memnon.Sessions

open Memnon.Lib

variable {H N : Type}

/-! ## 1. The system -/

/-- Where in the file the inner manager of a segment is. -/
def managerFileOffset (I : InnerManager H N) (info : SegInfo H) : Word :=
  info.fileOffset + info.smgrOffset I

inductive Label (H : Type) where
  | grow (env : Env H) (minBytes : Word)
  | growBackground (env : Env H)
  /-- leave the file and open it, in a process with this registry -/
  | reopen (env : Env H) (registry : Word → Option Word)

/-- The state in which a call returns. -/
def returned {A : Type} : Outcome Exn (Manager H) A → Option (Manager H)
  | .value _ m => some m
  | .thrown _ _ | .stuck => none

/-- A call that returns, in the current session or as the start of the next. -/
def step (P : Platform) (I : InnerManager H N) (m : Manager H) : Label H → Option (Manager H)
  | .grow env minBytes => returned ((grow P I env minBytes).run m)
  | .growBackground env => returned ((growBackground P I env).run m)
  | .reopen env registry =>
      returned ((openAllSegmentsMapped P I env).run (.empty false m.table registry))

def OnPlatform (_ : Manager H) : Label H → Prop
  | .grow env _ | .growBackground env => SizesMapped env
  | .reopen _ _ => True

theorem returned_eq_some {A : Type} {o : Outcome Exn (Manager H) A} {m : Manager H}
    (h : returned o = some m) : ∃ a, o = .value a m := by
  cases o with
  | value a m' =>
    cases h
    exact ⟨a, rfl⟩
  | thrown e m' => cases h
  | stuck => cases h

/-! ## 2. Growth within a session -/

section growth

variable {P : Platform} {I : InnerManager H N} {env : Env H} {m m' : Manager H} {Q : H → Prop}

/-- A growth appends to the list, or leaves it. -/
structure Extended (Q : H → Prop) (m m' : Manager H) : Prop where
  inStep : InStep Q m'
  listed : segmentsOf m <+: segmentsOf m'

theorem Extended.of_appended (h : Appended P Q m m') : Extended Q m m' := by
  refine ⟨h.inStep, ?_⟩
  rcases h.list with hsame | ⟨chunk, -, hgrown⟩
  · exact hsame ▸ List.prefix_rfl
  · exact hgrown ▸ List.prefix_append _ _

end growth

/-! ## 3. Opening what growth has listed -/

section reopening

variable {P : Platform} {I : InnerManager H N} {env : Env H} {m m' : Manager H}
  {segments : List Segment}

/-- Only the registry may have changed. -/
def SameList (m m' : Manager H) : Prop := ∃ registry, m' = { m with registry := registry }

/-- Segment 0 is mapped at the size that the table has for it, or at the guess. -/
theorem openPrimary_maps {seg0 : Mapping × Word}
    (h : (openPrimary P env).run m = .value seg0 m') :
    env.openShmChunk seg0.2 0 = some seg0.1 ∧
      seg0.2 = umax (m.table.entries 0).size kMinSegmentSize ∧ SameList m m' := by
  unfold openPrimary at h
  cases hguess : env.openShmChunk kMinSegmentSize 0 with
  | none =>
    simp only [hguess] at h
    cases h
  | some guess =>
    simp only [hguess, register, unregister, Call.run_modify_bind, Call.run_read_bind] at h
    split at h
    · cases h
    · split at h
      · rename_i hlarge
        rw [Call.run_modify_bind] at h
        cases hmap : env.openShmChunk (m.table.entries 0).size 0 with
        | none =>
          simp only [hmap] at h
          cases h
        | some mapping =>
          simp only [hmap] at h
          cases h
          refine ⟨hmap, ?_, _, rfl⟩
          rw [umax, if_neg (BitVec.not_lt.mpr (BitVec.le_of_lt hlarge))]
      · rename_i hsmall
        cases h
        refine ⟨hguess, BitVec.eq_of_toNat_eq ?_, _, rfl⟩
        have hle := BitVec.le_def.mp (BitVec.not_lt.mp hsmall)
        rw [umax_toNat]
        exact (Nat.max_eq_right hle).symm

/-- The entry of sub-segment 0 decides whether the guess is mapped again. -/
theorem openPrimary_value (hsize : ¬ (m.table.entries 0).size < kMinSegmentSize)
    {seg0 : Mapping × Word} (h : (openPrimary P env).run m = .value seg0 m') :
    seg0.2 = (m.table.entries 0).size ∧ SameList m m' := by
  obtain ⟨-, hseg0, hsame⟩ := openPrimary_maps h
  rw [umax, if_neg hsize] at hseg0
  exact ⟨hseg0, hsame⟩

theorem openPrimary_returns (hmagic : m.table.magic = kSegmentTableMagic)
    (hguess : (env.openShmChunk kMinSegmentSize 0).isSome = true)
    (hmap : (env.openShmChunk (m.table.entries 0).size 0).isSome = true) :
    ∃ seg0 m', (openPrimary P env).run m = .value seg0 m' := by
  obtain ⟨guess, hguess⟩ := Option.isSome_iff_exists.mp hguess
  obtain ⟨mapping, hmap⟩ := Option.isSome_iff_exists.mp hmap
  unfold openPrimary
  simp only [hguess, register, unregister, Call.run_modify_bind, Call.run_read_bind, hmagic,
    ne_eq, not_true, if_false]
  split
  · simp only [Call.run_modify_bind, hmap]
    exact ⟨_, _, rfl⟩
  · exact ⟨_, _, rfl⟩

/-- The loop over the missing entries appends them in order. -/
theorem discoverLoop_value {entries : List FileRange}
    (h : (discoverLoop P I env entries).run m = .value () m') :
    segmentsOf m' = segmentsOf m ++ entries.map (fun e => ⟨e, false⟩) ∧
      m'.table = m.table ∧ m'.anon = m.anon ∧ m'.listHeld = m.listHeld := by
  induction entries generalizing m with
  | nil =>
    cases h
    simp
  | cons e rest ih =>
    cases hmap : env.openShmChunk e.size e.fileOffset with
    | none =>
      rw [discoverLoop_fails hmap] at h
      cases h
    | some mapping =>
      rw [discoverLoop_maps hmap] at h
      obtain ⟨hsegs, htable, hanon, hlist⟩ := ih h
      refine ⟨?_, htable, hanon, hlist⟩
      rw [hsegs]
      simp [segmentsOf, withChunk]

theorem discoverLoop_returns {entries : List FileRange}
    (hmaps : ∀ e ∈ entries, (env.openShmChunk e.size e.fileOffset).isSome = true) :
    ∃ m', (discoverLoop P I env entries).run m = .value () m' := by
  induction entries generalizing m with
  | nil => exact ⟨m, rfl⟩
  | cons e rest ih =>
    obtain ⟨he, hrest⟩ := List.forall_mem_cons.mp hmaps
    obtain ⟨mapping, hmap⟩ := Option.isSome_iff_exists.mp he
    rw [discoverLoop_maps hmap]
    exact ih hrest

/-- Opening rebuilds the list that the table lists. -/
theorem open_value {Q : H → Prop} {table : SegmentTable} {registry : Word → Option Word}
    (hlists : Lists table segments) (hg : Grown segments) (hQ : ∀ smgr, Q smgr)
    (h : (openAllSegmentsMapped P I env).run (.empty false table registry) = .value () m') :
    InStep Q m' ∧ segmentsOf m' = segments := by
  obtain ⟨s0, rest, rfl, hs0, hmin, hrest⟩ := hlists.primary hg
  obtain ⟨seg0, m₁, hprimary, hloop⟩ := Call.run_bind_eq_value h
  obtain ⟨hsize, registry', rfl⟩ := openPrimary_value (by rw [hs0] at hmin; exact hmin) hprimary
  rw [pushPrimary, Call.run_modify_bind, Call.run_read_bind] at hloop
  obtain ⟨hsegs, htable, hanon, hlist⟩ := discoverLoop_value hloop
  have hlisted : segmentsOf m' = s0 :: rest := by
    rw [hsegs, hs0, hrest]
    simp [segmentsOf, Manager.empty, hsize]
  refine ⟨⟨hanon, hlist, hlisted ▸ hg, ?_, fun info _ => hQ info.smgr⟩, hlisted⟩
  rw [htable, hlisted]
  exact hlists

theorem open_returns {table : SegmentTable} (registry : Word → Option Word)
    (hlists : Lists table segments) (hg : Grown segments)
    (hguess : (env.openShmChunk kMinSegmentSize 0).isSome = true)
    (hmaps : ∀ r ∈ rangesOf segments, (env.openShmChunk r.size r.fileOffset).isSome = true) :
    ∃ m', (openAllSegmentsMapped P I env).run (.empty false table registry) = .value () m' := by
  obtain ⟨s0, rest, rfl, hs0, hmin, hrest⟩ := hlists.primary hg
  obtain ⟨h0, hentries⟩ := List.forall_mem_cons.mp hmaps
  rw [hs0] at h0 hmin
  obtain ⟨seg0, m₁, hprimary⟩ :=
    openPrimary_returns (P := P) (m := .empty false table registry) hlists.magic hguess h0
  obtain ⟨-, registry', rfl⟩ := openPrimary_value hmin hprimary
  rw [openAllSegmentsMapped, Call.run_bind_value hprimary, pushPrimary, Call.run_modify_bind,
    Call.run_read_bind]
  apply discoverLoop_returns
  intro e he
  apply hentries e
  show e ∈ rangesOf rest
  rw [hrest, rangesOf, List.map_map]
  exact List.mem_map.mpr ⟨e, he, rfl⟩

theorem extended_step {Q : H → Prop} {l : Label H} (h : InStep Q m) (hQ : ∀ smgr, Q smgr)
    (henv : OnPlatform m l) (hstep : step P I m l = some m') : Extended Q m m' := by
  cases l with
  | grow env minBytes =>
    obtain ⟨u, hrun⟩ := returned_eq_some hstep
    exact .of_appended (h.grow henv (fun size => hQ _) (by rw [hrun]; rfl))
  | growBackground env =>
    obtain ⟨u, hrun⟩ := returned_eq_some hstep
    exact .of_appended (h.growBackground henv (fun size => hQ _) (by rw [hrun]; rfl))
  | reopen env registry =>
    obtain ⟨u, hrun⟩ := returned_eq_some hstep
    obtain ⟨hm', hsegs⟩ := open_value h.lists h.grown hQ hrun
    exact ⟨hm', hsegs ▸ List.prefix_rfl⟩

/-- What one session has listed, a later one lists at the same place. -/
theorem extended_steps {Q : H → Prop} (h : InStep Q m) (hQ : ∀ smgr, Q smgr)
    (hrun : Steps (step P I) OnPlatform m m') : Extended Q m m' := by
  induction hrun with
  | refl => exact ⟨h, List.prefix_rfl⟩
  | tail _ henv hstep ih =>
    have hnext := extended_step ih.inStep hQ henv hstep
    exact ⟨hnext.inStep, ih.listed.trans hnext.listed⟩

/-- A segment keeps the file offset of its inner manager as long as it keeps its
    place in the list. -/
theorem managerFileOffset_of_prefix (I : InnerManager H N) (h : segmentsOf m <+: segmentsOf m')
    {i : Nat} (hi : i < m.segments.length) : ∃ hi' : i < m'.segments.length,
      managerFileOffset I m'.segments[i] = managerFileOffset I m.segments[i] := by
  have hlen : i < (segmentsOf m).length := by simpa [segmentsOf] using hi
  have hi' : i < m'.segments.length := by
    simpa [segmentsOf] using Nat.lt_of_lt_of_le hlen h.length_le
  refine ⟨hi', ?_⟩
  have hsame := h.getElem hlen
  simp only [segmentsOf, List.getElem_map] at hsame
  simp only [managerFileOffset, SegInfo.smgrOffset, hsame]

end reopening

/-! ## 4. Result -/

section result

variable {P : Platform} {I : InnerManager H N} {env : Env H} {m₀ m₁ m : Manager H}

/-- An opener can open what the sessions before it leave, rebuilds their list of
    segments, and finds the inner manager of every segment at the file offset it
    has had since it was constructed. -/
theorem reopening_rebuilds_list {table : SegmentTable} {registry : Word → Option Word}
    {initialSize : Word} (opener : Env H) (registry' : Word → Option Word) (henv : SizesMapped env)
    (hcreate : (constructCreator P I env initialSize).run (.empty false table registry) =
      .value () m₀)
    (hbefore : Steps (step P I) OnPlatform m₀ m₁) (hafter : Steps (step P I) OnPlatform m₁ m) :
    ((opener.openShmChunk kMinSegmentSize 0).isSome = true →
      (∀ info ∈ m.segments, (opener.openShmChunk info.size info.fileOffset).isSome = true) →
      ∃ m', step P I m (.reopen opener registry') = some m') ∧
    ∀ m', step P I m (.reopen opener registry') = some m' →
      segmentsOf m' = segmentsOf m ∧
      ∀ (i : Nat) (h : i < m₁.segments.length), ∃ h' : i < m'.segments.length,
        managerFileOffset I m'.segments[i] = managerFileOffset I m₁.segments[i] := by
  have hm₀ : InStep (fun _ => True) m₀ := .created henv (fun _ => trivial) hcreate
  have hm₁ := extended_steps hm₀ (fun _ => trivial) hbefore
  have hm := extended_steps hm₁.inStep (fun _ => trivial) hafter
  constructor
  · intro hguess hmaps
    have hranges : ∀ r ∈ rangesOf (segmentsOf m),
        (opener.openShmChunk r.size r.fileOffset).isSome = true := by
      intro r hr
      simp only [rangesOf, segmentsOf, List.map_map, List.mem_map] at hr
      obtain ⟨info, hinfo, rfl⟩ := hr
      exact hmaps info hinfo
    obtain ⟨m', hrun⟩ := open_returns (P := P) (I := I) registry'
      hm.inStep.lists hm.inStep.grown hguess hranges
    exact ⟨m', congrArg returned hrun⟩
  · intro m' hstep
    obtain ⟨u, hrun⟩ := returned_eq_some hstep
    obtain ⟨-, hsegs⟩ := open_value hm.inStep.lists hm.inStep.grown
      (fun _ => trivial : ∀ smgr : H, (fun _ => True) smgr) hrun
    refine ⟨hsegs, fun i h => ?_⟩
    exact managerFileOffset_of_prefix I (hsegs ▸ hm.listed) h

end result

/-- A creator and an opener grow the file of 2 MiB; the next one opens it. -/
theorem two_sessions_rebuilt : ∃ m m' : Manager Arena, m.segments.length = 3 ∧
    segmentsOf m' = segmentsOf m := by
  let schedule : List (Label Arena) :=
    [.grow boundedEnv 0x400000, .reopen boundedEnv fun _ => none, .grow boundedEnv 0x1000000]
  let empty : Manager Arena := .empty false .blank fun _ => none
  have hcreate : ∃ m, (constructCreator fourKiBPages arena boundedEnv 0x200000).run empty =
      .value () m := ⟨_, rfl⟩
  obtain ⟨m₀, hm₀⟩ := hcreate
  have hex : ∃ m, Steps (step fourKiBPages arena) OnPlatform m₀ m ∧
      decide (m.segments.length = 3 ∧ ∀ info ∈ m.segments,
        (boundedEnv.openShmChunk info.size info.fileOffset).isSome = true) = true := by
    apply Steps.exists_of_replay_labels schedule
    · intro l hl a
      simp only [schedule, List.mem_cons, List.not_mem_nil, or_false] at hl
      rcases hl with rfl | rfl | rfl
      · exact boundedEnv_sizesMapped
      · trivial
      · exact boundedEnv_sizesMapped
    · cases hm₀
      decide +kernel
  obtain ⟨m, hrun, hm⟩ := hex
  obtain ⟨hlength, hmaps⟩ := of_decide_eq_true hm
  have hopened := reopening_rebuilds_list boundedEnv (fun _ => none) boundedEnv_sizesMapped hm₀
    (.refl _) hrun
  obtain ⟨m', hstep⟩ := hopened.1 rfl hmaps
  exact ⟨m, m', hlength, (hopened.2 m' hstep).1⟩

end Memnon.Sessions
