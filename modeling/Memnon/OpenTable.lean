import Memnon.FileReader
import Memnon.ManagerReentry

/-!
# What the table of a file is checked for

The table is whatever the file holds. `open_all_segments` compares the magic number
and nothing else, and both it and `lazy_discover_growth` walk from one entry to the
next up to `count`. Here they keep the indices of the entries that they read, with
the array of entries continued by the memory behind it.
-/

namespace Memnon.OpenTable

open Memnon.Lib

variable {H N A : Type}

/-! ## 1. Calls that keep what they read -/

abbrev Reads (H A : Type) := Call Exn (Manager H × List Nat) A

/-- A call that reads no entry. -/
def quietly (c : Op H A) : Reads H A := ⟨fun s =>
  match c.run s.1 with
  | .value a m => .value a (m, s.2)
  | .thrown e m => .thrown e (m, s.2)
  | .stuck => .stuck⟩

/-- `tbl->entries[i]`. -/
def readEntry (i : Nat) : Reads H FileRange :=
  ⟨fun s => .value (s.1.table.entries i) (s.1, s.2 ++ [i])⟩

/-- `list_mtx_`. -/
def listMtx (H : Type) : Mutex (Manager H × List Nat) where
  held s := s.1.listHeld
  setHeld b s := ((Memnon.listMtx H).setHeld b s.1, s.2)
  setHeld_setHeld _ _ _ := rfl
  setHeld_held _ := rfl

section functions

variable (P : Platform) (I : InnerManager H N) (env : Env H)

/-- The first part of `open_all_segments`. -/
def openPrimary : Reads H (Mapping × Word) :=
  match env.openShmChunk kMinSegmentSize 0 with
  | none => .raise .runtimeError
  | some guess => do
      quietly (register P guess kMinSegmentSize)
      let s ← .read
      if s.1.table.magic ≠ kSegmentTableMagic then .raise .runtimeError
      else
        let e ← readEntry 0
        if e.size > kMinSegmentSize then do
          quietly (unregister P guess kMinSegmentSize)
          match env.openShmChunk e.size 0 with
          | none => .raise .badAlloc
          | some mapping => do
              quietly (register P mapping e.size)
              return (mapping, e.size)
        else return (guess, kMinSegmentSize)

/-- The loop over the entries from `i` on, `n` of them; it adds up their sizes. -/
def mapEntries : Nat → Nat → Word → Reads H Word
  | _, 0, mappedSize => return mappedSize
  | i, n + 1, mappedSize => do
      let e ← readEntry i
      quietly (addSegmentShm P I env e.fileOffset e.size false false false)
      mapEntries (i + 1) n (mappedSize + e.size)

def openAllSegments : Reads H Unit := do
  let seg0 ← openPrimary P env
  quietly (pushPrimary env seg0)
  let s ← .read
  let _ ← mapEntries P I env 1 (s.1.table.count - 1) 0
  return ()

/-- What `lazy_discover_growth` does with `list_mtx_` locked. -/
def discoverLocked (requiredFileOffset : Word) : Reads H Bool := do
  let s ← .read
  let currentMappedSize := getSizeUnlocked (fileRanges s.1.segments)
  if requiredFileOffset < currentMappedSize then return true
  else do
    let currentIdx := s.1.segments.length
    let mappedSize ←
      mapEntries P I env currentIdx (s.1.table.count - currentIdx) currentMappedSize
    return decide (currentIdx < s.1.table.count) && decide (requiredFileOffset < mappedSize)

def lazyDiscoverGrowth (requiredFileOffset : Word) : Reads H Bool := do
  let s ← .read
  if s.1.anon then return false
  else .guarded (listMtx H) (discoverLocked P I env requiredFileOffset)

end functions

/-! ## 2. The same calls -/

/-- What a call does, without what it has read. -/
def forget : Outcome Exn (Manager H × List Nat) A → Outcome Exn (Manager H) A
  | .value a s => .value a s.1
  | .thrown e s => .thrown e s.1
  | .stuck => .stuck

section same

variable {P : Platform} {I : InnerManager H N} {env : Env H} {m : Manager H} {log : List Nat}

theorem forget_quietly {c : Op H A} : forget ((quietly c).run (m, log)) = c.run m := by
  simp only [quietly]
  cases c.run m <;> rfl

/-- A call that does the same as another one up to what it reads, then one that does
    too. -/
theorem forget_bind {B : Type} {c : Reads H A} {d : Op H A} {f : A → Reads H B} {g : A → Op H B}
    (hc : forget (c.run (m, log)) = d.run m)
    (hf : ∀ a m' log', c.run (m, log) = .value a (m', log') →
      forget ((f a).run (m', log')) = (g a).run m') :
    forget ((c >>= f).run (m, log)) = (d >>= g).run m := by
  cases hrun : c.run (m, log) with
  | value a s =>
    obtain ⟨m', log'⟩ := s
    rw [hrun] at hc
    rw [Call.run_bind_value hrun, Call.run_bind_value hc.symm]
    exact hf a m' log' hrun
  | thrown e s =>
    rw [hrun] at hc
    rw [Call.run_bind_thrown hrun, Call.run_bind_thrown hc.symm]
    rfl
  | stuck =>
    rw [hrun] at hc
    rw [Call.run_bind_stuck hrun, Call.run_bind_stuck hc.symm]
    rfl

theorem forget_openPrimary :
    forget ((openPrimary P env).run (m, log)) = (Memnon.openPrimary P env).run m := by
  unfold openPrimary Memnon.openPrimary
  cases env.openShmChunk kMinSegmentSize 0 with
  | none => rfl
  | some guess =>
    apply forget_bind forget_quietly
    rintro ⟨⟩ m₁ log₁ -
    rw [Call.run_read_bind, Call.run_read_bind]
    by_cases hmagic : m₁.table.magic ≠ kSegmentTableMagic
    · rw [if_pos hmagic, if_pos hmagic]
      rfl
    · rw [if_neg hmagic, if_neg hmagic]
      have hread : (readEntry 0).run (m₁, log₁) =
          .value (m₁.table.entries 0) (m₁, log₁ ++ [0]) := rfl
      rw [Call.run_bind_value hread]
      by_cases hlarge : (m₁.table.entries 0).size > kMinSegmentSize
      · rw [if_pos hlarge, if_pos hlarge]
        apply forget_bind forget_quietly
        rintro ⟨⟩ m₂ log₂ -
        cases env.openShmChunk (m₁.table.entries 0).size 0 with
        | none => rfl
        | some mapping => rfl
      · rw [if_neg hlarge, if_neg hlarge]
        rfl

/-- What a mapping does to the manager, if it succeeds. -/
theorem run_addSegmentShm (P : Platform) (I : InnerManager H N) (env : Env H) (m : Manager H)
    (e : FileRange) :
    (∃ m', (addSegmentShm P I env e.fileOffset e.size false false false).run m = .value () m' ∧
      m'.table = m.table ∧ (env.openShmChunk e.size e.fileOffset).isSome = true) ∨
    ((addSegmentShm P I env e.fileOffset e.size false false false).run m = .thrown .runtimeError m ∧
      (env.openShmChunk e.size e.fileOffset).isSome = false) := by
  cases hmap : env.openShmChunk e.size e.fileOffset with
  | none => exact .inr ⟨addSegmentShm_fails hmap false, rfl⟩
  | some mapping => exact .inl ⟨_, addSegmentShm_maps hmap false, rfl, rfl⟩

theorem run_mapEntries_succ (P : Platform) (I : InnerManager H N) (env : Env H) (m : Manager H)
    (log : List Nat) (i n : Nat) (mappedSize : Word) :
    (∃ m', (mapEntries P I env i (n + 1) mappedSize).run (m, log) =
        (mapEntries P I env (i + 1) n (mappedSize + (m.table.entries i).size)).run
          (m', log ++ [i]) ∧
      (addSegmentShm P I env (m.table.entries i).fileOffset (m.table.entries i).size
        false false false).run m = .value () m' ∧ m'.table = m.table ∧
      (env.openShmChunk (m.table.entries i).size (m.table.entries i).fileOffset).isSome = true) ∨
    ((mapEntries P I env i (n + 1) mappedSize).run (m, log) =
        .thrown .runtimeError (m, log ++ [i]) ∧
      (addSegmentShm P I env (m.table.entries i).fileOffset (m.table.entries i).size
        false false false).run m = .thrown .runtimeError m ∧
      (env.openShmChunk (m.table.entries i).size (m.table.entries i).fileOffset).isSome =
        false) := by
  have hread : (readEntry i).run (m, log) = .value (m.table.entries i) (m, log ++ [i]) := rfl
  rw [mapEntries, Call.run_bind_value hread]
  rcases run_addSegmentShm P I env m (m.table.entries i) with
    ⟨m', hadd, htable, hmaps⟩ | ⟨hadd, hfails⟩
  · left
    have hquiet : (quietly (addSegmentShm P I env (m.table.entries i).fileOffset
        (m.table.entries i).size false false false)).run (m, log ++ [i]) =
        .value () (m', log ++ [i]) := by
      simp only [quietly, hadd]
    exact ⟨m', Call.run_bind_value hquiet, hadd, htable, hmaps⟩
  · right
    have hquiet : (quietly (addSegmentShm P I env (m.table.entries i).fileOffset
        (m.table.entries i).size false false false)).run (m, log ++ [i]) =
        .thrown .runtimeError (m, log ++ [i]) := by
      simp only [quietly, hadd]
    exact ⟨Call.run_bind_thrown hquiet, hadd, hfails⟩

/-- What a call does, without its value. -/
def done : Outcome Exn (Manager H × List Nat) A → Outcome Exn (Manager H) Unit
  | .value _ s => .value () s.1
  | .thrown e s => .thrown e s.1
  | .stuck => .stuck

/-- The loop over the entries maps them as `discoverLoop` does. -/
theorem done_mapEntries {i n : Nat} {mappedSize : Word} :
    done ((mapEntries P I env i n mappedSize).run (m, log)) =
      (discoverLoop P I env ((List.range' i n).map m.table.entries)).run m := by
  induction n generalizing m log i mappedSize with
  | zero => rfl
  | succ n ih =>
    rw [List.range'_succ, List.map_cons, discoverLoop]
    rcases run_mapEntries_succ P I env m log i n mappedSize with
      ⟨m', hrun, hadd, htable, -⟩ | ⟨hrun, hadd, -⟩
    · rw [hrun, ih, Call.run_bind_value hadd, htable]
    · rw [hrun, Call.run_bind_thrown hadd]
      rfl

/-- The manager that `open_all_segments` makes, whatever it reads. -/
theorem forget_openAllSegments :
    forget ((openAllSegments P I env).run (m, log)) = (openAllSegmentsMapped P I env).run m := by
  apply forget_bind forget_openPrimary
  intro seg0 m₁ log₁ _
  apply forget_bind forget_quietly
  rintro ⟨⟩ m₂ log₂ -
  rw [Call.run_read_bind, Call.run_read_bind, SharedFile.published_drop, ← done_mapEntries]
  cases hrun : (mapEntries P I env 1 (m₂.table.count - 1) 0).run (m₂, log₂) with
  | value a s =>
    rw [Call.run_bind_value hrun]
    rfl
  | thrown e s =>
    rw [Call.run_bind_thrown hrun]
    rfl
  | stuck =>
    rw [Call.run_bind_stuck hrun]
    rfl

/-- The size that the loop returns. -/
theorem mapEntries_total {i n : Nat} {mappedSize total : Word} {s : Manager H × List Nat}
    (h : (mapEntries P I env i n mappedSize).run (m, log) = .value total s) :
    total = ((List.range' i n).map m.table.entries).foldl (fun total e => total + e.size)
      mappedSize := by
  induction n generalizing m log i mappedSize with
  | zero =>
    cases h
    rfl
  | succ n ih =>
    rw [List.range'_succ, List.map_cons, List.foldl_cons]
    rcases run_mapEntries_succ P I env m log i n mappedSize with
      ⟨m', hrun, -, htable, -⟩ | ⟨hrun, -, -⟩
    · rw [hrun] at h
      rw [ih h, htable]
    · rw [hrun] at h
      cases h

theorem forget_discoverLocked {required : Word} :
    forget ((discoverLocked P I env required).run (m, log)) =
      (do
        let m ← .read
        let (segments, found) :=
          Memnon.lazyDiscoverGrowth m.table (m.segments.map SegInfo.toSegment) required
        discoverLoop P I env ((segments.drop m.segments.length).map Segment.toFileRange)
        return found : Op H Bool).run m := by
  have hentries := discovered_entries m.table (m.segments.map SegInfo.toSegment) required
  have hranges : (m.segments.map SegInfo.toSegment).map Segment.toFileRange =
      fileRanges m.segments := by
    simp [fileRanges]
  rw [hranges, List.length_map] at hentries
  show _ = (discoverLoop P I env _ >>= fun _ => pure _).run m
  rw [hentries, discoverLocked, Call.run_read_bind]
  by_cases hmapped : required < getSizeUnlocked (fileRanges m.segments)
  · simp only [hmapped, if_true, Memnon.lazyDiscoverGrowth, hranges]
    rfl
  · simp only [hmapped, if_false, Memnon.lazyDiscoverGrowth, hranges, List.length_map]
    rw [SharedFile.published_drop]
    have hdone : done ((mapEntries P I env m.segments.length
          (m.table.count - m.segments.length)
          (getSizeUnlocked (fileRanges m.segments))).run (m, log)) =
        (discoverLoop P I env ((List.range' m.segments.length
          (m.table.count - m.segments.length)).map m.table.entries)).run m := done_mapEntries
    cases hrun : (mapEntries P I env m.segments.length (m.table.count - m.segments.length)
        (getSizeUnlocked (fileRanges m.segments))).run (m, log) with
    | value total s =>
      rw [hrun] at hdone
      rw [Call.run_bind_value hrun, Call.run_bind_value hdone.symm, mapEntries_total hrun]
      have hsome : (!((List.range' m.segments.length
            (m.table.count - m.segments.length)).map m.table.entries).isEmpty) =
          decide (m.segments.length < m.table.count) := by
        rw [Bool.eq_iff_iff]
        simp
        omega
      rw [hsome]
      rfl
    | thrown e s =>
      rw [hrun] at hdone
      rw [Call.run_bind_thrown hrun, Call.run_bind_thrown hdone.symm]
      rfl
    | stuck =>
      rw [hrun] at hdone
      rw [Call.run_bind_stuck hrun, Call.run_bind_stuck hdone.symm]
      rfl

theorem forget_guarded {c : Reads H A} {d : Op H A}
    (h : forget (c.run ((Memnon.listMtx H).setHeld true m, log)) =
      d.run ((Memnon.listMtx H).setHeld true m)) :
    forget ((Call.guarded (listMtx H) c).run (m, log)) =
      (Call.guarded (Memnon.listMtx H) d).run m := by
  by_cases hheld : m.listHeld = true
  · have hreads : (listMtx H).held (m, log) = true := hheld
    have hplain : (Memnon.listMtx H).held m = true := hheld
    rw [Call.guarded_held hreads, Call.guarded_held hplain]
    rfl
  · have hreads : (listMtx H).held (m, log) = false := eq_false_of_ne_true hheld
    have hplain : (Memnon.listMtx H).held m = false := hreads
    cases hrun : c.run ((Memnon.listMtx H).setHeld true m, log) with
    | value a s =>
      rw [hrun] at h
      rw [Call.guarded_value hreads hrun, Call.guarded_value hplain h.symm]
      rfl
    | thrown e s =>
      rw [hrun] at h
      rw [Call.guarded_thrown hreads hrun, Call.guarded_thrown hplain h.symm]
      rfl
    | stuck =>
      rw [hrun] at h
      rw [(Call.guarded_eq_stuck hreads).mpr hrun, (Call.guarded_eq_stuck hplain).mpr h.symm]
      rfl

/-- The answer of `lazy_discover_growth` and the manager that it leaves, whatever it
    reads. -/
theorem forget_lazyDiscoverGrowth {required : Word} :
    forget ((lazyDiscoverGrowth P I env required).run (m, log)) =
      (discoverGrowth P I env required).run m := by
  rw [lazyDiscoverGrowth, discoverGrowth, Call.run_read_bind, Call.run_read_bind]
  by_cases hanon : m.anon = true
  · rw [if_pos hanon, if_pos hanon]
    rfl
  · rw [if_neg hanon, if_neg hanon]
    exact forget_guarded forget_discoverLocked

end same

/-! ## 3. What the loop reads -/

/-- The mapping of an entry succeeds. -/
def MapsEntry (env : Env H) (t : SegmentTable) (i : Nat) : Prop :=
  (env.openShmChunk (t.entries i).size (t.entries i).fileOffset).isSome = true

instance (env : Env H) (t : SegmentTable) (i : Nat) : Decidable (MapsEntry env t i) :=
  inferInstanceAs (Decidable (_ = true))

/-- When a call ends it has read no entry behind the array. -/
def ReadsInBounds (o : Outcome Exn (Manager H × List Nat) A) : Prop :=
  ∀ s ∈ o.state, ∀ i ∈ s.2, i < kMaxSubSegments

section loop

variable {P : Platform} {I : InnerManager H N} {env : Env H} {m : Manager H} {log : List Nat}
  {i n : Nat} {mappedSize : Word}

/-- The loop reads all its entries, or up to the first that cannot be mapped. -/
theorem mapEntries_cases (P : Platform) (I : InnerManager H N) (env : Env H) (m : Manager H)
    (log : List Nat) (i n : Nat) (mappedSize : Word) :
    (∃ total m', (mapEntries P I env i n mappedSize).run (m, log) =
        .value total (m', log ++ List.range' i n) ∧
      ∀ j, i ≤ j → j < i + n → MapsEntry env m.table j) ∨
    (∃ j m', i ≤ j ∧ j < i + n ∧ (mapEntries P I env i n mappedSize).run (m, log) =
        .thrown .runtimeError (m', log ++ List.range' i (j + 1 - i)) ∧
      ¬ MapsEntry env m.table j ∧ ∀ j', i ≤ j' → j' < j → MapsEntry env m.table j') := by
  induction n generalizing m log i mappedSize with
  | zero =>
    left
    refine ⟨mappedSize, m, by simp [mapEntries], ?_⟩
    intro j hlow hhigh
    omega
  | succ n ih =>
    rcases run_mapEntries_succ P I env m log i n mappedSize with
      ⟨m₁, hrun, -, htable, hmaps⟩ | ⟨hrun, -, hfails⟩
    · have hfirst : ∀ j, i ≤ j → j < i + 1 → MapsEntry env m.table j := by
        intro j hlow hhigh
        obtain rfl : j = i := by omega
        exact hmaps
      rcases ih m₁ (log ++ [i]) (i + 1) (mappedSize + (m.table.entries i).size) with
        ⟨total, m', hrest, hall⟩ | ⟨j, m', hlow, hhigh, hrest, hnot, hbefore⟩
      · left
        refine ⟨total, m', ?_, ?_⟩
        · rw [hrun, hrest, List.append_assoc, List.range'_succ]
          rfl
        · intro j hlow hhigh
          rw [htable] at hall
          by_cases hj : j < i + 1
          · exact hfirst j hlow hj
          · exact hall j (Nat.le_of_not_lt hj) (by omega)
      · right
        rw [htable] at hnot hbefore
        refine ⟨j, m', by omega, by omega, ?_, hnot, ?_⟩
        · have hlength : j + 1 - i = j + 1 - (i + 1) + 1 := by omega
          rw [hrun, hrest, List.append_assoc, hlength, List.range'_succ]
          rfl
        · intro j' hlow' hhigh'
          by_cases hj : j' < i + 1
          · exact hfirst j' hlow' hj
          · exact hbefore j' (Nat.le_of_not_lt hj) hhigh'
    · right
      refine ⟨i, m, Nat.le_refl i, by omega, ?_, ?_, ?_⟩
      · have hone : i + 1 - i = 1 := by omega
        rw [hrun, hone]
        rfl
      · simp [MapsEntry, hfails]
      · intro j hlow hhigh
        omega

/-- When the loop stays inside the array. -/
theorem mapEntries_inBounds_iff (hlog : ∀ j ∈ log, j < kMaxSubSegments) :
    ReadsInBounds ((mapEntries P I env i n mappedSize).run (m, log)) ↔
      n = 0 ∨ i + n ≤ kMaxSubSegments ∨
        ∃ j, i ≤ j ∧ j < i + n ∧ j < kMaxSubSegments ∧ ¬ MapsEntry env m.table j := by
  rcases mapEntries_cases P I env m log i n mappedSize with
    ⟨total, m', hrun, hall⟩ | ⟨j, m', hlow, hhigh, hrun, hnot, hbefore⟩
  · rw [hrun]
    constructor
    · intro hreads
      by_cases hn : n = 0
      · exact .inl hn
      · right
        left
        have hlast := hreads _ rfl (i + n - 1) (by simp; omega)
        omega
    · intro hcond s hs j hj
      cases hs
      rcases List.mem_append.mp hj with hold | hnew
      · exact hlog j hold
      · rw [List.mem_range'_1] at hnew
        rcases hcond with hn | hle | ⟨j', hlow', hhigh', -, hnot'⟩
        · omega
        · omega
        · exact absurd (hall j' hlow' hhigh') hnot'
  · rw [hrun]
    constructor
    · intro hreads
      right
      right
      refine ⟨j, hlow, hhigh, hreads _ rfl j (by simp; omega), hnot⟩
    · intro hcond s hs j' hj'
      cases hs
      rcases List.mem_append.mp hj' with hold | hnew
      · exact hlog j' hold
      · rw [List.mem_range'_1] at hnew
        rcases hcond with hn | hle | ⟨j₁, hlow₁, hhigh₁, hlt₁, hnot₁⟩
        · omega
        · omega
        · -- the loop stops at the first entry that cannot be mapped
          have hfirst : ¬ j₁ < j := fun hlt => hnot₁ (hbefore j₁ hlow₁ hlt)
          omega

end loop

/-! ## 4. What is accepted -/

/-- The conditions under which a table describes a file. -/
structure WellFormed (t : SegmentTable) : Prop where
  magic : t.magic = kSegmentTableMagic
  version : t.version = kSegmentTableVersion
  count_pos : 1 ≤ t.count
  count_le : t.count ≤ kMaxSubSegments
  first : (t.entries 0).fileOffset = 0 ∧ kMinSegmentSize ≤ (t.entries 0).size
  contiguous : ∀ i, i + 1 < t.count →
    (t.entries i).fileOffset.toNat + (t.entries i).size.toNat = (t.entries (i + 1)).fileOffset.toNat

/-- The magic number is right, and every mapping up to that of entry `n - 1` succeeds. -/
structure MappedBelow (env : Env H) (t : SegmentTable) (n : Nat) : Prop where
  guess : (env.openShmChunk kMinSegmentSize 0).isSome = true
  magic : t.magic = kSegmentTableMagic
  primary : (t.entries 0).size > kMinSegmentSize →
    (env.openShmChunk (t.entries 0).size 0).isSome = true
  entries : ∀ i, 1 ≤ i → i < n → MapsEntry env t i

/-- No entry behind the array is read, a manager comes of a well-formed table only, and
    without one the constructor throws. -/
structure OpensOnlyWellFormed (o : Outcome Exn (Manager H × List Nat) Unit) (t : SegmentTable) :
    Prop where
  reads : ReadsInBounds o
  accepts : ∀ s, o = .value () s → WellFormed t
  throws : (∀ s, o ≠ .value () s) → ∃ e s, o = .thrown e s

section opening

variable {P : Platform} {I : InnerManager H N} {env : Env H} {t : SegmentTable}
  {registry : Word → Option Word} {m : Manager H} {required : Word}

theorem openPrimary_cases (P : Platform) (env : Env H) (m : Manager H) :
    (∃ seg0 m', (openPrimary P env).run (m, []) = .value seg0 (m', [0]) ∧ m'.table = m.table ∧
      MappedBelow env m.table 1) ∨
    (∃ e m' log, (openPrimary P env).run (m, []) = .thrown e (m', log) ∧ (∀ i ∈ log, i = 0) ∧
      ∀ n, ¬ MappedBelow env m.table n) := by
  unfold openPrimary
  cases hguess : env.openShmChunk kMinSegmentSize 0 with
  | none =>
    right
    refine ⟨_, m, [], rfl, by simp, fun n hn => ?_⟩
    have hsome := hn.guess
    rw [hguess] at hsome
    cases hsome
  | some guess =>
    let m₁ : Manager H :=
      { m with registry := registerSegment P guess.seg guess.baseVaddr kMinSegmentSize m.registry }
    have hregister : (quietly (register P guess kMinSegmentSize)).run (m, []) =
        .value () (m₁, []) := rfl
    have hread : (readEntry 0).run (m₁, []) = .value (m.table.entries 0) (m₁, [0]) := rfl
    simp only
    rw [Call.run_bind_value hregister, Call.run_read_bind]
    by_cases hmagic : m.table.magic = kSegmentTableMagic
    · rw [if_neg (not_not.mpr hmagic), Call.run_bind_value hread]
      have hno : ∀ i, 1 ≤ i → i < 1 → MapsEntry env m.table i := by
        intro i hlow hhigh
        omega
      by_cases hlarge : (m.table.entries 0).size > kMinSegmentSize
      · rw [if_pos hlarge]
        let m₂ : Manager H :=
          { m₁ with registry := unregisterSegment P guess.baseVaddr kMinSegmentSize m₁.registry }
        have hunregister : (quietly (unregister P guess kMinSegmentSize)).run (m₁, [0]) =
            .value () (m₂, [0]) := rfl
        rw [Call.run_bind_value hunregister]
        cases hmap : env.openShmChunk (m.table.entries 0).size 0 with
        | none =>
          right
          refine ⟨.badAlloc, m₂, [0], rfl, by simp, fun n hn => ?_⟩
          have hsome := hn.primary hlarge
          rw [hmap] at hsome
          cases hsome
        | some mapping =>
          left
          refine ⟨_, _, rfl, rfl, by rw [hguess]; rfl, hmagic, fun _ => ?_, hno⟩
          rw [hmap]
          rfl
      · rw [if_neg hlarge]
        left
        exact ⟨_, m₁, rfl, rfl, by rw [hguess]; rfl, hmagic, fun h => absurd h hlarge, hno⟩
    · rw [if_pos hmagic]
      right
      exact ⟨.runtimeError, m₁, [], rfl, by simp, fun n hn => hmagic hn.magic⟩

theorem MappedBelow.mono {n n' : Nat} (h : MappedBelow env t n) (hle : n' ≤ n) :
    MappedBelow env t n' :=
  ⟨h.guess, h.magic, h.primary, fun i hlow hhigh => h.entries i hlow (Nat.lt_of_lt_of_le hhigh hle)⟩

/-- The first part of the constructor, then the loop. -/
theorem openAllSegments_cases (P : Platform) (I : InnerManager H N) (env : Env H)
    (t : SegmentTable) (registry : Word → Option Word) :
    (∃ m' log, (openAllSegments P I env).run (.empty false t registry, []) =
        .value () (m', log) ∧ MappedBelow env t t.count ∧
        ∀ i, i ∈ log ↔ i = 0 ∨ 1 ≤ i ∧ i < t.count) ∨
    (∃ e m' log, (openAllSegments P I env).run (.empty false t registry, []) =
        .thrown e (m', log) ∧
      ((∀ i ∈ log, i = 0) ∧ (∀ n, ¬ MappedBelow env t n) ∨
        ∃ j, 1 ≤ j ∧ j < t.count ∧ MappedBelow env t j ∧ ¬ MapsEntry env t j ∧
          ∀ i, i ∈ log ↔ i = 0 ∨ 1 ≤ i ∧ i ≤ j)) := by
  rcases openPrimary_cases P env (.empty false t registry) with
    ⟨seg0, m₁, hprimary, htable, hmapped⟩ | ⟨e, m₁, log, hprimary, hlog, hnot⟩
  · let m₂ : Manager H := { m₁ with segments := m₁.segments ++
      [⟨⟨⟨0, seg0.2⟩, true⟩, seg0.1.seg, seg0.1.baseVaddr, env.inPlace ⟨0, seg0.2⟩⟩] }
    have hpush : (quietly (pushPrimary env seg0)).run (m₁, [0]) = .value () (m₂, [0]) := rfl
    have htable₂ : m₂.table = t := htable
    rw [openAllSegments, Call.run_bind_value hprimary, Call.run_bind_value hpush,
      Call.run_read_bind]
    rcases mapEntries_cases P I env m₂ [0] 1 (m₂.table.count - 1) 0 with
      ⟨total, m', hrun, hall⟩ | ⟨j, m', hlow, hhigh, hrun, hnot, hbefore⟩
    · left
      refine ⟨m', _, Call.run_bind_value hrun, ?_, ?_⟩
      · rw [htable₂] at hall
        refine ⟨hmapped.guess, hmapped.magic, hmapped.primary, fun i hlow hhigh => ?_⟩
        exact hall i hlow (by omega)
      · intro i
        rw [List.mem_append, List.mem_singleton, List.mem_range'_1, htable₂]
        omega
    · right
      refine ⟨_, m', _, Call.run_bind_thrown hrun, .inr ⟨j, hlow, ?_, ?_, ?_, ?_⟩⟩
      · rw [htable₂] at hhigh
        omega
      · rw [htable₂] at hbefore
        exact ⟨hmapped.guess, hmapped.magic, hmapped.primary, hbefore⟩
      · rw [htable₂] at hnot
        exact hnot
      · intro i
        rw [List.mem_append, List.mem_singleton, List.mem_range'_1]
        omega
  · right
    refine ⟨e, m₁, log, ?_, .inl ⟨hlog, hnot⟩⟩
    rw [openAllSegments, Call.run_bind_thrown hprimary]

/-- A constructor that comes so far has taken the table as it is. -/
theorem opensOnlyWellFormed_iff :
    OpensOnlyWellFormed ((openAllSegments P I env).run (.empty false t registry, [])) t ↔
      ¬ MappedBelow env t (min t.count kMaxSubSegments) ∨ WellFormed t := by
  rcases openAllSegments_cases P I env t registry with
    ⟨m', log, hrun, hmapped, hlog⟩ | ⟨e, m', log, hrun, hcases⟩
  · rw [hrun]
    constructor
    · intro h
      exact .inr (h.accepts _ rfl)
    · rintro (hnot | hwell)
      · exact absurd (hmapped.mono (Nat.min_le_left _ _)) hnot
      · refine ⟨?_, fun _ _ => hwell, fun h => absurd rfl (h _)⟩
        intro s hs i hi
        cases hs
        have hcount := hwell.count_le
        have hpos : 0 < kMaxSubSegments := by decide
        rcases (hlog i).mp hi with rfl | ⟨-, hlt⟩
        · exact hpos
        · exact Nat.lt_of_lt_of_le hlt hcount
  · rw [hrun]
    have hpos : 0 < kMaxSubSegments := by decide
    rcases hcases with ⟨hzero, hnot⟩ | ⟨j, hlow, hhigh, hmapped, hfails, hlog⟩
    · apply iff_of_true
      · refine ⟨?_, nofun, fun _ => ⟨e, _, rfl⟩⟩
        intro s hs i hi
        cases hs
        exact (hzero i hi).symm ▸ hpos
      · exact .inl (hnot _)
    · constructor
      · intro h
        left
        intro hall
        have hj : j < kMaxSubSegments := h.reads _ rfl j ((hlog j).mpr (.inr ⟨hlow, Nat.le_refl j⟩))
        exact hfails (hall.entries j hlow (Nat.lt_min.mpr ⟨hhigh, hj⟩))
      · intro hcond
        refine ⟨?_, nofun, fun _ => ⟨e, _, rfl⟩⟩
        have hj : j < kMaxSubSegments := by
          rcases hcond with hnot | hwell
          · by_contra hlarge
            apply hnot
            exact hmapped.mono (Nat.le_trans (Nat.min_le_right _ _) (Nat.le_of_not_lt hlarge))
          · exact Nat.lt_of_lt_of_le hhigh hwell.count_le
        intro s hs i hi
        cases hs
        rcases (hlog i).mp hi with rfl | ⟨-, hle⟩
        · exact hpos
        · exact Nat.lt_of_le_of_lt hle hj

theorem readsInBounds_value {a : A} {s : Manager H × List Nat} :
    ReadsInBounds (.value a s) ↔ ∀ i ∈ s.2, i < kMaxSubSegments := by
  constructor
  · intro h
    exact h s rfl
  · intro h s' hs
    cases hs
    exact h

theorem readsInBounds_thrown {e : Exn} {s : Manager H × List Nat} :
    ReadsInBounds (.thrown e s : Outcome Exn (Manager H × List Nat) A) ↔
      ∀ i ∈ s.2, i < kMaxSubSegments := by
  constructor
  · intro h
    exact h s rfl
  · intro h s' hs
    cases hs
    exact h

/-- Locking reads nothing. -/
theorem readsInBounds_guarded {c : Reads H A} {s : Manager H × List Nat}
    (hfree : s.1.listHeld = false) :
    ReadsInBounds ((Call.guarded (listMtx H) c).run s) ↔
      ReadsInBounds (c.run ((listMtx H).setHeld true s)) := by
  have hheld : (listMtx H).held s = false := hfree
  cases hrun : c.run ((listMtx H).setHeld true s) with
  | value a s' =>
    rw [Call.guarded_value hheld hrun, readsInBounds_value, readsInBounds_value]
    rfl
  | thrown e s' =>
    rw [Call.guarded_thrown hheld hrun, readsInBounds_thrown, readsInBounds_thrown]
    rfl
  | stuck =>
    rw [(Call.guarded_eq_stuck hheld).mpr hrun]

theorem discoverLocked_inBounds_iff :
    ReadsInBounds ((discoverLocked P I env required).run (m, [])) ↔
      required < getSizeUnlocked (fileRanges m.segments) ∨
        m.table.count ≤ max m.segments.length kMaxSubSegments ∨
        ∃ i, m.segments.length ≤ i ∧ i < m.table.count ∧ i < kMaxSubSegments ∧
          ¬ MapsEntry env m.table i := by
  rw [discoverLocked, Call.run_read_bind]
  by_cases hmapped : required < getSizeUnlocked (fileRanges m.segments)
  · simp only [hmapped, if_true, true_or, iff_true]
    exact readsInBounds_value.mpr (by simp)
  · simp only [hmapped, if_false, false_or]
    have hpure : ∀ (c : Reads H Word) (f : Word → Bool) s,
        ReadsInBounds ((c >>= fun total => pure (f total)).run s) ↔ ReadsInBounds (c.run s) := by
      intro c f s
      rw [ReadsInBounds, Call.state_bind_pure, ReadsInBounds]
    rw [hpure, mapEntries_inBounds_iff (by simp)]
    by_cases hall : m.table.count ≤ m.segments.length
    · apply iff_of_true
      · left
        omega
      · left
        omega
    · have hsum : m.segments.length + (m.table.count - m.segments.length) =
          m.table.count := by omega
      have hdiff : m.table.count - m.segments.length ≠ 0 := by omega
      have hmax : m.table.count ≤ max m.segments.length kMaxSubSegments ↔
          m.table.count ≤ kMaxSubSegments := by omega
      rw [hsum, hmax]
      simp only [hdiff, false_or]

/-- When a discovery reads entries of the array only. -/
theorem discovery_inBounds_iff (hlist : m.listHeld = false) :
    ReadsInBounds ((lazyDiscoverGrowth P I env required).run (m, [])) ↔
      m.anon = true ∨ required < getSizeUnlocked (fileRanges m.segments) ∨
        m.table.count ≤ max m.segments.length kMaxSubSegments ∨
        ∃ i, m.segments.length ≤ i ∧ i < m.table.count ∧ i < kMaxSubSegments ∧
          ¬ MapsEntry env m.table i := by
  rw [lazyDiscoverGrowth, Call.run_read_bind]
  by_cases hanon : m.anon = true
  · simp only [hanon, if_true, true_or, iff_true]
    exact readsInBounds_value.mpr (by simp)
  · rw [if_neg hanon, readsInBounds_guarded (s := (m, [])) hlist]
    simp only [hanon, Bool.false_eq_true, false_or]
    -- the locked manager has the same table and segments
    exact discoverLocked_inBounds_iff (m := (Memnon.listMtx H).setHeld true m)

/-- When opening takes well-formed tables only and reads inside the array, and when a
    later discovery does, for every table, every manager and every offset. -/
theorem tables_checked_iff (P : Platform) (I : InnerManager H N) (env : Env H) :
    (∀ (t : SegmentTable) (registry : Word → Option Word),
      OpensOnlyWellFormed ((openAllSegments P I env).run (.empty false t registry, [])) t ↔
        ¬ MappedBelow env t (min t.count kMaxSubSegments) ∨ WellFormed t) ∧
    ∀ (m : Manager H) (required : Word), m.listHeld = false →
      (ReadsInBounds ((lazyDiscoverGrowth P I env required).run (m, [])) ↔
        m.anon = true ∨ required < getSizeUnlocked (fileRanges m.segments) ∨
          m.table.count ≤ max m.segments.length kMaxSubSegments ∨
          ∃ i, m.segments.length ≤ i ∧ i < m.table.count ∧ i < kMaxSubSegments ∧
            ¬ MapsEntry env m.table i) := by
  constructor
  · intro t registry
    exact opensOnlyWellFormed_iff
  · intro m required hlist
    exact discovery_inBounds_iff hlist

end opening

/-- A table with `count` entries of 16 MiB, in version `version`. -/
def uniformTable (version : BitVec 32) (count : Nat) : SegmentTable where
  magic := kSegmentTableMagic
  version := version
  capacity := 64#32
  count := count
  entries i := ⟨BitVec.ofNat 64 (i * 0x1000000), 0x1000000⟩

/-- Two contiguous entries are well-formed; a process that has opened the first one may
    look for the second. -/
theorem tables_checked_two :
    OpensOnlyWellFormed ((openAllSegments fourKiBPages arena roomyEnv).run
      (.empty false (uniformTable kSegmentTableVersion 2) (fun _ => none), []))
      (uniformTable kSegmentTableVersion 2) ∧
    ReadsInBounds ((lazyDiscoverGrowth fourKiBPages arena roomyEnv 0x1000000).run
      ({ arenaManager 0x1000000 with
        anon := false, table := uniformTable kSegmentTableVersion 2 }, [])) := by
  have hchecked := tables_checked_iff fourKiBPages arena roomyEnv
  constructor
  · apply (hchecked.1 _ _).mpr
    right
    refine ⟨rfl, rfl, by decide, by decide, by decide, fun i hi => ?_⟩
    obtain rfl : i = 0 := by
      have hcount : (uniformTable kSegmentTableVersion 2).count = 2 := rfl
      omega
    rfl
  · apply (hchecked.2 _ _ rfl).mpr
    right
    right
    left
    decide

theorem uniformTable_mappedBelow (version : BitVec 32) (count n : Nat) :
    MappedBelow roomyEnv (uniformTable version count) n := by
  constructor
  · rfl
  · rfl
  · intro _
    rfl
  · intro i _ _
    rfl

/-- A table of another version is opened; with 65 entries a process reads behind the
    array when it opens the file, and one that has opened it before when it discovers
    the growth. -/
theorem unchecked_tables_accepted :
    ¬ OpensOnlyWellFormed ((openAllSegments fourKiBPages arena roomyEnv).run
      (.empty false (uniformTable 2 1) (fun _ => none), [])) (uniformTable 2 1) ∧
    ¬ ReadsInBounds ((openAllSegments fourKiBPages arena roomyEnv).run
      (.empty false (uniformTable kSegmentTableVersion 65) (fun _ => none), [])) ∧
    ¬ ReadsInBounds ((lazyDiscoverGrowth fourKiBPages arena roomyEnv 0x1000000).run
      ({ arenaManager 0x1000000 with
        anon := false, table := uniformTable kSegmentTableVersion 65 }, [])) := by
  refine ⟨?_, ?_, ?_⟩
  · rw [opensOnlyWellFormed_iff]
    rintro (hnot | hwell)
    · exact hnot (uniformTable_mappedBelow _ _ _)
    · exact absurd hwell.version (by decide)
  · rcases openAllSegments_cases fourKiBPages arena roomyEnv
        (uniformTable kSegmentTableVersion 65) (fun _ => none) with
      ⟨m', log, hrun, -, hlog⟩ | ⟨e, m', log, -, hcases⟩
    · rw [hrun, readsInBounds_value]
      intro hreads
      exact absurd (hreads 64 ((hlog 64).mpr (by decide))) (by decide)
    · rcases hcases with ⟨-, hnot⟩ | ⟨j, -, -, -, hfails, -⟩
      · exact absurd (uniformTable_mappedBelow _ _ 1) (hnot 1)
      · exact absurd rfl hfails
  · rw [discovery_inBounds_iff rfl]
    rintro (hanon | hmapped | hcount | ⟨i, -, -, -, hfails⟩)
    · cases hanon
    · exact absurd hmapped (by decide)
    · exact absurd hcount (by decide)
    · exact absurd rfl hfails

end Memnon.OpenTable
