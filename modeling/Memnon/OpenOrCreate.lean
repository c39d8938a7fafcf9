import Memnon.SegmentTable
import Memnon.Lib.TransitionSystem

/-!
# Opening or creating one name

Any number of processes run the constructor with `open_or_create` on one name.
An attempt to open looks the name up anew for every mapping; when it fails, for
whatever reason, the creator path unlinks what the name is bound to by then and
creates a file exclusively. "Unlink any stale SHM from a previous run" is what
the unlink is for, but nothing checks that the file is stale. Last of all the
manager is registered with the prefetch worker, which may have to start its thread
and fail: the creator's segment then takes the name of the file with it.
-/

namespace Memnon.OpenOrCreate

open Memnon.Lib

variable {P : Type}

/-! ## 1. The system -/

/-- A file; the processes that map it keep it when its name is gone. -/
structure Inode (P : Type) where
  table : SegmentTable
  size : Word
  /-- the process of the run that has made it -/
  creator : Option P

/-- Where a constructor stands. Files are known by their number. -/
inductive Point where
  -- `open_all_segments`
  | openGuess
  | mapGuess (f : Nat)
  | readHeader (f : Nat)
  | openPrimary (f : Nat)
  | mapPrimary (f g : Nat)
  | readCount (g : Nat)
  | openEntry (first : Nat) (rest : List Nat) (i count : Nat)
  | mapEntry (first : Nat) (rest : List Nat) (i count h : Nat)
  | registerOpener (mapped : List Nat)
  -- `shm_create` and `init_segment_table`
  | unlinkStale
  | createExclusive
  | truncate (f : Nat)
  | mapCreated (f : Nat)
  | cleanUp (f : Nat)                    -- also `~sub_segment` of the creator
  | writeTable (f : Nat)
  | registerCreator (f : Nat)
  -- the constructor has returned, has thrown, or the process has been killed
  | constructed (mapped : List Nat)
  | failed
  | killed
deriving DecidableEq

structure World (P : Type) where
  /-- the file that the name is bound to -/
  name : Option Nat
  inode : Nat → Inode P
  /-- the number of files so far -/
  made : Nat
  point : P → Point

def blankInode (creator : Option P) : Inode P := ⟨.blank, 0, creator⟩

/-- A name that is free, or bound to a file of a previous run. -/
def start (old : Option (SegmentTable × Word)) : World P where
  name := old.map fun _ => 0
  inode := fun _ =>
    match old with
    | some (table, size) => ⟨table, size, none⟩
    | none => blankInode none
  made := if old.isSome then 1 else 0
  point := fun _ => .openGuess

def World.setInode (w : World P) (f : Nat) (inode : Inode P) : World P :=
  { w with inode := Function.update w.inode f inode }

/-- The file carries the number that verifies an initialised table. -/
def World.initialised (w : World P) (f : Nat) : Prop :=
  (w.inode f).table.magic = kSegmentTableMagic

/-- All that were constructed are attached to the same backing file. -/
def Agreement (w : World P) : Prop :=
  ∀ p q fs gs, w.point p = .constructed fs → w.point q = .constructed gs →
    ∀ f ∈ fs, ∀ g ∈ gs, f = g

/-- A creator that has written its table and registers its manager. -/
def Point.registersCreator : Point → Bool
  | .registerCreator _ => true
  | _ => false

/-- When a creator registers its manager, the prefetch thread runs or can be started. -/
def ThreadStarts (w : World P) (l : P × Bool) : Prop :=
  (w.point l.1).registersCreator = true → l.2 = true

/-- The unlink before a creation removes nothing but a stale file of a previous
    run: none that a process of this run has made, and none that is initialised. -/
def UnlinksStale (w : World P) (l : P × Bool) : Prop :=
  w.point l.1 = .unlinkStale → ∀ f ∈ w.name,
    (w.inode f).creator = none ∧ ¬ w.initialised f

instance (w : World P) (f : Nat) : Decidable (w.initialised f) :=
  inferInstanceAs (Decidable (_ = _))

instance (w : World P) (l : P × Bool) : Decidable (UnlinksStale w l) :=
  have := Option.decidableForallMem (p := fun f => (w.inode f).creator = none ∧ ¬ w.initialised f)
    w.name
  inferInstanceAs (Decidable (_ → _))

instance (w : World P) (l : P × Bool) : Decidable (ThreadStarts w l) :=
  inferInstanceAs (Decidable (_ → _))

variable [DecidableEq P]

def World.moveTo (w : World P) (p : P) (point : Point) : World P :=
  { w with point := Function.update w.point p point }

/-- The next step of `p`; `ok` tells whether the call in it succeeds, as far as
    the state allows. Reading a file that has not been truncated to its size is
    a bus error. `register_manager` fails when it cannot start the thread. -/
def step (initialSize : P → Word) (w : World P) (l : P × Bool) : Option (World P) :=
  let (p, ok) := l
  match w.point p with
  | .openGuess =>
      match w.name with
      | some f => some (w.moveTo p (if ok then .mapGuess f else .unlinkStale))
      | none => some (w.moveTo p .unlinkStale)
  | .mapGuess f => some (w.moveTo p (if ok then .readHeader f else .unlinkStale))
  | .readHeader f =>
      let table := (w.inode f).table
      if (w.inode f).size = 0 then some (w.moveTo p .killed)
      else if table.magic ≠ kSegmentTableMagic then some (w.moveTo p .unlinkStale)
      else if (table.entries 0).size > kMinSegmentSize then some (w.moveTo p (.openPrimary f))
      else some (w.moveTo p (.readCount f))
  | .openPrimary f =>
      match w.name with
      | some g => some (w.moveTo p (if ok then .mapPrimary f g else .unlinkStale))
      | none => some (w.moveTo p .unlinkStale)
  | .mapPrimary _ g => some (w.moveTo p (if ok then .readCount g else .unlinkStale))
  | .readCount g =>
      if (w.inode g).size = 0 then some (w.moveTo p .killed)
      else some (w.moveTo p (.openEntry g [] 1 (w.inode g).table.count))
  | .openEntry first rest i count =>
      if i < count then
        match w.name with
        | some h =>
            some (w.moveTo p (if ok then .mapEntry first rest i count h else .unlinkStale))
        | none => some (w.moveTo p .unlinkStale)
      else some (w.moveTo p (.registerOpener (first :: rest)))
  | .mapEntry first rest i count h =>
      some (w.moveTo p
        (if ok then .openEntry first (rest ++ [h]) (i + 1) count else .unlinkStale))
  | .registerOpener mapped =>
      some (w.moveTo p (if ok then .constructed mapped else .unlinkStale))
  | .unlinkStale => some ({ w with name := none }.moveTo p .createExclusive)
  | .createExclusive =>
      match w.name with
      | some _ => some (w.moveTo p .failed)
      | none =>
          if ok then
            some (({ w with name := some w.made, made := w.made + 1 }.setInode w.made
              (blankInode (some p))).moveTo p (.truncate w.made))
          else some (w.moveTo p .failed)
  | .truncate f =>
      if ok then
        some ((w.setInode f { w.inode f with
          size := umax (initialSize p) kMinSegmentSize }).moveTo p (.mapCreated f))
      else some (w.moveTo p (.cleanUp f))
  | .mapCreated f => some (w.moveTo p (if ok then .writeTable f else .cleanUp f))
  | .cleanUp _ => some ({ w with name := none }.moveTo p .failed)
  | .writeTable f =>
      some ((w.setInode f { w.inode f with
        table := initSegmentTable [⟨⟨0, umax (initialSize p) kMinSegmentSize⟩, true⟩]
          (w.inode f).table }).moveTo p (.registerCreator f))
  | .registerCreator f => some (w.moveTo p (if ok then .constructed [f] else .cleanUp f))
  | .constructed _ | .failed | .killed => none

/-- A step keeps the name of an initialised file, unless it is the creator's. -/
def KeepsInitialised (initialSize : P → Word) (w : World P) (l : P × Bool) : Prop :=
  ∀ w', step initialSize w l = some w' → ∀ f, w.name = some f → w.initialised f →
    (w.inode f).creator ≠ some l.1 → w'.name = some f

/-! ## 2. The invariant -/

/-- The process has made the file and has not written its table. -/
def Point.making : Point → Option Nat
  | .truncate f | .mapCreated f | .cleanUp f | .writeTable f => some f
  | _ => none

/-- The files that an opener has looked up and not verified. -/
def Point.found : Point → List Nat
  | .mapGuess f | .readHeader f => [f]
  | _ => []

/-- The files that a process relies on as initialised. -/
def Point.accepted : Point → List Nat
  | .openPrimary f | .readCount f | .registerCreator f => [f]
  | .mapPrimary f g => [f, g]
  | .openEntry first rest _ _ => first :: rest
  | .mapEntry first rest _ _ h => h :: first :: rest
  | .registerOpener mapped | .constructed mapped => mapped
  | _ => []

/-- An initialised file is the one that the name is bound to; a process that makes
    a file has it to itself. The facts about processes are those of `S`. -/
structure InvOf (S : P → Prop) (w : World P) : Prop where
  named : ∀ f ∈ w.name, f < w.made
  initialised : ∀ f, f < w.made → w.initialised f → w.name = some f
  making : ∀ p, S p → ∀ f ∈ (w.point p).making,
    w.name = some f ∧ (w.inode f).creator = some p ∧ ¬ w.initialised f
  found : ∀ p, S p → ∀ f ∈ (w.point p).found, f < w.made
  accepted : ∀ p, S p → ∀ f ∈ (w.point p).accepted, f < w.made ∧ w.initialised f

abbrev Inv (w : World P) : Prop := InvOf (fun _ => True) w

section invariant

variable {w w' : World P} {p : P} {S : P → Prop} {initialSize : P → Word}

omit [DecidableEq P] in
theorem initialised_setInode {f g : Nat} {inode : Inode P} (hne : g ≠ f) :
    (w.setInode f inode).initialised g ↔ w.initialised g := by
  simp only [World.initialised, World.setInode, Function.update_of_ne hne]

omit [DecidableEq P] in
theorem InvOf.others (h : Inv w) (p : P) : InvOf (· ≠ p) w :=
  ⟨h.named, h.initialised, fun q _ => h.making q trivial, fun q _ => h.found q trivial,
    fun q _ => h.accepted q trivial⟩

/-- The process `p` gets to a point whose files are as the point needs them. -/
theorem InvOf.moveTo (h : InvOf (· ≠ p) w) (point : Point)
    (hmaking : ∀ f ∈ point.making,
      w.name = some f ∧ (w.inode f).creator = some p ∧ ¬ w.initialised f)
    (hfound : ∀ f ∈ point.found, f < w.made)
    (haccepted : ∀ f ∈ point.accepted, f < w.made ∧ w.initialised f) :
    Inv (w.moveTo p point) := by
  constructor
  · exact h.named
  · exact h.initialised
  · intro q _
    by_cases hq : q = p
    · subst hq
      simp only [World.moveTo, Function.update_self]
      exact hmaking
    · simp only [World.moveTo, Function.update_of_ne hq]
      exact h.making q hq
  · intro q _
    by_cases hq : q = p
    · subst hq
      simp only [World.moveTo, Function.update_self]
      exact hfound
    · simp only [World.moveTo, Function.update_of_ne hq]
      exact h.found q hq
  · intro q _
    by_cases hq : q = p
    · subst hq
      simp only [World.moveTo, Function.update_self]
      exact haccepted
    · simp only [World.moveTo, Function.update_of_ne hq]
      exact h.accepted q hq

/-- A point of an opener. -/
theorem InvOf.moveToOpening (h : InvOf (· ≠ p) w) (point : Point) (hmaking : point.making = none)
    (hfound : ∀ f ∈ point.found, f < w.made)
    (haccepted : ∀ f ∈ point.accepted, f < w.made ∧ w.initialised f) :
    Inv (w.moveTo p point) := by
  apply h.moveTo point _ hfound haccepted
  rw [hmaking]
  nofun

/-- A point that has no file. -/
theorem InvOf.moveToFree (h : InvOf (· ≠ p) w) (point : Point)
    (hfree : point.making = none ∧ point.found = [] ∧ point.accepted = []) :
    Inv (w.moveTo p point) := by
  apply h.moveToOpening point hfree.1
  · rw [hfree.2.1]
    nofun
  · rw [hfree.2.2]
    nofun

/-- A point of the process that makes `f`. -/
theorem InvOf.moveToMaking (h : InvOf (· ≠ p) w) (point : Point) {f : Nat}
    (hpoint : point.making = some f ∧ point.found = [] ∧ point.accepted = [])
    (hname : w.name = some f) (hcreator : (w.inode f).creator = some p)
    (hblank : ¬ w.initialised f) : Inv (w.moveTo p point) := by
  apply h.moveTo point
  · rw [hpoint.1]
    intro g hg
    obtain rfl := Option.some.inj hg
    exact ⟨hname, hcreator, hblank⟩
  · rw [hpoint.2.1]
    nofun
  · rw [hpoint.2.2]
    nofun

omit [DecidableEq P] in
/-- What the name is bound to after an initialised file has been verified. -/
theorem InvOf.name_of_accepted (h : Inv w) {f : Nat} (hf : f ∈ (w.point p).accepted) :
    w.name = some f := by
  obtain ⟨hlt, hinit⟩ := h.accepted p trivial f hf
  exact h.initialised f hlt hinit

omit [DecidableEq P] in
/-- The name is taken away from a file that is not initialised and that nobody
    else makes. -/
theorem InvOf.unlink (h : InvOf S w) (hinit : ∀ f ∈ w.name, ¬ w.initialised f)
    (hothers : ∀ q, S q → ∀ f ∈ w.name, (w.inode f).creator ≠ some q) :
    InvOf S { w with name := none } := by
  constructor
  · nofun
  · intro f hlt hf
    exact absurd hf (hinit f (h.initialised f hlt hf))
  · intro q hq f hf
    obtain ⟨hname, hcreator, -⟩ := h.making q hq f hf
    exact absurd hcreator (hothers q hq f hname)
  · exact h.found
  · exact h.accepted

omit [DecidableEq P] in
/-- A new file under a free name. -/
theorem InvOf.create (h : InvOf (· ≠ p) w) (hfree : w.name = none) :
    InvOf (· ≠ p) ({ w with name := some w.made, made := w.made + 1 }.setInode w.made
      (blankInode (some p))) := by
  have hold : ∀ f, f < w.made → (({ w with name := some w.made, made := w.made + 1 }.setInode
      w.made (blankInode (some p))).initialised f ↔ w.initialised f) := by
    intro f hf
    exact initialised_setInode (Nat.ne_of_lt hf)
  constructor
  · intro f hf
    obtain rfl := Option.some.inj hf
    exact Nat.lt_succ_self _
  · intro f hlt hf
    rcases Nat.lt_succ_iff_lt_or_eq.mp hlt with hlt | rfl
    · have hname := h.initialised f hlt ((hold f hlt).mp hf)
      rw [hfree] at hname
      cases hname
    · rfl
  · intro q hq f hf
    have hname := (h.making q hq f hf).1
    rw [hfree] at hname
    cases hname
  · intro q hq f hf
    exact Nat.lt_succ_of_lt (h.found q hq f hf)
  · intro q hq f hf
    obtain ⟨hlt, hinit⟩ := h.accepted q hq f hf
    exact ⟨Nat.lt_succ_of_lt hlt, (hold f hlt).mpr hinit⟩

omit [DecidableEq P] in
/-- The process `p` writes to the file that it makes. -/
theorem InvOf.write (h : InvOf (· ≠ p) w) {f : Nat} (hname : w.name = some f)
    (hcreator : (w.inode f).creator = some p) (hblank : ¬ w.initialised f) (inode : Inode P) :
    InvOf (· ≠ p) (w.setInode f inode) := by
  have hold : ∀ g, w.initialised g → (w.setInode f inode).initialised g := by
    intro g hg
    have hne : g ≠ f := by
      rintro rfl
      exact hblank hg
    exact (initialised_setInode hne).mpr hg
  constructor
  · exact h.named
  · intro g hlt hg
    by_cases hgf : g = f
    · rw [hgf]
      exact hname
    · exact h.initialised g hlt ((initialised_setInode hgf).mp hg)
  · intro q hq g hg
    -- another process that makes a file would have the same name for it
    obtain ⟨hname', hcreator', -⟩ := h.making q hq g hg
    obtain rfl : f = g := Option.some.inj (hname.symm.trans hname')
    exact absurd (Option.some.inj (hcreator'.symm.trans hcreator)) hq
  · exact h.found
  · intro q hq g hg
    obtain ⟨hlt, hinit⟩ := h.accepted q hq g hg
    exact ⟨hlt, hold g hinit⟩

omit [DecidableEq P] in
/-- What the name is bound to when a verified file is looked up again. -/
theorem InvOf.same_file (h : Inv w) {f g : Nat} (hf : f ∈ (w.point p).accepted)
    (hg : w.name = some g) : g = f :=
  Option.some.inj (hg.symm.trans (h.name_of_accepted hf))

/-- An attempt to open goes on, or ends with the first step of the creation. -/
theorem InvOf.moveIf (h : Inv w) (ok : Bool) (point : Point) (hmaking : point.making = none)
    (hfound : ∀ f ∈ point.found, f < w.made)
    (haccepted : ∀ f ∈ point.accepted, f < w.made ∧ w.initialised f) :
    Inv (w.moveTo p (if ok then point else .unlinkStale)) := by
  cases ok with
  | false => exact (h.others p).moveToFree _ ⟨rfl, rfl, rfl⟩
  | true => exact (h.others p).moveToOpening point hmaking hfound haccepted

/-- The step lemma: as long as the unlink before a creation removes nothing but
    stale files, and creators have their thread. -/
theorem inv_step {ok : Bool} (h : Inv w) (hstale : UnlinksStale w (p, ok))
    (hstarts : ThreadStarts w (p, ok)) (hstep : step initialSize w (p, ok) = some w') : Inv w' := by
  have hfound := h.found p trivial
  have haccepted := h.accepted p trivial
  have hmaking := h.making p trivial
  have hsame : ∀ {f g : Nat}, f ∈ (w.point p).accepted → w.name = some g → g = f :=
    fun hf hg => h.same_file hf hg
  cases hp : w.point p with
  | openGuess =>
    simp only [step, hp] at hstep
    cases hname : w.name with
    | none =>
      rw [hname] at hstep
      cases hstep
      exact (h.others p).moveToFree _ ⟨rfl, rfl, rfl⟩
    | some f =>
      rw [hname] at hstep
      cases hstep
      apply h.moveIf ok (.mapGuess f) rfl
      · intro g hg
        obtain rfl := List.mem_singleton.mp hg
        exact h.named g hname
      · nofun
  | mapGuess f =>
    simp only [step, hp] at hstep
    cases hstep
    rw [hp] at hfound
    exact h.moveIf ok (.readHeader f) rfl hfound nofun
  | readHeader f =>
    rw [hp] at hfound
    simp only [step, hp] at hstep
    split at hstep
    · cases hstep
      exact (h.others p).moveToFree _ ⟨rfl, rfl, rfl⟩
    · split at hstep
      · cases hstep
        exact (h.others p).moveToFree _ ⟨rfl, rfl, rfl⟩
      · rename_i hmagic
        have hverified : ∀ g ∈ [f], g < w.made ∧ w.initialised g := by
          intro g hg
          obtain rfl := List.mem_singleton.mp hg
          exact ⟨hfound g List.mem_cons_self, not_not.mp hmagic⟩
        split at hstep
        · cases hstep
          exact (h.others p).moveToOpening (.openPrimary f) rfl nofun hverified
        · cases hstep
          exact (h.others p).moveToOpening (.readCount f) rfl nofun hverified
  | openPrimary f =>
    rw [hp] at haccepted hsame
    simp only [step, hp] at hstep
    cases hname : w.name with
    | none =>
      rw [hname] at hstep
      cases hstep
      exact (h.others p).moveToFree _ ⟨rfl, rfl, rfl⟩
    | some g =>
      rw [hname] at hstep
      cases hstep
      obtain rfl := hsame List.mem_cons_self hname
      apply h.moveIf ok (.mapPrimary g g) rfl nofun
      intro g' hg'
      rcases List.mem_cons.mp hg' with rfl | hg'
      · exact haccepted g' List.mem_cons_self
      · exact haccepted g' hg'
  | mapPrimary f g =>
    rw [hp] at haccepted
    simp only [step, hp] at hstep
    cases hstep
    apply h.moveIf ok (.readCount g) rfl nofun
    intro g' hg'
    exact haccepted g' (List.mem_cons_of_mem _ hg')
  | readCount g =>
    rw [hp] at haccepted
    simp only [step, hp] at hstep
    split at hstep
    · cases hstep
      exact (h.others p).moveToFree _ ⟨rfl, rfl, rfl⟩
    · cases hstep
      exact (h.others p).moveToOpening (.openEntry g [] 1 _) rfl nofun haccepted
  | openEntry first rest i count =>
    rw [hp] at haccepted hsame
    simp only [step, hp] at hstep
    split at hstep
    · cases hname : w.name with
      | none =>
        rw [hname] at hstep
        cases hstep
        exact (h.others p).moveToFree _ ⟨rfl, rfl, rfl⟩
      | some g =>
        rw [hname] at hstep
        cases hstep
        obtain rfl := hsame List.mem_cons_self hname
        apply h.moveIf ok (.mapEntry g rest i count g) rfl nofun
        intro g' hg'
        rcases List.mem_cons.mp hg' with rfl | hg'
        · exact haccepted g' List.mem_cons_self
        · exact haccepted g' hg'
    · cases hstep
      exact (h.others p).moveToOpening (.registerOpener (first :: rest)) rfl nofun haccepted
  | mapEntry first rest i count g =>
    rw [hp] at haccepted
    simp only [step, hp] at hstep
    cases hstep
    apply h.moveIf ok (.openEntry first (rest ++ [g]) (i + 1) count) rfl nofun
    intro g' hg'
    apply haccepted g'
    simp only [Point.accepted, List.mem_cons, List.mem_append] at hg' ⊢
    tauto
  | registerOpener mapped =>
    rw [hp] at haccepted
    simp only [step, hp] at hstep
    cases hstep
    exact h.moveIf ok (.constructed mapped) rfl nofun haccepted
  | unlinkStale =>
    have hfile := hstale hp
    simp only [step, hp] at hstep
    cases hstep
    have hunlinked : InvOf (· ≠ p) { w with name := none } := by
      apply (h.others p).unlink
      · intro f hf
        exact (hfile f hf).2
      · intro q _ f hf hcreator
        rw [(hfile f hf).1] at hcreator
        cases hcreator
    exact hunlinked.moveToFree _ ⟨rfl, rfl, rfl⟩
  | createExclusive =>
    simp only [step, hp] at hstep
    cases hname : w.name with
    | some f =>
      rw [hname] at hstep
      cases hstep
      exact (h.others p).moveToFree _ ⟨rfl, rfl, rfl⟩
    | none =>
      rw [hname] at hstep
      cases ok with
      | false =>
        cases hstep
        exact (h.others p).moveToFree _ ⟨rfl, rfl, rfl⟩
      | true =>
        cases hstep
        apply ((h.others p).create hname).moveToMaking (.truncate w.made) ⟨rfl, rfl, rfl⟩ rfl
        · simp only [World.setInode, Function.update_self]
          rfl
        · simp only [World.initialised, World.setInode, Function.update_self]
          intro hmagic
          have hzero : (0 : Word) = kSegmentTableMagic := hmagic
          exact absurd hzero (by decide)
  | truncate f =>
    rw [hp] at hmaking
    obtain ⟨hname, hcreator, hblank⟩ := hmaking f rfl
    simp only [step, hp] at hstep
    cases ok with
    | false =>
      cases hstep
      exact (h.others p).moveToMaking (.cleanUp f) ⟨rfl, rfl, rfl⟩ hname hcreator hblank
    | true =>
      cases hstep
      apply ((h.others p).write hname hcreator hblank _).moveToMaking (.mapCreated f)
        ⟨rfl, rfl, rfl⟩ hname
      · simp only [World.setInode, Function.update_self]
        exact hcreator
      · simp only [World.initialised, World.setInode, Function.update_self]
        exact hblank
  | mapCreated f =>
    rw [hp] at hmaking
    obtain ⟨hname, hcreator, hblank⟩ := hmaking f rfl
    simp only [step, hp] at hstep
    cases hstep
    cases ok with
    | false => exact (h.others p).moveToMaking (.cleanUp f) ⟨rfl, rfl, rfl⟩ hname hcreator hblank
    | true => exact (h.others p).moveToMaking (.writeTable f) ⟨rfl, rfl, rfl⟩ hname hcreator hblank
  | cleanUp f =>
    rw [hp] at hmaking
    obtain ⟨hname, hcreator, hblank⟩ := hmaking f rfl
    simp only [step, hp] at hstep
    cases hstep
    have hunlinked : InvOf (· ≠ p) { w with name := none } := by
      apply (h.others p).unlink
      · intro g hg
        obtain rfl : f = g := Option.some.inj (hname.symm.trans hg)
        exact hblank
      · intro q hq g hg hcreator'
        obtain rfl : f = g := Option.some.inj (hname.symm.trans hg)
        exact hq (Option.some.inj (hcreator'.symm.trans hcreator))
    exact hunlinked.moveToFree _ ⟨rfl, rfl, rfl⟩
  | writeTable f =>
    rw [hp] at hmaking
    obtain ⟨hname, hcreator, hblank⟩ := hmaking f rfl
    simp only [step, hp] at hstep
    cases hstep
    apply ((h.others p).write hname hcreator hblank _).moveToOpening (.registerCreator f) rfl nofun
    intro g hg
    obtain rfl := List.mem_singleton.mp hg
    refine ⟨h.named g hname, ?_⟩
    simp only [World.initialised, World.setInode, Function.update_self]
    rfl
  | registerCreator f =>
    obtain rfl : ok = true := hstarts (by rw [hp]; rfl)
    rw [hp] at haccepted
    simp only [step, hp, if_true] at hstep
    cases hstep
    exact (h.others p).moveToOpening (.constructed [f]) rfl nofun haccepted
  | constructed mapped =>
    simp only [step, hp] at hstep
    cases hstep
  | failed =>
    simp only [step, hp] at hstep
    cases hstep
  | killed =>
    simp only [step, hp] at hstep
    cases hstep

omit [DecidableEq P] in
theorem inv_start (old : Option (SegmentTable × Word)) : Inv (start old : World P) := by
  constructor
  · intro f hf
    cases old with
    | none => cases hf
    | some table =>
      obtain rfl := Option.some.inj hf
      exact Nat.one_pos
  · intro f hlt hf
    cases old with
    | none => exact absurd hlt (Nat.not_lt_zero f)
    | some table =>
      obtain rfl := Nat.lt_one_iff.mp hlt
      rfl
  · nofun
  · nofun
  · nofun

/-- The steps that take a name away. -/
theorem name_of_step {ok : Bool} (h : step initialSize w (p, ok) = some w') {f : Nat}
    (hname : w.name = some f) : w'.name = some f ∨ w.point p = .unlinkStale ∨
      ∃ g, w.point p = .cleanUp g := by
  cases hp : w.point p with
  | unlinkStale => exact .inr (.inl rfl)
  | cleanUp g => exact .inr (.inr ⟨g, rfl⟩)
  | readHeader g =>
    left
    simp only [step, hp] at h
    split at h
    · cases h
      exact hname
    · split at h
      · cases h
        exact hname
      · split at h
        · cases h
          exact hname
        · cases h
          exact hname
  | readCount g | openEntry first rest i count =>
    left
    simp only [step, hp, hname] at h
    split at h
    · cases h
      exact hname
    · cases h
      exact hname
  | truncate g =>
    left
    simp only [step, hp] at h
    split at h
    · cases h
      exact hname
    · cases h
      exact hname
  | constructed mapped =>
    simp only [step, hp] at h
    cases h
  | failed =>
    simp only [step, hp] at h
    cases h
  | killed =>
    simp only [step, hp] at h
    cases h
  | _ =>
    left
    simp only [step, hp, hname] at h
    cases h
    exact hname

theorem Inv.keepsInitialised {l : P × Bool} (h : Inv w) (hstale : UnlinksStale w l) :
    KeepsInitialised initialSize w l := by
  obtain ⟨p, ok⟩ := l
  intro w' hstep f hname hinit _
  rcases name_of_step hstep hname with hsame | hp | ⟨g, hp⟩
  · exact hsame
  · exact absurd hinit (hstale hp f hname).2
  · obtain ⟨hname', -, hblank⟩ := h.making p trivial g (by rw [hp]; rfl)
    obtain rfl : f = g := Option.some.inj (hname.symm.trans hname')
    exact absurd hinit hblank

end invariant

/-! ## 3. Results -/

section results

variable {w : World P} {initialSize : P → Word}

/-- As long as the unlink before a creation removes nothing but stale files, and a
    creator can register its manager, all that are constructed share one file, and
    it keeps its name. -/
theorem open_or_create_agrees_when_stale {old : Option (SegmentTable × Word)}
    (hrun : Steps (step initialSize) (fun w l => UnlinksStale w l ∧ ThreadStarts w l)
      (start old) w) :
    Agreement w ∧ ∀ l, UnlinksStale w l → KeepsInitialised initialSize w l := by
  have hinv : Inv w := hrun.invariant Inv (inv_start old)
    fun _ _ _ hi hC hs => inv_step hi hC.1 hC.2 hs
  refine ⟨fun p q fs gs hp hq f hf g hg => ?_, fun l hstale => hinv.keepsInitialised hstale⟩
  have hnamef : w.name = some f := hinv.name_of_accepted (by rw [hp]; exact hf)
  have hnameg : w.name = some g := hinv.name_of_accepted (by rw [hq]; exact hg)
  exact Option.some.inj (hnamef.symm.trans hnameg)

end results

/-- All steps of a process, its calls succeeding. -/
def steps {P : Type} (p : P) (n : Nat) : List (P × Bool) := List.replicate n (p, true)

/-- One process creates a file of 16 MiB in place of a stale one, another one
    opens it. -/
theorem open_or_create_agrees_twice : ∃ w : World Bool, w.point false = .constructed [1] ∧
    w.point true = .constructed [1] ∧ Agreement w := by
  have hex : ∃ w : World Bool, Steps (step fun _ => 0x1000000)
      (fun w l => UnlinksStale w l ∧ ThreadStarts w l) (start (some (.blank, 0x100000))) w ∧
      decide (w.point false = .constructed [1] ∧ w.point true = .constructed [1]) = true :=
    Steps.exists_of_replay (steps false 9 ++ steps true 8) (by decide +kernel)
  obtain ⟨w, hrun, hw⟩ := hex
  obtain ⟨hfalse, htrue⟩ := of_decide_eq_true hw
  exact ⟨w, hfalse, htrue, (open_or_create_agrees_when_stale hrun).1⟩

/-- Both processes find no file. The second one unlinks what the first one has
    created and initialised by then, and each has a file of its own. -/
theorem second_creator_unlinks :
    (¬ ∀ w : World Bool, Steps (step fun _ => 0x1000000) anyStep (start none) w → Agreement w) ∧
    (¬ ∀ (w : World Bool) (l : Bool × Bool),
      Steps (step fun _ => 0x1000000) anyStep (start none) w →
      KeepsInitialised (fun _ => 0x1000000) w l) := by
  constructor
  · intro hall
    have hex : ∃ w : World Bool, Steps (step fun _ => 0x1000000) anyStep (start none) w ∧
        decide (w.point false = .constructed [0] ∧ w.point true = .constructed [1]) = true :=
      Steps.exists_of_replay (steps true 1 ++ steps false 7 ++ steps true 6) (by decide +kernel)
    obtain ⟨w, hrun, hw⟩ := hex
    obtain ⟨hfalse, htrue⟩ := of_decide_eq_true hw
    have hsame := hall w hrun false true [0] [1] hfalse htrue 0 (by simp) 1 (by simp)
    exact absurd hsame (by decide)
  · intro hall
    have hex : ∃ w : World Bool, Steps (step fun _ => 0x1000000) anyStep (start none) w ∧
        decide (w.name = some 0 ∧ w.initialised 0 ∧ (w.inode 0).creator = some false ∧
          ((step (fun _ => 0x1000000) w (true, true)).any fun w' => w'.name == none) = true) =
            true :=
      Steps.exists_of_replay (steps true 1 ++ steps false 7) (by decide +kernel)
    obtain ⟨w, hrun, hw⟩ := hex
    obtain ⟨hname, hinit, hcreator, hunlinked⟩ := of_decide_eq_true hw
    obtain ⟨w', hstep, hnone⟩ := (Option.any_eq_true _ _).mp hunlinked
    have hkept := hall w (true, true) hrun w' hstep 0 hname hinit (by rw [hcreator]; decide)
    rw [hkept] at hnone
    exact absurd hnone (by decide)

/-- A creator whose thread cannot be started, when another process has opened its file by
    then: the third process finds the name free. -/
theorem creator_without_thread_unlinks :
    ¬ ∀ w : World (Fin 3), Steps (step fun _ => 0x1000000) UnlinksStale (start none) w →
      Agreement w := by
  intro hall
  have hex : ∃ w : World (Fin 3), Steps (step fun _ => 0x1000000) UnlinksStale (start none) w ∧
      decide (w.point 1 = .constructed [0] ∧ w.point 2 = .constructed [1]) = true :=
    Steps.exists_of_replay (steps 0 6 ++ steps 1 8 ++ [(0, false), (0, true)] ++ steps 2 7)
      (by decide +kernel)
  obtain ⟨w, hrun, hw⟩ := hex
  obtain ⟨hone, htwo⟩ := of_decide_eq_true hw
  have hsame := hall w hrun 1 2 [0] [1] hone htwo 0 (by simp) 1 (by simp)
  exact absurd hsame (by decide)

end Memnon.OpenOrCreate
