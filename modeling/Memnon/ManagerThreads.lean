import Memnon.ManagerSections
import Memnon.Lib.Lock

/-!
# The threads of one process

`allocate`, `grow`, `grow_background` and `lazy_discover_growth` on one SHM
manager, by any number of threads. A section under `list_mtx_` is one step, and
so is a system call outside of it; `grow_mtx_` is held from the first section of
a growth to its last. Between the two a growth carries the file size it has read
without holding `list_mtx_`. It is still right when it publishes its chunk: the
other growers are locked out, and discovery finds nothing to add.
-/

namespace Memnon.Threads

open Memnon.Lib

variable {H N T : Type}

/-! ## 1. The system -/

/-- The two functions that grow. Within `allocate`, `grow` knows the request to
    try again. -/
inductive Grower where
  | grow (minBytes : Word) (request : Option Word)
  | background
deriving DecidableEq

/-- Where a thread stands, with what it carries. -/
inductive Point where
  | idle
  | allocate (bytes : Word) (again : Bool)
  | growLock (g : Grower)
  | growRead (g : Grower)
  | growExtend (g : Grower) (newChunkSize currentFileSize : Word)
  | growPublish (g : Grower) (newChunkSize currentFileSize : Word)
  | discover (requiredFileOffset : Word)
deriving DecidableEq

inductive Task where
  | allocate (bytes : Word)
  | grow (minBytes : Word)
  | growBackground
  | lazyDiscoverGrowth (requiredFileOffset : Word)
deriving DecidableEq

def Task.entry : Task → Point
  | .allocate bytes => .allocate bytes false
  | .grow minBytes => .growLock (.grow minBytes none)
  | .growBackground => .growLock .background
  | .lazyDiscoverGrowth requiredFileOffset => .discover requiredFileOffset

structure State (T H : Type) where
  manager : Manager H
  growMtx : Option T
  point : T → Point

/-- A thread calls a function, or runs its next section; the environment holds
    the outcomes of the system calls in it. -/
inductive Label (T H : Type) where
  | call (t : T) (task : Task)
  | run (t : T) (env : Env H)

/-- Where a thread goes on when its growth returns. -/
def Grower.done : Grower → Point
  | .grow _ (some bytes) => .allocate bytes true
  | .grow _ none | .background => .idle

def Grower.read (P : Platform) (I : InnerManager H N) : Grower → Op H (Option (Word × Word))
  | .grow minBytes _ => readSize P I minBytes
  | .background => readSizeBackground P I

/-- The next section of `t`: the manager, the owner of `grow_mtx_` and the point
    after it. An exception leaves the function; one that leaves
    `grow_background`, which is `noexcept`, ends the process. -/
def advance (P : Platform) (I : InnerManager H N) (env : Env H) (t : T) (m : Manager H)
    (growMtx : Option T) : Point → Option (Manager H × Option T × Point)
  | .idle => none
  | .allocate bytes again =>
      match (Call.guarded (listMtx H) (tryAllocateLocked I bytes)).run m with
      | .value (some _) m' => some (m', growMtx, .idle)
      | .value none m' =>
          if again then some (m', growMtx, .idle)
          else some (m', growMtx, .growLock (.grow (bytes + kMinSegmentSize) (some bytes)))
      | _ => none
  | .growLock g =>
      match growMtx, g with
      | none, g => some (m, some t, .growRead g)
      | some _, .grow _ _ => none
      | some _, .background => some (m, growMtx, .idle)
  | .growRead g =>
      match (Call.guarded (listMtx H) (g.read P I)).run m with
      | .value none m' => some (m', none, g.done)
      | .value (some (newChunkSize, currentFileSize)) m' =>
          some (m', growMtx, .growExtend g newChunkSize currentFileSize)
      | _ => none
  | .growExtend g newChunkSize currentFileSize =>
      if env.shmGrow (currentFileSize + newChunkSize) then
        some (m, growMtx, .growPublish g newChunkSize currentFileSize)
      else some (m, none, .idle)
  | .growPublish (.grow minBytes request) newChunkSize currentFileSize =>
      match (Call.guarded (listMtx H)
        (publishChunk P I env newChunkSize currentFileSize)).run m with
      | .value _ m' => some (m', none, (Grower.grow minBytes request).done)
      | .thrown _ m' => some (m', none, .idle)
      | .stuck => none
  | .growPublish .background newChunkSize currentFileSize =>
      match (Call.guarded (listMtx H)
        (publishChunkBackground P I env newChunkSize currentFileSize)).run m with
      | .value _ m' => some (m', none, .idle)
      | _ => none
  | .discover requiredFileOffset =>
      match (discoverGrowth P I env requiredFileOffset).run m with
      | .value _ m' | .thrown _ m' => some (m', growMtx, .idle)
      | .stuck => none

def step [DecidableEq T] (P : Platform) (I : InnerManager H N) (s : State T H) :
    Label T H → Option (State T H)
  | .call t task =>
      if s.point t = .idle then some { s with point := Function.update s.point t task.entry }
      else none
  | .run t env =>
      (advance P I env t s.manager s.growMtx (s.point t)).map fun (m, growMtx, point) =>
        ⟨m, growMtx, Function.update s.point t point⟩

/-- All threads idle. -/
def started (m : Manager H) : State T H := ⟨m, none, fun _ => .idle⟩

def OnPlatform (_ : State T H) : Label T H → Prop
  | .call _ _ => True
  | .run _ env => SizesMapped env

/-! ## 2. Every step keeps the invariant -/

/-- `grow_mtx_` is held. -/
def Point.holdsGrow : Point → Bool
  | .growRead _ | .growExtend _ _ _ | .growPublish _ _ _ => true
  | .idle | .allocate _ _ | .growLock _ | .discover _ => false

/-- The chunk and the file size that a growth carries. -/
def Point.carried : Point → Option (Word × Word)
  | .growExtend _ newChunkSize currentFileSize | .growPublish _ newChunkSize currentFileSize =>
      some (newChunkSize, currentFileSize)
  | _ => none

theorem Point.holdsGrow_of_carried {p : Point} {c : Word × Word} (h : c ∈ p.carried) :
    p.holdsGrow = true := by
  cases p with
  | growExtend g chunk cur => rfl
  | growPublish g chunk cur => rfl
  | _ => cases h

theorem Grower.done_outside (g : Grower) :
    g.done.holdsGrow = false ∧ g.done.carried = none := by
  cases g with
  | grow minBytes request => cases request <;> exact ⟨rfl, rfl⟩
  | background => exact ⟨rfl, rfl⟩

theorem Grower.read_inStep {P : Platform} {I : InnerManager H N} {m : Manager H} (g : Grower)
    (hm : InStep (Constructed I) m) :
    ∃ sizes, (Call.guarded (listMtx H) (g.read P I)).run m = .value sizes m ∧
      ∀ c ∈ sizes, Carries m c.1 c.2 := by
  cases g with
  | grow minBytes request => exact hm.readSize minBytes
  | background => exact hm.readSizeBackground

theorem Task.entry_outside (task : Task) :
    task.entry.holdsGrow = false ∧ task.entry.carried = none := by
  cases task <;> exact ⟨rfl, rfl⟩

structure Inv (I : InnerManager H N) (s : State T H) : Prop where
  manager : InStep (Constructed I) s.manager
  owner : Owned s.growMtx fun t => (s.point t).holdsGrow
  carries : ∀ t, ∀ c ∈ (s.point t).carried, Carries s.manager c.1 c.2

/-- What a section of `t` does: `grow_mtx_` as a lock allows, the list of
    segments changed by a holder of `grow_mtx_` only. -/
structure Advanced (I : InnerManager H N) (t : T) (m m' : Manager H) (growMtx growMtx' : Option T)
    (p p' : Point) : Prop where
  manager : InStep (Constructed I) m'
  lock : LockStep growMtx growMtx' t p.holdsGrow p'.holdsGrow
  same : p.holdsGrow = false → segmentsOf m' = segmentsOf m
  carries : ∀ c ∈ p'.carried, Carries m' c.1 c.2

section steps

variable {P : Platform} {I : InnerManager H N} {env : Env H} {t : T} {m m' : Manager H}
  {growMtx growMtx' : Option T} {p p' : Point}

/-- A section outside of `grow_mtx_` that goes on outside of it. -/
theorem Advanced.outside (hm' : InStep (Constructed I) m') (hsame : segmentsOf m' = segmentsOf m)
    (hp' : p'.holdsGrow = false ∧ p'.carried = none) :
    Advanced I t m m' growMtx growMtx p p' := by
  constructor
  · exact hm'
  · exact .inl ⟨rfl, fun h => by rw [hp'.1] at h; cases h⟩
  · exact fun _ => hsame
  · intro c hc
    rw [hp'.2] at hc
    cases hc

/-- A section that gives `grow_mtx_` back. -/
theorem Advanced.release (hm' : InStep (Constructed I) m') (hp : p.holdsGrow = true)
    (hp' : p'.holdsGrow = false ∧ p'.carried = none) :
    Advanced I t m m' growMtx none p p' := by
  constructor
  · exact hm'
  · exact .inr (.inr ⟨hp, hp'.1, rfl⟩)
  · intro hnot
    rw [hp] at hnot
    cases hnot
  · intro c hc
    rw [hp'.2] at hc
    cases hc

/-- A section within a growth. -/
theorem Advanced.within (hm : InStep (Constructed I) m) (hp : p.holdsGrow = true)
    (hc : ∀ c ∈ p'.carried, Carries m c.1 c.2) : Advanced I t m m growMtx growMtx p p' :=
  ⟨hm, .inl ⟨rfl, fun _ => hp⟩, fun _ => rfl, hc⟩

theorem advanced_of_advance (hm : InStep (Constructed I) m) (henv : SizesMapped env)
    (hc : ∀ c ∈ p.carried, Carries m c.1 c.2)
    (h : advance P I env t m growMtx p = some (m', growMtx', p')) :
    Advanced I t m m' growMtx growMtx' p p' := by
  cases p with
  | idle => cases h
  | allocate bytes again =>
    obtain ⟨q, m₁, hrun, hm₁, hsame⟩ := hm.tryAllocate .allocate bytes
    simp only [advance, hrun] at h
    cases q with
    | some q =>
      cases h
      exact .outside hm₁ hsame ⟨rfl, rfl⟩
    | none =>
      simp only at h
      split at h
      · cases h
        exact .outside hm₁ hsame ⟨rfl, rfl⟩
      · cases h
        exact .outside hm₁ hsame ⟨rfl, rfl⟩
  | growLock g =>
    cases growMtx with
    | none =>
      cases h
      exact ⟨hm, .inr (.inl ⟨rfl, rfl⟩), fun _ => rfl, fun c hc => by cases hc⟩
    | some o =>
      cases g with
      | grow minBytes request => cases h
      | background =>
        cases h
        exact .outside hm rfl ⟨rfl, rfl⟩
  | growRead g =>
    obtain ⟨sizes, hrun, hsizes⟩ := g.read_inStep (P := P) hm
    simp only [advance, hrun] at h
    cases sizes with
    | none =>
      cases h
      exact .release hm rfl g.done_outside
    | some c =>
      cases h
      apply Advanced.within hm rfl
      intro c' hc'
      obtain rfl := Option.some.inj hc'
      exact hsizes c rfl
  | growExtend g newChunkSize currentFileSize =>
    simp only [advance] at h
    split at h
    · cases h
      exact .within hm rfl hc
    · cases h
      exact .release hm rfl ⟨rfl, rfl⟩
  | growPublish g newChunkSize currentFileSize =>
    have hcarries := hc (newChunkSize, currentFileSize) rfl
    have hpublish := hm.publish (P := P) henv .create hcarries
    cases g with
    | grow minBytes request =>
      rcases hpublish with hrun | ⟨m₁, hrun, hm₁, -⟩
      · simp only [advance, hrun] at h
        cases h
        exact .release hm rfl ⟨rfl, rfl⟩
      · simp only [advance, hrun] at h
        cases h
        exact .release hm₁ rfl (Grower.done_outside _)
    | background =>
      rw [← publishChunkBackground_eq hcarries] at hpublish
      rcases hpublish with hrun | ⟨m₁, hrun, hm₁, -⟩
      · simp only [advance, hrun] at h
        cases h
      · simp only [advance, hrun] at h
        cases h
        exact .release hm₁ rfl ⟨rfl, rfl⟩
  | discover required =>
    obtain ⟨found, hrun⟩ : ∃ found, (discoverGrowth P I env required).run m =
        .value found m := hm.discover required
    simp only [advance, hrun] at h
    cases h
    exact .outside hm rfl ⟨rfl, rfl⟩

theorem inv_started (hm : InStep (Constructed I) m) : Inv I (started m : State T H) := by
  constructor
  · exact hm
  · intro t hholds
    exact absurd hholds Bool.false_ne_true
  · intro t c hc
    cases (hc : none = some c)

variable [DecidableEq T] {s s' : State T H} {l : Label T H}

/-- A thread moves from its point to another one; the others stay. -/
theorem Inv.move (hinv : Inv I s)
    (h : Advanced I t s.manager m' s.growMtx growMtx' (s.point t) p') :
    Inv I ⟨m', growMtx', Function.update s.point t p'⟩ := by
  constructor
  · exact h.manager
  · apply hinv.owner.step (o := t)
    · intro u hu
      simp only [Function.update_of_ne hu]
    · simp only [Function.update_self]
      exact h.lock
  · intro u c hc
    by_cases hu : u = t
    · subst hu
      simp only [Function.update_self] at hc
      exact h.carries c hc
    · simp only [Function.update_of_ne hu] at hc
      -- a growth that carries a size holds `grow_mtx_`, so `t` does not
      have hnot : (s.point t).holdsGrow = false := by
        cases hholds : (s.point t).holdsGrow with
        | false => rfl
        | true => exact absurd (hinv.owner.exclusive (Point.holdsGrow_of_carried hc) hholds) hu
      obtain ⟨hcur, hlast⟩ := hinv.carries u c hc
      have hsame := h.same hnot
      constructor
      · rw [hsame]
        exact hcur
      · rw [hsame]
        exact hlast

theorem inv_step (hinv : Inv I s) (henv : OnPlatform s l) (h : step P I s l = some s') :
    Inv I s' := by
  cases l with
  | call t task =>
    simp only [step] at h
    split at h
    · cases h
      exact hinv.move (.outside hinv.manager rfl task.entry_outside)
    · cases h
  | run t env =>
    simp only [step, Option.map_eq_some_iff] at h
    obtain ⟨⟨m', growMtx', p'⟩, hadvance, rfl⟩ := h
    exact hinv.move (advanced_of_advance hinv.manager henv (hinv.carries t) hadvance)

end steps

/-! ## 3. Result -/

section result

variable {P : Platform} {I : InnerManager H N} {env : Env H}

end result

end Memnon.Threads
