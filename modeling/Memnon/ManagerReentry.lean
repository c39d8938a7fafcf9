import Memnon.ManagerNames
import Memnon.OffsetPtr

/-!
# Constructors and destructors that come back to the manager

`construct` and `destroy` hold `list_mtx_` while the constructor or destructor
of the object runs, and `list_mtx_` is not recursive. User code that allocates,
finds, or reads a pointer in a SHM segment locks it again and the thread waits
for itself. This module says exactly when that happens.
-/

namespace Memnon

open Memnon.Lib Memnon.OffsetPtr

variable {H N : Type}

/-! ## 1. User code -/

/-- Whose a segment is: the manager of this model, or any other. -/
inductive Owner where
  | this
  | other
deriving DecidableEq

/-- The segments of the other managers in the process, and their callbacks. -/
structure Surroundings where
  segmentAt : Word → Option (SubSegment Owner)
  findByFileOffset : Word → Option (SubSegment Owner)
  discoverGrowth : Word → Bool

def SegInfo.subSegment (anon : Bool) (info : SegInfo H) : SubSegment Owner :=
  ⟨info.baseVaddr, info.size, info.fileOffset, anon, .this⟩

variable (P : Platform) (I : InnerManager H N) (env : Env H) (W : Surroundings)

/-- `segment_registry::find`, and the fields of the segment it finds. -/
def registrySegment (m : Manager H) (addr : Word) : Option (SubSegment Owner) :=
  (registryFind P m addr).bind fun seg =>
    match m.segments.find? fun info => info.seg == seg with
    | some info => some (info.subSegment m.anon)
    | none => W.segmentAt seg

/-- The runtime of the pointers in this process. -/
def managerRuntime : Runtime Owner (Op H) where
  find addr := do
    let m ← .read
    return registrySegment P W m addr
  findByFileOffset
    | .this, fileOffset => do
        let info ← findSegmentByFileOffset fileOffset
        return info.map (SegInfo.subSegment false)
    | .other, fileOffset => return W.findByFileOffset fileOffset
  discoverGrowth
    | .this, fileOffset => Memnon.discoverGrowth P I env fileOffset
    | .other, fileOffset => return W.discoverGrowth fileOffset

/-- What a constructor or destructor may do. A pointer object comes with the
    offset it stores. -/
inductive UserOp (N : Type) where
  | allocate (bytes : Word)
  | deallocate (ptr : Word)
  | find (name : N)
  | get (self mOffset : Word)
  | copy (dst src srcOffset : Word)

def UserOp.run : UserOp N → Op H Unit
  | .allocate bytes => do
      let _ ← Memnon.allocate P I env bytes
      return ()
  | .deallocate ptr => Memnon.deallocate P I ptr
  | .find name => do
      let _ ← Memnon.find I name
      return ()
  | .get self mOffset => do
      let _ ← OffsetPtr.get P (managerRuntime P I env W) self mOffset
      return ()
  | .copy dst src srcOffset => do
      match ← OffsetPtr.copy P (managerRuntime P I env W) dst src srcOffset with
      | .ok _ => return ()
      | .error _ => .raise .runtimeError

def runUserOps : List (UserOp N) → Op H Unit
  | [] => return ()
  | op :: ops => do
      op.run P I env W
      runUserOps ops

/-- A type of named objects. -/
structure UserType (N : Type) where
  size : Word
  ctor : List (UserOp N)
  dtor : List (UserOp N)

/-! ## 2. Operations under `list_mtx_` -/

/-- The pointers that the operation reads are not null and lie in SHM segments
    of this manager. -/
def UserOp.Resident (m : Manager H) : UserOp N → Prop
  | .get self mOffset | .copy _ self mOffset =>
      mOffset ≠ kNull ∧ ∃ s, registrySegment P W m (P.ptrToVaddr self) = some s ∧
        s.isAnon = false ∧ s.manager = .this
  | _ => True

/-- The operation locks `list_mtx_`: all do, but for a `deallocate` of null or
    of memory outside all segments. -/
def UserOp.takesListMtx (m : Manager H) : UserOp N → Bool
  | .deallocate ptr => decide (ptr ≠ 0) && (registryFind P m (P.ptrToVaddr ptr)).isSome
  | _ => true

section locked

variable {P I env W} {m : Manager H}

theorem run_get_locked (hheld : m.listHeld = true) {self mOffset : Word} {s : SubSegment Owner}
    (hnull : mOffset ≠ kNull) (hs : registrySegment P W m (P.ptrToVaddr self) = some s)
    (hanon : s.isAnon = false) (hthis : s.manager = .this) :
    (OffsetPtr.get P (managerRuntime P I env W) self mOffset).run m = .stuck := by
  have hfind : ((managerRuntime P I env W).find (P.ptrToVaddr self)).run m =
      .value (some s) m := by
    simp only [managerRuntime, Call.run_read_bind, hs]
    rfl
  have hlookup : ∀ fileOffset, ((managerRuntime P I env W).findByFileOffset .this
      fileOffset).run m = .stuck := by
    intro fileOffset
    simp only [managerRuntime]
    exact Call.run_bind_stuck (Call.guarded_held hheld)
  rw [OffsetPtr.get, if_neg hnull, Call.run_bind_value hfind]
  simp only [hanon, Bool.false_eq_true, if_false, hthis]
  exact Call.run_bind_stuck (hlookup _)

/-- An operation that locks `list_mtx_` under `list_mtx_` blocks the thread. -/
theorem run_op_blocks (hheld : m.listHeld = true) {op : UserOp N} (hop : op.Resident P W m)
    (htakes : op.takesListMtx P m = true) : (op.run P I env W).run m = .stuck := by
  cases op with
  | allocate bytes =>
    exact Call.run_bind_stuck (Call.run_bind_stuck (Call.guarded_held hheld))
  | find name => exact Call.run_bind_stuck (Call.guarded_held hheld)
  | get self mOffset =>
    obtain ⟨hnull, s, hs, hanon, hthis⟩ := hop
    exact Call.run_bind_stuck (run_get_locked hheld hnull hs hanon hthis)
  | copy dst src srcOffset =>
    obtain ⟨hnull, s, hs, hanon, hthis⟩ := hop
    exact Call.run_bind_stuck (Call.run_bind_stuck (run_get_locked hheld hnull hs hanon hthis))
  | deallocate ptr =>
    simp only [UserOp.takesListMtx, Bool.and_eq_true, decide_eq_true_eq] at htakes
    obtain ⟨seg, hfind⟩ := Option.isSome_iff_exists.mp htakes.2
    rw [UserOp.run, deallocate, Call.run_read_bind, if_neg htakes.1]
    simp only [hfind]
    exact Call.run_bind_stuck (Call.guarded_held hheld)

/-- The others change nothing. -/
theorem run_op_passes {op : UserOp N} (htakes : op.takesListMtx P m = false) :
    (op.run P I env W).run m = .value () m := by
  cases op with
  | deallocate ptr =>
    rw [UserOp.run, deallocate, Call.run_read_bind]
    by_cases hnull : ptr = 0
    · rw [if_pos hnull]
      rfl
    · have hfind : ¬ ptr = 0#64 → registryFind P m (P.ptrToVaddr ptr) = none := by
        simpa [UserOp.takesListMtx] using htakes
      rw [if_neg hnull]
      simp only [hfind hnull]
      rfl
  | _ => cases htakes

theorem run_userOps_locked (hheld : m.listHeld = true) {ops : List (UserOp N)}
    (hops : ∀ op ∈ ops, op.Resident P W m) :
    (runUserOps P I env W ops).run m = .stuck ↔ ∃ op ∈ ops, op.takesListMtx P m = true := by
  induction ops with
  | nil => simp [runUserOps]
  | cons op ops ih =>
    obtain ⟨hop, hops⟩ := List.forall_mem_cons.mp hops
    rw [runUserOps, List.exists_mem_cons_iff, ← ih hops]
    cases htakes : op.takesListMtx P m with
    | true => simp [Call.run_bind_stuck (run_op_blocks hheld hop htakes)]
    | false => simp [Call.run_bind_value (run_op_passes htakes)]

end locked

/-! ## 3. Where user code runs -/

section reached

variable {P I env W} {m m₁ : Manager H} {name : N} {bytes : Word}

/-- The manager in which `construct` runs the constructor, if it comes to that:
    the first segment that answers has room, or the last one after a growth. -/
def constructorState (P : Platform) (I : InnerManager H N) (env : Env H) (m : Manager H)
    (name : N) (bytes : Word) : Option (Manager H) :=
  match m.segments.find? (SegInfo.answers I name bytes) with
  | some info => if info.refuses I name bytes then none else some m
  | none =>
      match (grow P I env (bytes + 1024#64)).run m with
      | .value _ m₁ =>
          if m₁.segments.getLast?.any (SegInfo.hasRoom I name bytes) then some m₁ else none
      | _ => none

/-- The manager in which `destroy` runs the destructor, if the name exists. -/
def destructorState (I : InnerManager H N) (m : Manager H) (name : N) : Option (Manager H) :=
  if (destroyLoop I name m.segments).isSome then some m else none

/-- Growth locks nothing twice. -/
theorem grow_not_stuck (hm : Ready m) {minBytes : Word} :
    (grow P I env minBytes).run m ≠ .stuck := by
  by_cases henough : getFreeMemoryUnlocked I m.segments ≥ minBytes
  · rw [grow_enough hm henough]
    nofun
  · rw [grow_short hm henough]
    refine Call.guarded_not_stuck hm.grow ?_
    split
    · exact growAnon_not_stuck hm.list
    · exact growShm_not_stuck hm.list

/-- The registry is all that the choice of blocking depends on. -/
theorem takesListMtx_congr {op : UserOp N} (h : m₁.registry = m.registry) :
    op.takesListMtx P m₁ = op.takesListMtx P m := by
  cases op <;> simp only [UserOp.takesListMtx, registryFind, h]

/-- Residence depends on what segments there are, not on their contents. -/
theorem resident_congr {op : UserOp N} (hregistry : m₁.registry = m.registry)
    (hanon : m₁.anon = m.anon)
    (hsegments : ∀ seg, (m₁.segments.find? fun info => info.seg == seg).map
        (SegInfo.subSegment m.anon) =
      (m.segments.find? fun info => info.seg == seg).map (SegInfo.subSegment m.anon))
    (h : op.Resident P W m) : op.Resident P W m₁ := by
  have hreg : ∀ addr, registrySegment P W m₁ addr = registrySegment P W m addr := by
    intro addr
    have hfind : registryFind P m₁ addr = registryFind P m addr := by
      rw [registryFind, registryFind, hregistry]
    rw [registrySegment, registrySegment, hfind, hanon]
    refine congrArg _ (funext fun seg => ?_)
    have hseg := hsegments seg
    cases hm : m.segments.find? fun info => info.seg == seg with
    | none =>
      rw [hm, Option.map_none, Option.map_eq_none_iff] at hseg
      rw [hseg]
    | some info =>
      rw [hm, Option.map_some, Option.map_eq_some_iff] at hseg
      obtain ⟨info₁, hm₁, heq⟩ := hseg
      rw [hm₁]
      simp only [heq]
  cases op with
  | get self mOffset | copy dst self mOffset =>
    simp only [UserOp.Resident, hreg]
    exact h
  | _ => trivial

/-- The same segments, but for the contents of one. -/
theorem find_seg_congr {pre post : List (SegInfo H)} {info : SegInfo H} {smgr : H} {anon : Bool}
    (seg : Word) :
    ((pre ++ { info with smgr := smgr } :: post).find? fun info => info.seg == seg).map
        (SegInfo.subSegment anon) =
      ((pre ++ info :: post).find? fun info => info.seg == seg).map (SegInfo.subSegment anon) := by
  rw [List.find?_append, List.find?_append]
  cases pre.find? fun info => info.seg == seg with
  | some _ => rfl
  | none =>
    simp only [Option.none_or, List.find?_cons]
    cases info.seg == seg <;> rfl

/-- A section that changes the contents of one segment and then runs user code
    blocks the thread exactly when the user code does. -/
theorem userSection_stuck_iff (hm : Ready m) {ops : List (UserOp N)} {A : Type} {r : A}
    {pre post : List (SegInfo H)} {info : SegInfo H} {smgr : H}
    (hsegments : m.segments = pre ++ info :: post)
    (hops : ∀ op ∈ ops, op.Resident P W m) :
    (Call.guarded (listMtx H) (do
      Call.modify fun m => { m with segments := pre ++ { info with smgr := smgr } :: post }
      runUserOps P I env W ops
      return r)).run m = .stuck ↔ ∃ op ∈ ops, op.takesListMtx P m = true := by
  let made : Manager H := { (listMtx H).setHeld true m with
    segments := pre ++ { info with smgr := smgr } :: post }
  have hres : ∀ op ∈ ops, op.Resident P W made := fun op hop =>
    resident_congr (m := m) rfl rfl (fun seg => by rw [hsegments]; exact find_seg_congr seg)
      (hops op hop)
  have htakes : ∀ op : UserOp N, op.takesListMtx P made = op.takesListMtx P m :=
    fun _ => takesListMtx_congr rfl
  have hrun : (runUserOps P I env W ops).run made = .stuck ↔ _ := run_userOps_locked rfl hres
  simp only [htakes] at hrun
  rw [Call.guarded_eq_stuck hm.list, Call.run_modify_bind, ← hrun]
  constructor
  · intro hstuck
    by_contra hne
    exact Call.bind_not_stuck hne (fun _ _ _ => Call.pure_not_stuck) hstuck
  · exact fun hstuck => Call.run_bind_stuck hstuck

/-- `construct` blocks exactly when it reaches a constructor that does. -/
theorem construct_stuck_iff (hm : Ready m) {ops : List (UserOp N)}
    (hops : ∀ m₁ ∈ constructorState P I env m name bytes, ∀ op ∈ ops, op.Resident P W m₁) :
    (construct P I env name bytes (runUserOps P I env W ops)).run m = .stuck ↔
      ∃ m₁ ∈ constructorState P I env m name bytes,
        ∃ op ∈ ops, op.takesListMtx P m₁ = true := by
  have hcases := construct_cases (P := P) (I := I) env name bytes (runUserOps P I env W ops) hm
  cases hfind : m.segments.find? (SegInfo.answers I name bytes) with
  | some info =>
    obtain ⟨hrefuses, hloop⟩ | ⟨hroom, p, segments, hloop⟩ := constructLoop_of_find_some hfind
    · have hnone : constructorState P I env m name bytes = none := by
        simp [constructorState, hfind, hrefuses]
      rw [hloop] at hcases
      obtain ⟨_, _, hne, -⟩ | ⟨-, hrun⟩ | ⟨hne, -⟩ := hcases
      · cases hne
      · simp [hrun, hnone]
      · cases hne
    · have hsome : constructorState P I env m name bytes = some m := by
        simp [constructorState, hfind, hroom]
      rw [hloop] at hcases
      obtain ⟨p', segments', heq, hrun⟩ | ⟨hne, -⟩ | ⟨hne, -⟩ := hcases
      · cases heq
        obtain ⟨pre, info', post, offset, smgr, hs, -, hs', -⟩ := constructLoop_split hloop
        rw [hrun, hs', makeObject, userSection_stuck_iff hm hs (hops m hsome)]
        simp [hsome]
      · cases hne
      · cases hne
  | none =>
    rw [constructLoop_of_find_none hfind] at hcases
    obtain ⟨_, _, hne, -⟩ | ⟨hne, -⟩ | ⟨-, hrun⟩ := hcases
    · cases hne
    · cases hne
    · rw [hrun]
      cases hgrow : (grow P I env (bytes + 1024#64)).run m with
      | stuck => exact absurd hgrow (grow_not_stuck hm)
      | thrown e m₁ =>
        have hnone : constructorState P I env m name bytes = none := by
          rw [constructorState, hfind]
          simp only [hgrow]
        simp [Call.run_bind_thrown hgrow, hnone]
      | value u m₁ =>
        have hm₁ : Ready m₁ :=
          (stable_frontPrimary I).grow false false m hm m₁ (by rw [hgrow]; rfl)
        rw [Call.run_bind_value hgrow]
        obtain ⟨pre, last, hs, hlast⟩ :=
          constructLast_cases (I := I) name bytes (runUserOps P I env W ops) hm₁
        obtain ⟨offset, smgr, hcons, hrun'⟩ | ⟨hno, hsame⟩ := hlast
        · have hsome : constructorState P I env m name bytes = some m₁ := by
            rw [constructorState, hfind]
            simp only [hgrow, hs, List.getLast?_concat, Option.any_some, SegInfo.hasRoom, hcons,
              if_true]
          rw [hrun', makeObject, userSection_stuck_iff hm₁ hs (hops m₁ hsome)]
          simp [hsome]
        · have hnone : constructorState P I env m name bytes = none := by
            rw [constructorState, hfind]
            simp only [hgrow, hs, List.getLast?_concat, Option.any_some, hno,
              Bool.false_eq_true, if_false]
          obtain hsame | ⟨e, hsame⟩ := hsame <;> simp [hsame, hnone]

/-- `find_or_construct` reaches `construct` only for a name that is not found. -/
theorem findOrConstruct_stuck_iff (hm : Ready m) {ops : List (UserOp N)}
    (hops : ∀ m₁ ∈ constructorState P I env m name bytes, ∀ op ∈ ops, op.Resident P W m₁) :
    (findOrConstruct P I env name bytes (runUserOps P I env W ops)).run m = .stuck ↔
      findLoop I name m.segments = none ∧ ∃ m₁ ∈ constructorState P I env m name bytes,
        ∃ op ∈ ops, op.takesListMtx P m₁ = true := by
  rw [findOrConstruct, Call.run_bind_value (run_find hm), ← construct_stuck_iff hm hops]
  cases findLoop I name m.segments <;> simp

/-- `destroy` blocks exactly when it reaches a destructor that does. -/
theorem destroy_stuck_iff (hm : Ready m) {ops : List (UserOp N)}
    (hops : ∀ m₁ ∈ destructorState I m name, ∀ op ∈ ops, op.Resident P W m₁) :
    (destroy I name (runUserOps P I env W ops)).run m = .stuck ↔
      ∃ m₁ ∈ destructorState I m name, ∃ op ∈ ops, op.takesListMtx P m₁ = true := by
  cases hloop : destroyLoop I name m.segments with
  | none =>
    have hnone : destructorState I m name = none := by simp [destructorState, hloop]
    have hbody : (destroy I name (runUserOps P I env W ops)).run m =
        (Call.guarded (listMtx H) (return false)).run m := by
      apply Call.guarded_congr
      rw [Call.run_read_bind, listMtx_segments, hloop]
    rw [hbody, Call.guarded_section hm.list hm.list rfl]
    simp [hnone]
  | some segments =>
    have hsome : destructorState I m name = some m := by simp [destructorState, hloop]
    obtain ⟨pre, info, post, offset, smgr, hs, -, hs'⟩ := destroyLoop_split hloop
    have hbody : (destroy I name (runUserOps P I env W ops)).run m =
        (Call.guarded (listMtx H) do
          Call.modify fun m => { m with segments := pre ++ { info with smgr := smgr } :: post }
          runUserOps P I env W ops
          return true).run m := by
      apply Call.guarded_congr
      rw [Call.run_read_bind, listMtx_segments, hloop, hs']
    rw [hbody, userSection_stuck_iff hm hs (hops m hsome)]
    simp [hsome]

end reached

/-! ## 4. Results -/

/-- No re-entrant operation of the type's constructor or destructor deadlocks:
    exactly when they are not reached, or lock `list_mtx_` nowhere. -/
theorem reentry_deadlock_free_iff {P : Platform} {I : InnerManager H N} {env : Env H}
    {W : Surroundings} {m : Manager H} (hm : Ready m) (name : N) (T : UserType N)
    (hctor : ∀ m₁ ∈ constructorState P I env m name T.size, ∀ op ∈ T.ctor, op.Resident P W m₁)
    (hdtor : ∀ m₁ ∈ destructorState I m name, ∀ op ∈ T.dtor, op.Resident P W m₁) :
    ((construct P I env name T.size (runUserOps P I env W T.ctor)).run m ≠ .stuck ↔
      ∀ m₁ ∈ constructorState P I env m name T.size,
        ∀ op ∈ T.ctor, op.takesListMtx P m₁ = false) ∧
    ((findOrConstruct P I env name T.size (runUserOps P I env W T.ctor)).run m ≠ .stuck ↔
      findLoop I name m.segments ≠ none ∨ ∀ m₁ ∈ constructorState P I env m name T.size,
        ∀ op ∈ T.ctor, op.takesListMtx P m₁ = false) ∧
    ((destroy I name (runUserOps P I env W T.dtor)).run m ≠ .stuck ↔
      ∀ m₁ ∈ destructorState I m name, ∀ op ∈ T.dtor, op.takesListMtx P m₁ = false) := by
  refine ⟨?_, ?_, ?_⟩
  · rw [ne_eq, construct_stuck_iff hm hctor]
    simp
  · rw [ne_eq, findOrConstruct_stuck_iff hm hctor, not_and_or]
    simp
  · rw [ne_eq, destroy_stuck_iff hm hdtor]
    simp

/-- A SHM manager of 16 MiB, fresh from the constructor of its creator. -/
def arenaShmManager : Manager Arena :=
  { arenaManager 0x1000000 with
    anon := false
    table := initSegmentTable [⟨⟨0, 0x1000000⟩, true⟩] .blank }

theorem arenaShmManager_created : Created fourKiBPages arena arenaShmManager :=
  @Created.creator _ _ _ _ roomyEnv .blank (fun _ => none) 0x1000000 _ rfl

/-- A process without other managers. -/
def alone : Surroundings := ⟨fun _ => none, fun _ => none, fun _ => false⟩

/-- The same manager with an object of 64 bytes under a name. -/
def namedShmManager : Manager Arena :=
  { arenaShmManager with
    segments := arenaShmManager.segments.map fun info =>
      { info with smgr := { info.smgr with blocks := [(0, 64)], names := [(1, 0)] } } }

/-- Constructors and destructors may give back null and memory of other allocators; a
    constructor that reads a pointer in its own segment blocks. -/
theorem reentry_deadlock_free_deallocate :
    let T : UserType Nat :=
      ⟨64, [.deallocate 0, .deallocate 0x1000], [.deallocate 0x7fff00001008, .deallocate 0]⟩
    let reader : UserType Nat := ⟨64, T.ctor ++ [.get 0x100003000 8], []⟩
    let run := runUserOps fourKiBPages arena roomyEnv alone
    (construct fourKiBPages arena roomyEnv 2 64 (run T.ctor)).run namedShmManager ≠ .stuck ∧
    (findOrConstruct fourKiBPages arena roomyEnv 2 64 (run T.ctor)).run namedShmManager ≠
      .stuck ∧
    (destroy arena 1 (run T.dtor)).run namedShmManager ≠ .stuck ∧
    (construct fourKiBPages arena roomyEnv 2 64 (run reader.ctor)).run namedShmManager =
      .stuck := by
  intro T reader run
  have hm : Ready namedShmManager := ⟨rfl, rfl, _, _, rfl, rfl⟩
  have hconstruct : constructorState fourKiBPages arena roomyEnv namedShmManager 2 64 =
      some namedShmManager := rfl
  have hdestroy : destructorState arena namedShmManager 1 = some namedShmManager := rfl
  have hfree : ∀ m₁ : Manager Arena, ∀ op ∈ T.ctor ++ T.dtor,
      op.Resident fourKiBPages alone m₁ := by
    intro m₁ op hop
    simp only [T, List.cons_append, List.nil_append, List.mem_cons, List.not_mem_nil,
      or_false] at hop
    rcases hop with rfl | rfl | rfl | rfl <;> trivial
  have hctor : ∀ name, ∀ m₁ ∈ constructorState fourKiBPages arena roomyEnv namedShmManager name 64,
      ∀ op ∈ T.ctor, op.Resident fourKiBPages alone m₁ :=
    fun _ m₁ _ op hop => hfree m₁ op (List.mem_append_left _ hop)
  have hdtor : ∀ name, ∀ m₁ ∈ destructorState arena namedShmManager name,
      ∀ op ∈ T.dtor, op.Resident fourKiBPages alone m₁ :=
    fun _ m₁ _ op hop => hfree m₁ op (List.mem_append_right _ hop)
  have hthree := fun name => reentry_deadlock_free_iff hm name T (hctor name) (hdtor name)
  refine ⟨(hthree 2).1.mpr ?_, (hthree 2).2.1.mpr (.inr ?_), (hthree 1).2.2.mpr ?_, ?_⟩
  · rw [hconstruct]
    simp only [Option.mem_some_iff, forall_eq', T]
    decide
  · rw [hconstruct]
    simp only [Option.mem_some_iff, forall_eq', T]
    decide
  · rw [hdestroy]
    simp only [Option.mem_some_iff, forall_eq', T]
    decide
  · have hread : UserOp.Resident fourKiBPages alone namedShmManager
        (.get 0x100003000 8 : UserOp Nat) :=
      ⟨by decide, ⟨0x100000000, 0x1000000, 0, false, .this⟩, rfl, rfl, rfl⟩
    have hreader : ∀ m₁ ∈ constructorState fourKiBPages arena roomyEnv namedShmManager 2 64,
        ∀ op ∈ reader.ctor, op.Resident fourKiBPages alone m₁ := by
      intro m₁ hm₁ op hop
      rw [hconstruct] at hm₁
      obtain rfl := Option.some.inj hm₁
      rcases List.mem_append.mp hop with hop | hop
      · exact hfree _ op (List.mem_append_left _ hop)
      · obtain rfl := List.mem_singleton.mp hop
        exact hread
    by_contra hne
    have hpasses := (reentry_deadlock_free_iff hm 2 reader hreader nofun).1.mp hne _ hconstruct
      (.get 0x100003000 8) (List.mem_append_right _ List.mem_cons_self)
    exact absurd hpasses (by decide)
/-- A constructor that allocates. -/
theorem nested_allocate_deadlocks :
    ¬ ∀ (m : Manager Arena) (name : Nat) (T : UserType Nat), Created fourKiBPages arena m →
      m.anon = false → (∀ op ∈ T.ctor, op.Resident fourKiBPages alone m) →
      (construct fourKiBPages arena roomyEnv name T.size
        (runUserOps fourKiBPages arena roomyEnv alone T.ctor)).run m ≠ .stuck := by
  intro hall
  refine hall arenaShmManager 1 ⟨64, [.allocate 64], []⟩ arenaShmManager_created rfl ?_ rfl
  intro op hop
  obtain rfl := List.mem_singleton.mp hop
  trivial

end Memnon
