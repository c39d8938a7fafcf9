import Memnon.ManagerSessions
import Memnon.RegistrySolo

/-!
# The registry over the lives of managers

A manager registers each sub-segment that it maps, and its destructor unregisters
them all. An exception that leaves a constructor skips the destructor but frees
the sub-segments: what has been registered by then stays in the registry. The
constructors of an opener may be left behind any of their mappings, those of a
creator and of an anonymous manager when the prefetch thread cannot be started.
-/

namespace Memnon.Lifetimes

open Memnon.Lib Memnon.Sessions

variable {H N K : Type}

/-! ## 1. The process -/

/-- The three constructors; an opener finds the table in its file. -/
inductive Construction where
  | anon (initialSize : Word)
  | creator (initialSize : Word) (table : SegmentTable)
  | opener (table : SegmentTable)

structure Process (K H : Type) where
  registry : Word → Option Word
  manager : K → Option (Manager H)
  /-- `active_managers_` of the prefetch worker -/
  activeManagers : Nat

/-- Operations, with what the operating system answers, and the table as the file
    has it then. `threadStarts` tells whether `std::thread` could be started. -/
inductive Label (K H : Type) where
  | construct (k : K) (c : Construction) (env : Env H) (threadStarts : Bool)
  | grow (k : K) (env : Env H) (table : SegmentTable) (minBytes : Word)
  | growBackground (k : K) (env : Env H) (table : SegmentTable)
  | discover (k : K) (env : Env H) (table : SegmentTable) (requiredFileOffset : Word)
  | destroy (k : K)

section process

variable (P : Platform) (I : InnerManager H N) (env : Env H)

def Construction.start (registry : Word → Option Word) : Construction → Manager H
  | .anon _ => .empty true .blank registry
  | .creator _ table | .opener table => .empty false table registry

/-- A constructor up to `register_manager`. -/
def Construction.run : Construction → Op H Unit
  | .anon initialSize => constructAnon P I env initialSize
  | .creator initialSize _ => constructCreator P I env initialSize
  | .opener _ => openAllSegmentsMapped P I env

/-- The loop of the destructor. -/
def unregisterAll (segments : List (SegInfo H)) (registry : Word → Option Word) :
    Word → Option Word :=
  segments.foldl (fun registry info => unregisterSegment P info.baseVaddr info.size registry)
    registry

/-- `register_manager` of the prefetch worker: the first manager starts its thread. -/
def Process.startsWorker (p : Process K H) (threadStarts : Bool) : Bool :=
  p.activeManagers != 0 || threadStarts

variable [DecidableEq K]

def Process.put (p : Process K H) (k : K) (m : Manager H) : Process K H :=
  { p with registry := m.registry, manager := Function.update p.manager k (some m) }

/-- A manager as its operations see it. -/
def Process.view (p : Process K H) (m : Manager H) (table : SegmentTable) : Manager H :=
  { m with registry := p.registry, table := table }

/-- One operation. An exception leaves a constructor without a manager; one that
    leaves `grow_background`, which is `noexcept`, ends the process. -/
def step (p : Process K H) : Label K H → Option (Process K H)
  | .construct k c env threadStarts =>
      match p.manager k with
      | some _ => none
      | none =>
          match (c.run P I env).run (c.start p.registry) with
          | .value _ m =>
              let p' := { p with registry := m.registry, activeManagers := p.activeManagers + 1 }
              some (if p.startsWorker threadStarts then p'.put k m else p')
          | .thrown _ m => some { p with registry := m.registry }
          | .stuck => none
  | .grow k env table minBytes =>
      match p.manager k with
      | none => none
      | some m => ((grow P I env minBytes).run (p.view m table)).state.map (p.put k)
  | .growBackground k env table =>
      match p.manager k with
      | none => none
      | some m => (returned ((growBackground P I env).run (p.view m table))).map (p.put k)
  | .discover k env table requiredFileOffset =>
      match p.manager k with
      | none => none
      | some m =>
          ((discoverGrowth P I env requiredFileOffset).run (p.view m table)).state.map (p.put k)
  | .destroy k =>
      match p.manager k with
      | none => none
      | some m =>
          some
            { registry := unregisterAll P m.segments p.registry
              manager := Function.update p.manager k none
              activeManagers := p.activeManagers - 1 }

def start : Process K H := ⟨fun _ => none, fun _ => none, 0⟩

end process

/-! ## 2. What is asked of the constructors -/

/-- A constructor returns, or nothing is registered when it is left: the first
    mapping fails, or the second one of segment 0, in place of the first. -/
def Construction.LeavesNothing (env : Env H) (workerStarts : Bool) : Construction → Prop
  | .anon initialSize => env.createAnon (umax initialSize kMinSegmentSize) = none ∨
      workerStarts = true
  | .creator initialSize _ => env.createShm (umax initialSize kMinSegmentSize) = none ∨
      workerStarts = true
  | .opener table => env.openShmChunk kMinSegmentSize 0 = none ∨
      table.magic = kSegmentTableMagic ∧
        ((table.entries 0).size > kMinSegmentSize ∧
            env.openShmChunk (table.entries 0).size 0 = none ∨
          (∀ e ∈ table.published.drop 1, (env.openShmChunk e.size e.fileOffset).isSome = true) ∧
            workerStarts = true)

def LeavesNothing (p : Process K H) : Label K H → Prop
  | .construct _ c env threadStarts => c.LeavesNothing env (p.startsWorker threadStarts)
  | _ => True

/-- The pointer is that of a live sub-segment of a live manager. -/
def Live (p : Process K H) (seg : Word) : Prop :=
  ∃ k m, p.manager k = some m ∧ ∃ info ∈ m.segments, info.seg = seg

/-! ## 3. What an operation registers -/

section registered

variable {P : Platform} {I : InnerManager H N} {env : Env H} {m m' : Manager H}
  {registry : Word → Option Word} {page seg : Word} {O O' : Word → Word → Prop}

/-- The pages that the registry has for a sub-segment. -/
def OnPage (P : Platform) (baseVaddr size page : Word) : Prop :=
  let base := P.ptrToVaddr baseVaddr
  base >>> P.pageShift ≤ page ∧ page < (base + size + (P.pageSize - 1)) >>> P.pageShift

def SegInfo.Owns (P : Platform) (info : SegInfo H) (page seg : Word) : Prop :=
  info.seg = seg ∧ OnPage P info.baseVaddr info.size page

/-- Each entry of the registry is one of `O`, or of a segment of the manager. -/
def Registered (P : Platform) (O : Word → Word → Prop) (m : Manager H) : Prop :=
  ∀ page seg, m.registry page = some seg →
    O page seg ∨ ∃ info ∈ m.segments, SegInfo.Owns P info page seg

theorem registerSegment_cases {baseVaddr size s : Word}
    (h : registerSegment P s baseVaddr size registry page = some seg) :
    (s = seg ∧ OnPage P baseVaddr size page) ∨ registry page = some seg := by
  unfold registerSegment at h
  simp only at h
  split at h
  · rename_i hpage
    exact .inl ⟨Option.some.inj h, hpage⟩
  · exact .inr h

theorem unregisterSegment_cases {baseVaddr size : Word}
    (h : unregisterSegment P baseVaddr size registry page = some seg) :
    ¬ OnPage P baseVaddr size page ∧ registry page = some seg := by
  unfold unregisterSegment at h
  simp only at h
  split at h
  · cases h
  · rename_i hpage
    exact ⟨hpage, h⟩

theorem unregisterAll_cases {segments : List (SegInfo H)}
    (h : unregisterAll P segments registry page = some seg) :
    (∀ info ∈ segments, ¬ OnPage P info.baseVaddr info.size page) ∧ registry page = some seg := by
  induction segments generalizing registry with
  | nil => exact ⟨by simp, h⟩
  | cons info rest ih =>
    obtain ⟨hrest, hregistry⟩ := ih h
    obtain ⟨hnot, hold⟩ := unregisterSegment_cases hregistry
    exact ⟨List.forall_mem_cons.mpr ⟨hnot, hrest⟩, hold⟩

/-- A segment is registered and listed. -/
theorem keeps_addSegment {mapping : Mapping} {range : FileRange} {isPrimary : Bool} {smgr : H} :
    Call.Keeps (Registered P O) (addSegment P mapping range isPrimary smgr) := by
  refine Call.keeps_modify fun m hm page seg hpage => ?_
  rcases registerSegment_cases hpage with ⟨hseg, hon⟩ | hold
  · exact .inr ⟨_, List.mem_append_right _ List.mem_cons_self, hseg, hon⟩
  · rcases hm page seg hold with hO | ⟨info, hinfo, howns⟩
    · exact .inl hO
    · exact .inr ⟨info, List.mem_append_left _ hinfo, howns⟩

theorem keeps_addSegmentShm {fileOffset size : Word} {isPrimary isCreator initializeSmgr : Bool} :
    Call.Keeps (Registered P O)
      (addSegmentShm P I env fileOffset size isPrimary isCreator initializeSmgr) := by
  unfold addSegmentShm
  simp only
  split
  · exact Call.keeps_raise
  · exact keeps_addSegment

theorem keeps_publishLastSegment :
    Call.Keeps (Registered P O) (publishLastSegment : Op H Unit) := by
  refine Call.keeps_read_bind fun m hm m' hends => ?_
  split at hends
  · cases hends
    exact hm
  · cases hends
    exact hm

theorem keeps_list {A : Type} {c : Op H A} (hc : Call.Keeps (Registered P O) c) :
    Call.Keeps (Registered P O) (.guarded (listMtx H) c) :=
  Call.keeps_guarded (fun _ h => h) hc fun _ h => h

theorem keeps_growShm {newChunkSize currentFileSize : Word} :
    Call.Keeps (Registered P O) (growShm P I env newChunkSize currentFileSize) := by
  unfold growShm
  split
  · exact keeps_list (Call.keeps_bind keeps_addSegmentShm fun _ => keeps_publishLastSegment)
  · exact Call.keeps_raise

theorem keeps_growAnon {newChunkSize : Word} :
    Call.Keeps (Registered P O) (growAnon P I env newChunkSize) := by
  unfold growAnon
  split
  · exact Call.keeps_raise
  · exact keeps_list keeps_addSegment

theorem keeps_grow {minBytes : Word} : Call.Keeps (Registered P O) (grow P I env minBytes) := by
  refine Call.keeps_guarded (fun _ h => h) (Call.keeps_bind (keeps_list ?_) fun sizes => ?_)
    fun _ h => h
  · intro m hm m' hends
    rw [run_readSize] at hends
    cases hends
    exact hm
  · cases sizes with
    | none => exact Call.keeps_pure
    | some sizes =>
      refine Call.keeps_read_bind fun m hm m' hends => ?_
      split at hends
      · exact keeps_growAnon m hm m' hends
      · exact keeps_growShm m hm m' hends

theorem keeps_growBackground : Call.Keeps (Registered P O) (growBackground P I env) := by
  refine Call.keeps_guarded (fun _ h => h) (Call.keeps_bind (keeps_list ?_) fun sizes => ?_)
    fun _ h => h
  · refine Call.keeps_read_bind fun m hm m' hends => ?_
    split at hends
    · cases hends
      exact hm
    · split at hends
      · cases hends
        exact hm
      · cases hends
        exact hm
  · cases sizes with
    | none => exact Call.keeps_pure
    | some sizes =>
      refine Call.keeps_read_bind fun m hm m' hends => ?_
      split at hends
      · split at hends
        · cases hends
          exact hm
        · exact keeps_list keeps_addSegment m hm m' hends
      · split at hends
        · refine keeps_list (Call.keeps_read_bind fun m hm m' hends => ?_) m hm m' hends
          split at hends
          · exact Call.keeps_bind keeps_addSegmentShm (fun _ => keeps_publishLastSegment) m hm m'
              hends
          · cases hends
            exact hm
        · cases hends
          exact hm

theorem keeps_discoverLoop {entries : List FileRange} :
    Call.Keeps (Registered P O) (discoverLoop P I env entries) := by
  induction entries with
  | nil => exact Call.keeps_pure
  | cons e rest ih => exact Call.keeps_bind keeps_addSegmentShm fun _ => ih

theorem keeps_discoverGrowth {requiredFileOffset : Word} :
    Call.Keeps (Registered P O) (discoverGrowth P I env requiredFileOffset) := by
  refine Call.keeps_read_bind fun m hm m' hends => ?_
  split at hends
  · cases hends
    exact hm
  · refine keeps_list (Call.keeps_read_bind fun m hm m' hends => ?_) m hm m' hends
    exact Call.keeps_bind keeps_discoverLoop (fun _ => Call.keeps_pure) m hm m' hends

end registered

/-! ## 4. The constructors -/

section constructors

variable {P : Platform} {I : InnerManager H N} {env : Env H} {m m' : Manager H}
  {registry : Word → Option Word} {page seg : Word} {O : Word → Word → Prop}

/-- The first part of `open_all_segments`: besides what was registered before,
    the registry has the segment 0 that is returned. -/
theorem openPrimary_registers {seg0 : Mapping × Word}
    (h : (openPrimary P env).run m = .value seg0 m') :
    m'.segments = m.segments ∧ m'.table = m.table ∧
      ∀ page seg, m'.registry page = some seg → m.registry page = some seg ∨
        seg0.1.seg = seg ∧ OnPage P seg0.1.baseVaddr seg0.2 page := by
  unfold openPrimary at h
  cases hguess : env.openShmChunk kMinSegmentSize 0 with
  | none =>
    simp only [hguess] at h
    cases h
  | some guess =>
    simp only [hguess, register, unregister, Call.run_modify_bind, Call.run_read_bind] at h
    split at h
    · cases h
    · split at h
      · simp only [Call.run_modify_bind] at h
        split at h
        · cases h
        · cases h
          refine ⟨rfl, rfl, fun page seg hpage => ?_⟩
          rcases registerSegment_cases hpage with hnew | hold
          · exact .inr hnew
          · obtain ⟨hnot, hguessed⟩ := unregisterSegment_cases hold
            rcases registerSegment_cases hguessed with ⟨-, hon⟩ | hold
            · exact absurd hon hnot
            · exact .inl hold
      · cases h
        refine ⟨rfl, rfl, fun page seg hpage => ?_⟩
        exact (registerSegment_cases hpage).symm

/-- Behind the check of the table it is left by an exception only when the second
    mapping of segment 0 fails; the first one is unregistered by then. -/
theorem openPrimary_thrown (hmagic : m.table.magic = kSegmentTableMagic) {e : Exn}
    (h : (openPrimary P env).run m = .thrown e m') (hpage : m'.registry page = some seg) :
    m.registry page = some seg := by
  unfold openPrimary at h
  cases hguess : env.openShmChunk kMinSegmentSize 0 with
  | none =>
    simp only [hguess] at h
    cases h
    exact hpage
  | some guess =>
    simp only [hguess, register, unregister, Call.run_modify_bind, Call.run_read_bind, hmagic,
      ne_eq, not_true, if_false] at h
    split at h
    · rw [Call.run_modify_bind] at h
      split at h
      · cases h
        obtain ⟨hnot, hguessed⟩ := unregisterSegment_cases hpage
        rcases registerSegment_cases hguessed with ⟨-, hon⟩ | hold
        · exact absurd hon hnot
        · exact hold
      · cases h
    · cases h

theorem openPrimary_fails (hmagic : m.table.magic = kSegmentTableMagic)
    (hlarge : (m.table.entries 0).size > kMinSegmentSize)
    (hfails : env.openShmChunk (m.table.entries 0).size 0 = none) :
    ∃ e m', (openPrimary P env).run m = .thrown e m' := by
  unfold openPrimary
  cases hguess : env.openShmChunk kMinSegmentSize 0 with
  | none => exact ⟨_, _, rfl⟩
  | some guess =>
    simp only [register, unregister, Call.run_modify_bind, Call.run_read_bind, hmagic, ne_eq,
      not_true, if_false]
    rw [if_pos hlarge, Call.run_modify_bind]
    simp only [hfails]
    exact ⟨_, _, rfl⟩

/-- A constructor that returns has listed what it has registered. -/
theorem Construction.registered {c : Construction} {u : Unit}
    (hm : Registered P O (c.start registry : Manager H))
    (h : (c.run P I env).run (c.start registry) = .value u m') : Registered P O m' := by
  cases c with
  | anon initialSize =>
    have hkeeps : Call.Keeps (Registered P O) (constructAnon P I env initialSize) := by
      unfold constructAnon
      simp only
      split
      · exact Call.keeps_raise
      · exact keeps_addSegment
    exact hkeeps _ hm m' (by rw [Construction.run] at h; rw [h]; rfl)
  | creator initialSize table =>
    have hkeeps : Call.Keeps (Registered P O) (constructCreator P I env initialSize) :=
      Call.keeps_bind keeps_addSegmentShm fun _ => Call.keeps_modify fun _ hm => hm
    exact hkeeps _ hm m' (by rw [Construction.run] at h; rw [h]; rfl)
  | opener table =>
    obtain ⟨seg0, m₁, hprimary, hrest⟩ := Call.run_bind_eq_value h
    obtain ⟨hsegments, -, hregistry⟩ := openPrimary_registers hprimary
    rw [pushPrimary, Call.run_modify_bind, Call.run_read_bind] at hrest
    refine keeps_discoverLoop _ ?_ m' (by rw [hrest]; rfl)
    intro page seg hpage
    rcases hregistry page seg hpage with hold | hnew
    · rcases hm page seg hold with hO | ⟨info, hinfo, howns⟩
      · exact .inl hO
      · exact .inr ⟨info, List.mem_append_left _ (hsegments ▸ hinfo), howns⟩
    · exact .inr ⟨_, List.mem_append_right _ List.mem_cons_self, hnew⟩

theorem openAllSegments_thrown {workerStarts : Bool} {e : Exn}
    (hc : (Construction.opener m.table).LeavesNothing env workerStarts)
    (h : (openAllSegmentsMapped P I env).run m = .thrown e m')
    (hpage : m'.registry page = some seg) : m.registry page = some seg := by
  rw [openAllSegmentsMapped] at h
  rcases hc with hnone | ⟨hmagic, hc⟩
  · have hprimary : (openPrimary P env).run m = .thrown .runtimeError m := by
      simp only [openPrimary, hnone]
      rfl
    rw [Call.run_bind_thrown hprimary] at h
    cases h
    exact hpage
  · cases hprimary : (openPrimary P env).run m with
    | thrown e' m₁ =>
      rw [Call.run_bind_thrown hprimary] at h
      cases h
      exact openPrimary_thrown hmagic hprimary hpage
    | stuck =>
      rw [Call.run_bind_stuck hprimary] at h
      cases h
    | value seg0 m₁ =>
      rcases hc with ⟨hlarge, hfails⟩ | ⟨hmaps, -⟩
      · obtain ⟨e', m₂, hthrown⟩ := openPrimary_fails (P := P) hmagic hlarge hfails
        rw [hthrown] at hprimary
        cases hprimary
      · obtain ⟨-, htable, -⟩ := openPrimary_registers hprimary
        rw [Call.run_bind_value hprimary, pushPrimary, Call.run_modify_bind,
          Call.run_read_bind] at h
        have hmaps' : ∀ e ∈ m₁.table.published.drop 1,
            (env.openShmChunk e.size e.fileOffset).isSome = true := by
          rw [htable]
          exact hmaps
        obtain ⟨m₂, hloop⟩ := discoverLoop_returns (P := P) (I := I) hmaps'
        rw [hloop] at h
        cases h

/-- A constructor that leaves nothing behind has registered nothing when it is left. -/
theorem Construction.thrown_leavesNothing {c : Construction} {workerStarts : Bool} {e : Exn}
    (hc : c.LeavesNothing env workerStarts)
    (h : (c.run P I env).run (c.start registry) = .thrown e m')
    (hpage : m'.registry page = some seg) : registry page = some seg := by
  cases c with
  | anon initialSize =>
    rw [Construction.run, constructAnon] at h
    cases hmap : env.createAnon (umax initialSize kMinSegmentSize) with
    | none =>
      simp only [hmap] at h
      cases h
      exact hpage
    | some mapping =>
      simp only [hmap] at h
      cases h
  | creator initialSize table =>
    rw [Construction.run, constructCreator] at h
    simp only [addSegmentShm, if_true] at h
    cases hmap : env.createShm (umax initialSize kMinSegmentSize) with
    | none =>
      simp only [hmap] at h
      cases h
      exact hpage
    | some mapping =>
      simp only [hmap] at h
      cases h
  | opener table => exact openAllSegments_thrown (m := .empty false table registry) hc h hpage

/-- Such a constructor returns only when the worker is there. -/
theorem Construction.startsWorker_of_value {c : Construction} {workerStarts : Bool} {u : Unit}
    (hc : c.LeavesNothing env workerStarts)
    (h : (c.run P I env).run (c.start registry) = .value u m') : workerStarts = true := by
  cases c with
  | anon initialSize =>
    rcases hc with hnone | hstarts
    · rw [Construction.run, constructAnon] at h
      simp only [hnone] at h
      cases h
    · exact hstarts
  | creator initialSize table =>
    rcases hc with hnone | hstarts
    · rw [Construction.run, constructCreator] at h
      simp only [addSegmentShm, if_true, hnone] at h
      cases h
    · exact hstarts
  | opener table =>
    obtain ⟨seg0, m₁, hprimary, -⟩ := Call.run_bind_eq_value h
    rcases hc with hnone | ⟨hmagic, ⟨hlarge, hfails⟩ | ⟨-, hstarts⟩⟩
    · simp only [openPrimary, hnone] at hprimary
      cases hprimary
    · obtain ⟨e, m₂, hthrown⟩ := openPrimary_fails (P := P)
        (m := .empty false table registry) hmagic hlarge hfails
      rw [Construction.start, hthrown] at hprimary
      cases hprimary
    · exact hstarts

end constructors

/-! ## 5. Every step keeps the registry clean -/

section steps

variable [DecidableEq K] {P : Platform} {I : InnerManager H N} {p p' : Process K H}
  {k : K} {m m' : Manager H} {l : Label K H}

/-- Every entry of the registry is one of a live segment, for one of its pages. -/
def Clean (P : Platform) (p : Process K H) : Prop :=
  ∀ page seg, p.registry page = some seg →
    ∃ k m, p.manager k = some m ∧ ∃ info ∈ m.segments, SegInfo.Owns P info page seg

/-- The entries of the other managers. -/
def OthersOwn (P : Platform) (p : Process K H) (k : K) (page seg : Word) : Prop :=
  ∃ k' m, k' ≠ k ∧ p.manager k' = some m ∧ ∃ info ∈ m.segments, SegInfo.Owns P info page seg

omit [DecidableEq K] in
theorem Clean.live (h : Clean P p) {page seg : Word} (hpage : p.registry page = some seg) :
    Live p seg := by
  obtain ⟨k, m, hk, info, hinfo, hseg, -⟩ := h page seg hpage
  exact ⟨k, m, hk, info, hinfo, hseg⟩

omit [DecidableEq K] in
/-- What one manager sees of a clean registry. -/
theorem Clean.registered (h : Clean P p) (hk : p.manager k = some m) (table : SegmentTable) :
    Registered P (OthersOwn P p k) (p.view m table) := by
  intro page seg hpage
  obtain ⟨k', m', hk', info, hinfo, howns⟩ := h page seg hpage
  by_cases hkk : k' = k
  · subst hkk
    obtain rfl := Option.some.inj (hk'.symm.trans hk)
    exact .inr ⟨info, hinfo, howns⟩
  · exact .inl ⟨k', m', hkk, hk', info, hinfo, howns⟩

theorem clean_put (hm : Registered P (OthersOwn P p k) m) : Clean P (p.put k m) := by
  intro page seg hpage
  rcases hm page seg hpage with ⟨k', m', hne, hk', hinfo⟩ | hinfo
  · exact ⟨k', m', (Function.update_of_ne hne _ _).trans hk', hinfo⟩
  · exact ⟨k, m, Function.update_self .., hinfo⟩

omit [DecidableEq K] in
/-- Entries only go. -/
theorem Clean.sub (h : Clean P p) {registry : Word → Option Word} {activeManagers : Nat}
    (hsub : ∀ page seg, registry page = some seg → p.registry page = some seg) :
    Clean P ⟨registry, p.manager, activeManagers⟩ :=
  fun page seg hpage => h page seg (hsub page seg hpage)

theorem clean_construct {c : Construction} {env : Env H} {threadStarts : Bool} (h : Clean P p)
    (hleaves : c.LeavesNothing env (p.startsWorker threadStarts))
    (hstep : step P I p (.construct k c env threadStarts) = some p') : Clean P p' := by
  simp only [step] at hstep
  split at hstep
  · cases hstep
  · rename_i hk
    split at hstep
    · rename_i u m hrun
      have hothers : Registered P (OthersOwn P p k) (c.start p.registry : Manager H) := by
        intro page seg hpage
        have hold : p.registry page = some seg := by
          cases c <;> exact hpage
        obtain ⟨k', m', hk', hinfo⟩ := h page seg hold
        refine .inl ⟨k', m', ?_, hk', hinfo⟩
        intro hkk
        rw [hkk, hk] at hk'
        cases hk'
      have hm : Registered P (OthersOwn P p k) m := c.registered hothers hrun
      have hworker := c.startsWorker_of_value hleaves hrun
      simp only [hworker, if_true] at hstep
      cases hstep
      exact clean_put hm
    · rename_i e m hrun
      cases hstep
      exact h.sub fun page seg hpage => c.thrown_leavesNothing hleaves hrun hpage
    · cases hstep

/-- What an operation on a manager keeps, the process keeps. -/
theorem clean_call {A : Type} {c : Op H A} {table : SegmentTable} (h : Clean P p)
    (hk : p.manager k = some m)
    (hkeeps : Call.Keeps (Registered P (OthersOwn P p k)) c)
    (hends : (c.run (p.view m table)).state = some m') : Clean P (p.put k m') :=
  clean_put (hkeeps _ (h.registered hk table) m' hends)

theorem clean_destroy (h : Clean P p) (hstep : step P I p (.destroy k) = some p') :
    Clean P p' := by
  simp only [step] at hstep
  cases hk : p.manager k with
  | none =>
    simp only [hk] at hstep
    cases hstep
  | some m =>
    simp only [hk] at hstep
    cases hstep
    intro page seg hpage
    obtain ⟨hnot, hold⟩ := unregisterAll_cases hpage
    obtain ⟨k', m', hk', info, hinfo, howns⟩ := h page seg hold
    refine ⟨k', m', ?_, info, hinfo, howns⟩
    have hne : k' ≠ k := by
      rintro rfl
      obtain rfl := Option.some.inj (hk'.symm.trans hk)
      exact hnot info hinfo howns.2
    exact (Function.update_of_ne hne _ _).trans hk'

theorem clean_step (h : Clean P p) (hleaves : LeavesNothing p l)
    (hstep : step P I p l = some p') : Clean P p' := by
  cases l with
  | construct k c env threadStarts => exact clean_construct h hleaves hstep
  | destroy k => exact clean_destroy h hstep
  | grow k env table minBytes =>
    simp only [step] at hstep
    split at hstep
    · cases hstep
    · rename_i m hk
      obtain ⟨m', hends, rfl⟩ := Option.map_eq_some_iff.mp hstep
      exact clean_call h hk keeps_grow hends
  | growBackground k env table =>
    simp only [step] at hstep
    split at hstep
    · cases hstep
    · rename_i m hk
      obtain ⟨m', hends, rfl⟩ := Option.map_eq_some_iff.mp hstep
      obtain ⟨u, hrun⟩ := returned_eq_some hends
      exact clean_call h hk keeps_growBackground (by rw [hrun]; rfl)
  | discover k env table requiredFileOffset =>
    simp only [step] at hstep
    split at hstep
    · cases hstep
    · rename_i m hk
      obtain ⟨m', hends, rfl⟩ := Option.map_eq_some_iff.mp hstep
      exact clean_call h hk keeps_discoverGrowth hends

end steps

/-! ## 6. What the trie stores -/

section trie

variable {T : Type} [DecidableEq T] {cfg : Trie.Config} {t : T} {m : Trie.Memory T}
  {registry : Word → Option Word} {seg baseVaddr size : Word}

/-- The leaf slots of the trie hold what the registry has for their pages. -/
structure TrieHolds (cfg : Trie.Config) (m : Trie.Memory T) (registry : Word → Option Word) :
    Prop where
  heap : Trie.HeapInv cfg m
  leaf : ∀ page, page.toNat < Trie.keyBound cfg → Trie.leafValue cfg m page =
    match registry page with
    | some seg => seg ||| Trie.kLeafTag
    | none => 0

omit [DecidableEq T] in
theorem trieHolds_initial : TrieHolds cfg (Trie.initialMemory T cfg) fun _ => none := by
  refine ⟨Trie.heapInv_initial, fun page _ => ?_⟩
  unfold Trie.leafValue
  split <;> rfl

omit [DecidableEq T] in
theorem TrieHolds.congr {m' : Trie.Memory T} (h : TrieHolds cfg m registry)
    (hslot : m'.slot = m.slot) (hplace : m'.place = m.place) : TrieHolds cfg m' registry := by
  refine ⟨h.heap.congr hslot hplace, fun page hpage => ?_⟩
  rw [← h.leaf page hpage]
  simp only [Trie.leafValue, Trie.leafSlot, hslot]

/-- The lookup and the widening behind an insertion change the cache only. -/
theorem lookup_expand_slots (pick : Trie.Memory T → Word) (addr seg : Word) (m : Trie.Memory T) :
    let m' := ((Trie.expandToSegment seg).eval (Trie.exec t) pick
      ((Trie.lookup cfg addr).eval (Trie.exec t) pick m).2).2
    m'.slot = m.slot ∧ m'.place = m.place := by
  have hlookup : ((Trie.lookup cfg addr).eval (Trie.exec t) pick m).2.slot = m.slot ∧
      ((Trie.lookup cfg addr).eval (Trie.exec t) pick m).2.place = m.place := by
    rw [Trie.eval_lookup]
    split
    · split
      · exact ⟨rfl, rfl⟩
      · exact ⟨rfl, rfl⟩
    · simp only
      split
      · exact ⟨rfl, rfl⟩
      · exact ⟨rfl, rfl⟩
  simp only [Trie.expandToSegment, Prog.bind_eq, Prog.act_bind, Prog.ret_bind,
    Trie.eval_readBase, Trie.eval_readSize, Trie.eval_expandCacheBoundsTop]
  exact hlookup

omit [DecidableEq T] in
/-- The leaves of the pages of a range are set to what the registry then has. -/
theorem TrieHolds.stored {m₁ : Trie.Memory T} {registry' : Word → Option Word} {base x : Word}
    (h : TrieHolds cfg m registry) (hspace : Trie.InKeySpace cfg base size)
    (hm₁ : Trie.Stored cfg (Trie.RangeHits cfg base size) x m m₁) (ho : m₁.outOfMemory = false)
    (hregistry : ∀ page, (match registry' page with
      | some seg => seg ||| Trie.kLeafTag
      | none => 0) = if Trie.HasPage cfg base size page then x else
        match registry page with
        | some seg => seg ||| Trie.kLeafTag
        | none => 0) : TrieHolds cfg m₁ registry' := by
  refine ⟨hm₁.heap, fun page hpage => ?_⟩
  have hhits : Trie.RangeHits cfg base size page ↔ Trie.HasPage cfg base size page :=
    Trie.rangeHits_iff (r := ⟨0, base, size⟩) hspace hpage
  rw [hregistry page]
  split
  · rename_i hhas
    exact hm₁.inside ho page (hhits.mpr hhas)
  · rename_i hhas
    rw [hm₁.outside ho page fun hhit => hhas (hhits.mp hhit), h.leaf page hpage]

/-- `register_segment` does to the trie what it does to the registry's contents. -/
theorem TrieHolds.register (h : TrieHolds cfg m registry) (pick : Trie.Memory T → Word)
    (hspace : Trie.InKeySpace cfg (cfg.platform.ptrToVaddr baseVaddr) size)
    (ho : (Trie.runOp cfg t pick m
      (.registerSegment seg (cfg.platform.ptrToVaddr baseVaddr) size)).outOfMemory = false) :
    TrieHolds cfg
      (Trie.runOp cfg t pick m (.registerSegment seg (cfg.platform.ptrToVaddr baseVaddr) size))
      (registerSegment cfg.platform seg baseVaddr size registry) := by
  generalize hbase : cfg.platform.ptrToVaddr baseVaddr = base at hspace ho ⊢
  have hobj : (m.newObject seg base size).object seg = (base, size) := Function.update_self ..
  simp only [Trie.runOp, Trie.registerSegment, Prog.bind_eq, Prog.act_bind, Prog.ret_bind,
    Trie.eval_readBase, Trie.eval_readSize, Trie.Memory.setReading_object, hobj,
    Prog.eval_bind] at ho ⊢
  have hread : ∀ x y, TrieHolds cfg
      (((m.newObject seg base size).setReading t x).setReading t y) registry :=
    fun _ _ => h.congr rfl rfl
  obtain ⟨m₁, hm₁, heval⟩ := Trie.stored_insertRange t pick (hread _ _).heap base size seg
  rw [heval] at ho ⊢
  have hobj₁ : ∀ es, (m₁.setCache t es).object seg = (base, size) :=
    fun es => (congrFun hm₁.rest.object seg).trans hobj
  simp only [hobj₁] at ho ⊢
  have ho₁ : m₁.outOfMemory = false := by
    have hboth := Trie.eval_allocated (Trie.eval_allocated ho)
    exact hboth
  have hstored : TrieHolds cfg m₁ (registerSegment cfg.platform seg baseVaddr size registry) := by
    apply (hread _ _).stored hspace hm₁ ho₁
    intro page
    rw [show registerSegment cfg.platform seg baseVaddr size registry page =
      if Trie.HasPage cfg (cfg.platform.ptrToVaddr baseVaddr) size page then some seg
      else registry page from rfl, hbase]
    by_cases hhas : Trie.HasPage cfg base size page
    · rw [if_pos hhas, if_pos hhas]
    · rw [if_neg hhas, if_neg hhas]
  obtain ⟨hslot, hplace⟩ := lookup_expand_slots pick base seg
    ((m₁.setCache t Trie.emptyCache).setReading t (some (seg, base, none)))
  exact hstored.congr hslot hplace

/-- So does `unregister_segment`. -/
theorem TrieHolds.unregister (h : TrieHolds cfg m registry) (pick : Trie.Memory T → Word)
    (hspace : Trie.InKeySpace cfg (cfg.platform.ptrToVaddr baseVaddr) size)
    (hobj : m.object seg = (cfg.platform.ptrToVaddr baseVaddr, size))
    (ho : (Trie.runOp cfg t pick m (.unregisterSegment seg)).outOfMemory = false) :
    TrieHolds cfg (Trie.runOp cfg t pick m (.unregisterSegment seg))
      (unregisterSegment cfg.platform baseVaddr size registry) := by
  generalize hbase : cfg.platform.ptrToVaddr baseVaddr = base at hspace hobj
  simp only [Trie.runOp, Trie.unregisterSegment, Prog.bind_eq, Prog.act_bind, Prog.ret_bind,
    Trie.eval_readBase, Trie.eval_readSize, Trie.Memory.setReading_object, hobj,
    Prog.eval_bind] at ho ⊢
  have hread : ∀ x y, TrieHolds cfg ((m.setReading t x).setReading t y) registry :=
    fun _ _ => h.congr rfl rfl
  obtain ⟨m₁, hm₁, heval⟩ := Trie.stored_removeRange t pick (hread _ _).heap base size
  rw [heval] at ho ⊢
  have hstored : TrieHolds cfg m₁ (unregisterSegment cfg.platform baseVaddr size registry) := by
    apply (hread _ _).stored hspace hm₁ ho
    intro page
    rw [show unregisterSegment cfg.platform baseVaddr size registry page =
      if Trie.HasPage cfg (cfg.platform.ptrToVaddr baseVaddr) size page then none
      else registry page from rfl, hbase]
    by_cases hhas : Trie.HasPage cfg base size page
    · rw [if_pos hhas, if_pos hhas]
    · rw [if_neg hhas, if_neg hhas]
  exact hstored.congr rfl rfl

end trie

/-! ## 7. Result -/

section result

variable [DecidableEq K] {T : Type} {cfg : Trie.Config} {I : InnerManager H N}
  {p : Process K H}

theorem clean_run (hrun : Steps (step cfg.platform I) LeavesNothing (start : Process K H) p) :
    Clean cfg.platform p := by
  apply hrun.invariant (Clean cfg.platform)
  · intro page seg hpage
    cases hpage
  · intro p l p' hclean hleaves hstep
    exact clean_step hclean hleaves hstep

/-- As long as no constructor is left behind a registration that it has not undone,
    all that the registry has, and that the trie stores for it, are pointers to
    live sub-segments of live managers. -/
theorem registry_points_to_live
    (hrun : Steps (step cfg.platform I) LeavesNothing (start : Process K H) p) :
    (∀ page seg, p.registry page = some seg → Live p seg) ∧
      ∀ m : Trie.Memory T, TrieHolds cfg m p.registry →
        ∀ page, page.toNat < Trie.keyBound cfg → Trie.leafValue cfg m page ≠ 0 →
          ∃ seg, Trie.leafValue cfg m page = seg ||| Trie.kLeafTag ∧ Live p seg := by
  have hclean := clean_run hrun
  refine ⟨fun page seg hpage => hclean.live hpage, fun m hm page hlt hleaf => ?_⟩
  have hvalue := hm.leaf page hlt
  cases hpage : p.registry page with
  | none =>
    rw [hpage] at hvalue
    exact absurd hvalue hleaf
  | some seg =>
    rw [hpage] at hvalue
    exact ⟨seg, hvalue, hclean.live hpage⟩

end result

/-- A creator grows its file; an opener of another file fails at its first
    mapping. -/
def creatorAndFailedOpener : List (Label Bool Arena) :=
  [.construct false (.creator 0x200000 .blank) roomyEnv true,
    .grow false roomyEnv (initSegmentTable [⟨⟨0, 0x200000⟩, true⟩] .blank) 0x400000,
    .construct true (.opener .blank) { roomyEnv with openShmChunk := fun _ _ => none } true]

/-- The last page of the chunk of 4 MiB. -/
theorem registry_points_to_live_grown : ∃ p : Process Bool Arena,
    (p.registry 0x403ff).isSome = true ∧ ∀ seg, p.registry 0x403ff = some seg → Live p seg := by
  have hex : ∃ p : Process Bool Arena,
      Steps (step Trie.defaultConfig.platform arena) LeavesNothing start p ∧
        (p.registry 0x403ff).isSome = true := by
    have h₀ : Steps (step Trie.defaultConfig.platform arena) LeavesNothing
        (start : Process Bool Arena) start := .refl _
    have h₁ := h₀.tail (l := creatorAndFailedOpener[0]) (.inr rfl) rfl
    have h₂ := h₁.tail (l := creatorAndFailedOpener[1]) trivial rfl
    have h₃ := h₂.tail (l := creatorAndFailedOpener[2]) (.inl rfl) rfl
    exact ⟨_, h₃, by decide +kernel⟩
  obtain ⟨p, hrun, hsome⟩ := hex
  exact ⟨p, hsome, (registry_points_to_live (T := Unit) hrun).1 0x403ff⟩

/-- The opener of a file without a table registers the guess of 1 MiB and is left
    by the check of the magic number. -/
theorem failed_opener_stays_registered :
    ¬ ∀ p : Process Unit Arena, Steps (step fourKiBPages arena) anyStep start p →
      ∀ page seg, p.registry page = some seg → Live p seg := by
  intro hall
  have hstep : ∃ p, step fourKiBPages arena (start : Process Unit Arena)
      (.construct () (.opener .blank) roomyEnv true) = some p ∧
      p.registry 0x10000 = some 0x100000 ∧ p.manager () = none :=
    ⟨_, rfl, by decide +kernel, rfl⟩
  obtain ⟨p, hstep, hpage, hnone⟩ := hstep
  obtain ⟨k, m, hk, -⟩ := hall p (.single trivial hstep) 0x10000 0x100000 hpage
  rw [show k = () from rfl, hnone] at hk
  cases hk

end Memnon.Lifetimes
