import Memnon.ManagerAllocate

/-!
# One object for one name

`construct` asks each segment in turn and stops at the first that has room. A
segment refuses only the names it holds itself, so a name that went to a later
segment while an earlier one was full is constructed a second time once the
earlier one has room again. Names stay unique in runs in which no `construct`
of an existing name meets a segment with room.
-/

namespace Memnon

open Memnon.Lib

variable {H N : Type}

/-! ## 1. Names of an inner manager, and of all of them -/

/-- What is relied on of named objects in one segment: a name holds at most one
    object, and is refused while it does. -/
structure InnerManager.NamesLawful (I : InnerManager H N) : Prop where
  create : ∀ size name, I.find (I.create size) name = none
  allocate : ∀ {h h' bytes offset} name, I.allocate h bytes = some (offset, h') →
    (I.find h' name).isSome = (I.find h name).isSome
  deallocate : ∀ h offset name,
    (I.find (I.deallocate h offset) name).isSome = (I.find h name).isSome
  refuses : ∀ {h h' name bytes offset}, I.construct h name bytes = .constructed offset h' →
    (I.find h name).isSome = false
  constructed : ∀ {h h' name bytes offset}, I.construct h name bytes = .constructed offset h' →
    (I.find h' name).isSome = true
  constructed_other : ∀ {h h' name name' bytes offset},
    I.construct h name bytes = .constructed offset h' → name' ≠ name →
    (I.find h' name').isSome = (I.find h name').isSome
  destroy : ∀ {h name}, I.destroy h name = none ↔ (I.find h name).isSome = false
  destroyed : ∀ {h h' name offset}, I.destroy h name = some (offset, h') →
    (I.find h' name).isSome = false
  destroyed_other : ∀ {h h' name name' offset}, I.destroy h name = some (offset, h') →
    name' ≠ name → (I.find h' name').isSome = (I.find h name').isSome

section holders

variable (I : InnerManager H N)

def SegInfo.holds (name : N) (info : SegInfo H) : Bool := (I.find info.smgr name).isSome

/-- How many segments hold the name. -/
def holders (name : N) (segments : List (SegInfo H)) : Nat := segments.countP (SegInfo.holds I name)

/-- Each name is held by at most one segment. -/
def UniqueNames (segments : List (SegInfo H)) : Prop := ∀ name, holders I name segments ≤ 1

/-- The holders are those counted by `k`. -/
def HeldAs (k : N → Nat) (segments : List (SegInfo H)) : Prop :=
  ∀ name, holders I name segments = k name

variable {I} {pre post : List (SegInfo H)} {info : SegInfo H} {name : N} {smgr : H}

theorem holders_split : holders I name (pre ++ info :: post) =
    holders I name pre + holders I name post + (I.find info.smgr name).isSome.toNat := by
  have hone : (if SegInfo.holds I name info = true then 1 else 0) =
      (I.find info.smgr name).isSome.toNat := by
    rw [SegInfo.holds]
    split <;> simp_all
  rw [holders, List.countP_append, List.countP_cons, hone, Nat.add_assoc]
  rfl

theorem holders_eq_zero :
    holders I name pre = 0 ↔ ∀ info ∈ pre, SegInfo.holds I name info = false := by
  simp [holders]

theorem findLoop_eq_none : findLoop I name pre = none ↔ holders I name pre = 0 := by
  simp [findLoop, holders_eq_zero, SegInfo.holds]

/-- A change that keeps the names of the changed segment keeps the holders. -/
theorem holders_same (h : (I.find smgr name).isSome = (I.find info.smgr name).isSome) :
    holders I name (pre ++ { info with smgr := smgr } :: post) =
      holders I name (pre ++ info :: post) := by
  rw [holders_split, holders_split, h]

theorem stable_heldAs (hI : I.NamesLawful) (k : N → Nat) : Stable I (HeldAs I k) where
  fresh {segments info size} h hcreate name := by
    have hnone : (I.find info.smgr name).isSome = false := by rw [hcreate, hI.create]; rfl
    rw [holders_split, hnone]
    simpa [holders] using h name
  alloc halloc h name := (holders_same (hI.allocate name halloc)).trans (h name)
  dealloc h name := (holders_same (hI.deallocate _ _ name)).trans (h name)

/-- One segment constructs the name. -/
theorem holders_constructed (hI : I.NamesLawful) [DecidableEq N] {bytes offset : Word}
    (h : I.construct info.smgr name bytes = .constructed offset smgr) (n : N) :
    holders I n (pre ++ { info with smgr := smgr } :: post) =
      holders I n (pre ++ info :: post) + if n = name then 1 else 0 := by
  rw [holders_split, holders_split]
  by_cases hn : n = name
  · subst hn
    simp [hI.refuses h, hI.constructed h]
  · simp [hI.constructed_other h hn, hn]

/-- One segment destroys the name it holds. -/
theorem holders_destroyed (hI : I.NamesLawful) [DecidableEq N] {offset : Word}
    (h : I.destroy info.smgr name = some (offset, smgr)) (n : N) :
    holders I n (pre ++ info :: post) =
      holders I n (pre ++ { info with smgr := smgr } :: post) + if n = name then 1 else 0 := by
  rw [holders_split, holders_split]
  have hheld : (I.find info.smgr name).isSome = true := by
    by_contra hnot
    rw [hI.destroy.mpr (Bool.eq_false_iff.mpr hnot)] at h
    cases h
  by_cases hn : n = name
  · subst hn
    simp [hheld, hI.destroyed h]
  · simp [hI.destroyed_other h hn, hn]

end holders

/-! ## 2. What `construct` and `destroy` do -/

section operations

variable {P : Platform} {I : InnerManager H N} {env : Env H} {m m' : Manager H} {name : N}
  {bytes : Word}

/-- The segment answers `construct` with a new object. -/
def SegInfo.hasRoom (I : InnerManager H N) (name : N) (bytes : Word) (info : SegInfo H) : Bool :=
  match I.construct info.smgr name bytes with
  | .constructed _ _ => true
  | _ => false

/-- The segment answers with an exception that leaves the loop. -/
def SegInfo.refuses (I : InnerManager H N) (name : N) (bytes : Word) (info : SegInfo H) : Bool :=
  match I.construct info.smgr name bytes with
  | .refused => true
  | _ => false

/-- The segment ends the loop of `construct`, one way or the other. -/
def SegInfo.answers (I : InnerManager H N) (name : N) (bytes : Word) (info : SegInfo H) : Bool :=
  info.hasRoom I name bytes || info.refuses I name bytes

theorem constructLoop_of_find_none {segments : List (SegInfo H)}
    (h : segments.find? (SegInfo.answers I name bytes) = none) :
    constructLoop I name bytes segments = .exhausted := by
  induction segments with
  | nil => rfl
  | cons info rest ih =>
    obtain ⟨hinfo, hrest⟩ := List.forall_mem_cons.mp (List.find?_eq_none.mp h)
    have hloop := ih (List.find?_eq_none.mpr hrest)
    simp only [SegInfo.answers, SegInfo.hasRoom, SegInfo.refuses] at hinfo
    simp only [constructLoop, hloop]
    split <;> simp_all

/-- The first segment that answers decides. -/
theorem constructLoop_of_find_some {segments : List (SegInfo H)} {info : SegInfo H}
    (h : segments.find? (SegInfo.answers I name bytes) = some info) :
    (info.refuses I name bytes = true ∧ constructLoop I name bytes segments = .refused) ∨
    (info.refuses I name bytes = false ∧
      ∃ p segments', constructLoop I name bytes segments = .constructed p segments') := by
  induction segments with
  | nil => cases h
  | cons q rest ih =>
    cases hcons : I.construct q.smgr name bytes with
    | constructed offset smgr =>
      have hq : SegInfo.answers I name bytes q = true := by
        simp [SegInfo.answers, SegInfo.hasRoom, hcons]
      obtain rfl : q = info := by simpa [List.find?_cons, hq] using h
      exact .inr ⟨by simp [SegInfo.refuses, hcons], _, _, by simp only [constructLoop, hcons]; rfl⟩
    | refused =>
      have hq : SegInfo.answers I name bytes q = true := by
        simp [SegInfo.answers, SegInfo.refuses, hcons]
      obtain rfl : q = info := by simpa [List.find?_cons, hq] using h
      exact .inl ⟨by simp [SegInfo.refuses, hcons], by simp only [constructLoop, hcons]⟩
    | null | badAlloc =>
      have hq : SegInfo.answers I name bytes q = false := by
        simp [SegInfo.answers, SegInfo.hasRoom, SegInfo.refuses, hcons]
      obtain ⟨hr, hloop⟩ | ⟨hr, p, rest', hloop⟩ := ih (by simpa [List.find?_cons, hq] using h)
      · exact .inl ⟨hr, by simp only [constructLoop, hcons, hloop]⟩
      · exact .inr ⟨hr, _, _, by simp only [constructLoop, hcons, hloop]; rfl⟩

theorem run_makeObject (hlist : m.listHeld = false) {p : Word} {segments : List (SegInfo H)} :
    (Call.guarded (listMtx H) (makeObject p segments (pure ()))).run m =
      .value (some p) { m with segments := segments } :=
  Call.guarded_section hlist hlist rfl

/-- The first section of `construct`, for a constructor that leaves the manager
    alone. -/
theorem run_constructExisting (hlist : m.listHeld = false) :
    (Call.guarded (listMtx H) (constructExisting I name bytes (pure ()))).run m =
      match constructLoop I name bytes m.segments with
      | .constructed p segments => .value (some p) { m with segments := segments }
      | .refused => .thrown .interprocess m
      | .exhausted => .value none m := by
  cases hloop : constructLoop I name bytes m.segments with
  | constructed p segments =>
    refine Call.guarded_section hlist hlist ?_
    rw [constructExisting, Call.run_read_bind, listMtx_segments, hloop]
    rfl
  | refused =>
    refine Call.guarded_section_thrown hlist hlist ?_
    rw [constructExisting, Call.run_read_bind, listMtx_segments, hloop]
    rfl
  | exhausted =>
    refine Call.guarded_section hlist hlist ?_
    rw [constructExisting, Call.run_read_bind, listMtx_segments, hloop]
    rfl

/-- The last section of `construct`, for such a constructor. -/
theorem run_constructLast (hlist : m.listHeld = false) {last : SegInfo H}
    (hlast : m.segments.getLast? = some last) :
    (Call.guarded (listMtx H) (constructLast I name bytes (pure ()))).run m =
      match I.construct last.smgr name bytes with
      | .constructed offset smgr => .value (some (last.blockAddr I offset))
          { m with segments := m.segments.dropLast ++ [{ last with smgr := smgr }] }
      | .null => .value none m
      | .badAlloc => .thrown .badAlloc m
      | .refused => .thrown .interprocess m := by
  cases hcons : I.construct last.smgr name bytes with
  | constructed offset smgr =>
    refine Call.guarded_section hlist hlist ?_
    simp only [constructLast, Call.run_read_bind, listMtx_segments, hlast, hcons]
    rfl
  | null =>
    refine Call.guarded_section hlist hlist ?_
    simp only [constructLast, Call.run_read_bind, listMtx_segments, hlast, hcons]
    rfl
  | badAlloc =>
    refine Call.guarded_section_thrown hlist hlist ?_
    simp only [constructLast, Call.run_read_bind, listMtx_segments, hlast, hcons]
    rfl
  | refused =>
    refine Call.guarded_section_thrown hlist hlist ?_
    simp only [constructLast, Call.run_read_bind, listMtx_segments, hlast, hcons]
    rfl

/-- `makeObject` returns no other object. -/
theorem makeObject_value {ctor : Op H Unit} {p : Word} {segments : List (SegInfo H)}
    {r : Option Word}
    (h : (Call.guarded (listMtx H) (makeObject p segments ctor)).run m = .value r m') :
    r = some p := by
  obtain ⟨m₁, hbody⟩ := Call.guarded_eq_value h
  obtain ⟨_, _, _, hrest⟩ := Call.run_bind_eq_value hbody
  obtain ⟨_, _, _, hret⟩ := Call.run_bind_eq_value hrest
  cases hret
  rfl

variable (env) (name) (bytes) (ctor : Op H Unit)

/-- The three ways of `construct`: an existing segment constructs, one refuses,
    or all are passed over and the last segment after a growth is asked. -/
theorem construct_cases (hm : Ready m) :
    (∃ p segments, constructLoop I name bytes m.segments = .constructed p segments ∧
      (construct P I env name bytes ctor).run m =
        (Call.guarded (listMtx H) (makeObject p segments ctor)).run m) ∨
    (constructLoop I name bytes m.segments = .refused ∧
      (construct P I env name bytes ctor).run m = .thrown .interprocess m) ∨
    (constructLoop I name bytes m.segments = .exhausted ∧
      (construct P I env name bytes ctor).run m =
        (do grow P I env (bytes + 1024#64)
            Call.guarded (listMtx H) (constructLast I name bytes ctor)).run m) := by
  have hfirst : (Call.guarded (listMtx H) (constructExisting I name bytes ctor)).run m =
      (Call.guarded (listMtx H) (match constructLoop I name bytes m.segments with
        | .constructed p segments => makeObject p segments ctor
        | .refused => .raise .interprocess
        | .exhausted => pure none)).run m := Call.guarded_congr rfl
  cases hloop : constructLoop I name bytes m.segments with
  | constructed p segments =>
    rw [hloop] at hfirst
    refine .inl ⟨p, segments, rfl, ?_⟩
    rw [construct, ← hfirst]
    cases hmake : (Call.guarded (listMtx H) (constructExisting I name bytes ctor)).run m with
    | value r m' =>
      obtain rfl := makeObject_value (hfirst.symm.trans hmake)
      exact Call.run_bind_value hmake
    | thrown e m' => exact Call.run_bind_thrown hmake
    | stuck => exact Call.run_bind_stuck hmake
  | refused =>
    rw [hloop] at hfirst
    refine .inr (.inl ⟨rfl, ?_⟩)
    exact Call.run_bind_thrown
      (hfirst.trans (Call.guarded_section_thrown hm.list hm.list rfl))
  | exhausted =>
    rw [hloop] at hfirst
    refine .inr (.inr ⟨rfl, ?_⟩)
    exact Call.run_bind_value (hfirst.trans (Call.guarded_section hm.list hm.list rfl))

/-- The last segment constructs, or nothing changes. -/
theorem constructLast_cases (hm : Ready m) :
    ∃ pre last, m.segments = pre ++ [last] ∧
      ((∃ offset smgr, I.construct last.smgr name bytes = .constructed offset smgr ∧
        (Call.guarded (listMtx H) (constructLast I name bytes ctor)).run m =
          (Call.guarded (listMtx H) (makeObject (last.blockAddr I offset)
            (pre ++ [{ last with smgr := smgr }]) ctor)).run m) ∨
      (last.hasRoom I name bytes = false ∧
        ((Call.guarded (listMtx H) (constructLast I name bytes ctor)).run m = .value none m ∨
          ∃ e, (Call.guarded (listMtx H) (constructLast I name bytes ctor)).run m =
            .thrown e m))) := by
  obtain ⟨last, hlast⟩ : ∃ last, m.segments.getLast? = some last := by
    obtain ⟨s0, rest, hs, -⟩ := hm.segments
    exact ⟨_, List.getLast?_eq_some_getLast (by simp [hs])⟩
  obtain ⟨pre, hs⟩ := List.getLast?_eq_some_iff.mp hlast
  have hbody : (constructLast I name bytes ctor).run ((listMtx H).setHeld true m) =
      (match I.construct last.smgr name bytes with
      | .constructed offset smgr => makeObject (last.blockAddr I offset)
          (pre ++ [{ last with smgr := smgr }]) ctor
      | .null => pure none
      | .badAlloc => .raise .badAlloc
      | .refused => .raise .interprocess : Op H (Option Word)).run
        ((listMtx H).setHeld true m) := by
    have hdrop : m.segments.dropLast = pre := by
      rw [hs]
      exact List.dropLast_concat
    cases hanswer : I.construct last.smgr name bytes <;>
      simp only [constructLast, Call.run_read_bind, listMtx_segments, hlast, hdrop, hanswer]
  refine ⟨pre, last, hs, ?_⟩
  cases hcons : I.construct last.smgr name bytes with
  | constructed offset smgr =>
    rw [hcons] at hbody
    exact .inl ⟨offset, smgr, rfl, Call.guarded_congr hbody⟩
  | null =>
    rw [hcons] at hbody
    exact .inr ⟨by simp [SegInfo.hasRoom, hcons],
      .inl (Call.guarded_section hm.list hm.list hbody)⟩
  | badAlloc =>
    rw [hcons] at hbody
    exact .inr ⟨by simp [SegInfo.hasRoom, hcons],
      .inr ⟨_, Call.guarded_section_thrown hm.list hm.list hbody⟩⟩
  | refused =>
    rw [hcons] at hbody
    exact .inr ⟨by simp [SegInfo.hasRoom, hcons],
      .inr ⟨_, Call.guarded_section_thrown hm.list hm.list hbody⟩⟩

variable {env name bytes}

/-- `construct` finds no segment to construct in: the first that answers
    refuses, or none answers and the growth brings no room. -/
def findsNoRoom (P : Platform) (I : InnerManager H N) (env : Env H) (m : Manager H) (name : N)
    (bytes : Word) : Bool :=
  match m.segments.find? (SegInfo.answers I name bytes) with
  | some info => info.refuses I name bytes
  | none =>
      match (grow P I env (bytes + 1024#64)).run m with
      | .value _ m₁ => m₁.segments.getLast?.all fun last => !last.hasRoom I name bytes
      | _ => true

/-- A growth keeps the manager ready and the names where they are. -/
theorem grow_names (hI : I.NamesLawful) (hm : Ready m) {minBytes : Word} {m₁ : Manager H}
    (h : m₁ ∈ ((grow P I env minBytes).run m).state) :
    Ready m₁ ∧ ∀ n, holders I n m₁.segments = holders I n m.segments := by
  have hsame : HeldAs I (fun n => holders I n m.segments) m.segments := fun _ => rfl
  refine ⟨(stable_frontPrimary I).grow false false m hm m₁ h, ?_⟩
  exact ((stable_heldAs hI _).grow false false m ⟨hm.list, hm.grow, hsame⟩ m₁ h).segments

/-- No object came of the call, and the names are held as before. -/
structure MakesNothing (I : InnerManager H N) (m : Manager H)
    (o : Outcome Exn (Manager H) (Option Word)) : Prop where
  noObject : ∀ p m', o ≠ .value (some p) m'
  sameHolders : ∀ m' ∈ o.state, ∀ n, holders I n m'.segments = holders I n m.segments

theorem makesNothing_none {m₁ : Manager H}
    (h : ∀ n, holders I n m₁.segments = holders I n m.segments) :
    MakesNothing I m (.value none m₁) :=
  ⟨fun _ _ h => (by cases h), fun _ hm' => Option.some.inj hm' ▸ h⟩

theorem makesNothing_thrown {m₁ : Manager H} {e : Exn}
    (h : ∀ n, holders I n m₁.segments = holders I n m.segments) :
    MakesNothing I m (.thrown e m₁) :=
  ⟨fun _ _ h => (by cases h), fun _ hm' => Option.some.inj hm' ▸ h⟩

theorem makesNothing_stuck : MakesNothing I m .stuck :=
  ⟨fun _ _ h => (by cases h), fun _ hm' => (by cases hm')⟩

/-- Without room nothing is constructed, and the names stay where they are. -/
theorem construct_noRoom (hI : I.NamesLawful) (hm : Ready m)
    (hno : findsNoRoom P I env m name bytes = true) :
    MakesNothing I m ((construct P I env name bytes (pure ())).run m) := by
  have hcases := construct_cases (P := P) (I := I) env name bytes (pure ()) hm
  unfold findsNoRoom at hno
  split at hno
  · rename_i info hfind
    obtain ⟨-, hloop⟩ | ⟨hroom, -⟩ := constructLoop_of_find_some hfind
    · rw [hloop] at hcases
      obtain ⟨_, _, hne, -⟩ | ⟨-, hrun⟩ | ⟨hne, -⟩ := hcases
      · cases hne
      · exact hrun ▸ makesNothing_thrown fun _ => rfl
      · cases hne
    · rw [hno] at hroom
      cases hroom
  · rename_i hfind
    rw [constructLoop_of_find_none hfind] at hcases
    obtain ⟨_, _, hne, -⟩ | ⟨hne, -⟩ | ⟨-, hrun⟩ := hcases
    · cases hne
    · cases hne
    · rw [hrun]
      cases hgrow : (grow P I env (bytes + 1024#64)).run m with
      | stuck =>
        rw [Call.run_bind_stuck hgrow]
        exact makesNothing_stuck
      | thrown e m₁ =>
        rw [Call.run_bind_thrown hgrow]
        exact makesNothing_thrown (grow_names (P := P) hI hm (by rw [hgrow]; rfl)).2
      | value u m₁ =>
        obtain ⟨hm₁, hnames⟩ : Ready m₁ ∧ _ := grow_names (P := P) hI hm (by rw [hgrow]; rfl)
        rw [Call.run_bind_value hgrow]
        rw [hgrow] at hno
        obtain ⟨pre, last, hs, hlast⟩ := constructLast_cases (I := I) name bytes (pure ()) hm₁
        simp only [hs, List.getLast?_concat, Option.all_some, Bool.not_eq_true'] at hno
        obtain ⟨offset, smgr, hcons, -⟩ | ⟨-, hsame | ⟨e, hsame⟩⟩ := hlast
        · simp [SegInfo.hasRoom, hcons] at hno
        · exact hsame ▸ makesNothing_none hnames
        · exact hsame ▸ makesNothing_thrown hnames

/-- With room the name gets one more holder, whoever holds it already. -/
theorem construct_room [DecidableEq N] (hI : I.NamesLawful) (hm : Ready m)
    (hroom : findsNoRoom P I env m name bytes = false) :
    ∃ p m', (construct P I env name bytes (pure ())).run m = .value (some p) m' ∧
      ∀ n, holders I n m'.segments = holders I n m.segments + if n = name then 1 else 0 := by
  have hcases := construct_cases (P := P) (I := I) env name bytes (pure ()) hm
  unfold findsNoRoom at hroom
  split at hroom
  · rename_i info hfind
    obtain ⟨hrefuses, -⟩ | ⟨-, p, segments, hloop⟩ := constructLoop_of_find_some hfind
    · rw [hrefuses] at hroom
      cases hroom
    · rw [hloop] at hcases
      obtain ⟨p', segments', heq, hrun⟩ | ⟨hne, -⟩ | ⟨hne, -⟩ := hcases
      · cases heq
        refine ⟨p, _, hrun.trans (run_makeObject hm.list), fun n => ?_⟩
        obtain ⟨pre, info, post, offset, smgr, hs, hcons, hs', -⟩ := constructLoop_split hloop
        rw [hs, hs']
        exact holders_constructed hI hcons n
      · cases hne
      · cases hne
  · rename_i hfind
    rw [constructLoop_of_find_none hfind] at hcases
    obtain ⟨_, _, hne, -⟩ | ⟨hne, -⟩ | ⟨-, hrun⟩ := hcases
    · cases hne
    · cases hne
    · cases hgrow : (grow P I env (bytes + 1024#64)).run m with
      | stuck =>
        rw [hgrow] at hroom
        cases hroom
      | thrown e m₁ =>
        rw [hgrow] at hroom
        cases hroom
      | value u m₁ =>
        obtain ⟨hm₁, hnames⟩ : Ready m₁ ∧ _ := grow_names (P := P) hI hm (by rw [hgrow]; rfl)
        rw [hrun, Call.run_bind_value hgrow]
        rw [hgrow] at hroom
        obtain ⟨pre, last, hs, hlast⟩ := constructLast_cases (I := I) name bytes (pure ()) hm₁
        simp only [hs, List.getLast?_concat, Option.all_some, Bool.not_eq_false'] at hroom
        obtain ⟨offset, smgr, hcons, hrun'⟩ | ⟨hno, -⟩ := hlast
        · refine ⟨_, _, hrun'.trans (run_makeObject hm₁.list), fun n => ?_⟩
          rw [← hnames n, hs]
          exact holders_constructed hI hcons n
        · rw [hroom] at hno
          cases hno

theorem run_find (hm : Ready m) :
    (find I name).run m = .value (findLoop I name m.segments) m :=
  Call.guarded_section hm.list hm.list rfl

theorem run_destroy (hlist : m.listHeld = false) :
    (destroy I name (pure ())).run m =
      match destroyLoop I name m.segments with
      | some segments => .value true { m with segments := segments }
      | none => .value false m := by
  have hbody : (destroy I name (pure ())).run m =
      (Call.guarded (listMtx H) (match destroyLoop I name m.segments with
        | some segments => do
            Call.modify fun m => { m with segments := segments }
            pure ()
            return true
        | none => return false)).run m := Call.guarded_congr rfl
  rw [hbody]
  cases destroyLoop I name m.segments with
  | none => exact Call.guarded_section hlist hlist rfl
  | some segments => exact Call.guarded_section hlist hlist rfl

/-- `destroy` takes the name from one holder; it fails when there is none. -/
theorem destroy_cases [DecidableEq N] (hI : I.NamesLawful) (hm : Ready m) (name : N) :
    (∃ m', (destroy I name (pure ())).run m = .value true m' ∧
      ∀ n, holders I n m.segments = holders I n m'.segments + if n = name then 1 else 0) ∨
    (destroy I name (pure ())).run m = .value false m := by
  rw [run_destroy hm.list]
  cases hloop : destroyLoop I name m.segments with
  | none => exact .inr rfl
  | some segments =>
    obtain ⟨pre, info, post, offset, smgr, hs, hdestroy, hs'⟩ := destroyLoop_split hloop
    refine .inl ⟨_, rfl, fun n => ?_⟩
    rw [hs, hs']
    exact holders_destroyed hI hdestroy n

end operations

/-! ## 3. Runs -/

section runs

variable {P : Platform} {I : InnerManager H N} {m₀ m m' : Manager H} {r : Request H N}

/-- No `construct` of an existing name finds room. -/
def ConstructsOnce (P : Platform) (I : InnerManager H N) (m : Manager H) : Request H N → Prop
  | .construct env name bytes =>
      holders I name m.segments = 0 ∨ findsNoRoom P I env m name bytes = true
  | _ => True

instance (P : Platform) (I : InnerManager H N) (m : Manager H) :
    ∀ r : Request H N, Decidable (ConstructsOnce P I m r)
  | .construct _ _ _ => inferInstanceAs (Decidable (_ ∨ _))
  | .allocate _ _ | .deallocate _ | .grow _ _ | .growBackground _ | .find _ | .destroy _ =>
      .isTrue trivial

/-- The request is a `construct` of the name. -/
def Request.Constructs (name : N) : Request H N → Prop
  | .construct _ name' _ => name' = name
  | _ => False

/-- Only a `construct` of the name gives it another holder. -/
theorem holders_serve [DecidableEq N] (hI : I.NamesLawful) (hm : Ready m)
    (h : serve P I m r = some m') (name : N) (hr : ¬ r.Constructs name) :
    holders I name m'.segments ≤ holders I name m.segments := by
  have hsame : Holding (HeldAs I fun n => holders I n m.segments) false false m :=
    ⟨hm.list, hm.grow, fun _ => rfl⟩
  have hQ := stable_heldAs hI fun n => holders I n m.segments
  cases r with
  | allocate env bytes => exact Nat.le_of_eq ((hQ.allocate _ _ m hsame m' h).segments name)
  | deallocate ptr => exact Nat.le_of_eq ((hQ.deallocate _ _ m hsame m' h).segments name)
  | grow env minBytes => exact Nat.le_of_eq ((hQ.grow _ _ m hsame m' h).segments name)
  | growBackground env => exact Nat.le_of_eq ((hQ.growBackground _ _ m hsame m' h).segments name)
  | find name' => exact Nat.le_of_eq ((KeepsSegments.find _ _ m hsame m' h).segments name)
  | construct env name' bytes =>
    have hne : name ≠ name' := fun heq => hr heq.symm
    simp only [serve] at h
    cases hroom : findsNoRoom P I env m name' bytes with
    | true => exact Nat.le_of_eq ((construct_noRoom hI hm hroom).sameHolders m' h name)
    | false =>
      obtain ⟨p, m₁, hrun, hholders⟩ := construct_room hI hm hroom
      rw [hrun] at h
      cases h
      rw [hholders name, if_neg hne]
      exact Nat.le_refl _
  | destroy name' =>
    simp only [serve] at h
    obtain ⟨m₁, hrun, hholders⟩ | hrun := destroy_cases hI hm name'
    · rw [hrun] at h
      cases h
      rw [hholders name]
      exact Nat.le_add_right _ _
    · rw [hrun] at h
      cases h
      exact Nat.le_refl _

/-- The step lemma. -/
theorem uniqueNames_serve [DecidableEq N] (hI : I.NamesLawful) (hm : Ready m)
    (hu : UniqueNames I m.segments) (hC : ConstructsOnce P I m r)
    (h : serve P I m r = some m') : UniqueNames I m'.segments := by
  intro name
  have hold := hu name
  by_cases hr : r.Constructs name
  · cases r with
    | construct env name' bytes =>
      obtain rfl : name' = name := hr
      simp only [serve] at h
      cases hroom : findsNoRoom P I env m name' bytes with
      | true =>
        rw [(construct_noRoom hI hm hroom).sameHolders m' h name']
        exact hold
      | false =>
        obtain ⟨p, m₁, hrun, hholders⟩ := construct_room hI hm hroom
        have hfree : holders I name' m.segments = 0 := by
          simpa [ConstructsOnce, hroom] using hC
        rw [hrun] at h
        cases h
        have hone : holders I name' m'.segments = 1 := by rw [hholders name', if_pos rfl, hfree]
        exact Nat.le_of_eq hone
    | _ => cases hr
  · exact Nat.le_trans (holders_serve hI hm h name hr) hold

/-- In runs in which no `construct` of an existing name finds room: every name
    has at most one holder, `construct` of a name that exists makes nothing, and
    a destroyed name is not found before it is constructed again. -/
theorem names_unique [DecidableEq N] (hI : I.NamesLawful) (hcreated : Created P I m₀)
    (hrun : Steps (serve P I) (ConstructsOnce P I) m₀ m) :
    UniqueNames I m.segments ∧
    (∀ env name bytes, holders I name m.segments ≠ 0 →
      ConstructsOnce P I m (.construct env name bytes) →
      MakesNothing I m ((construct P I env name bytes (pure ())).run m)) ∧
    ∀ name m₁ m₂, (destroy I name (pure ())).run m = .value true m₁ →
      Steps (serve P I) (fun a r => ConstructsOnce P I a r ∧ ¬ r.Constructs name) m₁ m₂ →
      (find I name).run m₂ = .value none m₂ := by
  have hstart : Ready m₀ ∧ UniqueNames I m₀.segments := by
    refine ⟨ready_started (.created hcreated), fun name => ?_⟩
    obtain ⟨-, -, s0, size, hs, -, hfresh⟩ := hcreated.fields
    simp [hs, holders, SegInfo.holds, hfresh, hI.create]
  have hinv : Ready m ∧ UniqueNames I m.segments :=
    hrun.invariant (fun a => Ready a ∧ UniqueNames I a.segments) hstart
      fun _ _ _ ha hC hs => ⟨ready_serve ha.1 hs, uniqueNames_serve hI ha.1 ha.2 hC hs⟩
  obtain ⟨hm, hu⟩ := hinv
  refine ⟨hu, fun env name bytes hheld hC => ?_, fun name m₁ m₂ hdestroy hrest => ?_⟩
  · exact construct_noRoom hI hm (by simpa [ConstructsOnce, hheld] using hC)
  · -- the only holder is gone, and nothing but a construction brings one back
    have hgone : Ready m₁ ∧ holders I name m₁.segments = 0 := by
      have hserve : serve P I m (.destroy name) = some m₁ := by
        simp only [serve, hdestroy]
        rfl
      refine ⟨ready_serve hm hserve, ?_⟩
      obtain ⟨m₁', hrun', hholders⟩ | hrun' := destroy_cases hI hm name
      · rw [hdestroy] at hrun'
        cases hrun'
        have hone := hu name
        rw [hholders name, if_pos rfl] at hone
        omega
      · rw [hdestroy] at hrun'
        cases hrun'
    have hnone := hrest.invariant (fun a => Ready a ∧ holders I name a.segments = 0) hgone
      fun _ _ _ ha hC hs => ⟨ready_serve ha.1 hs,
        Nat.le_zero.mp (ha.2 ▸ holders_serve hI ha.1 hs name hC.2)⟩
    rw [run_find hnone.1, findLoop_eq_none.mpr hnone.2]

end runs

/-! ## 4. Concrete runs -/

namespace Arena

variable {a a' : Arena} {name name' : Nat} {bytes offset : Word}

theorem find_allocate (h : a.allocate bytes = some (offset, a')) :
    a'.find name = a.find name := by
  unfold allocate at h
  split at h
  · cases h
    rfl
  · cases h

theorem find_deallocate : (a.deallocate offset).find name = a.find name := by
  unfold deallocate
  split
  · rfl
  · split <;> rfl

theorem find_name (h : name' = name) :
    find { a with names := (name', offset) :: a.names } name = some offset := by
  simp [find, h]

theorem find_other_name (h : name' ≠ name) :
    find { a with names := (name', offset) :: a.names } name = a.find name := by
  simp [find, h]

theorem find_erase (h : name' ≠ name) :
    find { a with names := a.names.filter fun e => e.1 != name } name' = a.find name' := by
  have hfun : ∀ e : Nat × Word,
      decide ((e.1 != name) = true ∧ (e.1 == name') = true) = (e.1 == name') := by
    intro e
    by_cases he : e.1 = name'
    · simp [he, h]
    · simp [he]
  simp only [find, List.find?_filter, hfun]

theorem find_erased :
    find { a with names := a.names.filter fun e => e.1 != name } name = none := by
  simp [find]

end Arena

theorem arena_namesLawful : arena.NamesLawful where
  create _ _ := rfl
  allocate _ h := by rw [show arena.find = Arena.find from rfl, Arena.find_allocate h]
  deallocate _ _ _ := by
    rw [show arena.find = Arena.find from rfl]
    exact congrArg _ Arena.find_deallocate
  refuses {h h' name bytes offset} hcons := by
    simp only [arena, Arena.construct] at hcons ⊢
    split at hcons
    · cases hcons
    · rename_i hfree
      exact Bool.eq_false_iff.mpr hfree
  constructed {h h' name bytes offset} hcons := by
    simp only [arena, Arena.construct] at hcons ⊢
    split at hcons
    · cases hcons
    · split at hcons
      · cases hcons
        rw [Arena.find_name rfl]
        rfl
      · cases hcons
  constructed_other {h h' name name' bytes offset} hcons hne := by
    simp only [arena, Arena.construct] at hcons ⊢
    split at hcons
    · cases hcons
    · split at hcons
      · rename_i halloc
        cases hcons
        rw [Arena.find_other_name (Ne.symm hne), Arena.find_allocate halloc]
      · cases hcons
  destroy {h name} := by
    simp only [arena, Arena.destroy]
    cases h.find name <;> simp
  destroyed {h h' name offset} hd := by
    simp only [arena, Arena.destroy] at hd ⊢
    split at hd
    · cases hd
      rw [Arena.find_deallocate, Arena.find_erased]
      rfl
    · cases hd
  destroyed_other {h h' name name' offset} hd hne := by
    simp only [arena, Arena.destroy] at hd ⊢
    split at hd
    · cases hd
      rw [Arena.find_deallocate, Arena.find_erase hne]
    · cases hd

/-- Name 2 goes to a second segment and is refused there the second time. -/
theorem names_unique_two_segments :
    ∃ m : Manager Arena, holders arena 2 m.segments = 1 ∧ UniqueNames arena m.segments := by
  let requests : List (Request Arena Nat) :=
    [.construct roomyEnv 1 0xC00000, .construct roomyEnv 2 0x800000,
      .construct roomyEnv 2 0x800000]
  have hex : ∃ m, Steps (serve fourKiBPages arena) (ConstructsOnce fourKiBPages arena)
      (arenaManager 0x1000000) m ∧ decide (holders arena 2 m.segments = 1) = true :=
    Steps.exists_of_replay requests (by decide)
  obtain ⟨m, hrun, hm⟩ := hex
  exact ⟨m, of_decide_eq_true hm,
    (names_unique arena_namesLawful arenaManager_created hrun).1⟩

/-- Name 2 goes to a second segment because name 1 fills the first; once name 1
    is destroyed, name 2 is constructed again, in the first segment. -/
theorem name_constructed_twice :
    ¬ ∀ m₀ m : Manager Arena, Created fourKiBPages arena m₀ →
      Steps (serve fourKiBPages arena) anyStep m₀ m → UniqueNames arena m.segments := by
  intro hall
  let requests : List (Request Arena Nat) :=
    [.construct roomyEnv 1 0xC00000, .construct roomyEnv 2 0x800000, .destroy 1,
      .construct roomyEnv 2 0x800000]
  have hex : ∃ m, Steps (serve fourKiBPages arena) anyStep (arenaManager 0x1000000) m ∧
      decide (holders arena 2 m.segments = 2) = true :=
    Steps.exists_of_replay requests (by decide)
  obtain ⟨m, hrun, hm⟩ := hex
  have hle := hall _ m arenaManager_created hrun 2
  rw [of_decide_eq_true hm] at hle
  exact absurd hle (by decide)

end Memnon
