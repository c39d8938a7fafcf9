import Memnon.Manager
import Memnon.Lib.TransitionSystem

/-!
# Runs of one manager

The public operations as the labels of a transition system, each with the
environment it runs in; an operation that throws still takes a step. Properties
of the segment list that survive a fresh segment, an allocation and a
deallocation survive every operation that constructs or destroys no object.
-/

namespace Memnon

open Memnon.Lib

variable {H N : Type} (P : Platform) (I : InnerManager H N)

/-! ## 1. The system -/

inductive Request (H N : Type) where
  | allocate (env : Env H) (bytes : Word)
  | deallocate (ptr : Word)
  | grow (env : Env H) (minBytes : Word)
  | growBackground (env : Env H)
  | construct (env : Env H) (name : N) (bytes : Word)
  | find (name : N)
  | destroy (name : N)

/-- The manager after the request, for objects whose constructors and
    destructors leave the manager alone. -/
def serve (m : Manager H) : Request H N → Option (Manager H)
  | .allocate env bytes => ((allocate P I env bytes).run m).state
  | .deallocate ptr => ((deallocate P I ptr).run m).state
  | .grow env minBytes => ((grow P I env minBytes).run m).state
  | .growBackground env => ((growBackground P I env).run m).state
  | .construct env name bytes => ((construct P I env name bytes (pure ())).run m).state
  | .find name => ((find I name).run m).state
  | .destroy name => ((destroy I name (pure ())).run m).state

section chunks

variable {P I} {env : Env H} {m : Manager H} {mapping : Mapping} {size fileOffset : Word}
  {e : FileRange} {rest : List FileRange}

/-- The manager with a chunk of the file mapped behind its segments. -/
def withChunk (P : Platform) (m : Manager H) (mapping : Mapping) (range : FileRange) (smgr : H) :
    Manager H :=
  { m with
    segments := m.segments ++ [⟨⟨range, false⟩, mapping.seg, mapping.baseVaddr, smgr⟩]
    registry := registerSegment P mapping.seg mapping.baseVaddr range.size m.registry }

theorem addSegmentShm_maps (hmap : env.openShmChunk size fileOffset = some mapping)
    (initializeSmgr : Bool) :
    (addSegmentShm P I env fileOffset size false false initializeSmgr).run m =
      .value () (withChunk P m mapping ⟨fileOffset, size⟩
        (if initializeSmgr then I.create (smgrSize I size false)
          else env.inPlace ⟨fileOffset, size⟩)) := by
  simp only [addSegmentShm, Bool.false_eq_true, if_false, hmap, Bool.false_or]
  rfl

theorem addSegmentShm_fails (hmap : env.openShmChunk size fileOffset = none)
    (initializeSmgr : Bool) :
    (addSegmentShm P I env fileOffset size false false initializeSmgr).run m =
      .thrown .runtimeError m := by
  simp only [addSegmentShm, Bool.false_eq_true, if_false, hmap]
  rfl

theorem discoverLoop_maps (hmap : env.openShmChunk e.size e.fileOffset = some mapping) :
    (discoverLoop P I env (e :: rest)).run m =
      (discoverLoop P I env rest).run (withChunk P m mapping e (env.inPlace e)) :=
  Call.run_bind_value (addSegmentShm_maps hmap false)

theorem discoverLoop_fails (hmap : env.openShmChunk e.size e.fileOffset = none) :
    (discoverLoop P I env (e :: rest)).run m = .thrown .runtimeError m :=
  Call.run_bind_thrown (addSegmentShm_fails hmap false)

end chunks

/-- A manager fresh from a constructor that makes its first segment. -/
inductive Created : Manager H → Prop
  | anon {env : Env H} {table : SegmentTable} {registry : Word → Option Word}
      {initialSize : Word} {m : Manager H} :
      (constructAnon P I env initialSize).run (.empty true table registry) = .value () m →
      Created m
  | creator {env : Env H} {table : SegmentTable} {registry : Word → Option Word}
      {initialSize : Word} {m : Manager H} :
      (constructCreator P I env initialSize).run (.empty false table registry) = .value () m →
      Created m

/-- A manager fresh from any of its constructors. -/
inductive Started : Manager H → Prop
  | created {m : Manager H} : Created P I m → Started m
  | opener {env : Env H} {table : SegmentTable} {registry : Word → Option Word}
      {m : Manager H} :
      (openAllSegmentsMapped P I env).run (.empty false table registry) = .value () m →
      Started m

/-- The first segment of a created manager: primary, with a fresh inner manager. -/
theorem Created.fields {m : Manager H} (h : Created P I m) :
    m.listHeld = false ∧ m.growHeld = false ∧
      ∃ s0 size, m.segments = [s0] ∧ s0.isPrimary = true ∧ s0.smgr = I.create size := by
  cases h with
  | @anon env table registry initialSize _ h =>
    unfold constructAnon at h
    cases hmap : env.createAnon (umax initialSize kMinSegmentSize) with
    | none =>
      simp only [hmap] at h
      cases h
    | some mapping =>
      simp only [hmap] at h
      cases h
      exact ⟨rfl, rfl, _, _, rfl, rfl, rfl⟩
  | @creator env table registry initialSize _ h =>
    unfold constructCreator addSegmentShm at h
    simp only [if_true] at h
    cases hmap : env.createShm (umax initialSize kMinSegmentSize) with
    | none =>
      simp only [hmap] at h
      cases h
    | some mapping =>
      simp only [hmap] at h
      cases h
      exact ⟨rfl, rfl, _, _, rfl, rfl, rfl⟩

/-! ## 2. The loops over the segments -/

section loops

variable {I : InnerManager H N} {segments segments' : List (SegInfo H)} {bytes p : Word} {name : N}

/-- The loop of allocation changes one segment, the first that serves. -/
theorem allocateLoop_split (h : allocateLoop I segments bytes = some (p, segments')) :
    ∃ pre info post offset smgr, segments = pre ++ info :: post ∧
      I.allocate info.smgr bytes = some (offset, smgr) ∧
      segments' = pre ++ { info with smgr := smgr } :: post ∧ p = info.blockAddr I offset ∧
      ∀ before ∈ pre, I.allocate before.smgr bytes = none := by
  induction segments generalizing segments' with
  | nil => cases h
  | cons info rest ih =>
    simp only [allocateLoop] at h
    split at h
    · rename_i offset smgr halloc
      cases h
      exact ⟨[], info, rest, offset, smgr, rfl, halloc, rfl, rfl, nofun⟩
    · rename_i hfull
      split at h
      · rename_i q rest' hrest
        cases h
        obtain ⟨pre, info', post, offset, smgr, hs, halloc, hs', hp, hpre⟩ := ih hrest
        exact ⟨info :: pre, info', post, offset, smgr, by rw [hs]; rfl, halloc,
          by rw [hs']; rfl, hp, List.forall_mem_cons.mpr ⟨hfull, hpre⟩⟩
      · cases h

theorem allocateLoop_isSome :
    (allocateLoop I segments bytes).isSome = true ↔
      ∃ info ∈ segments, (I.allocate info.smgr bytes).isSome = true := by
  induction segments with
  | nil => simp [allocateLoop]
  | cons info rest ih =>
    simp only [allocateLoop, List.exists_mem_cons_iff, ← ih]
    cases I.allocate info.smgr bytes with
    | some a => simp
    | none => cases allocateLoop I rest bytes <;> simp

/-- The loop of construction changes one segment, in which the object lies. -/
theorem constructLoop_split
    (h : constructLoop I name bytes segments = .constructed p segments') :
    ∃ pre info post offset smgr, segments = pre ++ info :: post ∧
      I.construct info.smgr name bytes = .constructed offset smgr ∧
      segments' = pre ++ { info with smgr := smgr } :: post ∧ p = info.blockAddr I offset := by
  induction segments generalizing segments' with
  | nil => cases h
  | cons info rest ih =>
    simp only [constructLoop] at h
    split at h
    · rename_i offset smgr hcons
      cases h
      exact ⟨[], info, rest, offset, smgr, rfl, hcons, rfl, rfl⟩
    · cases h
    all_goals
      split at h
      · rename_i q rest' hrest
        cases h
        obtain ⟨pre, info', post, offset, smgr, hs, hcons, hs', hp⟩ := ih hrest
        exact ⟨info :: pre, info', post, offset, smgr, by rw [hs]; rfl, hcons, by rw [hs']; rfl,
          hp⟩
      · cases h
      · cases h

/-- A loop that a segment leaves by an exception. -/
theorem constructLoop_refused (h : constructLoop I name bytes segments = .refused) :
    ∃ info ∈ segments, I.construct info.smgr name bytes = .refused := by
  induction segments with
  | nil => cases h
  | cons info rest ih =>
    simp only [constructLoop] at h
    split at h
    · cases h
    · rename_i hrefused
      exact ⟨info, List.mem_cons_self, hrefused⟩
    all_goals
      split at h
      · cases h
      · rename_i hrest
        obtain ⟨info', hinfo, hrefused⟩ := ih hrest
        exact ⟨info', List.mem_cons_of_mem _ hinfo, hrefused⟩
      · cases h

/-- The loop of destruction changes the first segment that holds the name. -/
theorem destroyLoop_split (h : destroyLoop I name segments = some segments') :
    ∃ pre info post offset smgr, segments = pre ++ info :: post ∧
      I.destroy info.smgr name = some (offset, smgr) ∧
      segments' = pre ++ { info with smgr := smgr } :: post := by
  induction segments generalizing segments' with
  | nil => cases h
  | cons info rest ih =>
    simp only [destroyLoop] at h
    split at h
    · rename_i offset smgr hdestroy
      cases h
      exact ⟨[], info, rest, offset, smgr, rfl, hdestroy, rfl⟩
    · split at h
      · rename_i rest' hrest
        cases h
        obtain ⟨pre, info', post, offset, smgr, hs, hdestroy, hs'⟩ := ih hrest
        exact ⟨info :: pre, info', post, offset, smgr, by rw [hs]; rfl, hdestroy,
          by rw [hs']; rfl⟩
      · cases h

end loops

/-! ## 3. Properties of the segment list that operations keep -/

/-- What a property of segment lists must survive. -/
structure Stable (Q : List (SegInfo H) → Prop) : Prop where
  fresh : ∀ {segments : List (SegInfo H)} {info : SegInfo H} {size : Word}, Q segments →
    info.smgr = I.create size → Q (segments ++ [info])
  alloc : ∀ {pre info post} {bytes offset : Word} {smgr : H},
    I.allocate info.smgr bytes = some (offset, smgr) → Q (pre ++ info :: post) →
    Q (pre ++ { info with smgr := smgr } :: post)
  dealloc : ∀ {pre info post} {offset : Word}, Q (pre ++ info :: post) →
    Q (pre ++ { info with smgr := I.deallocate info.smgr offset } :: post)

/-- What a property of segment lists must survive of named objects. -/
structure NameStable (Q : List (SegInfo H) → Prop) : Prop where
  constructed : ∀ {pre info post} {name : N} {bytes offset : Word} {smgr : H},
    I.construct info.smgr name bytes = .constructed offset smgr → Q (pre ++ info :: post) →
    Q (pre ++ { info with smgr := smgr } :: post)
  destroyed : ∀ {pre info post} {name : N} {offset : Word} {smgr : H},
    I.destroy info.smgr name = some (offset, smgr) → Q (pre ++ info :: post) →
    Q (pre ++ { info with smgr := smgr } :: post)

/-- A manager with the property `Q` of its segment list, and what the running
    thread holds of its mutexes. -/
structure Holding (Q : List (SegInfo H) → Prop) (list grow : Bool) (m : Manager H) : Prop where
  list : m.listHeld = list
  grow : m.growHeld = grow
  segments : Q m.segments

/-- The call keeps `Q` and gives back every mutex it takes. -/
def KeepsSegments {A : Type} (Q : List (SegInfo H) → Prop) (c : Op H A) : Prop :=
  ∀ list grow, Call.Keeps (Holding Q list grow) c

namespace KeepsSegments

variable {P I} {Q : List (SegInfo H) → Prop} {A B : Type} {c : Op H A}

theorem pure {a : A} : KeepsSegments Q (Pure.pure a : Op H A) := fun _ _ => Call.keeps_pure

theorem raise {e : Exn} : KeepsSegments Q (.raise e : Op H A) := fun _ _ => Call.keeps_raise

theorem bind {f : A → Op H B} (hc : KeepsSegments Q c) (hf : ∀ a, KeepsSegments Q (f a)) :
    KeepsSegments Q (c >>= f) :=
  fun list grow => Call.keeps_bind (hc list grow) fun a => hf a list grow

/-- What is read has the property. -/
theorem read_bind {k : Manager H → Op H B} (hk : ∀ m, Q m.segments → KeepsSegments Q (k m)) :
    KeepsSegments Q (.read >>= k) :=
  fun list grow => Call.keeps_read_bind fun m hm => hk m hm.segments list grow m hm

/-- A change of the segment list and of fields other than the mutexes. -/
theorem modify {g : Manager H → Manager H} (hlist : ∀ m, (g m).listHeld = m.listHeld)
    (hgrow : ∀ m, (g m).growHeld = m.growHeld)
    (hseg : ∀ m, Q m.segments → Q (g m).segments) : KeepsSegments Q (.modify g) :=
  fun _ _ => Call.keeps_modify fun m h =>
    ⟨(hlist m).trans h.list, (hgrow m).trans h.grow, hseg m h.segments⟩

theorem list (hc : KeepsSegments Q c) : KeepsSegments Q (.guarded (listMtx H) c) := by
  intro list grow m hm m' h
  cases list with
  | true =>
    rw [Call.guarded_held hm.list] at h
    cases h
  | false =>
    have hkeep : Call.Keeps (Holding Q false grow) (.guarded (listMtx H) c) :=
      Call.keeps_guarded (fun _ h => ⟨rfl, h.grow, h.segments⟩) (hc true grow)
        fun _ h => ⟨rfl, h.grow, h.segments⟩
    exact hkeep m hm m' h

theorem grow (hc : KeepsSegments Q c) : KeepsSegments Q (.guarded (growMtx H) c) := by
  intro list grow m hm m' h
  cases grow with
  | true =>
    rw [Call.guarded_held hm.grow] at h
    cases h
  | false =>
    have hkeep : Call.Keeps (Holding Q list false) (.guarded (growMtx H) c) :=
      Call.keeps_guarded (fun _ h => ⟨h.list, rfl, h.segments⟩) (hc list true)
        fun _ h => ⟨h.list, rfl, h.segments⟩
    exact hkeep m hm m' h

theorem publishLastSegment : KeepsSegments Q (publishLastSegment : Op H Unit) := by
  refine read_bind fun m _ => ?_
  split
  · exact modify (fun _ => rfl) (fun _ => rfl) fun _ h => h
  · exact raise

theorem readSize {minBytes : Word} : KeepsSegments Q (readSize P I minBytes) := by
  refine read_bind fun m _ => ?_
  split
  · exact pure
  · exact pure

theorem readSizeBackground : KeepsSegments Q (readSizeBackground P I) := by
  refine read_bind fun m _ => ?_
  split
  · exact pure
  · split
    · exact pure
    · exact pure

theorem smgrFor {seg : Word} : KeepsSegments Q (smgrFor seg) :=
  list (read_bind fun _ _ => pure)

theorem find {name : N} : KeepsSegments Q (find I name) :=
  list (read_bind fun _ _ => pure)

theorem makeObject {ptr : Word} {segments : List (SegInfo H)} {ctor : Op H Unit}
    (hctor : KeepsSegments Q ctor) (hsegments : Q segments) :
    KeepsSegments Q (makeObject ptr segments ctor) :=
  bind (modify (fun _ => rfl) (fun _ => rfl) fun _ _ => hsegments) fun _ =>
    bind hctor fun _ => pure

end KeepsSegments

theorem hintIfLow_fields (m : Manager H) : (hintIfLow I m).segments = m.segments ∧
    (hintIfLow I m).listHeld = m.listHeld ∧ (hintIfLow I m).growHeld = m.growHeld := by
  unfold hintIfLow
  split
  · split <;> exact ⟨rfl, rfl, rfl⟩
  · exact ⟨rfl, rfl, rfl⟩

namespace Stable

variable {P I} {Q : List (SegInfo H) → Prop} {env : Env H} (hQ : Stable I Q)

include hQ

theorem addSegmentAnonPreallocated {mapping : Mapping} {size : Word} {isPrimary : Bool} :
    KeepsSegments Q (addSegmentAnonPreallocated P I mapping size isPrimary) :=
  .modify (fun _ => rfl) (fun _ => rfl) fun _ hm => hQ.fresh hm rfl

/-- A grower initialises the inner manager of the chunk it maps. -/
theorem addSegmentShm {fileOffset size : Word} :
    KeepsSegments Q (addSegmentShm P I env fileOffset size false false true) := by
  unfold Memnon.addSegmentShm
  simp only [Bool.false_eq_true, if_false, Bool.false_or, if_true]
  split
  · exact .raise
  · exact .modify (fun _ => rfl) (fun _ => rfl) fun _ hm => hQ.fresh hm rfl

theorem tryAllocateLocked {bytes : Word} : KeepsSegments Q (tryAllocateLocked I bytes) := by
  refine .read_bind fun m hm => ?_
  cases hloop : allocateLoop I m.segments bytes with
  | none => exact .pure
  | some served =>
    obtain ⟨p, segments⟩ := served
    obtain ⟨pre, info, post, offset, smgr, hs, halloc, hs', -⟩ := allocateLoop_split hloop
    have hnew : Q segments := hs' ▸ hQ.alloc halloc (hs ▸ hm)
    refine .bind (.modify (fun m => ?_) (fun m => ?_) fun m _ => ?_) fun _ => .pure
    · exact (hintIfLow_fields I _).2.1
    · exact (hintIfLow_fields I _).2.2
    · rw [(hintIfLow_fields I _).1]
      exact hnew

theorem deallocateAt {i : Nat} {ptr : Word} : KeepsSegments Q (deallocateAt I i ptr) := by
  refine .modify (fun _ => rfl) (fun _ => rfl) fun m hm => ?_
  by_cases hi : i < m.segments.length
  · have hsplit : m.segments = m.segments.take i ++ m.segments[i] :: m.segments.drop (i + 1) := by
      simp
    simp only [List.modify_eq_take_cons_drop hi]
    exact hQ.dealloc (hsplit ▸ hm)
  · simpa [List.modify_eq_self (Nat.le_of_not_lt hi)] using hm

theorem growShm {newChunkSize currentFileSize : Word} :
    KeepsSegments Q (growShm P I env newChunkSize currentFileSize) := by
  unfold Memnon.growShm
  split
  · exact .list (.bind hQ.addSegmentShm fun _ => .publishLastSegment)
  · exact .raise

theorem growAnon {newChunkSize : Word} : KeepsSegments Q (growAnon P I env newChunkSize) := by
  unfold Memnon.growAnon
  split
  · exact .raise
  · exact .list hQ.addSegmentAnonPreallocated

theorem grow {minBytes : Word} : KeepsSegments Q (grow P I env minBytes) := by
  refine .grow (.bind (.list .readSize) fun sized => ?_)
  cases sized with
  | none => exact .pure
  | some sizes =>
    refine .read_bind fun m _ => ?_
    split
    · exact hQ.growAnon
    · exact hQ.growShm

theorem growBackground : KeepsSegments Q (growBackground P I env) := by
  refine .grow (.bind (.list .readSizeBackground) fun sized => ?_)
  cases sized with
  | none => exact .pure
  | some sizes =>
    refine .read_bind fun m _ => ?_
    split
    · split
      · exact .pure
      · exact .list hQ.addSegmentAnonPreallocated
    · split
      · refine .list (.read_bind fun m _ => ?_)
        split
        · exact .bind hQ.addSegmentShm fun _ => .publishLastSegment
        · exact .pure
      · exact .pure

theorem allocate {bytes : Word} : KeepsSegments Q (allocate P I env bytes) := by
  refine .bind (.list hQ.tryAllocateLocked) fun p => ?_
  cases p with
  | some p => exact .pure
  | none =>
    refine .bind hQ.grow fun _ => .bind (.list hQ.tryAllocateLocked) fun p => ?_
    cases p with
    | some p => exact .pure
    | none => exact .raise

theorem deallocate {ptr : Word} : KeepsSegments Q (deallocate P I ptr) := by
  refine .read_bind fun m _ => ?_
  split
  · exact .pure
  · split
    · exact .pure
    · refine .bind .smgrFor fun i => ?_
      cases i with
      | some i => exact hQ.deallocateAt
      | none => exact .pure

end Stable

namespace NameStable

variable {P I} {Q : List (SegInfo H) → Prop} {env : Env H} (hN : NameStable I Q)

include hN

theorem constructExisting {name : N} {bytes : Word} {ctor : Op H Unit}
    (hctor : KeepsSegments Q ctor) : KeepsSegments Q (constructExisting I name bytes ctor) := by
  refine .read_bind fun m hm => ?_
  cases hloop : constructLoop I name bytes m.segments with
  | constructed p segments =>
    obtain ⟨pre, info, post, offset, smgr, hs, hcons, hs', -⟩ := constructLoop_split hloop
    exact .makeObject hctor (hs' ▸ hN.constructed hcons (hs ▸ hm))
  | refused => exact .raise
  | exhausted => exact .pure

theorem constructLast {name : N} {bytes : Word} {ctor : Op H Unit}
    (hctor : KeepsSegments Q ctor) : KeepsSegments Q (constructLast I name bytes ctor) := by
  refine .read_bind fun m hm => ?_
  cases hlast : m.segments.getLast? with
  | none => exact .pure
  | some last =>
    obtain ⟨pre, hs⟩ := List.getLast?_eq_some_iff.mp hlast
    cases hcons : I.construct last.smgr name bytes with
    | constructed offset smgr =>
      have hnew : Q (m.segments.dropLast ++ [{ last with smgr := smgr }]) := by
        rw [hs, List.dropLast_concat]
        exact hN.constructed hcons (hs ▸ hm)
      simp only [hcons]
      exact .makeObject hctor hnew
    | null => simpa only [hcons] using .pure
    | badAlloc => simpa only [hcons] using .raise
    | refused => simpa only [hcons] using .raise

theorem construct (hQ : Stable I Q) {name : N} {bytes : Word} {ctor : Op H Unit}
    (hctor : KeepsSegments Q ctor) : KeepsSegments Q (construct P I env name bytes ctor) := by
  refine .bind (.list (hN.constructExisting hctor)) fun p => ?_
  cases p with
  | some p => exact .pure
  | none => exact .bind hQ.grow fun _ => .list (hN.constructLast hctor)

theorem destroy {name : N} {dtor : Op H Unit} (hdtor : KeepsSegments Q dtor) :
    KeepsSegments Q (destroy I name dtor) := by
  refine .list (.read_bind fun m hm => ?_)
  cases hloop : destroyLoop I name m.segments with
  | none => exact .pure
  | some segments =>
    obtain ⟨pre, info, post, offset, smgr, hs, hdestroy, hs'⟩ := destroyLoop_split hloop
    have hnew : Q segments := hs' ▸ hN.destroyed hdestroy (hs ▸ hm)
    exact .bind (.modify (fun _ => rfl) (fun _ => rfl) fun _ _ => hnew) fun _ =>
      .bind hdtor fun _ => .pure

end NameStable

end Memnon
