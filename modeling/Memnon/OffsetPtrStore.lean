import Memnon.OffsetPtrRoundTrip

/-!
# Storing a raw pointer

A pointer object in a SHM segment refuses a raw pointer that no segment of its
own manager has. `set` decides that before it writes `m_offset`, so a refused
store leaves the object as it was. Any other store is read back as the raw
pointer, as far as the manager knows a file offset for it.
-/

namespace Memnon.OffsetPtr

open Memnon.Lib
open Memnon.Trie (Config keyBound pageOf)

variable {M : Type}

/-! ## 1. Stores -/

/-- Construction and assignment from a raw pointer, and assignment from another
    pointer object of the same type. -/
inductive Store where
  | construct (ptr : Word)
  | assign (ptr : Word)
  | copyAssign (src : Word)

def Store.IsAssignment : Store → Prop
  | .construct _ => False
  | .assign _ | .copyAssign _ => True

/-- A call of `set` on the object at `dst`: `m_offset` is written last, after
    every exception. -/
def PtrState.write (dst : Word) (call : Run M (Except SetError Word)) (st : PtrState M) :
    Option (Except SetError Unit × PtrState M) :=
  match call st.process with
  | some (.ok mOffset, p) => some (.ok (), ⟨p, Function.update st.offset dst mOffset⟩)
  | some (.error e, p) => some (.error e, { st with process := p })
  | none => none

section stores

variable [DecidableEq M] (cfg : Config) (pick : Trie.Memory Unit → Word)
  (openShmChunk : M → Word → Word → Option Mapping)

/-- The raw pointer that `set` is called with. -/
def Store.pointer (st : PtrState M) : Store → Run M Word
  | .construct ptr | .assign ptr => pure ptr
  | .copyAssign src => get cfg.platform (runtime cfg pick openShmChunk) src (st.offset src)

def Store.run (dst : Word) (st : PtrState M) :
    Store → Option (Except SetError Unit × PtrState M)
  | .construct ptr =>
      PtrState.write dst (set cfg.platform (runtime cfg pick openShmChunk) dst ptr)
        { st with offset := Function.update st.offset dst kNull }
  | .assign ptr => st.write dst (set cfg.platform (runtime cfg pick openShmChunk) dst ptr)
  | .copyAssign src =>
      st.write dst
        (OffsetPtr.copy cfg.platform (runtime cfg pick openShmChunk) dst src (st.offset src))

end stores

/-- Without a tag, and in the address space of the trie. -/
def Canonical (cfg : Config) (addr : Word) : Prop :=
  cfg.platform.ptrToVaddr addr = addr ∧ (pageOf cfg addr).toNat < keyBound cfg

instance (cfg : Config) (addr : Word) : Decidable (Canonical cfg addr) :=
  inferInstanceAs (Decidable (_ ∧ _))

/-- The address is on a page of a SHM segment. -/
def InShm (cfg : Config) (live : List (LiveSegment M)) (addr : Word) : Prop :=
  ∃ s ∈ live, s.Has cfg addr ∧ s.isAnon = false

/-- The object is in a SHM segment, and the page of `ptr`, which is not null, in
    no segment or in one of another manager. -/
def Misuse (cfg : Config) (live : List (LiveSegment M)) (dst ptr : Word) : Prop :=
  ptr ≠ 0 ∧ ∃ s ∈ live, s.Has cfg dst ∧ s.isAnon = false ∧
    ∀ s' ∈ live, s'.Has cfg ptr → s'.manager ≠ s.manager

/-! ## 2. What lookups leave alone -/

/-- The processes differ in the registry's memory only. -/
structure SameSegments (p p' : Process M) : Prop where
  object : p'.object = p.object
  anon : p'.anon = p.anon
  segments : p'.segments = p.segments
  table : p'.table = p.table

/-- The calls answer alike, and leave processes that still agree. -/
abbrev AnswerAlike {A : Type} (o o' : Option (A × Process M)) : Prop :=
  Option.Rel (fun r r' => r.1 = r'.1 ∧ SameSegments r.2 r'.2) o o'

section searches

variable [DecidableEq M] {cfg : Config} {pick : Trie.Memory Unit → Word}
  {openShmChunk : M → Word → Word → Option Mapping} {live : List (LiveSegment M)}
  {p p' q : Process M} {mgr : M} {self ptr dst mOffset fileOffset addr : Word}

omit [DecidableEq M] in
theorem SameSegments.trans (h : SameSegments p p') (h' : SameSegments p' q) : SameSegments p q :=
  ⟨h'.object.trans h.object, h'.anon.trans h.anon, h'.segments.trans h.segments,
    h'.table.trans h.table⟩

omit [DecidableEq M] in
theorem SameSegments.symm (h : SameSegments p p') : SameSegments p' p :=
  ⟨h.object.symm, h.anon.symm, h.segments.symm, h.table.symm⟩

omit [DecidableEq M] in
theorem sameSegments_findSegment {found : Option (SubSegment M)}
    (h : findSegment cfg pick addr p = some (found, p')) : SameSegments p p' := by
  obtain rfl := congrArg Prod.snd (Option.some.inj h)
  exact ⟨rfl, rfl, rfl, rfl⟩

theorem sameSegments_set {r : Except SetError Word}
    (h : OffsetPtr.set cfg.platform (runtime cfg pick openShmChunk) dst ptr p = some (r, p')) :
    SameSegments p p' := by
  have hfind : ∀ addr (q : Process M), ∃ found q',
      findSegment cfg pick addr q = some (found, q') ∧ SameSegments q q' :=
    fun addr q => ⟨_, _, rfl, ⟨rfl, rfl, rfl, rfl⟩⟩
  unfold OffsetPtr.set at h
  split at h
  · cases h
    exact ⟨rfl, rfl, rfl, rfl⟩
  · obtain ⟨selfSeg, p₁, hfind₁, hp₁⟩ := hfind (cfg.platform.ptrToVaddr dst) p
    obtain ⟨targetSeg, p₂, hfind₂, hp₂⟩ := hfind ptr p₁
    replace h := ((run_bind hfind₁).trans (run_bind hfind₂)).symm.trans h
    have hsame := hp₁.trans hp₂
    cases selfSeg with
    | none =>
      cases h
      exact hsame
    | some s =>
      simp only at h
      split at h
      · cases h
        exact hsame
      · cases targetSeg with
        | none =>
          cases h
          exact hsame
        | some s' =>
          simp only at h
          split at h
          · cases h
            exact hsame
          · cases h
            exact hsame

theorem SameSegments.discoverLoop (cfg : Config) (pick : Trie.Memory Unit → Word)
    (openShmChunk : M → Word → Word → Option Mapping) (mgr : M) (h : SameSegments p p')
    (es : List FileRange) :
    AnswerAlike (discoverLoop cfg pick openShmChunk mgr es p)
      (discoverLoop cfg pick openShmChunk mgr es p') := by
  induction es generalizing p p' with
  | nil => exact .some ⟨rfl, h⟩
  | cons e es ih =>
    simp only [OffsetPtr.discoverLoop]
    cases openShmChunk mgr e.size e.fileOffset with
    | none => exact .none
    | some mapping =>
      apply ih
      constructor
      · simp only [Process.addSegment, h.object]
      · exact h.anon
      · simp only [Process.addSegment, h.segments]
      · exact h.table

theorem SameSegments.discoverGrowth (h : SameSegments p p') :
    AnswerAlike (discoverGrowth cfg pick openShmChunk mgr fileOffset p)
      (discoverGrowth cfg pick openShmChunk mgr fileOffset p') := by
  simp only [OffsetPtr.discoverGrowth, h.anon, h.table, h.segments, h.object]
  split
  · exact .some ⟨rfl, h⟩
  · generalize hes : ((lazyDiscoverGrowth (p.table mgr) ((p.segments mgr).map fun seg =>
      (p.object seg).toSegment) fileOffset).1.drop (p.segments mgr).length).map
        Memnon.Segment.toFileRange = es
    have hloop := h.discoverLoop cfg pick openShmChunk mgr es
    generalize OffsetPtr.discoverLoop cfg pick openShmChunk mgr es p = o at hloop
    generalize OffsetPtr.discoverLoop cfg pick openShmChunk mgr es p' = o' at hloop
    cases hloop with
    | none => exact .none
    | some hrel => exact .some ⟨rfl, hrel.2⟩

omit [DecidableEq M] in
theorem SameSegments.findByFileOffset (h : SameSegments p p') :
    AnswerAlike (findByFileOffset mgr fileOffset p) (findByFileOffset mgr fileOffset p') := by
  simp only [OffsetPtr.findByFileOffset, h.segments, h.object]
  exact .some ⟨rfl, h⟩

omit [DecidableEq M] in
theorem AnswerAlike.bind {A B : Type} {x x' : Run M A} {f : A → Run M B}
    (h : AnswerAlike (x p) (x' p'))
    (hf : ∀ a q q', SameSegments q q' → AnswerAlike (f a q) (f a q')) :
    AnswerAlike ((x >>= f) p) ((x' >>= f) p') := by
  show AnswerAlike ((x p).bind _) ((x' p').bind _)
  generalize x p = o at h
  generalize x' p' = o' at h
  cases h with
  | none => exact .none
  | @some r r' hrel =>
    obtain ⟨a, q⟩ := r
    obtain ⟨a', q'⟩ := r'
    obtain ⟨rfl, hq⟩ := hrel
    exact hf a q q' hq

omit [DecidableEq M] in
theorem AnswerAlike.map_fst {A : Type} {o o' : Option (A × Process M)} (h : AnswerAlike o o') :
    o.map Prod.fst = o'.map Prod.fst := by
  cases h with
  | none => rfl
  | some hrel => exact congrArg some hrel.1

/-- What `get` returns does not depend on the caches. -/
theorem Maps.get_alike (pick : Trie.Memory Unit → Word)
    (openShmChunk : M → Word → Word → Option Mapping) (h : Maps cfg live p)
    (h' : Maps cfg live p') (hsame : SameSegments p p')
    (hself : cfg.platform.ptrToVaddr self = self) (hkey : (pageOf cfg self).toNat < keyBound cfg)
    (mOffset : Word) :
    AnswerAlike (OffsetPtr.get cfg.platform (runtime cfg pick openShmChunk) self mOffset p)
      (OffsetPtr.get cfg.platform (runtime cfg pick openShmChunk) self mOffset p') := by
  unfold OffsetPtr.get
  split
  · exact .some ⟨rfl, hsame⟩
  · rw [hself]
    have hfind : AnswerAlike ((runtime cfg pick openShmChunk).find self p)
        ((runtime cfg pick openShmChunk).find self p') := by
      obtain ⟨q, hq, -⟩ := h.find pick hkey
      obtain ⟨q', hq', -⟩ := h'.find pick hkey
      simp only [runtime, hq, hq']
      exact .some ⟨rfl, (sameSegments_findSegment hq).symm.trans
        (hsame.trans (sameSegments_findSegment hq'))⟩
    refine hfind.bind fun found q q' hq => ?_
    cases found with
    | none => exact .some ⟨rfl, hq⟩
    | some s =>
      simp only
      split
      · exact .some ⟨rfl, hq⟩
      · refine AnswerAlike.bind hq.findByFileOffset fun target q q' hq => ?_
        cases target with
        | some s' => exact .some ⟨rfl, hq⟩
        | none =>
          refine AnswerAlike.bind hq.discoverGrowth fun more q q' hq => ?_
          cases more with
          | false => exact .some ⟨rfl, hq⟩
          | true =>
            refine AnswerAlike.bind hq.findByFileOffset fun target q q' hq => ?_
            cases target with
            | some s' => exact .some ⟨rfl, hq⟩
            | none => exact .some ⟨rfl, hq⟩

end searches

/-! ## 3. The decision and the encoding -/

section decisions

variable [DecidableEq M] {cfg : Config} {pick : Trie.Memory Unit → Word}
  {openShmChunk : M → Word → Word → Option Mapping} {live : List (LiveSegment M)}
  {p p' : Process M} {st : PtrState M} {dst ptr mOffset : Word}

theorem liveSet_null : liveSet cfg live dst 0 = .ok kNull := by
  rw [liveSet, set, if_pos rfl]
  rfl

/-- On live segments `set` throws exactly on misuse. -/
theorem Maps.liveSet_error_iff (h : Maps cfg live p)
    (hself : cfg.platform.ptrToVaddr dst = dst) :
    (∃ e, liveSet cfg live dst ptr = .error e) ↔ Misuse cfg live dst ptr := by
  by_cases hnull : ptr = 0
  · subst hnull
    rw [liveSet_null]
    constructor
    · rintro ⟨e, he⟩
      cases he
    · rintro ⟨hne, -⟩
      exact absurd rfl hne
  · rw [liveSet_eq hself hnull]
    cases hat : segmentAt cfg live dst with
    | none =>
      constructor
      · rintro ⟨e, he⟩
        cases he
      · rintro ⟨-, s, hs, hhas, -⟩
        rw [h.segmentAt_eq hs hhas] at hat
        cases hat
    | some s =>
      have hs : s ∈ live := List.mem_of_find?_eq_some hat
      have hhas : s.Has cfg dst := by simpa using List.find?_some hat
      simp only
      cases hanon : s.isAnon with
      | true =>
        constructor
        · rintro ⟨e, he⟩
          cases he
        · rintro ⟨-, s', hs', hhas', hshm, -⟩
          obtain rfl := h.eq_of_has hs hs' hhas hhas'
          rw [hanon] at hshm
          cases hshm
      | false =>
        simp only [Bool.false_eq_true, if_false]
        cases htarget : segmentAt cfg live ptr with
        | none =>
          refine iff_of_true ⟨_, rfl⟩ ⟨hnull, s, hs, hhas, hanon, fun s' hs' hhas' => ?_⟩
          rw [h.segmentAt_eq hs' hhas'] at htarget
          cases htarget
        | some s' =>
          have hs' : s' ∈ live := List.mem_of_find?_eq_some htarget
          have hhas' : s'.Has cfg ptr := by simpa using List.find?_some htarget
          simp only
          split
          · rename_i hmgr
            refine iff_of_true ⟨_, rfl⟩ ⟨hnull, s, hs, hhas, hanon, fun r hr hrhas => ?_⟩
            obtain rfl := h.eq_of_has hs' hr hhas' hrhas
            exact hmgr
          · rename_i hmgr
            constructor
            · rintro ⟨e, he⟩
              cases he
            · rintro ⟨-, r, hr, hrhas, -, hother⟩
              obtain rfl := h.eq_of_has hs hr hhas hrhas
              exact absurd (hother s' hs' hhas') hmgr

/-- What `set` stores stands for the pointer, unless its file offset lies past
    the end of its segment. -/
theorem Maps.encodes_of_liveSet (h : Maps cfg live p)
    (hself : cfg.platform.ptrToVaddr dst = dst)
    (hset : liveSet cfg live dst ptr = .ok mOffset) (hsentinel : ptr ≠ 0 → mOffset ≠ kNull)
    (hin : ptr = 0 ∨ ¬ InShm cfg live dst ∨ ∃ s ∈ live, s.Contains ptr) :
    Encodes cfg live dst ptr mOffset := by
  unfold Encodes
  by_cases hnull : ptr = 0
  · subst hnull
    rw [liveSet_null] at hset
    cases hset
    rw [if_pos rfl]
  · rw [if_neg hnull]
    refine ⟨hsentinel hnull, ?_⟩
    rw [liveSet_eq hself hnull] at hset
    cases hat : segmentAt cfg live dst with
    | none =>
      rw [hat] at hset
      exact (Except.ok.inj hset).symm
    | some s =>
      have hs : s ∈ live := List.mem_of_find?_eq_some hat
      have hhas : s.Has cfg dst := by simpa using List.find?_some hat
      simp only [hat] at hset ⊢
      cases hanon : s.isAnon with
      | true =>
        simp only [hanon, if_true] at hset ⊢
        exact (Except.ok.inj hset).symm
      | false =>
        simp only [hanon, Bool.false_eq_true, if_false] at hset ⊢
        obtain ⟨s', hs', hcontains⟩ : ∃ s' ∈ live, s'.Contains ptr := by
          rcases hin with hzero | hout | hin
          · exact absurd hzero hnull
          · exact absurd ⟨s, hs, hhas, hanon⟩ hout
          · exact hin
        rw [h.segmentAt_eq hs' (h.has_of_contains hs' hcontains)] at hset
        simp only at hset
        split at hset
        · cases hset
        · rename_i hmgr
          exact ⟨s', mem_segmentsOf.mpr ⟨hs', not_not.mp hmgr⟩, hcontains,
            (Except.ok.inj hset).symm⟩

end decisions

/-! ## 4. Every store -/

section every

variable [DecidableEq M] {cfg : Config} {pick : Trie.Memory Unit → Word}
  {openShmChunk : M → Word → Word → Option Mapping} {live : List (LiveSegment M)}
  {p p' : Process M} {st : PtrState M} {op : Store} {dst ptr : Word}

/-- A store calls `set` on the process in which the pointer is known. -/
theorem Store.run_eq {r : Except SetError Word}
    (hpointer : op.pointer cfg pick openShmChunk st st.process = some (ptr, p))
    (hset : set cfg.platform (runtime cfg pick openShmChunk) dst ptr p = some (r, p')) :
    ∃ st', op.run cfg pick openShmChunk dst st = some (r.map fun _ => (), st') ∧
      st'.process = p' ∧ (∀ mOffset, r = .ok mOffset → st'.offset dst = mOffset) ∧
      (∀ e, r = .error e → op.IsAssignment → st'.offset = st.offset) := by
  have hwrite : ∀ (call : Run M (Except SetError Word)) (st₁ : PtrState M),
      call st₁.process = some (r, p') →
      ∃ st', st₁.write dst call = some (r.map fun _ => (), st') ∧ st'.process = p' ∧
        (∀ mOffset, r = .ok mOffset → st'.offset dst = mOffset) ∧
        (∀ e, r = .error e → st'.offset = st₁.offset) := by
    intro call st₁ hcall
    rw [PtrState.write, hcall]
    cases r with
    | ok mOffset =>
      refine ⟨_, rfl, rfl, ?_, ?_⟩
      · intro mOffset' h
        cases h
        exact Function.update_self ..
      · intro e h
        cases h
    | error e =>
      refine ⟨_, rfl, rfl, ?_, fun _ _ => rfl⟩
      intro mOffset h
      cases h
  cases op with
  | construct ptr' =>
    cases hpointer
    obtain ⟨st', hrun, hprocess, hstored, -⟩ :=
      hwrite _ { st with offset := Function.update st.offset dst kNull } hset
    exact ⟨st', hrun, hprocess, hstored, fun _ _ hassign => hassign.elim⟩
  | assign ptr' =>
    cases hpointer
    obtain ⟨st', hrun, hprocess, hstored, hkept⟩ := hwrite _ st hset
    exact ⟨st', hrun, hprocess, hstored, fun e he _ => hkept e he⟩
  | copyAssign src =>
    obtain ⟨st', hrun, hprocess, hstored, hkept⟩ := hwrite _ st ((run_bind hpointer).trans hset)
    exact ⟨st', hrun, hprocess, hstored, fun e he _ => hkept e he⟩

/-- The pointer is stored in a process with the live segments `live`. The store
    throws exactly on misuse. An assignment that throws changes no pointer
    object; after any other store `get` returns the pointer if it lies in a
    segment or the object in no SHM segment. -/
theorem raw_store_raises_on_misuse
    (hpointer : op.pointer cfg pick openShmChunk st st.process = some (ptr, p))
    (hmaps : Maps cfg live p) (hlists : Contiguous p.anon live)
    (hdst : Canonical cfg dst) (hptr : Canonical cfg ptr)
    (hsentinel : ptr ≠ 0 → liveSet cfg live dst ptr ≠ .ok kNull) :
    ∃ r st', op.run cfg pick openShmChunk dst st = some (r, st') ∧
      ((∃ e, r = .error e) ↔ Misuse cfg live dst ptr) ∧
      ((∃ e, r = .error e) → op.IsAssignment → st'.offset = st.offset ∧
        (get cfg.platform (runtime cfg pick openShmChunk) dst (st'.offset dst)
            st'.process).map Prod.fst =
          (get cfg.platform (runtime cfg pick openShmChunk) dst (st.offset dst) p).map
            Prod.fst) ∧
      (r = .ok () → (ptr = 0 ∨ ¬ InShm cfg live dst ∨ ∃ s ∈ live, s.Contains ptr) →
        ∃ p', get cfg.platform (runtime cfg pick openShmChunk) dst (st'.offset dst)
          st'.process = some (ptr, p')) := by
  obtain ⟨hself, hkey⟩ := hdst
  obtain ⟨p', hset, hp'⟩ := hmaps.set pick openShmChunk hself hkey fun _ _ _ _ => hptr.2
  obtain ⟨st', hrun, rfl, hstored, hkept⟩ := Store.run_eq hpointer hset
  refine ⟨_, st', hrun, ?_, ?_, ?_⟩
  · rw [← hmaps.liveSet_error_iff hself]
    cases liveSet cfg live dst ptr with
    | ok mOffset => simp [Except.map]
    | error e => simp [Except.map]
  · rintro ⟨e, he⟩ hassign
    cases hlive : liveSet cfg live dst ptr with
    | ok mOffset =>
      rw [hlive] at he
      cases he
    | error e' =>
      have hoffset := hkept e' hlive hassign
      refine ⟨hoffset, ?_⟩
      rw [hoffset]
      have halike := hmaps.get_alike pick openShmChunk hp'.maps (sameSegments_set hset) hself hkey
        (st.offset dst)
      exact halike.map_fst.symm
  · intro hok hin
    cases hlive : liveSet cfg live dst ptr with
    | error e =>
      rw [hlive] at hok
      cases hok
    | ok mOffset =>
      rw [hstored mOffset hlive]
      have hne : ptr ≠ 0 → mOffset ≠ kNull := by
        rintro hnull rfl
        exact hsentinel hnull hlive
      have henc := hmaps.encodes_of_liveSet hself hlive hne hin
      obtain ⟨q, hget, -⟩ := hp'.maps.get_of_encodes pick openShmChunk
        (hp'.anon.symm ▸ hlists) hself hkey henc
      exact ⟨q, hget⟩

end every

/-- A SHM segment, and a segment of an anonymous manager. -/
def mixedChunks : Process Bool :=
  let heap := Trie.firstFree [0x2000, 0x3000, 0x4000, 0x5000]
  (twoManagers.addSegment Trie.defaultConfig heap firstChunk.seg
    firstChunk.toSegmentObject).addSegment Trie.defaultConfig heap anonChunk.seg
      anonChunk.toSegmentObject

theorem raw_store_raises_on_misuse_across : ∃ (e : SetError) (st' : PtrState Bool),
    (Store.assign 0x20000010).run Trie.defaultConfig (fun _ => 0) (fun _ _ _ => none) 0x10000010
      ⟨mixedChunks, fun _ => 0x20⟩ = some (.error e, st') ∧ st'.offset = fun _ => 0x20 := by
  have hfirst : Pointers.CanAdd Trie.defaultConfig id ⟨[], []⟩ firstChunk := by decide
  have hanon : Pointers.CanAdd Trie.defaultConfig id ⟨[firstChunk], []⟩ anonChunk := by decide
  have hmaps : Maps Trie.defaultConfig [firstChunk, anonChunk] mixedChunks :=
    Maps.add (Maps.add (maps_nil rfl fun _ => rfl) hfirst (by decide +kernel)) hanon
      (by decide +kernel)
  have hlists : Contiguous mixedChunks.anon [firstChunk, anonChunk] := by
    constructor
    · decide
    · intro mgr hmgr
      obtain rfl : mgr = false := hmgr
      exact ⟨rfl, trivial⟩
  have hmisuse : Misuse Trie.defaultConfig [firstChunk, anonChunk] 0x10000010 0x20000010 :=
    ⟨by decide, firstChunk, by decide, by decide, rfl, by decide⟩
  have hdst : Canonical Trie.defaultConfig 0x10000010 := by decide
  have hpointer : (Store.assign 0x20000010).pointer Trie.defaultConfig (fun _ => 0)
      (fun _ _ _ => none) ⟨mixedChunks, fun _ => 0x20⟩ mixedChunks =
        some (0x20000010, mixedChunks) := rfl
  obtain ⟨r, st', hrun, hraises, hkept, -⟩ := raw_store_raises_on_misuse hpointer hmaps hlists
    hdst (by decide) (by decide)
  obtain ⟨e, rfl⟩ := hraises.mpr hmisuse
  exact ⟨e, st', hrun, (hkept ⟨e, rfl⟩ trivial).1⟩

end Memnon.OffsetPtr
