import Memnon.OffsetPtrStore
import Memnon.OffsetPtrShared
import Mathlib.Data.BitVec

/-!
# Pointer arithmetic

The in-place operators add bytes to `m_offset` and look nothing up. All three
encodings of an address are an offset from something that the object's place
fixes, so adding to the offset adds to the address, in a SHM segment as long as
the address stays in its segment. With elements of an even size the offset stays
even, and the null sentinel is odd.
-/

namespace Memnon.OffsetPtr

open Memnon.Lib
open Memnon.Trie (Config keyBound pageOf)

variable {M : Type}

/-! ## 1. The operators -/

/-- `++`, `--`, `+=` and `-=`; the postfix operators return a copy, which lies at
    `tmp`. -/
inductive InPlace where
  | preInc
  | preDec
  | postInc (tmp : Word)
  | postDec (tmp : Word)
  | addAssign (n : Word)
  | subAssign (n : Word)

/-- The effect in elements. -/
def InPlace.count : InPlace → Word
  | .preInc | .postInc _ => 1
  | .preDec | .postDec _ => -1
  | .addAssign n => n
  | .subAssign n => -n

/-- The bytes that `inc_offset` is called with; `k` is `sizeof(T)`. -/
def InPlace.bytes (k : Word) : InPlace → Word
  | .preInc | .postInc _ => k
  | .preDec | .postDec _ => -k
  | .addAssign n => n * k
  | .subAssign n => -n * k

/-- Not postfix. -/
def InPlace.IsPlain : InPlace → Prop
  | .postInc _ | .postDec _ => False
  | .preInc | .preDec | .addAssign _ | .subAssign _ => True

/-- The address of the returned copy is not that of the object. -/
def InPlace.Returns (self : Word) : InPlace → Prop
  | .postInc tmp | .postDec tmp => tmp ≠ self
  | .preInc | .preDec | .addAssign _ | .subAssign _ => True

/-- `inc_offset` of the object at `self`. -/
def PtrState.incOffset (self bytes : Word) (st : PtrState M) : PtrState M :=
  { st with offset := Function.update st.offset self (st.offset self + bytes) }

section operators

variable [DecidableEq M] (cfg : Config) (pick : Trie.Memory Unit → Word)
  (openShmChunk : M → Word → Word → Option Mapping)

/-- The copy constructor, from the object at `src`; `none` is an exception. -/
def PtrState.copyTo (dst src : Word) (st : PtrState M) : Option (PtrState M) :=
  st.store dst (OffsetPtr.copy cfg.platform (runtime cfg pick openShmChunk) dst src (st.offset src))

def InPlace.run (k self : Word) (st : PtrState M) : InPlace → Option (PtrState M)
  | .preInc => some (st.incOffset self k)
  | .preDec => some (st.incOffset self (-k))
  | .postInc tmp => do
      let st ← st.copyTo cfg pick openShmChunk tmp self
      return st.incOffset self k
  | .postDec tmp => do
      let st ← st.copyTo cfg pick openShmChunk tmp self
      return st.incOffset self (-k)
  | .addAssign n => some (st.incOffset self (n * k))
  | .subAssign n => some (st.incOffset self (-n * k))

def runInPlace (k self : Word) (ops : List InPlace) (st : PtrState M) : Option (PtrState M) :=
  ops.foldlM (InPlace.run cfg pick openShmChunk k self) st

/-- `p + n` of the object at `self`: `p` is passed by value, and returned. -/
def plus (k n self param result : Word) (st : PtrState M) : Option (PtrState M) := do
  let st ← st.copyTo cfg pick openShmChunk param self
  let st ← InPlace.run cfg pick openShmChunk k param st (.addAssign n)
  st.copyTo cfg pick openShmChunk result param

/-- `a - b` of two pointer objects, in elements. -/
def distance (k a b : Word) (st : PtrState M) : Run M Word := do
  let x ← get cfg.platform (runtime cfg pick openShmChunk) a (st.offset a)
  let y ← get cfg.platform (runtime cfg pick openShmChunk) b (st.offset b)
  return (x - y).sdiv k

end operators

/-! ## 2. Offsets -/

section offsets

variable [DecidableEq M] {cfg : Config} {pick : Trie.Memory Unit → Word}
  {openShmChunk : M → Word → Word → Option Mapping} {st st' : PtrState M} {op : InPlace}
  {ops : List InPlace} {k self dst src : Word}

theorem InPlace.bytes_eq (k : Word) (op : InPlace) : op.bytes k = op.count * k := by
  have hneg : -k = -1#64 * k := by rw [BitVec.neg_mul, BitVec.one_mul]
  cases op with
  | preInc => exact (BitVec.one_mul k).symm
  | preDec => exact hneg
  | postInc tmp => exact (BitVec.one_mul k).symm
  | postDec tmp => exact hneg
  | addAssign n => rfl
  | subAssign n => rfl

omit [DecidableEq M] in
@[simp] theorem PtrState.incOffset_self (self bytes : Word) (st : PtrState M) :
    (st.incOffset self bytes).offset self = st.offset self + bytes :=
  Function.update_self ..

omit [DecidableEq M] in
theorem PtrState.store_offset {call : Run M (Except SetError Word)} {other : Word}
    (h : st.store dst call = some st') (hne : other ≠ dst) :
    st'.offset other = st.offset other := by
  unfold store at h
  split at h
  · cases h
    exact Function.update_of_ne hne ..
  · cases h

/-- One operator adds its bytes to the stored offset. -/
theorem InPlace.run_offset (h : op.run cfg pick openShmChunk k self st = some st')
    (hop : op.Returns self) : st'.offset self = st.offset self + op.count * k := by
  rw [← op.bytes_eq k]
  cases op with
  | preInc =>
    cases h
    exact st.incOffset_self self k
  | preDec =>
    cases h
    exact st.incOffset_self self (-k)
  | addAssign n =>
    cases h
    exact st.incOffset_self self (n * k)
  | subAssign n =>
    cases h
    exact st.incOffset_self self (-n * k)
  | postInc tmp =>
    obtain ⟨st₁, hcopy, hinc⟩ := Option.bind_eq_some_iff.mp h
    cases hinc
    rw [PtrState.incOffset_self, PtrState.store_offset hcopy hop.symm]
    rfl
  | postDec tmp =>
    obtain ⟨st₁, hcopy, hinc⟩ := Option.bind_eq_some_iff.mp h
    cases hinc
    rw [PtrState.incOffset_self, PtrState.store_offset hcopy hop.symm]
    rfl

/-- Operators that are not postfix look nothing up. -/
theorem runInPlace_plain (hops : ∀ op ∈ ops, op.IsPlain) :
    ∃ st', runInPlace cfg pick openShmChunk k self ops st = some st' ∧
      st'.process = st.process := by
  induction ops generalizing st with
  | nil => exact ⟨st, rfl, rfl⟩
  | cons op ops ih =>
    obtain ⟨st₁, hop, hst₁⟩ : ∃ st₁, op.run cfg pick openShmChunk k self st = some st₁ ∧
        st₁.process = st.process := by
      have hplain := hops op List.mem_cons_self
      cases op with
      | postInc tmp => exact hplain.elim
      | postDec tmp => exact hplain.elim
      | preInc => exact ⟨_, rfl, rfl⟩
      | preDec => exact ⟨_, rfl, rfl⟩
      | addAssign n => exact ⟨_, rfl, rfl⟩
      | subAssign n => exact ⟨_, rfl, rfl⟩
    obtain ⟨st', hrest, hst'⟩ := ih fun op' hop' => hops op' (List.mem_cons_of_mem _ hop')
    refine ⟨st', ?_, hst'.trans hst₁⟩
    rw [runInPlace, List.foldlM_cons, hop]
    exact hrest

/-- A sequence of operators adds its net effect. -/
theorem runInPlace_offset (h : runInPlace cfg pick openShmChunk k self ops st = some st')
    (hops : ∀ op ∈ ops, op.Returns self) :
    st'.offset self = st.offset self + (ops.map InPlace.count).sum * k := by
  induction ops generalizing st with
  | nil =>
    cases h
    simp
  | cons op ops ih =>
    rw [runInPlace, List.foldlM_cons] at h
    obtain ⟨st₁, hop, hrest⟩ := Option.bind_eq_some_iff.mp h
    rw [ih hrest fun op' hop' => hops op' (List.mem_cons_of_mem _ hop'),
      op.run_offset hop (hops op List.mem_cons_self), List.map_cons, List.sum_cons,
      BitVec.add_assoc, BitVec.add_mul]

end offsets

/-! ## 3. Addresses -/

section addresses

variable [DecidableEq M] {cfg : Config} {pick : Trie.Memory Unit → Word}
  {openShmChunk : M → Word → Word → Option Mapping} {anon : M → Bool}
  {live live' : List (LiveSegment M)} {p p' : Process M} {self dst a b mOffset : Word}

theorem even_mul {n k : Word} (hk : k.toNat % 2 = 0) : (n * k).toNat % 2 = 0 := by
  rw [BitVec.toNat_mul, Nat.mod_mod_of_dvd _ (by decide), Nat.mul_mod, hk, Nat.mul_zero]

/-- An object in a SHM segment points to one segment with both addresses. -/
def SameSegment (cfg : Config) (live : List (LiveSegment M)) (self a b : Word) : Prop :=
  InShm cfg live self → ∃ s ∈ live, s.Contains a ∧ s.Contains b

/-- The address lies on no page of a segment. -/
def Outside (cfg : Config) (live : List (LiveSegment M)) (addr : Word) : Prop :=
  ∀ s ∈ live, ¬ s.Has cfg addr

instance (cfg : Config) (live : List (LiveSegment M)) (addr : Word) :
    Decidable (Outside cfg live addr) := inferInstanceAs (Decidable (∀ _ ∈ _, _))

/-- A layout with all segments of another one, and none new over the object. -/
structure Extends (cfg : Config) (live live' : List (LiveSegment M)) (addr : Word) : Prop where
  kept : live ⊆ live'
  outside : Outside cfg live addr → Outside cfg live' addr

omit [DecidableEq M] in
theorem Extends.refl (cfg : Config) (live : List (LiveSegment M)) (self : Word) :
    Extends cfg live live self := ⟨List.Subset.refl _, id⟩

omit [DecidableEq M] in
theorem Outside.segmentAt (h : Outside cfg live dst) : segmentAt cfg live dst = none := by
  apply List.find?_eq_none.mpr
  intro s hs hhas
  exact h s hs (of_decide_eq_true hhas)

omit [DecidableEq M] in
theorem Outside.sameSegment (h : Outside cfg live self) (a b : Word) :
    SameSegment cfg live self a b := by
  rintro ⟨s, hs, hhas, -⟩
  exact absurd hhas (h s hs)

/-- The object stays in its segment. -/
theorem Extends.segmentAt (h : Extends cfg live live' self) (hm : Maps cfg live' p) :
    segmentAt cfg live' self = segmentAt cfg live self := by
  cases hat : Memnon.OffsetPtr.segmentAt cfg live self with
  | none =>
    refine (h.outside fun s hs hhas => ?_).segmentAt
    exact List.find?_eq_none.mp hat s hs (decide_eq_true hhas)
  | some s =>
    have hhas : s.Has cfg self := by simpa using List.find?_some hat
    exact hm.segmentAt_eq (h.kept (List.mem_of_find?_eq_some hat)) hhas

theorem SameSegment.extend (h : SameSegment cfg live self a b)
    (hext : Extends cfg live live' self) (hm : Maps cfg live' p) :
    SameSegment cfg live' self a b := by
  rintro ⟨s, hs, hhas, hanon⟩
  have hat := hext.segmentAt hm
  rw [hm.segmentAt_eq hs hhas] at hat
  obtain ⟨s', hs', hin⟩ := h ⟨s, List.mem_of_find?_eq_some hat.symm, hhas, hanon⟩
  exact ⟨s', hext.kept hs', hin⟩

/-- The stored offset is looked up without discovery. -/
def Resolves (cfg : Config) (live : List (LiveSegment M)) (self mOffset : Word) : Prop :=
  ∀ s, segmentAt cfg live self = some s → s.isAnon = false →
    (segmentsOf live s.manager).find? (·.coversFileOffset (s.fileOffsetOf self + mOffset)) ≠ none

/-- What resolves to an address encodes it. -/
theorem encodes_of_liveGet (hm : Maps cfg live p) (hself : cfg.platform.ptrToVaddr self = self)
    (hne : mOffset ≠ kNull) (hget : liveGet cfg live self mOffset = a) (ha : a ≠ 0) :
    Encodes cfg live self a mOffset := by
  rw [liveGet_eq hself hne] at hget
  rw [Encodes, if_neg ha]
  refine ⟨hne, ?_⟩
  cases hat : segmentAt cfg live self with
  | none =>
    simp only [hat] at hget ⊢
    rw [← hget, add_sub_left]
  | some s =>
    simp only [hat] at hget ⊢
    cases hanon : s.isAnon with
    | true =>
      simp only [hanon, if_true] at hget ⊢
      rw [← hget, add_sub_left]
    | false =>
      simp only [hanon, Bool.false_eq_true, if_false] at hget ⊢
      cases hfind : (segmentsOf live s.manager).find?
          (·.coversFileOffset (s.fileOffsetOf self + mOffset)) with
      | none =>
        simp only [hfind] at hget
        exact absurd hget.symm ha
      | some s' =>
        simp only [hfind] at hget
        have hs' := List.mem_of_find?_eq_some hfind
        have hcovers : s'.coversFileOffset (s.fileOffsetOf self + mOffset) = true := by
          simpa using List.find?_some hfind
        refine ⟨s', hs', ?_, ?_⟩
        · exact hget ▸ hm.contains_addrOf (mem_segmentsOf.mp hs').1 hcovers
        · rw [← hget, fileOffsetOf_addrOf, add_sub_left]

/-- What `get()` returns is encoded in the layout that it leaves, discovered
    segments included. -/
theorem Maps.encodes_of_get (h : Maps cfg live p) (hself : cfg.platform.ptrToVaddr self = self)
    (hkey : (pageOf cfg self).toNat < keyBound cfg)
    (hget : OffsetPtr.get cfg.platform (runtime cfg pick openShmChunk) self mOffset p =
      some (a, p')) (h' : Maps cfg live' p') (hext : Extends cfg live live' self) (ha : a ≠ 0) :
    Encodes cfg live' self a mOffset := by
  have hat' := hext.segmentAt h'
  by_cases hnull : mOffset = kNull
  · rw [OffsetPtr.get, if_pos hnull] at hget
    cases hget
    exact absurd rfl ha
  · by_cases hfound : Resolves cfg live self mOffset
    · obtain ⟨q, hlive, -⟩ := h.get_found pick openShmChunk hself hkey fun _ => hfound
      rw [hlive] at hget
      obtain ⟨rfl, rfl⟩ := Prod.mk.inj (Option.some.inj hget)
      have henc : Encodes cfg live self (liveGet cfg live self mOffset) mOffset :=
        encodes_of_liveGet h hself hnull rfl ha
      exact henc.of_subset hat' hext.kept
    · -- what is found after discovery only is in no list of the first layout
      simp only [Resolves, ne_eq, not_forall, not_not] at hfound
      obtain ⟨s, hat, hanon, hnone⟩ := hfound
      obtain ⟨p₁, hfind, hp₁⟩ := h.find pick hkey
      have hsearch := hp₁.maps.toLists.findByFileOffset s.manager (s.fileOffsetOf self + mOffset)
      rw [hnone] at hsearch
      rw [OffsetPtr.get, if_neg hnull, hself] at hget
      simp only [run_bind (x := findSegment cfg pick self) hfind, runtime, liveRuntime, hat,
        Option.map_some, hanon, Bool.false_eq_true, if_false] at hget
      replace hget := (run_bind hsearch).symm.trans hget
      obtain ⟨found, p₂, -, hrest⟩ := run_bind_eq_some hget
      cases found with
      | false =>
        cases hrest
        exact absurd rfl ha
      | true =>
        obtain ⟨target, p₃, hagain, hrest⟩ := run_bind_eq_some hrest
        cases target with
        | none =>
          cases hrest
          exact absurd rfl ha
        | some s' =>
          cases hrest
          obtain rfl : p₂ = p' := congrArg Prod.snd (Option.some.inj hagain)
          have hlists := h'.toLists.findByFileOffset s.manager (s.fileOffsetOf self + mOffset)
          obtain ⟨r, hr, hrs⟩ := Option.map_eq_some_iff.mp
            (congrArg Prod.fst (Option.some.inj (hlists.symm.trans hagain)))
          refine encodes_of_liveGet h' hself hnull ?_ ha
          simp only [liveGet_eq hself hnull, hat', hat, hanon, Bool.false_eq_true, if_false, hr]
          rw [← hrs]

/-- With even addresses and page-aligned segments an encoding is even. -/
theorem Encodes.even (h : Encodes cfg live self a mOffset) (hw : WellMapped cfg anon live)
    (hpage : 0 < cfg.platform.pageShift) (hself : self.toNat % 2 = 0) (ha : a.toNat % 2 = 0)
    (hnull : a ≠ 0) : mOffset.toNat % 2 = 0 := by
  rw [Encodes, if_neg hnull] at h
  obtain ⟨-, henc⟩ := h
  cases hat : segmentAt cfg live self with
  | none =>
    simp only [hat] at henc
    exact henc ▸ even_sub ha hself
  | some s =>
    have hs : s ∈ live := List.mem_of_find?_eq_some hat
    simp only [hat] at henc
    cases hanon : s.isAnon with
    | true =>
      simp only [hanon, if_true] at henc
      exact henc ▸ even_sub ha ((hw.base s hs).even hpage)
    | false =>
      simp only [hanon, Bool.false_eq_true, if_false] at henc
      obtain ⟨s', hs', -, rfl⟩ := henc
      obtain ⟨hlive, hmgr⟩ := mem_segmentsOf.mp hs'
      have hanon' : s'.isAnon = false := by rw [hw.kind s' hlive, hmgr, ← hw.kind s hs, hanon]
      apply even_sub
      · exact even_fileOffsetOf hw hpage hlive hanon' ha
      · exact even_fileOffsetOf hw hpage hs hanon hself

omit [DecidableEq M] in
theorem fileOffsetOf_add (s : LiveSegment M) (a b : Word) :
    s.fileOffsetOf (a + b) = s.fileOffsetOf a + b := by
  simp only [SubSegment.fileOffsetOf, BitVec.sub_eq_add_neg, BitVec.add_assoc]
  rw [BitVec.add_comm b]

theorem add_sub_add (x y b : Word) : x + (y - x + b) = y + b := by
  rw [← BitVec.add_assoc, add_sub_self]

/-- Adding to the offset adds to the address. -/
theorem Maps.get_add (pick : Trie.Memory Unit → Word)
    (openShmChunk : M → Word → Word → Option Mapping) (hm : Maps cfg live p)
    (hc : Contiguous anon live) (hself : cfg.platform.ptrToVaddr self = self)
    (hkey : (pageOf cfg self).toNat < keyBound cfg) (h : Encodes cfg live self a mOffset)
    (ha : a ≠ 0) (hne : mOffset + b ≠ kNull) (hsame : SameSegment cfg live self a (a + b)) :
    ∃ p', OffsetPtr.get cfg.platform (runtime cfg pick openShmChunk) self (mOffset + b) p =
      some (a + b, p') ∧ Searched cfg live p p' := by
  rw [Encodes, if_neg ha] at h
  obtain ⟨-, henc⟩ := h
  -- the search from a SHM segment ends in the segment of both addresses
  have hshm : ∀ s, segmentAt cfg live self = some s → s.isAnon = false → ∃ s',
      (segmentsOf live s.manager).find?
        (·.coversFileOffset (s.fileOffsetOf self + (mOffset + b))) = some s' ∧
      s.fileOffsetOf self + (mOffset + b) = s'.fileOffsetOf (a + b) := by
    intro s hat hanon
    have hs : s ∈ live := List.mem_of_find?_eq_some hat
    have hhas : s.Has cfg self := by simpa using List.find?_some hat
    simp only [hat, hanon, Bool.false_eq_true, if_false] at henc
    obtain ⟨s', hs', hin, rfl⟩ := henc
    obtain ⟨r, hr, hra, hrb⟩ := hsame ⟨s, hs, hhas, hanon⟩
    obtain rfl : s' = r := hm.eq_of_has (mem_segmentsOf.mp hs').1 hr
      (hm.has_of_contains (mem_segmentsOf.mp hs').1 hin) (hm.has_of_contains hr hra)
    have hlaid := hc.laid s.manager (by rw [← hc.kind s hs, hanon])
    refine ⟨s', ?_, ?_⟩
    · rw [add_sub_add, ← fileOffsetOf_add]
      exact find_fileOffset hlaid (hm.span_lt hlaid) hs'
        (covers_fileOffsetOf hlaid (hm.span_lt hlaid) hs' hrb)
    · rw [add_sub_add, ← fileOffsetOf_add]
  have hfound : mOffset + b ≠ kNull → ∀ s, segmentAt cfg live self = some s → s.isAnon = false →
      (segmentsOf live s.manager).find?
        (·.coversFileOffset (s.fileOffsetOf self + (mOffset + b))) ≠ none := by
    intro _ s hat hanon hnone
    obtain ⟨s', hfind, -⟩ := hshm s hat hanon
    rw [hnone] at hfind
    cases hfind
  obtain ⟨p', hget, hp'⟩ := hm.get_found pick openShmChunk hself hkey hfound
  refine ⟨p', hget.trans (congrArg (fun addr => some (addr, p')) ?_), hp'⟩
  rw [liveGet_eq hself hne]
  cases hat : segmentAt cfg live self with
  | none =>
    simp only [hat] at henc ⊢
    rw [henc, add_sub_add]
  | some s =>
    simp only [hat] at henc ⊢
    cases hanon : s.isAnon with
    | true =>
      simp only [hanon, if_true] at henc ⊢
      rw [henc, add_sub_add]
    | false =>
      obtain ⟨s', hfind, hoffset⟩ := hshm s hat hanon
      simp only [Bool.false_eq_true, if_false, hfind]
      rw [hoffset]
      show s'.baseVaddr + (s'.fileOffset + (a + b - s'.baseVaddr) - s'.fileOffset) = a + b
      rw [add_sub_left, add_sub_self]

end addresses

/-! ## 4. Every sequence -/

section sequences

variable [DecidableEq M] {cfg : Config} {pick : Trie.Memory Unit → Word}
  {openShmChunk : M → Word → Word → Option Mapping} {anon : M → Bool}
  {live found : List (LiveSegment M)} {p : Process M} {st : PtrState M} {ops : List InPlace}
  {self dst a n k param result : Word}

/-- The copy constructor on the stack, once the original is looked up. -/
theorem copyTo_run (pick : Trie.Memory Unit → Word)
    (openShmChunk : M → Word → Word → Option Mapping) {src : Word}
    (hget : OffsetPtr.get cfg.platform (runtime cfg pick openShmChunk) src
      (st.offset src) st.process = some (a, p)) (hp : Maps cfg live p)
    (hdst : Address cfg dst) (hout : Outside cfg live dst) :
    ∃ st', st.copyTo cfg pick openShmChunk dst src = some st' ∧
      Searched cfg live p st'.process ∧
      st'.offset = Function.update st.offset dst (if a = 0 then kNull else a - dst) := by
  obtain ⟨-, hself, hkey⟩ := hdst
  have hptr : ∀ s ∈ live, s.Has cfg dst → s.isAnon = false →
      (pageOf cfg a).toNat < keyBound cfg := fun s hs hhas => absurd hhas (hout s hs)
  obtain ⟨p', hset, hp'⟩ := hp.set pick openShmChunk hself hkey hptr
  have hlive : liveSet cfg live dst a = .ok (if a = 0 then kNull else a - dst) := by
    split
    · rename_i hnull
      rw [hnull, liveSet_null]
    · rename_i hnull
      rw [liveSet_eq hself hnull, hout.segmentAt]
  rw [hlive] at hset
  refine ⟨⟨p', Function.update st.offset dst (if a = 0 then kNull else a - dst)⟩, ?_, hp', rfl⟩
  rw [PtrState.copyTo, PtrState.store, OffsetPtr.copy, (run_bind hget).trans hset]

/-- The copy encodes the address of the original. -/
theorem copyTo_outside (pick : Trie.Memory Unit → Word)
    (openShmChunk : M → Word → Word → Option Mapping) {src : Word}
    (hget : OffsetPtr.get cfg.platform (runtime cfg pick openShmChunk) src
      (st.offset src) st.process = some (a, p)) (hp : Maps cfg live p)
    (ha : a.toNat % 2 = 0) (hdst : Address cfg dst) (hout : Outside cfg live dst) :
    ∃ st', st.copyTo cfg pick openShmChunk dst src = some st' ∧
      Maps cfg live st'.process ∧ Encodes cfg live dst a (st'.offset dst) ∧
      ∀ other, other ≠ dst → st'.offset other = st.offset other := by
  obtain ⟨st', hrun, hst', hoffset⟩ := copyTo_run pick openShmChunk hget hp hdst hout
  refine ⟨st', hrun, hst'.maps, ?_, ?_⟩
  · rw [hoffset, Function.update_self, Encodes]
    split
    · rfl
    · rw [hout.segmentAt]
      exact ⟨ne_kNull (even_sub ha hdst.1), rfl⟩
  · intro other hne
    rw [hoffset, Function.update_of_ne hne]

/-- The copy that a postfix operator returns lies on the stack, and what the object
    stores by then is looked up without discovery. -/
def InPlace.CanCopy (cfg : Config) (live : List (LiveSegment M)) (self mOffset : Word) :
    InPlace → Prop
  | .postInc tmp | .postDec tmp =>
      Address cfg tmp ∧ Outside cfg live tmp ∧ Resolves cfg live self mOffset
  | .preInc | .preDec | .addAssign _ | .subAssign _ => True

/-- All postfix operators of a sequence can copy. -/
def CanCopyAll (cfg : Config) (live : List (LiveSegment M)) (k self : Word) :
    Word → List InPlace → Prop
  | _, [] => True
  | mOffset, op :: ops => op.CanCopy cfg live self mOffset ∧
      CanCopyAll cfg live k self (mOffset + op.count * k) ops

theorem InPlace.run_completes {op : InPlace} (pick : Trie.Memory Unit → Word)
    (openShmChunk : M → Word → Word → Option Mapping) (hm : Maps cfg live st.process)
    (hself : Address cfg self) (hop : op.CanCopy cfg live self (st.offset self)) :
    ∃ st', op.run cfg pick openShmChunk k self st = some st' ∧
      Searched cfg live st.process st'.process := by
  have hcopy : ∀ tmp, Address cfg tmp → Outside cfg live tmp →
      Resolves cfg live self (st.offset self) →
      ∃ st', st.copyTo cfg pick openShmChunk tmp self = some st' ∧
        Searched cfg live st.process st'.process := by
    intro tmp htmp hout hresolves
    obtain ⟨p, hget, hp⟩ := hm.get_found pick openShmChunk hself.2.1 hself.2.2 fun _ => hresolves
    obtain ⟨st', hrun, hst', -⟩ := copyTo_run pick openShmChunk hget hp.maps htmp hout
    exact ⟨st', hrun, hp.trans hst'⟩
  cases op with
  | preInc => exact ⟨_, rfl, .refl hm⟩
  | preDec => exact ⟨_, rfl, .refl hm⟩
  | addAssign n => exact ⟨_, rfl, .refl hm⟩
  | subAssign n => exact ⟨_, rfl, .refl hm⟩
  | postInc tmp =>
    obtain ⟨st', hrun, hst'⟩ := hcopy tmp hop.1 hop.2.1 hop.2.2
    exact ⟨st'.incOffset self k, Option.bind_eq_some_iff.mpr ⟨st', hrun, rfl⟩, hst'⟩
  | postDec tmp =>
    obtain ⟨st', hrun, hst'⟩ := hcopy tmp hop.1 hop.2.1 hop.2.2
    exact ⟨st'.incOffset self (-k), Option.bind_eq_some_iff.mpr ⟨st', hrun, rfl⟩, hst'⟩

/-- A sequence whose postfix operators can copy completes, and discovers nothing. -/
theorem runInPlace_completes (pick : Trie.Memory Unit → Word)
    (openShmChunk : M → Word → Word → Option Mapping) (hm : Maps cfg live st.process)
    (hself : Address cfg self) (hops : ∀ op ∈ ops, op.Returns self)
    (hcopy : CanCopyAll cfg live k self (st.offset self) ops) :
    ∃ st', runInPlace cfg pick openShmChunk k self ops st = some st' ∧
      Searched cfg live st.process st'.process := by
  induction ops generalizing st with
  | nil => exact ⟨st, rfl, .refl hm⟩
  | cons op ops ih =>
    obtain ⟨st₁, hop, hst₁⟩ := InPlace.run_completes (k := k) pick openShmChunk hm hself hcopy.1
    have hoffset := op.run_offset hop (hops op List.mem_cons_self)
    obtain ⟨st', hrest, hst'⟩ := ih hst₁.maps
      (fun op' hop' => hops op' (List.mem_cons_of_mem _ hop')) (hoffset ▸ hcopy.2)
    refine ⟨st', ?_, hst₁.trans hst'⟩
    rw [runInPlace, List.foldlM_cons, hop]
    exact hrest

/-- `p + n` has the address `a + n * k`. -/
theorem plus_outside (pick : Trie.Memory Unit → Word)
    (openShmChunk : M → Word → Word → Option Mapping) (hc : Contiguous anon live)
    (hk : k.toNat % 2 = 0)
    (hget : OffsetPtr.get cfg.platform (runtime cfg pick openShmChunk) self (st.offset self)
      st.process = some (a, p)) (hp : Maps cfg live p)
    (ha : a.toNat % 2 = 0) (hnull : a ≠ 0) (hparam : Address cfg param)
    (hresult : Address cfg result) (hout : Outside cfg live param)
    (hout' : Outside cfg live result) (hself : param ≠ self) (hself' : result ≠ self) :
    ∃ st', OffsetPtr.plus cfg pick openShmChunk k n self param result st = some st' ∧
      Maps cfg live st'.process ∧ Encodes cfg live result (a + n * k) (st'.offset result) ∧
      st'.offset self = st.offset self := by
  have hbytes : (n * k).toNat % 2 = 0 := even_mul hk
  obtain ⟨st₁, hcopy, hst₁, henc, hkept⟩ := copyTo_outside pick openShmChunk hget hp ha hparam hout
  have hoffset : (st₁.incOffset param (n * k)).offset param = st₁.offset param + n * k :=
    st₁.incOffset_self param _
  have hne : st₁.offset param + n * k ≠ kNull := by
    rw [Encodes, if_neg hnull, hout.segmentAt] at henc
    rw [henc.2]
    exact ne_kNull (even_add (even_sub ha hparam.1) hbytes)
  obtain ⟨p₂, hget₂, hp₂⟩ := hst₁.get_add pick openShmChunk hc hparam.2.1 hparam.2.2 henc
    hnull hne (hout.sameSegment _ _)
  rw [← hoffset] at hget₂
  obtain ⟨st₃, hcopy₃, hst₃, henc₃, hkept₃⟩ := copyTo_outside pick openShmChunk hget₂ hp₂.maps
    (even_add ha hbytes) hresult hout'
  refine ⟨st₃, ?_, hst₃, henc₃, ?_⟩
  · rw [OffsetPtr.plus, hcopy]
    exact hcopy₃
  · rw [hkept₃ self hself'.symm]
    show Function.update st₁.offset param _ self = _
    rw [Function.update_of_ne hself.symm, hkept self hself.symm]

/-- The difference of two addresses `n` elements apart. -/
theorem sdiv_mul_cancel (hk : 0 < k.toInt) (hlow : -2 ^ 63 ≤ n.toInt * k.toInt)
    (hhigh : n.toInt * k.toInt < 2 ^ 63) : (n * k).sdiv k = n := by
  have hmul : (n * k).toInt = n.toInt * k.toInt := by
    rw [BitVec.toInt_mul]
    exact Int.bmod_eq_of_le (by omega) (by omega)
  have hn : -2 ^ 63 ≤ n.toInt ∧ n.toInt < 2 ^ 63 := ⟨BitVec.le_toInt n, BitVec.toInt_lt⟩
  apply BitVec.eq_of_toInt_eq
  rw [BitVec.toInt_sdiv, hmul, Int.mul_tdiv_cancel _ (Int.ne_of_gt hk)]
  exact Int.bmod_eq_of_le (by omega) (by omega)

/-- A pointer object resolves to `a`, discovery included. Every sequence of in-place
    operators keeps its offset off the sentinel; one with net effect `n` completes if
    its postfix operators can copy, and leaves `a + n * k` in every layout that still
    has what `get()` has found. So does `p + n`, and `(p + n) - p = n`. -/
theorem pointer_arithmetic (hpage : 0 < cfg.platform.pageShift) (hk : 0 < k.toInt)
    (heven : k.toNat % 2 = 0) (hlow : -2 ^ 63 ≤ n.toInt * k.toInt)
    (hhigh : n.toInt * k.toInt < 2 ^ 63) (hmaps : Maps cfg live st.process)
    (hself : Address cfg self)
    (hget : get cfg.platform (runtime cfg pick openShmChunk) self (st.offset self) st.process =
      some (a, p)) (hlayout : Maps cfg found p) (hmapped : WellMapped cfg anon found)
    (hfound : Extends cfg live found self) (hnull : a ≠ 0) (ha : a.toNat % 2 = 0)
    (hsame : SameSegment cfg found self a (a + n * k)) :
    (∀ ops : List InPlace, (∀ op ∈ ops, op.Returns self) →
      ((∀ op ∈ ops, op.IsPlain) → ∃ st', runInPlace cfg pick openShmChunk k self ops st = some st' ∧
        st'.process = st.process) ∧
      (CanCopyAll cfg live k self (st.offset self) ops →
        ∃ st', runInPlace cfg pick openShmChunk k self ops st = some st' ∧
          Maps cfg live st'.process) ∧
      ∀ st', runInPlace cfg pick openShmChunk k self ops st = some st' →
        st'.offset self ≠ kNull ∧
        ((ops.map InPlace.count).sum = n → ∀ live', Maps cfg live' st'.process →
          WellMapped cfg anon live' → Extends cfg found live' self →
          ∃ p', get cfg.platform (runtime cfg pick openShmChunk) self (st'.offset self)
            st'.process = some (a + n * k, p'))) ∧
    (∀ param result : Word, Address cfg param → Address cfg result → Outside cfg found param →
      Outside cfg found result → param ≠ self → result ≠ self →
      ∃ st', plus cfg pick openShmChunk k n self param result st = some st' ∧
        (∃ p', get cfg.platform (runtime cfg pick openShmChunk) result (st'.offset result)
          st'.process = some (a + n * k, p')) ∧
        ∃ p', distance cfg pick openShmChunk k result self st' st'.process = some (n, p')) := by
  obtain ⟨heven', hcanonical, hkey⟩ := hself
  have henc := hmaps.encodes_of_get hcanonical hkey hget hlayout hfound hnull
  have hoffset := henc.even hmapped hpage heven' ha hnull
  have hbytes : ∀ m : Word, (m * k).toNat % 2 = 0 := fun _ => even_mul heven
  constructor
  · intro ops hops
    refine ⟨runInPlace_plain, fun hcopy => ?_, fun st' hrun => ?_⟩
    · obtain ⟨st', hrun, hst'⟩ := runInPlace_completes pick openShmChunk hmaps
        ⟨heven', hcanonical, hkey⟩ hops hcopy
      exact ⟨st', hrun, hst'.maps⟩
    · have hstored := runInPlace_offset hrun hops
      constructor
      · rw [hstored]
        exact ne_kNull (even_add hoffset (hbytes _))
      · rintro rfl live' hmaps' hmapped' hext
        rw [hstored]
        obtain ⟨p', hget', -⟩ := hmaps'.get_add pick openShmChunk hmapped'.contiguous hcanonical
          hkey (henc.of_subset (hext.segmentAt hmaps') hext.kept) hnull
          (ne_kNull (even_add hoffset (hbytes _))) (hsame.extend hext hmaps')
        exact ⟨p', hget'⟩
  · intro param result hparam hresult hout hout' hother hother'
    obtain ⟨st', hplus, hmaps', henc', hkept⟩ := plus_outside pick openShmChunk
      hmapped.contiguous heven hget hlayout ha hnull hparam hresult hout hout' hother hother'
    obtain ⟨p₂, hget₂, hp₂⟩ := hmaps'.get_of_encodes pick openShmChunk hmapped.contiguous
      hresult.2.1 hresult.2.2 henc'
    obtain ⟨p₃, hget₃, -⟩ := hp₂.maps.get_of_encodes pick openShmChunk hmapped.contiguous
      hcanonical hkey henc
    refine ⟨st', hplus, ⟨p₂, hget₂⟩, p₃, ?_⟩
    rw [distance, hkept]
    refine (run_bind hget₂).trans ((run_bind hget₃).trans ?_)
    rw [add_sub_left, sdiv_mul_cancel hk hlow hhigh]
    rfl

end sequences

/-- A pointer object in a SHM segment, to `0x10000100` in the same one. -/
def inSegment : PtrState Bool := ⟨mixedChunks, fun _ => 0xf0⟩

/-- Prefix and postfix steps; the copies lie outside the segments. -/
def stepsAround : List InPlace :=
  [.preInc, .postInc 0x70000010, .addAssign 2, .postDec 0x70000020, .subAssign 1]

theorem pointer_arithmetic_shm : ∃ (st' : PtrState Bool) (p' : Process Bool),
    runInPlace Trie.defaultConfig (fun _ => 0) (fun _ _ _ => none) 8 0x10000010
      stepsAround inSegment = some st' ∧
    get fourKiBPages (runtime Trie.defaultConfig (fun _ => 0) fun _ _ _ => none) 0x10000010
      (st'.offset 0x10000010) st'.process = some (0x10000110, p') := by
  let live := [firstChunk, anonChunk]
  have hfirst : Pointers.CanAdd Trie.defaultConfig id ⟨[], []⟩ firstChunk := by decide
  have hanon : Pointers.CanAdd Trie.defaultConfig id ⟨[firstChunk], []⟩ anonChunk := by decide
  have hmaps : Maps Trie.defaultConfig live inSegment.process :=
    Maps.add (Maps.add (maps_nil rfl fun _ => rfl) hfirst (by decide +kernel)) hanon
      (by decide +kernel)
  have hmapped : WellMapped Trie.defaultConfig id live := (wellMapped_nil.add hfirst).add hanon
  have hself : Address Trie.defaultConfig 0x10000010 := by decide
  have henc : Encodes Trie.defaultConfig live 0x10000010 0x10000100
      (inSegment.offset 0x10000010) := ⟨by decide, firstChunk, by decide, by decide, by decide⟩
  obtain ⟨p, hget, hp⟩ := hmaps.get_of_encodes (fun _ => 0) (fun _ _ _ => none) hmapped.contiguous
    hself.2.1 hself.2.2 henc
  have hsame : SameSegment Trie.defaultConfig live 0x10000010 0x10000100
      (0x10000100 + 2 * 8) := fun _ => ⟨firstChunk, by decide, by decide, by decide⟩
  have harith := pointer_arithmetic (by decide) (by decide) (by decide) (by decide) (by decide)
    hmaps hself hget hp.maps hmapped (.refl _ live _) (by decide) (by decide) hsame
  obtain ⟨-, hcompletes, hall⟩ := harith.1 stepsAround (by simp [stepsAround, InPlace.Returns])
  have hat : segmentAt Trie.defaultConfig live 0x10000010 = some firstChunk := by decide
  have hresolves : ∀ mOffset, ((segmentsOf live firstChunk.manager).find?
      (·.coversFileOffset (firstChunk.fileOffsetOf 0x10000010 + mOffset))).isSome = true →
      Resolves Trie.defaultConfig live 0x10000010 mOffset := by
    intro mOffset hfound s hs _
    obtain rfl : firstChunk = s := Option.some.inj (hat.symm.trans hs)
    exact Option.isSome_iff_ne_none.mp hfound
  obtain ⟨st', hrun, hlayout⟩ := hcompletes
    ⟨trivial, ⟨by decide, by decide, hresolves _ (by decide)⟩, trivial,
      ⟨by decide, by decide, hresolves _ (by decide)⟩, trivial, trivial⟩
  obtain ⟨p', hget'⟩ := (hall st' hrun).2 (by decide) live hlayout hmapped (.refl _ live _)
  have haddr : (0x10000100 + 2 * 8 : Word) = 0x10000110 := by decide
  rw [haddr] at hget'
  exact ⟨st', p', hrun, hget'⟩

end Memnon.OffsetPtr
