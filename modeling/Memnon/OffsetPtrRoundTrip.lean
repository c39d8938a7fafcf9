import Memnon.OffsetPtrProcess

/-!
# Pointers keep their targets

To its user a process holds raw pointers and live segments. The pointer objects
store offsets instead, encoded by where each object lies. In every run of
assignments, copies and growth the stored offsets stand for the raw pointers:
none of them is the null sentinel by accident, and `get` returns the address that
was set or copied.
-/

namespace Memnon.OffsetPtr

open Memnon.Lib
open Memnon.Trie (Config Represents keyBound pageOf)

variable {M : Type}

/-! ## 1. What a user of raw pointers sees -/

def PageAligned (cfg : Config) (addr : Word) : Prop :=
  addr.toNat % 2 ^ cfg.platform.pageShift = 0

instance (cfg : Config) (addr : Word) : Decidable (PageAligned cfg addr) :=
  inferInstanceAs (Decidable (_ = _))

/-- Even, without a tag, and in the address space of the trie. -/
def Address (cfg : Config) (addr : Word) : Prop :=
  addr.toNat % 2 = 0 ∧ cfg.platform.ptrToVaddr addr = addr ∧ (pageOf cfg addr).toNat < keyBound cfg

instance (cfg : Config) (addr : Word) : Decidable (Address cfg addr) :=
  inferInstanceAs (Decidable (_ ∧ _ ∧ _))

section user

variable [DecidableEq M] (cfg : Config)

/-- Bases are page-aligned, and the segments of a SHM manager are page-aligned
    and contiguous in its file. -/
structure WellMapped (anon : M → Bool) (live : List (LiveSegment M)) : Prop where
  base : ∀ s ∈ live, PageAligned cfg s.baseVaddr
  kind : ∀ s ∈ live, s.isAnon = anon s.manager
  offset : ∀ s ∈ live, s.isAnon = false → PageAligned cfg s.fileOffset
  laid : ∀ mgr, anon mgr = false → LaidOut 0 (extents (fileRangesOf live mgr))
  size : ∀ mgr, anon mgr = false → span (extents (fileRangesOf live mgr)) < 2 ^ 63

/-- The live segments, and the pointer objects with the addresses they stand
    for, the newest first. -/
structure Pointers (M : Type) where
  live : List (LiveSegment M)
  targets : List (Word × Word)
deriving DecidableEq

/-- The segment may be mapped: its object, pages and file range are its own, and
    no pointer object lies on its pages. -/
def Pointers.CanAdd (anon : M → Bool) (u : Pointers M) (s : LiveSegment M) : Prop :=
  Trie.Segment.New cfg (u.live.map LiveSegment.range) s.range ∧
    cfg.platform.ptrToVaddr s.baseVaddr = s.baseVaddr ∧ PageAligned cfg s.baseVaddr ∧
    s.isAnon = anon s.manager ∧
    (s.isAnon = false → PageAligned cfg s.fileOffset ∧
      s.fileOffset.toNat = span (extents (fileRangesOf u.live s.manager)) ∧
      s.fileOffset.toNat + s.size.toNat < 2 ^ 63) ∧
    ∀ q ∈ u.targets, ¬ s.Has cfg q.1

instance (anon : M → Bool) (u : Pointers M) (s : LiveSegment M) :
    Decidable (u.CanAdd cfg anon s) :=
  haveI : Decidable (∀ q ∈ u.targets, ¬ s.Has cfg q.1) := List.decidableBAll _ u.targets
  inferInstanceAs (Decidable (_ ∧ _ ∧ _ ∧ _ ∧ _ ∧ _))

/-- The object at `self` may point to `ptr`: from a SHM segment, only into
    segments of the same manager. -/
def MayHold (live : List (LiveSegment M)) (self ptr : Word) : Prop :=
  Address cfg self ∧ Address cfg ptr ∧
    (ptr ≠ 0 → ∀ s ∈ live, s.Has cfg self → s.isAnon = false →
      ∃ s' ∈ live, s'.manager = s.manager ∧ s'.Contains ptr)

instance (live : List (LiveSegment M)) (self ptr : Word) : Decidable (MayHold cfg live self ptr) :=
  inferInstanceAs (Decidable (_ ∧ _ ∧ _))

inductive PtrOp (M : Type) where
  /-- growth maps one more segment -/
  | add (s : LiveSegment M)
  /-- construction or assignment from a raw pointer -/
  | assign (dst ptr : Word)
  /-- copy construction or assignment -/
  | copy (dst src : Word)

/-- The operations on raw pointers; one that may not be made has no result. -/
def Pointers.after (anon : M → Bool) (u : Pointers M) : PtrOp M → Option (Pointers M)
  | .add s => if u.CanAdd cfg anon s then some { u with live := u.live ++ [s] } else none
  | .assign dst ptr =>
      if MayHold cfg u.live dst ptr then some { u with targets := (dst, ptr) :: u.targets }
      else none
  | .copy dst src =>
      match u.targets.lookup src with
      | some ptr =>
          if MayHold cfg u.live dst ptr then some { u with targets := (dst, ptr) :: u.targets }
          else none
      | none => none

/-! ## 2. The process and its pointer objects -/

/-- The process, and the `m_offset` of the pointer object at each address. -/
structure PtrState (M : Type) where
  process : Process M
  offset : Word → Word

/-- The new `m_offset` of the object at `dst`; `none` is an exception. -/
def PtrState.store (dst : Word) (call : Run M (Except SetError Word)) (st : PtrState M) :
    Option (PtrState M) :=
  match call st.process with
  | some (.ok mOffset, p) => some ⟨p, Function.update st.offset dst mOffset⟩
  | _ => none

variable (pick : Trie.Memory Unit → Word) (openShmChunk : M → Word → Word → Option Mapping)

def PtrOp.run (st : PtrState M) : PtrOp M → Option (PtrState M)
  | .add s => some { st with process := st.process.addSegment cfg pick s.seg s.toSegmentObject }
  | .assign dst ptr =>
      st.store dst (set cfg.platform (runtime cfg pick openShmChunk) dst ptr)
  | .copy dst src =>
      st.store dst
        (OffsetPtr.copy cfg.platform (runtime cfg pick openShmChunk) dst src (st.offset src))

def runPtrOps (ops : List (PtrOp M)) (st : PtrState M) : Option (PtrState M) :=
  ops.foldlM (PtrOp.run cfg pick openShmChunk) st

end user

/-! ## 3. Encodings -/

section encodings

variable [DecidableEq M] {cfg : Config} {anon : M → Bool} {live : List (LiveSegment M)}
  {s s' : LiveSegment M} {self ptr a b mOffset : Word} {mgr : M} {p : Process M}

/-- The offset stands for `ptr` in the object at `self`. -/
def Encodes (cfg : Config) (live : List (LiveSegment M)) (self ptr mOffset : Word) : Prop :=
  if ptr = 0 then mOffset = kNull
  else mOffset ≠ kNull ∧
    match segmentAt cfg live self with
    | none => mOffset = ptr - self
    | some s =>
        if s.isAnon then mOffset = ptr - s.baseVaddr
        else ∃ s' ∈ segmentsOf live s.manager, s'.Contains ptr ∧
          mOffset = s'.fileOffsetOf ptr - s.fileOffsetOf self

theorem WellMapped.contiguous (h : WellMapped cfg anon live) : Contiguous anon live :=
  ⟨h.kind, h.laid⟩

theorem PageAligned.even (h : PageAligned cfg a) (hpage : 0 < cfg.platform.pageShift) :
    a.toNat % 2 = 0 := by
  have hdvd : 2 ∣ 2 ^ cfg.platform.pageShift := dvd_pow_self 2 (Nat.ne_of_gt hpage)
  exact Nat.mod_eq_zero_of_dvd (hdvd.trans (Nat.dvd_of_mod_eq_zero h))

theorem even_sub (ha : a.toNat % 2 = 0) (hb : b.toNat % 2 = 0) : (a - b).toNat % 2 = 0 := by
  rw [BitVec.toNat_sub]
  omega

theorem even_add (ha : a.toNat % 2 = 0) (hb : b.toNat % 2 = 0) : (a + b).toNat % 2 = 0 := by
  rw [BitVec.toNat_add]
  omega

/-- The sentinel is odd. -/
theorem ne_kNull (ha : a.toNat % 2 = 0) : a ≠ kNull := by
  rintro rfl
  cases ha

theorem even_fileOffsetOf (hw : WellMapped cfg anon live) (hpage : 0 < cfg.platform.pageShift)
    (hs : s ∈ live) (hanon : s.isAnon = false) (ha : a.toNat % 2 = 0) :
    (s.fileOffsetOf a).toNat % 2 = 0 :=
  even_add ((hw.offset s hs hanon).even hpage) (even_sub ha ((hw.base s hs).even hpage))

/-- `set` finds an encoding. -/
theorem liveSet_encodes (hm : Maps cfg live p) (hw : WellMapped cfg anon live)
    (hpage : 0 < cfg.platform.pageShift) (hold : MayHold cfg live self ptr) :
    ∃ mOffset, liveSet cfg live self ptr = .ok mOffset ∧ Encodes cfg live self ptr mOffset := by
  obtain ⟨⟨heven, hself, hkey⟩, ⟨heven', -, -⟩, hshm⟩ := hold
  unfold Encodes
  by_cases hnull : ptr = 0
  · refine ⟨kNull, ?_, ?_⟩
    · rw [liveSet, set, if_pos hnull]
      rfl
    · rw [if_pos hnull]
  · rw [liveSet_eq hself hnull]
    simp only [if_neg hnull]
    cases hat : segmentAt cfg live self with
    | none => exact ⟨_, rfl, ne_kNull (even_sub heven' heven), rfl⟩
    | some s =>
      have hs : s ∈ live := List.mem_of_find?_eq_some hat
      have hhas : s.Has cfg self := by simpa using List.find?_some hat
      simp only
      cases hanon : s.isAnon with
      | true =>
        have hbase := (hw.base s hs).even hpage
        exact ⟨_, rfl, ne_kNull (even_sub heven' hbase), rfl⟩
      | false =>
        obtain ⟨s', hs', hmgr, hin⟩ := hshm hnull s hs hhas hanon
        have hanon' : s'.isAnon = false := by rw [hw.kind s' hs', hmgr, ← hw.kind s hs, hanon]
        have htarget := hm.segmentAt_eq hs' (hm.has_of_contains hs' hin)
        have hto := even_fileOffsetOf hw hpage hs' hanon' heven'
        have hfrom := even_fileOffsetOf hw hpage hs hanon heven
        simp only [htarget, hmgr, ne_eq, not_true_eq_false, Bool.false_eq_true, if_false]
        exact ⟨_, rfl, ne_kNull (even_sub hto hfrom), s', mem_segmentsOf.mpr ⟨hs', hmgr⟩, hin, rfl⟩

/-- The file offset of an address in the segment. -/
theorem covers_fileOffsetOf (hlaid : LaidOut 0 (extents (fileRangesOf live mgr)))
    (hsize : span (extents (fileRangesOf live mgr)) < 2 ^ 64) (hs : s ∈ segmentsOf live mgr)
    (hin : s.Contains ptr) : s.coversFileOffset (s.fileOffsetOf ptr) = true := by
  have hstop := stop_le_span hlaid hs
  have hbase := s.baseVaddr.isLt
  obtain ⟨hlow, hhigh⟩ := hin
  have hdist : (ptr - s.baseVaddr).toNat = ptr.toNat - s.baseVaddr.toNat := by
    rw [BitVec.toNat_sub]
    omega
  rw [coversFileOffset_eq hlaid hsize hs, Extent.covers_iff]
  simp only [SubSegment.fileOffsetOf, BitVec.toNat_add, hdist, FileRange.extent]
  rw [Nat.mod_eq_of_lt (by omega)]
  omega

/-- An encoding is decoded. -/
theorem liveGet_of_encodes (hm : Maps cfg live p) (hc : Contiguous anon live)
    (hself : cfg.platform.ptrToVaddr self = self) (h : Encodes cfg live self ptr mOffset) :
    liveGet cfg live self mOffset = ptr := by
  unfold Encodes at h
  by_cases hnull : ptr = 0
  · rw [if_pos hnull] at h
    rw [liveGet, get, if_pos h, hnull]
    rfl
  · rw [if_neg hnull] at h
    obtain ⟨hne, henc⟩ := h
    rw [liveGet_eq hself hne]
    cases hat : segmentAt cfg live self with
    | none =>
      simp only [hat] at henc ⊢
      rw [henc, add_sub_self]
    | some s =>
      have hs : s ∈ live := List.mem_of_find?_eq_some hat
      simp only [hat] at henc ⊢
      cases hanon : s.isAnon with
      | true =>
        simp only [hanon, if_true] at henc ⊢
        rw [henc, add_sub_self]
      | false =>
        simp only [hanon, Bool.false_eq_true, if_false] at henc ⊢
        obtain ⟨s', hs', hin, rfl⟩ := henc
        have hlaid := hc.laid s.manager (by rw [← hc.kind s hs, hanon])
        have hsize := hm.span_lt hlaid
        rw [add_sub_self, find_fileOffset hlaid hsize hs' (covers_fileOffsetOf hlaid hsize hs' hin)]
        show s'.baseVaddr + (s'.fileOffset + (ptr - s'.baseVaddr) - s'.fileOffset) = ptr
        rw [add_sub_left, add_sub_self]

theorem Maps.get_of_encodes (pick : Trie.Memory Unit → Word)
    (openShmChunk : M → Word → Word → Option Mapping) (hm : Maps cfg live p)
    (hc : Contiguous anon live) (hself : cfg.platform.ptrToVaddr self = self)
    (hkey : (pageOf cfg self).toNat < keyBound cfg) (h : Encodes cfg live self ptr mOffset) :
    ∃ p', OffsetPtr.get cfg.platform (runtime cfg pick openShmChunk) self mOffset p =
      some (ptr, p') ∧ Searched cfg live p p' := by
  have hptr := liveGet_of_encodes hm hc hself h
  have hfound : mOffset = kNull ∨ liveGet cfg live self mOffset ≠ 0 := by
    by_cases hnull : ptr = 0
    · left
      rwa [Encodes, if_pos hnull] at h
    · right
      rwa [hptr]
  obtain ⟨p', hrun, hp⟩ := hm.get pick openShmChunk hself hkey hfound
  exact ⟨p', hptr ▸ hrun, hp⟩

end encodings

/-! ## 4. Growth -/

section growth

variable [DecidableEq M] {cfg : Config} {anon : M → Bool} {u : Pointers M}
  {live : List (LiveSegment M)} {s : LiveSegment M} {self ptr mOffset : Word} {p : Process M}
  {pick : Trie.Memory Unit → Word}

/-- An encoding depends on where the object lies and on the segment of the target. -/
theorem Encodes.of_subset {live' : List (LiveSegment M)} (h : Encodes cfg live self ptr mOffset)
    (hat : segmentAt cfg live' self = segmentAt cfg live self) (hsub : live ⊆ live') :
    Encodes cfg live' self ptr mOffset := by
  unfold Encodes at h ⊢
  rw [hat]
  split
  · rename_i hnull
    rwa [if_pos hnull] at h
  · rename_i hnull
    rw [if_neg hnull] at h
    refine ⟨h.1, ?_⟩
    have henc := h.2
    cases hself : segmentAt cfg live self with
    | none =>
      rw [hself] at henc
      exact henc
    | some r =>
      simp only [hself] at henc ⊢
      split
      · rename_i hanon
        rwa [if_pos hanon] at henc
      · rename_i hanon
        rw [if_neg hanon] at henc
        obtain ⟨s', hs', hin, hoff⟩ := henc
        obtain ⟨hlive, hmgr⟩ := mem_segmentsOf.mp hs'
        exact ⟨s', mem_segmentsOf.mpr ⟨hsub hlive, hmgr⟩, hin, hoff⟩

/-- It outlives growth elsewhere. -/
theorem Encodes.add (h : Encodes cfg live self ptr mOffset) (hnot : ¬ s.Has cfg self) :
    Encodes cfg (live ++ [s]) self ptr mOffset := by
  refine h.of_subset ?_ (List.subset_append_left _ _)
  have hnone : [s].find? (fun s => decide (s.Has cfg self)) = none := by simp [hnot]
  rw [segmentAt, List.find?_append, hnone, Option.or_none]
  rfl

theorem wellMapped_nil : WellMapped cfg anon ([] : List (LiveSegment M)) := by
  constructor
  · intro s hs
    cases hs
  · intro s hs
    cases hs
  · intro s hs
    cases hs
  · exact fun _ _ => laidOut_nil
  · exact fun _ _ => Nat.two_pow_pos 63

theorem WellMapped.add (h : WellMapped cfg anon u.live) (hs : u.CanAdd cfg anon s) :
    WellMapped cfg anon (u.live ++ [s]) := by
  obtain ⟨-, -, hbase, hkind, hfile, -⟩ := hs
  have hnew : ∀ {Q : LiveSegment M → Prop}, (∀ x ∈ u.live, Q x) → Q s →
      ∀ x ∈ u.live ++ [s], Q x := by
    intro Q hold hs x hx
    rcases List.mem_append.mp hx with hx | hx
    · exact hold x hx
    · exact List.mem_singleton.mp hx ▸ hs
  constructor
  · exact hnew h.base hbase
  · exact hnew h.kind hkind
  · exact hnew h.offset fun hanon => (hfile hanon).1
  · intro mgr hmgr
    rw [fileRangesOf_append]
    split
    · rename_i hs
      subst hs
      rw [extents_append]
      apply laidOut_concat.mpr
      refine ⟨h.laid _ hmgr, ?_⟩
      rw [Nat.zero_add]
      exact (hfile (hkind.trans hmgr)).2.1
    · exact h.laid mgr hmgr
  · intro mgr hmgr
    rw [fileRangesOf_append]
    split
    · rename_i hs
      subst hs
      obtain ⟨-, hoffset, hstop⟩ := hfile (hkind.trans hmgr)
      simp only [extents_append, span_append, extents_cons, extents_nil, span_cons, span_nil,
        FileRange.extent]
      omega
    · exact h.size mgr hmgr

/-- One more segment, with an object and pages of its own. -/
theorem Maps.append (h : Maps cfg live p)
    (hnew : Trie.Segment.New cfg (live.map LiveSegment.range) s.range)
    (hbase : cfg.platform.ptrToVaddr s.baseVaddr = s.baseVaddr)
    (ho : (p.addSegment cfg pick s.seg s.toSegmentObject).memory.outOfMemory = false) :
    Maps cfg (live ++ [s]) (p.addSegment cfg pick s.seg s.toSegmentObject) := by
  constructor
  · exact h.toLists.add cfg pick fun x hx => (hnew.2.2.2 x.range (List.mem_map_of_mem hx)).1
  · have hlive : Trie.liveAfter cfg (live.map LiveSegment.range)
        (.registerSegment s.seg (cfg.platform.ptrToVaddr s.baseVaddr) s.size) =
          some (s.range :: live.map LiveSegment.range) := by
      rw [hbase]
      exact if_pos hnew
    refine (Trie.represents_runOp h.registry hlive ho).of_mem_iff fun r => ?_
    simp only [List.map_append, List.mem_append, List.map_cons, List.map_nil, List.mem_cons,
      List.not_mem_nil, or_false]
    exact or_comm

theorem Maps.add (h : Maps cfg u.live p) (hs : u.CanAdd cfg anon s)
    (ho : (p.addSegment cfg pick s.seg s.toSegmentObject).memory.outOfMemory = false) :
    Maps cfg (u.live ++ [s]) (p.addSegment cfg pick s.seg s.toSegmentObject) :=
  h.append hs.1 hs.2.1 ho

end growth

/-! ## 5. Runs -/

section runs

variable [DecidableEq M] {cfg : Config} {anon : M → Bool} {u u' : Pointers M} {st st' : PtrState M}
  {pick : Trie.Memory Unit → Word} {openShmChunk : M → Word → Word → Option Mapping}
  {self ptr dst src mOffset : Word} {op : PtrOp M} {ops : List (PtrOp M)}

/-- Every pointer object stores an offset that stands for its target. -/
structure PtrInv (cfg : Config) (anon : M → Bool) (u : Pointers M) (st : PtrState M) : Prop where
  maps : Maps cfg u.live st.process
  mapped : WellMapped cfg anon u.live
  anons : st.process.anon = anon
  encoded : ∀ self ptr, u.targets.lookup self = some ptr →
    Address cfg self ∧ Encodes cfg u.live self ptr (st.offset self)

/-- A call on the objects ends with an encoding for the one at `dst`. -/
theorem PtrInv.store (h : PtrInv cfg anon u st) {p' : Process M}
    {call : Run M (Except SetError Word)} (hcall : call st.process = some (.ok mOffset, p'))
    (hp : Searched cfg u.live st.process p') (hdst : Address cfg dst)
    (henc : Encodes cfg u.live dst ptr mOffset) :
    ∃ st', st.store dst call = some st' ∧
      PtrInv cfg anon { u with targets := (dst, ptr) :: u.targets } st' := by
  refine ⟨⟨p', Function.update st.offset dst mOffset⟩, ?_, ?_⟩
  · rw [PtrState.store, hcall]
  · refine ⟨hp.maps, h.mapped, hp.anon.trans h.anons, fun self target hlookup => ?_⟩
    show Address cfg self ∧
      Encodes cfg u.live self target (Function.update st.offset dst mOffset self)
    by_cases hself : self = dst
    · subst hself
      rw [List.lookup_cons_self] at hlookup
      obtain rfl := Option.some.inj hlookup
      rw [Function.update_self]
      exact ⟨hdst, henc⟩
    · have hne : (self == dst) = false := beq_false_of_ne hself
      rw [List.lookup_cons, hne] at hlookup
      rw [Function.update_of_ne hself]
      exact h.encoded self target hlookup

theorem PtrInv.set (h : PtrInv cfg anon u st) (hpage : 0 < cfg.platform.pageShift)
    (hold : MayHold cfg u.live dst ptr) :
    ∃ mOffset p', OffsetPtr.set cfg.platform (runtime cfg pick openShmChunk) dst ptr st.process =
      some (.ok mOffset, p') ∧ Searched cfg u.live st.process p' ∧
      Encodes cfg u.live dst ptr mOffset := by
  obtain ⟨mOffset, hset, henc⟩ := liveSet_encodes h.maps h.mapped hpage hold
  obtain ⟨⟨-, hself, hkey⟩, ⟨-, -, hkey'⟩, -⟩ := hold
  obtain ⟨p', hrun, hp⟩ := h.maps.set pick openShmChunk hself hkey fun _ _ _ _ => hkey'
  exact ⟨mOffset, p', hset ▸ hrun, hp, henc⟩

/-- `get` returns the target. -/
theorem PtrInv.get (pick : Trie.Memory Unit → Word)
    (openShmChunk : M → Word → Word → Option Mapping) (h : PtrInv cfg anon u st)
    (hlookup : u.targets.lookup self = some ptr) :
    ∃ p', OffsetPtr.get cfg.platform (runtime cfg pick openShmChunk) self (st.offset self)
      st.process = some (ptr, p') ∧ Searched cfg u.live st.process p' := by
  obtain ⟨⟨-, hself, hkey⟩, henc⟩ := h.encoded self ptr hlookup
  exact h.maps.get_of_encodes pick openShmChunk h.mapped.contiguous hself hkey henc

theorem PtrInv.step (h : PtrInv cfg anon u st) (hpage : 0 < cfg.platform.pageShift)
    (hop : u.after cfg anon op = some u')
    (ho : (op.run cfg pick openShmChunk st).all (!·.process.memory.outOfMemory) = true) :
    ∃ st', op.run cfg pick openShmChunk st = some st' ∧ PtrInv cfg anon u' st' := by
  cases op with
  | add s =>
    simp only [Pointers.after, Option.ite_none_right_eq_some, Option.some.injEq] at hop
    obtain ⟨hcan, rfl⟩ := hop
    simp only [PtrOp.run, Option.all_some, Bool.not_eq_true'] at ho
    refine ⟨_, rfl, h.maps.add hcan ho, h.mapped.add hcan, h.anons, fun self ptr hlookup => ?_⟩
    obtain ⟨hself, henc⟩ := h.encoded self ptr hlookup
    obtain ⟨pre, post, (htargets : u.targets = _), -⟩ := List.lookup_eq_some_iff.mp hlookup
    have hmem : (self, ptr) ∈ u.targets := by simp [htargets]
    exact ⟨hself, henc.add (hcan.2.2.2.2.2 _ hmem)⟩
  | assign dst ptr =>
    simp only [Pointers.after, Option.ite_none_right_eq_some, Option.some.injEq] at hop
    obtain ⟨hold, rfl⟩ := hop
    obtain ⟨mOffset, p', hset, hp, henc⟩ := h.set hpage hold
    exact h.store hset hp hold.1 henc
  | copy dst src =>
    simp only [Pointers.after] at hop
    cases hsrc : u.targets.lookup src with
    | none =>
      rw [hsrc] at hop
      cases hop
    | some ptr =>
      simp only [hsrc, Option.ite_none_right_eq_some, Option.some.injEq] at hop
      obtain ⟨hold, rfl⟩ := hop
      obtain ⟨p₁, hget, hp₁⟩ := PtrInv.get pick openShmChunk h hsrc
      have h₁ : PtrInv cfg anon u { st with process := p₁ } :=
        ⟨hp₁.maps, h.mapped, hp₁.anon.trans h.anons, h.encoded⟩
      obtain ⟨mOffset, p₂, hset, hp₂, henc⟩ := h₁.set hpage hold
      exact h.store ((run_bind hget).trans hset) (hp₁.trans hp₂) hold.1 henc

theorem PtrInv.run (h : PtrInv cfg anon u st) (hpage : 0 < cfg.platform.pageShift)
    (hops : ops.foldlM (Pointers.after cfg anon) u = some u')
    (ho : ∀ k ≤ ops.length, (runPtrOps cfg pick openShmChunk (ops.take k) st).all
      (!·.process.memory.outOfMemory) = true) :
    ∃ st', runPtrOps cfg pick openShmChunk ops st = some st' ∧ PtrInv cfg anon u' st' := by
  induction ops generalizing u st with
  | nil =>
    obtain rfl : u = u' := Option.some.inj hops
    exact ⟨st, rfl, h⟩
  | cons op ops ih =>
    rw [List.foldlM_cons] at hops
    obtain ⟨u₁, hop, hrest⟩ := Option.bind_eq_some_iff.mp hops
    have hfirst : runPtrOps cfg pick openShmChunk ((op :: ops).take 1) st =
        op.run cfg pick openShmChunk st := by
      simp [runPtrOps]
    have ho₁ := ho 1 (by simp)
    rw [hfirst] at ho₁
    obtain ⟨st₁, hrun, h₁⟩ := h.step hpage hop ho₁
    have hnext : ∀ ops', runPtrOps cfg pick openShmChunk (op :: ops') st =
        runPtrOps cfg pick openShmChunk ops' st₁ := by
      intro ops'
      rw [runPtrOps, List.foldlM_cons, hrun]
      rfl
    rw [hnext]
    refine ih h₁ hrest fun k hk => ?_
    rw [← hnext, ← List.take_succ_cons]
    exact ho (k + 1) (Nat.succ_le_succ hk)

/-- Any run from any set of mapped segments: no call throws, only null is stored
    as the sentinel, and `get` of every pointer object returns the address it
    stands for. -/
theorem pointers_keep_targets {live : List (LiveSegment M)} {p : Process M} {offset : Word → Word}
    (hpage : 0 < cfg.platform.pageShift) (hmaps : Maps cfg live p)
    (hmapped : WellMapped cfg p.anon live)
    (hops : ops.foldlM (Pointers.after cfg p.anon) ⟨live, []⟩ = some u)
    (halloc : ∀ k ≤ ops.length, (runPtrOps cfg pick openShmChunk (ops.take k) ⟨p, offset⟩).all
      (!·.process.memory.outOfMemory) = true) :
    ∃ st, runPtrOps cfg pick openShmChunk ops ⟨p, offset⟩ = some st ∧
      ∀ self ptr, u.targets.lookup self = some ptr →
        (st.offset self = kNull ↔ ptr = 0) ∧
        ∃ p', get cfg.platform (runtime cfg pick openShmChunk) self (st.offset self) st.process =
          some (ptr, p') := by
  have hinit : PtrInv cfg p.anon ⟨live, []⟩ ⟨p, offset⟩ :=
    ⟨hmaps, hmapped, rfl, fun _ _ hlookup => by cases hlookup⟩
  obtain ⟨st, hrun, hst⟩ := hinit.run hpage hops halloc
  refine ⟨st, hrun, fun self ptr hlookup => ?_⟩
  constructor
  · have henc := (hst.encoded self ptr hlookup).2
    unfold Encodes at henc
    split at henc
    · rename_i hnull
      exact iff_of_true henc hnull
    · rename_i hnull
      exact iff_of_false henc.1 hnull
  · obtain ⟨p', hget, -⟩ := PtrInv.get pick openShmChunk hst hlookup
    exact ⟨p', hget⟩

end runs

/-- A SHM manager and an anonymous one, without segments yet. -/
def twoManagers : Process Bool where
  memory := Trie.initialMemory Unit Trie.defaultConfig
  object := fun _ => ⟨⟨0, 0, 0, false, false⟩, false⟩
  anon := id
  segments := fun _ => []
  table := fun _ => .blank

def firstChunk : LiveSegment Bool := ⟨⟨⟨0x10000000, 0x2000, 0, false, false⟩, true⟩, 0x60010⟩

def anonChunk : LiveSegment Bool := ⟨⟨⟨0x20000000, 0x1800, 0, true, true⟩, true⟩, 0x60090⟩

def secondChunk : LiveSegment Bool :=
  ⟨⟨⟨0x8000000, 0x4000, 0x2000, false, false⟩, false⟩, 0x60110⟩

/-- A pointer into SHM is copied to the stack, on to anonymous memory, and into
    the segment of a growth in between. -/
def copiedAround : List (PtrOp Bool) :=
  [.add firstChunk, .add anonChunk, .assign 0x10000010 0x10001004,
    .copy 0x7ffc0008 0x10000010, .copy 0x20000010 0x7ffc0008, .add secondChunk,
    .copy 0x8000100 0x20000010]

theorem pointers_keep_targets_copied : ∃ (st : PtrState Bool) (p' : Process Bool),
    get fourKiBPages (runtime Trie.defaultConfig
        (Trie.firstFree [0x2000, 0x3000, 0x4000, 0x5000, 0x6000]) fun _ _ _ => none)
      0x8000100 (st.offset 0x8000100) st.process = some (0x10001004, p') := by
  have hmaps : Maps Trie.defaultConfig [] twoManagers := maps_nil rfl fun _ => rfl
  have hmapped : WellMapped Trie.defaultConfig twoManagers.anon ([] : List (LiveSegment Bool)) :=
    wellMapped_nil
  have hops : copiedAround.foldlM (Pointers.after Trie.defaultConfig twoManagers.anon) ⟨[], []⟩ =
      some ⟨[firstChunk, anonChunk, secondChunk], [(0x8000100, 0x10001004),
        (0x20000010, 0x10001004), (0x7ffc0008, 0x10001004), (0x10000010, 0x10001004)]⟩ := by
    decide +kernel
  have halloc : ∀ k ≤ copiedAround.length, (runPtrOps Trie.defaultConfig
      (Trie.firstFree [0x2000, 0x3000, 0x4000, 0x5000, 0x6000]) (fun _ _ _ => none)
      (copiedAround.take k) ⟨twoManagers, fun _ => kNull⟩).all
        (!·.process.memory.outOfMemory) = true := by
    decide +kernel
  obtain ⟨st, -, hall⟩ := pointers_keep_targets (by decide) hmaps hmapped hops halloc
  obtain ⟨-, p', hget⟩ := hall 0x8000100 0x10001004 rfl
  exact ⟨st, p', hget⟩

end Memnon.OffsetPtr
