import Memnon.TrieMap
import Memnon.Registry

/-!
# The registry on one thread

To one thread the registry is a list of segments with disjoint pages: `find`
returns the segment that has the page of the address. Nodes, leaf slots and the
thread's cache represent that list.
-/

namespace Memnon.Trie

open Memnon.Lib Memnon.Lib.Prog

/-! ## 1. Lists of segments -/

/-- A `sub_segment`: the address of the object, and the two fields that the
    registry reads. -/
structure Segment where
  seg : Word
  base : Word
  size : Word
deriving DecidableEq

abbrev Segment.Has (cfg : Config) (r : Segment) (p : Word) : Prop := HasPage cfg r.base r.size p

/-- The segment may be registered while those of `l` are live. -/
def Segment.New (cfg : Config) (l : List Segment) (r : Segment) : Prop :=
  ValidPtr r.seg ∧ r.size ≠ 0 ∧ InKeySpace cfg r.base r.size ∧
    ∀ r' ∈ l, r'.seg ≠ r.seg ∧ PagesDisjoint cfg r.base r.size r'.base r'.size

instance (cfg : Config) (l : List Segment) (r : Segment) : Decidable (r.New cfg l) :=
  inferInstanceAs (Decidable (_ ∧ _ ∧ _ ∧ _))

/-- The live segments after a call; a call that may not be made has no result. -/
def liveAfter (cfg : Config) (l : List Segment) : RegistryOp → Option (List Segment)
  | .registerSegment seg base size =>
      if Segment.New cfg l ⟨seg, base, size⟩ then some (⟨seg, base, size⟩ :: l) else none
  | .unregisterSegment seg =>
      if ∃ r ∈ l, r.seg = seg then some (l.filter fun r => r.seg ≠ seg) else none
  | .find addr => if (pageOf cfg addr).toNat < keyBound cfg then some l else none

/-- The segment that has the page, or null. -/
def owner (cfg : Config) (l : List Segment) (p : Word) : Word :=
  ((l.find? fun r => r.Has cfg p).map Segment.seg).getD 0

/-! ## 2. The thread's calls -/

variable {T : Type} [DecidableEq T]

/-- The object of a new segment holds its bounds. -/
def Memory.newObject (m : Memory T) (seg base size : Word) : Memory T :=
  { m with object := Function.update m.object seg (base, size) }

/-- One call by thread `t`, from beginning to end. -/
def runOp (cfg : Config) (t : T) (pick : Memory T → Word) (m : Memory T) : RegistryOp → Memory T
  | .registerSegment seg base size =>
      ((registerSegment cfg seg).eval (exec t) pick (m.newObject seg base size)).2
  | .unregisterSegment seg => ((unregisterSegment cfg seg).eval (exec t) pick m).2
  | .find addr => ((find cfg addr).eval (exec t) pick m).2

def runOps (cfg : Config) (t : T) (pick : Memory T → Word) (m : Memory T)
    (ops : List RegistryOp) : Memory T :=
  ops.foldl (runOp cfg t pick) m

/-- The newest entry, if it is one of `seg`, gets the bounds of the segment. -/
def widenTop (base size seg : Word) : List TlsEntry → List TlsEntry
  | top :: rest =>
      (if top.seg = seg then { top with base := base, end_ := base + size } else top) :: rest
  | [] => []

theorem eval_expandCacheBoundsTop {t : T} {pick : Memory T → Word} {m : Memory T}
    (base size seg : Word) :
    (expandCacheBoundsTop base size seg).eval (exec t) pick m =
      ((), m.setCache t (widenTop base size seg (m.cache t))) := by
  have hsame : m.setCache t (m.cache t) = m := by simp [Memory.setCache]
  simp only [expandCacheBoundsTop, bind_eq, act_bind, ret_bind, pure_eq, eval_getCache]
  cases hcache : m.cache t with
  | nil => exact congrArg (Prod.mk ()) (hcache ▸ hsame).symm
  | cons top rest =>
    simp only [widenTop]
    split
    · rfl
    · exact congrArg (Prod.mk ()) (hcache ▸ hsame).symm

/-! ## 3. What the memory represents -/

/-- A cache entry of segment `r`: its slot is that of a page of `r`, and its
    bounds do not leave the pages of `r`. -/
def EntryOf (cfg : Config) (m : Memory T) (r : Segment) (e : TlsEntry) : Prop :=
  e.seg = r.seg ∧ BoundsIn cfg e.base e.end_ r.base r.size ∧
    ∃ q s, e.leaf = some s ∧ LeafAt cfg m q s ∧ r.Has cfg q

/-- The memory represents the live segments `l`. -/
structure Represents (cfg : Config) (t : T) (l : List Segment) (m : Memory T) : Prop where
  heap : HeapInv cfg m
  segment : ∀ r ∈ l, ValidPtr r.seg ∧ r.size ≠ 0 ∧ InKeySpace cfg r.base r.size ∧
    m.object r.seg = (r.base, r.size)
  disjoint : ∀ r ∈ l, ∀ r' ∈ l, ∀ p, r.Has cfg p → r'.Has cfg p → r = r'
  inside : ∀ r ∈ l, ∀ p, r.Has cfg p → leafValue cfg m p = r.seg ||| kLeafTag
  outside : ∀ p, p.toNat < keyBound cfg → (∀ r ∈ l, ¬ r.Has cfg p) → leafValue cfg m p = 0
  cache : ∀ e ∈ m.cache t, e = {} ∨ ∃ r ∈ l, EntryOf cfg m r e

variable {cfg : Config} {t : T} {pick : Memory T → Word} {m m' m₁ : Memory T} {l l' : List Segment}
  {r : Segment} {p addr seg : Word}

omit [DecidableEq T] in
theorem represents_initial : Represents cfg t [] (initialMemory T cfg) where
  heap := heapInv_initial
  segment := by simp
  disjoint := by simp
  inside := by simp
  outside p _ _ := by
    unfold leafValue
    split <;> rfl
  cache e he := .inl (List.eq_of_mem_replicate he)

namespace Represents

variable (h : Represents cfg t l m)
include h

omit [DecidableEq T] in
/-- The order of the list does not matter. -/
theorem of_mem_iff (hmem : ∀ r, r ∈ l' ↔ r ∈ l) : Represents cfg t l' m where
  heap := h.heap
  segment r hr := h.segment r ((hmem r).mp hr)
  disjoint r hr r' hr' := h.disjoint r ((hmem r).mp hr) r' ((hmem r').mp hr')
  inside r hr := h.inside r ((hmem r).mp hr)
  outside p hp hnone := h.outside p hp fun r hr => hnone r ((hmem r).mpr hr)
  cache e he := (h.cache e he).imp_right fun ⟨r, hr, hentry⟩ => ⟨r, (hmem r).mpr hr, hentry⟩

omit [DecidableEq T] in
theorem owner_eq (hr : r ∈ l) (hp : r.Has cfg p) : owner cfg l p = r.seg := by
  cases hfind : l.find? fun r => r.Has cfg p with
  | none => exact absurd (decide_eq_true hp) (List.find?_eq_none.mp hfind r hr)
  | some r' =>
    have hp' : r'.Has cfg p := by simpa using List.find?_some hfind
    obtain rfl := h.disjoint r hr r' (List.mem_of_find?_eq_some hfind) p hp hp'
    rw [owner, hfind]
    rfl

omit [DecidableEq T] in
/-- The leaf slots hold the owners of the pages. -/
theorem leafValue_untag (hp : p.toNat < keyBound cfg) :
    leafValue cfg m p &&& ~~~kLeafTag = owner cfg l p := by
  by_cases hown : ∃ r ∈ l, r.Has cfg p
  · obtain ⟨r, hr, hrp⟩ := hown
    rw [h.inside r hr p hrp, h.owner_eq hr hrp, untag_tag (h.segment r hr).1.2]
  · have hnone : ∀ r ∈ l, ¬ r.Has cfg p := fun r hr hrp => hown ⟨r, hr, hrp⟩
    have hfind : (l.find? fun r => r.Has cfg p) = none :=
      List.find?_eq_none.mpr fun r hr => by simpa using hnone r hr
    rw [h.outside p hp hnone, owner, hfind]
    exact BitVec.zero_and

omit [DecidableEq T] in
/-- Live segments with the same object are the same. -/
theorem eq_of_seg {r' : Segment} (hr : r ∈ l) (hr' : r' ∈ l) (hseg : r.seg = r'.seg) : r = r' := by
  have hobj := (h.segment r hr).2.2.2
  have hobj' := (h.segment r' hr').2.2.2
  rw [← hseg, hobj] at hobj'
  obtain ⟨hbase, hsize⟩ := Prod.mk.inj hobj'
  cases r
  cases r'
  simp_all

omit [DecidableEq T] in
/-- A change of the thread's cache, and of bookkeeping. -/
theorem recache (hslot : m'.slot = m.slot) (hplace : m'.place = m.place)
    (hobject : m'.object = m.object)
    (hcache : ∀ e ∈ m'.cache t, e = {} ∨ ∃ r ∈ l, EntryOf cfg m r e) :
    Represents cfg t l m' := by
  have hleaf : ∀ p, leafValue cfg m' p = leafValue cfg m p := by
    intro p
    simp only [leafValue, leafSlot, hslot]
  refine ⟨h.heap.congr hslot hplace, fun r hr => ?_, h.disjoint, fun r hr p hp => ?_,
    fun p hp hnone => ?_, fun e he => ?_⟩
  · rw [hobject]
    exact h.segment r hr
  · rw [hleaf]
    exact h.inside r hr p hp
  · rw [hleaf]
    exact h.outside p hp hnone
  · rcases hcache e he with rfl | ⟨r, hr, hseg, hbounds, q, s, hs, hq, hrq⟩
    · exact .inl rfl
    · exact .inr ⟨r, hr, hseg, hbounds, q, s, hs, ⟨by rw [hplace]; exact hq.1, hq.2⟩, hrq⟩

/-! ## 4. lookup and find -/

/-- A lookup returns the owner of the page, and the cache has entries of live
    segments only. -/
theorem lookup (pick : Memory T → Word) (haddr : (pageOf cfg addr).toNat < keyBound cfg) :
    let r := (Trie.lookup cfg addr).eval (exec t) pick m
    r.1 = owner cfg l (pageOf cfg addr) ∧ Represents cfg t l r.2 ∧
      r.2.outOfMemory = m.outOfMemory := by
  simp only [eval_lookup]
  cases hfind : (m.cache t).find? (·.covers addr) with
  | some e =>
    have hmem := List.mem_of_find?_eq_some hfind
    have hcovers : e.covers addr = true := List.find?_some hfind
    rcases h.cache e hmem with rfl | ⟨r, hr, hseg, hbounds, q, s, hs, hq, hrq⟩
    · exact absurd hcovers (by simp [TlsEntry.covers])
    · -- the entry's slot still holds the segment, which has the page
      have hhit : ∃ s, e.leaf = some s ∧ m.slot s.1 s.2 = e.seg ||| kLeafTag :=
        ⟨s, hs, by rw [← h.heap.leafValue_of_leafAt hq, h.inside r hr q hrq, hseg]⟩
      obtain ⟨hlow, hhigh⟩ := of_decide_eq_true hcovers
      simp only [if_pos hhit]
      refine ⟨hseg.trans (h.owner_eq hr (hbounds addr hlow hhigh)).symm,
        h.recache rfl rfl rfl fun e' he' => h.cache e' ?_, rfl⟩
      rw [Memory.setCache_cache_self] at he'
      rcases List.mem_cons.mp he' with rfl | he'
      · exact hmem
      · exact List.mem_of_mem_eraseP he'
  | none =>
    have hvalue := h.leafValue_untag haddr
    simp only [hvalue]
    split
    · rename_i hzero
      exact ⟨hzero.symm, h, rfl⟩
    · rename_i hne
      refine ⟨rfl, h.recache rfl rfl rfl fun e he => ?_, rfl⟩
      rw [Memory.setCache_cache_self] at he
      rcases List.mem_cons.mp (List.mem_of_mem_take he) with rfl | he
      · right
        by_cases hown : ∃ r ∈ l, r.Has cfg (pageOf cfg addr)
        · obtain ⟨r, hr, hrp⟩ := hown
          have hleaf : leafValue cfg m (pageOf cfg addr) ≠ 0 := by
            rw [h.inside r hr _ hrp]
            exact tag_ne_zero r.seg
          obtain ⟨s, hs⟩ := h.heap.exists_leafAt hleaf
          refine ⟨r, hr, h.owner_eq hr hrp, fun a hlow hhigh => ?_, _, s,
            h.heap.leafSlot_eq_some_iff.mpr hs, hs, hrp⟩
          rw [pageOf_eq_of_covers (v := 0) (l := none) (decide_eq_true ⟨hlow, hhigh⟩)]
          exact hrp
        · have hzero := h.outside _ haddr fun r hr hrp => hown ⟨r, hr, hrp⟩
          rw [hzero] at hvalue
          exact absurd (hvalue.symm.trans BitVec.zero_and) hne
      · exact h.cache e he

/-- The newest entry may be widened to a live segment. -/
theorem expand (pick : Memory T → Word) (hr : r ∈ l) :
    let m' := ((expandToSegment r.seg).eval (exec t) pick m).2
    Represents cfg t l m' ∧ m'.outOfMemory = m.outOfMemory := by
  obtain ⟨hptr, -, hspace, hobject⟩ := h.segment r hr
  simp only [expandToSegment, bind_eq, act_bind, ret_bind, eval_readBase, eval_readSize,
    eval_expandCacheBoundsTop, hobject, Memory.setReading_object, Memory.setReading_cache]
  refine ⟨h.recache rfl rfl rfl fun e he => ?_, rfl⟩
  rw [Memory.setCache_cache_self] at he
  cases hcache : m.cache t with
  | nil =>
    rw [hcache] at he
    cases he
  | cons top rest =>
    have hold : ∀ e ∈ top :: rest, e = {} ∨ ∃ r ∈ l, EntryOf cfg m r e := hcache ▸ h.cache
    rw [hcache] at he
    rcases List.mem_cons.mp he with rfl | he
    · split
      · rename_i hseg
        rcases hold top List.mem_cons_self with rfl | ⟨r', hr', hseg', -, hslot⟩
        · exact absurd hseg.symm hptr.1
        · obtain rfl := h.eq_of_seg hr hr' (hseg.symm.trans hseg')
          exact .inr ⟨r, hr, hseg, hspace.boundsIn, hslot⟩
      · exact hold top List.mem_cons_self
    · exact hold e (List.mem_cons_of_mem _ he)

theorem find (pick : Memory T → Word) (haddr : (pageOf cfg addr).toNat < keyBound cfg) :
    let r := (Trie.find cfg addr).eval (exec t) pick m
    r.1 = owner cfg l (pageOf cfg addr) ∧ Represents cfg t l r.2 ∧
      r.2.outOfMemory = m.outOfMemory := by
  obtain ⟨hvalue, hlookup, hoom⟩ := h.lookup pick haddr
  simp only [Trie.find, bind_eq, eval_bind]
  by_cases hzero : ((Trie.lookup cfg addr).eval (exec t) pick m).1 = 0
  · simp only [hzero, ne_eq, not_true_eq_false, if_false, pure_eq, eval_ret]
    exact ⟨hzero.symm.trans hvalue, hlookup, hoom⟩
  · simp only [ne_eq, hzero, not_false_eq_true, if_true, eval_bind, pure_eq, eval_ret]
    have hlive : ∃ r ∈ l, ((Trie.lookup cfg addr).eval (exec t) pick m).1 = r.seg := by
      rw [hvalue, owner] at hzero ⊢
      cases hfind : l.find? fun r => r.Has cfg (pageOf cfg addr) with
      | none =>
        rw [hfind] at hzero
        exact absurd rfl hzero
      | some r => exact ⟨r, List.mem_of_find?_eq_some hfind, rfl⟩
    obtain ⟨r, hr, hseg⟩ := hlive
    have hexpand := hlookup.expand pick hr
    rw [← hseg] at hexpand
    exact ⟨hvalue, hexpand.1, hexpand.2.trans hoom⟩

omit [DecidableEq T] in
/-- A page number out of the key space shares the leaf slot of one in it. -/
theorem exists_alias (hvalue : leafValue cfg m p &&& ~~~kLeafTag ≠ 0) :
    ∃ r ∈ l, leafValue cfg m p &&& ~~~kLeafTag = r.seg ∧
      ∃ q s, leafSlot cfg m p = some s ∧ LeafAt cfg m q s ∧ r.Has cfg q := by
  have hpos : 0 < keyBound cfg := Nat.two_pow_pos _
  have hlt := Nat.mod_lt p.toNat hpos
  have hle := Nat.mod_le p.toNat (keyBound cfg)
  let q : Word := BitVec.ofNat 64 (p.toNat % keyBound cfg)
  have hq : q.toNat = p.toNat % keyBound cfg := by
    rw [BitVec.toNat_ofNat]
    exact Nat.mod_eq_of_lt (Nat.lt_of_le_of_lt hle p.isLt)
  have hkey : SameKey cfg p q := sameKey_iff.mpr (by rw [hq, Nat.mod_mod])
  rw [hkey.leafValue] at hvalue ⊢
  by_cases hown : ∃ r ∈ l, r.Has cfg q
  · obtain ⟨r, hr, hrq⟩ := hown
    have hleaf := h.inside r hr q hrq
    obtain ⟨s, hs⟩ := h.heap.exists_leafAt (hleaf ▸ tag_ne_zero r.seg)
    refine ⟨r, hr, ?_, q, s, ?_, hs, hrq⟩
    · rw [hleaf, untag_tag (h.segment r hr).1.2]
    · exact h.heap.leafSlot_eq_some_iff.mpr (SameKey.leafAt ⟨hkey.1.symm, hkey.2.symm⟩ hs)
  · rw [h.outside q (hq ▸ hlt) fun r hr hrq => hown ⟨r, hr, hrq⟩] at hvalue
    exact absurd BitVec.zero_and hvalue

omit [DecidableEq T] in
/-- No cache entry covers an address out of the key space. -/
theorem find?_covers (haddr : ¬ (pageOf cfg addr).toNat < keyBound cfg) :
    (m.cache t).find? (·.covers addr) = none := by
  apply List.find?_eq_none.mpr
  intro e he hcovers
  obtain ⟨hlow, hhigh⟩ := of_decide_eq_true hcovers
  rcases h.cache e he with rfl | ⟨r, hr, -, hbounds, -⟩
  · exact absurd hcovers (by simp [TlsEntry.covers])
  · exact haddr ((h.segment r hr).2.2.1.lt (hbounds addr hlow hhigh))

/-- A search keeps the registry, also one for an address out of the key space. -/
theorem find_keeps (pick : Memory T → Word) (addr : Word) :
    let r := (Trie.find cfg addr).eval (exec t) pick m
    Represents cfg t l r.2 ∧ r.2.outOfMemory = m.outOfMemory := by
  by_cases haddr : (pageOf cfg addr).toNat < keyBound cfg
  · exact (h.find pick haddr).2
  · have hmiss := h.find?_covers haddr
    simp only [Trie.find, bind_eq, eval_bind, eval_lookup, hmiss]
    by_cases hvalue : leafValue cfg m (pageOf cfg addr) &&& ~~~kLeafTag = 0
    · simp only [hvalue, if_true, ne_eq, not_true_eq_false, if_false, pure_eq, eval_ret]
      exact ⟨h, trivial⟩
    · obtain ⟨r, hr, hseg, hslot⟩ := h.exists_alias hvalue
      obtain ⟨hptr, -, hspace, hobject⟩ := h.segment r hr
      have hentry : ∀ e ∈ widenTop r.base r.size r.seg
          ((pageEntry cfg addr r.seg (leafSlot cfg m (pageOf cfg addr)) :: m.cache t).take kSize),
          e = {} ∨ ∃ r ∈ l, EntryOf cfg m r e := by
        intro e he
        simp only [kSize, List.take_succ_cons, widenTop, pageEntry, if_true] at he
        rcases List.mem_cons.mp he with rfl | he
        · exact .inr ⟨r, hr, rfl, hspace.boundsIn, hslot⟩
        · exact h.cache e (List.mem_of_mem_take he)
      simp only [hseg, hptr.1, if_false, ne_eq, not_false_eq_true, if_true, eval_bind, pure_eq,
        eval_ret, expandToSegment, bind_eq, act_bind, ret_bind, eval_readBase, eval_readSize,
        eval_expandCacheBoundsTop, hobject, Memory.setReading_object, Memory.setReading_cache,
        Memory.setCache_object, Memory.setCache_cache_self]
      refine ⟨h.recache rfl rfl rfl fun e he => ?_, rfl⟩
      rw [Memory.setCache_cache_self] at he
      exact hentry e he

/-- A search sees the low bits of the page number only. -/
theorem find_sameKey (pick : Memory T → Word) (hkey : SameKey cfg (pageOf cfg addr) p)
    (hp : p.toNat < keyBound cfg) :
    ((Trie.find cfg addr).eval (exec t) pick m).1 = owner cfg l p := by
  by_cases haddr : (pageOf cfg addr).toNat < keyBound cfg
  · rw [(h.find pick haddr).1, hkey.eq haddr hp]
  · have hmiss := h.find?_covers haddr
    have hvalue := h.leafValue_untag hp
    rw [← hkey.leafValue] at hvalue
    simp only [Trie.find, bind_eq, eval_bind, eval_lookup, hmiss, hvalue]
    by_cases hzero : owner cfg l p = 0
    · simp only [hzero, if_true, ne_eq, not_true_eq_false, if_false, pure_eq, eval_ret]
    · simp only [hzero, if_false, ne_eq, not_false_eq_true, if_true, eval_bind, pure_eq, eval_ret]

end Represents

/-! ## 5. Registering and unregistering -/

theorem rangeHits_iff (hspace : InKeySpace cfg r.base r.size) (hp : p.toNat < keyBound cfg) :
    RangeHits cfg r.base r.size p ↔ r.Has cfg p := by
  constructor
  · rintro ⟨q, hq, hkey⟩
    obtain rfl := hkey.eq (hspace.lt hq) hp
    exact hq
  · intro hrp
    exact ⟨p, hrp, rfl, rfl⟩

theorem Segment.New.disjoint (hnew : r.New cfg l) {r' : Segment} (hr' : r' ∈ l)
    (hp : r.Has cfg p) : ¬ r'.Has cfg p := by
  intro hp'
  rcases (hnew.2.2.2 r' hr').2 with hle | hle
  · exact BitVec.not_lt.mpr (BitVec.le_trans hle hp'.1) hp.2
  · exact BitVec.not_lt.mpr (BitVec.le_trans hle hp.1) hp'.2

/-- The leaves of a new segment are stored, and the cache is emptied. -/
theorem Represents.insert (h : Represents cfg t l m) (hnew : r.New cfg l)
    (hm₁ : Stored cfg (RangeHits cfg r.base r.size) (r.seg ||| kLeafTag)
      (m.newObject r.seg r.base r.size) m₁)
    (ho : m₁.outOfMemory = false) : Represents cfg t (r :: l) (m₁.setCache t emptyCache) := by
  obtain ⟨hptr, hsize, hspace, hfree⟩ := hnew
  have hleaf : ∀ p, leafValue cfg (m.newObject r.seg r.base r.size) p = leafValue cfg m p :=
    fun p => rfl
  have hobject : (m₁.setCache t emptyCache).object =
      Function.update m.object r.seg (r.base, r.size) := hm₁.rest.object
  refine ⟨hm₁.heap.congr rfl rfl, fun r' hr' => ?_, fun r₁ hr₁ r₂ hr₂ p hp₁ hp₂ => ?_,
    fun r' hr' p hp => ?_, fun p hp hnone => ?_, fun e he => .inl ?_⟩
  · rw [hobject]
    rcases List.mem_cons.mp hr' with rfl | hr'
    · exact ⟨hptr, hsize, hspace, Function.update_self ..⟩
    · rw [Function.update_of_ne (hfree r' hr').1]
      exact h.segment r' hr'
  · rcases List.mem_cons.mp hr₁ with rfl | hold₁ <;> rcases List.mem_cons.mp hr₂ with rfl | hold₂
    · rfl
    · exact absurd hp₂ (Segment.New.disjoint ⟨hptr, hsize, hspace, hfree⟩ hold₂ hp₁)
    · exact absurd hp₁ (Segment.New.disjoint ⟨hptr, hsize, hspace, hfree⟩ hold₁ hp₂)
    · exact h.disjoint r₁ hold₁ r₂ hold₂ p hp₁ hp₂
  · change leafValue cfg m₁ p = _
    rcases List.mem_cons.mp hr' with rfl | hr'
    · exact hm₁.inside ho p ((rangeHits_iff hspace (hspace.lt hp)).mpr hp)
    · have hlt := (h.segment r' hr').2.2.1.lt hp
      rw [hm₁.outside ho p fun hhit => ?_, hleaf]
      · exact h.inside r' hr' p hp
      · exact Segment.New.disjoint ⟨hptr, hsize, hspace, hfree⟩ hr'
          ((rangeHits_iff hspace hlt).mp hhit) hp
  · change leafValue cfg m₁ p = _
    rw [hm₁.outside ho p fun hhit => ?_, hleaf]
    · exact h.outside p hp fun r' hr' => hnone r' (List.mem_cons_of_mem _ hr')
    · exact hnone r List.mem_cons_self ((rangeHits_iff hspace hp).mp hhit)
  · rw [Memory.setCache_cache_self] at he
    exact List.eq_of_mem_replicate he

/-- The leaves of a live segment are cleared, and the cache is emptied. -/
theorem Represents.remove (h : Represents cfg t l m) (hr : r ∈ l)
    (hm₁ : Stored cfg (RangeHits cfg r.base r.size) 0 m m₁) (ho : m₁.outOfMemory = false) :
    Represents cfg t (l.filter fun r' => r'.seg ≠ r.seg) (m₁.setCache t emptyCache) := by
  obtain ⟨hptr, hsize, hspace, hobject⟩ := h.segment r hr
  have hmem : ∀ {r'}, r' ∈ l.filter (fun r' => r'.seg ≠ r.seg) ↔ r' ∈ l ∧ r'.seg ≠ r.seg := by
    simp
  refine ⟨hm₁.heap.congr rfl rfl, fun r' hr' => ?_, fun r₁ hr₁ r₂ hr₂ => ?_, fun r' hr' p hp => ?_,
    fun p hp hnone => ?_, fun e he => .inl ?_⟩
  · change _ ∧ _ ∧ _ ∧ m₁.object r'.seg = _
    rw [hm₁.rest.object]
    exact h.segment r' (hmem.mp hr').1
  · exact h.disjoint r₁ (hmem.mp hr₁).1 r₂ (hmem.mp hr₂).1
  · change leafValue cfg m₁ p = _
    obtain ⟨hr', hne⟩ := hmem.mp hr'
    rw [hm₁.outside ho p fun hhit => ?_]
    · exact h.inside r' hr' p hp
    · have hlt := (h.segment r' hr').2.2.1.lt hp
      exact hne (congrArg Segment.seg
        (h.disjoint r' hr' r hr p hp ((rangeHits_iff hspace hlt).mp hhit)))
  · change leafValue cfg m₁ p = _
    by_cases hhit : RangeHits cfg r.base r.size p
    · exact hm₁.inside ho p hhit
    · rw [hm₁.outside ho p hhit]
      refine h.outside p hp fun r' hr' hp' => ?_
      by_cases hseg : r'.seg = r.seg
      · obtain rfl := h.eq_of_seg hr' hr hseg
        exact hhit ((rangeHits_iff hspace hp).mpr hp')
      · exact hnone r' (hmem.mpr ⟨hr', hseg⟩) hp'
  · rw [Memory.setCache_cache_self] at he
    exact List.eq_of_mem_replicate he

/-- One call: the memory comes to represent the live segments after it. -/
theorem represents_runOp {op : RegistryOp} (h : Represents cfg t l m)
    (hop : liveAfter cfg l op = some l') (ho : (runOp cfg t pick m op).outOfMemory = false) :
    Represents cfg t l' (runOp cfg t pick m op) := by
  cases op with
  | registerSegment seg base size =>
    simp only [liveAfter, Option.ite_none_right_eq_some, Option.some.injEq] at hop
    obtain ⟨hnew, rfl⟩ := hop
    have hobj : (m.newObject seg base size).object seg = (base, size) := Function.update_self ..
    simp only [runOp, registerSegment, bind_eq, act_bind, ret_bind, eval_readBase, eval_readSize,
      Memory.setReading_object, hobj, eval_bind] at ho ⊢
    have h₂ : ∀ x y, Represents cfg t l ((m.setReading t x).setReading t y) :=
      fun _ _ => h.recache rfl rfl rfl h.cache
    have hheap : ∀ x y, HeapInv cfg (((m.newObject seg base size).setReading t x).setReading t y) :=
      fun _ _ => h.heap.congr rfl rfl
    obtain ⟨m₁, hm₁, heval⟩ := stored_insertRange t pick (hheap _ _) base size seg
    rw [heval] at ho ⊢
    have hobj₁ : ∀ es, (m₁.setCache t es).object seg = (base, size) :=
      fun es => (congrFun hm₁.rest.object seg).trans hobj
    simp only [hobj₁] at ho ⊢
    have ho₁ : m₁.outOfMemory = false := by
      have hboth := eval_allocated (eval_allocated ho)
      exact hboth
    have hrep : Represents cfg t (⟨seg, base, size⟩ :: l) (m₁.setCache t emptyCache) :=
      (h₂ _ _).insert hnew hm₁ ho₁
    -- the lookup and the widening change the cache only
    have hread : ∀ x, Represents cfg t (⟨seg, base, size⟩ :: l)
        ((m₁.setCache t emptyCache).setReading t x) :=
      fun _ => hrep.recache rfl rfl rfl hrep.cache
    obtain ⟨-, hlookup, -⟩ := (hread (some (seg, base, none))).lookup pick
      (hnew.2.2.1.base_lt hnew.2.1)
    exact (hlookup.expand pick (r := ⟨seg, base, size⟩) List.mem_cons_self).1
  | unregisterSegment seg =>
    simp only [liveAfter, Option.ite_none_right_eq_some, Option.some.injEq] at hop
    obtain ⟨⟨r, hr, rfl⟩, rfl⟩ := hop
    obtain ⟨hptr, hsize, hspace, hobj⟩ := h.segment r hr
    simp only [runOp, unregisterSegment, bind_eq, act_bind, ret_bind, eval_readBase, eval_readSize,
      Memory.setReading_object, hobj, eval_bind] at ho ⊢
    have h₂ : ∀ x y, Represents cfg t l ((m.setReading t x).setReading t y) :=
      fun x y => h.recache rfl rfl rfl h.cache
    obtain ⟨m₁, hm₁, heval⟩ :=
      stored_removeRange t pick (h₂ _ _).heap r.base r.size
    rw [heval] at ho ⊢
    refine ((h₂ _ _).remove hr hm₁ ho).recache rfl rfl rfl fun e he => ?_
    have hempty : e ∈ emptyCache := by simpa [invalidateCache] using he
    exact .inl (List.eq_of_mem_replicate hempty)
  | find addr =>
    simp only [liveAfter, Option.ite_none_right_eq_some, Option.some.injEq] at hop
    obtain ⟨haddr, rfl⟩ := hop
    exact (h.find pick haddr).2.1

/-! ## 6. Result -/

theorem runOps_allocated (ops : List RegistryOp)
    (ho : (runOps cfg t pick m ops).outOfMemory = false) : m.outOfMemory = false := by
  induction ops generalizing m with
  | nil => exact ho
  | cons op ops ih =>
    have hnext : (runOp cfg t pick m op).outOfMemory = false := ih ho
    cases op with
    | registerSegment seg base size => exact eval_allocated (m := m.newObject seg base size) hnext
    | unregisterSegment seg => exact eval_allocated hnext
    | find addr => exact eval_allocated hnext

theorem represents_runOps (pick : Memory T → Word) {ops : List RegistryOp}
    (h : Represents cfg t l m)
    (hops : ops.foldlM (liveAfter cfg) l = some l')
    (ho : (runOps cfg t pick m ops).outOfMemory = false) :
    Represents cfg t l' (runOps cfg t pick m ops) := by
  induction ops generalizing l m with
  | nil =>
    obtain rfl : l = l' := Option.some.inj hops
    exact h
  | cons op ops ih =>
    rw [List.foldlM_cons] at hops
    obtain ⟨l₁, hop, hrest⟩ := Option.bind_eq_some_iff.mp hops
    have ho₁ : (runOp cfg t pick m op).outOfMemory = false := runOps_allocated ops ho
    exact ih (represents_runOp h hop ho₁) hrest ho

/-- One thread, any sequence of calls on disjoint segments whose pages have keys
    of their own: `find` returns the live segment that has the page of the
    address, or null if there is none. -/
theorem find_exact {ops : List RegistryOp} (hops : ops.foldlM (liveAfter cfg) [] = some l)
    (halloc : (runOps cfg t pick (initialMemory T cfg) ops).outOfMemory = false)
    (haddr : (pageOf cfg addr).toNat < keyBound cfg) :
    let found := ((find cfg addr).eval (exec t) pick
      (runOps cfg t pick (initialMemory T cfg) ops)).1
    (∀ r ∈ l, r.Has cfg (pageOf cfg addr) → found = r.seg) ∧
      ((∀ r ∈ l, ¬ r.Has cfg (pageOf cfg addr)) → found = 0) := by
  have hrep := represents_runOps pick represents_initial hops halloc
  have hfound := (hrep.find pick haddr).1
  refine ⟨fun r hr hp => hfound.trans (hrep.owner_eq hr hp), fun hnone => hfound.trans ?_⟩
  have hfind : (l.find? fun r => r.Has cfg (pageOf cfg addr)) = none :=
    List.find?_eq_none.mpr fun r hr => by simpa using hnone r hr
  rw [owner, hfind]
  rfl

/-- A segment of one and a half pages is used, unregistered, and its object and
    its first page are registered again for a smaller one. -/
def reusedObject : List RegistryOp :=
  [.registerSegment 0x10 0x100000 0x1800, .find 0x101900, .registerSegment 0x20 0x200000 0x1000,
    .unregisterSegment 0x10, .registerSegment 0x10 0x100000 0x800, .find 0x100900]

theorem find_exact_reused :
    ((find defaultConfig 0x101900).eval (exec ()) (firstFree [0x2000, 0x3000, 0x4000, 0x5000])
      (runOps defaultConfig () (firstFree [0x2000, 0x3000, 0x4000, 0x5000])
        (initialMemory Unit defaultConfig) reusedObject)).1 = 0 := by
  have hops : reusedObject.foldlM (liveAfter defaultConfig) [] =
      some [⟨0x10, 0x100000, 0x800⟩, ⟨0x20, 0x200000, 0x1000⟩] := by decide +kernel
  have halloc : (runOps defaultConfig () (firstFree [0x2000, 0x3000, 0x4000, 0x5000])
    (initialMemory Unit defaultConfig) reusedObject).outOfMemory = false := by decide +kernel
  exact (find_exact hops halloc (by decide +kernel)).2 (by decide +kernel)

end Memnon.Trie
