import Memnon.OffsetPtrShared

/-!
# Tagged addresses

On Linux AArch64 the hardware ignores bits 63:56 of an address, and `ptr_to_vaddr`
clears them. The trie does not see them either, so `set` takes a tagged pointer and
finds its segment; but the tag stays in the file offset that it stores, where `get`
looks for a segment far behind the file.
-/

namespace Memnon.OffsetPtr

open Memnon.Lib
open Memnon.Trie (Config Represents SameKey keyBound pageOf sameKey_iff)

variable {M : Type}

/-! ## 1. Addresses and tags -/

/-- The address with a tag in bits 63:56. -/
def withTag (tag : BitVec 8) (addr : Word) : Word := tag.setWidth 64 <<< 56 ||| addr

section tags

variable {P : Platform} {cfg : Config} {tag : BitVec 8} {addr : Word}

theorem withTag_toNat (tag : BitVec 8) (haddr : addr.toNat < 2 ^ 56) :
    (withTag tag addr).toNat = tag.toNat * 2 ^ 56 + addr.toNat := by
  have htag := tag.isLt
  have hshift : (tag.setWidth 64 <<< 56).toNat = tag.toNat <<< 56 := by
    rw [BitVec.toNat_shiftLeft, BitVec.toNat_setWidth, Nat.mod_eq_of_lt (by omega),
      Nat.shiftLeft_eq, Nat.mod_eq_of_lt (by omega), Nat.shiftLeft_eq]
  rw [withTag, BitVec.toNat_or, hshift, ← Nat.shiftLeft_add_eq_or_of_lt haddr, Nat.shiftLeft_eq]

theorem withTag_zero (addr : Word) : withTag 0 addr = addr := by
  apply BitVec.eq_of_toNat_eq
  simp [withTag]

theorem tag_eq_zero (haddr : addr.toNat < 2 ^ 56) (h : withTag tag addr = addr) : tag = 0 := by
  have hsum := withTag_toNat tag haddr
  rw [h] at hsum
  apply BitVec.eq_of_toNat_eq
  show tag.toNat = 0
  omega

theorem ptrToVaddr_toNat (harch : P.arch = .linuxAArch64) (addr : Word) :
    (P.ptrToVaddr addr).toNat = addr.toNat % 2 ^ 56 := by
  rw [Platform.ptrToVaddr, harch]
  exact (BitVec.toNat_and ..).trans (Nat.and_two_pow_sub_one_eq_mod addr.toNat 56)

theorem ptrToVaddr_of_lt (harch : P.arch = .linuxAArch64) (haddr : addr.toNat < 2 ^ 56) :
    P.ptrToVaddr addr = addr := by
  apply BitVec.eq_of_toNat_eq
  rw [ptrToVaddr_toNat harch, Nat.mod_eq_of_lt haddr]

theorem ptrToVaddr_ptrToVaddr (harch : P.arch = .linuxAArch64) (addr : Word) :
    P.ptrToVaddr (P.ptrToVaddr addr) = P.ptrToVaddr addr := by
  apply ptrToVaddr_of_lt harch
  rw [ptrToVaddr_toNat harch]
  exact Nat.mod_lt _ (Nat.two_pow_pos 56)

/-- The tag is above the bits that the trie looks at. -/
theorem sameKey_withTag (hkeys : cfg.platform.pageShift + cfg.stride * cfg.levels ≤ 56)
    (haddr : addr.toNat < 2 ^ 56) :
    SameKey cfg (pageOf cfg (withTag tag addr)) (pageOf cfg addr) := by
  rw [sameKey_iff]
  simp only [pageOf, BitVec.toNat_ushiftRight, Nat.shiftRight_eq_div_pow, withTag_toNat tag haddr]
  have hpos : 0 < 2 ^ cfg.platform.pageShift := Nat.two_pow_pos _
  have hsplit : tag.toNat * 2 ^ 56 = tag.toNat * 2 ^ (56 - cfg.platform.pageShift -
      cfg.stride * cfg.levels) * keyBound cfg * 2 ^ cfg.platform.pageShift := by
    rw [keyBound, Nat.mul_assoc, Nat.mul_assoc, ← Nat.pow_add, ← Nat.pow_add]
    congr 2
    omega
  rw [hsplit, Nat.add_comm, Nat.add_mul_div_right _ _ hpos, Nat.add_mul_mod_self_right]

end tags

/-! ## 2. Storing and reading back -/

section calls

variable [DecidableEq M] (cfg : Config) (pick : Trie.Memory Unit → Word)
  (openShmChunk : M → Word → Word → Option Mapping)

/-- The pointer object at `self` is assigned `ptr` and read; with `asserts` the
    assertion at the end of `set` is compiled in. -/
def storeAndGet (asserts : Bool) (self ptr : Word) : Run M (Except SetError Word) := do
  match ← set cfg.platform (runtime cfg pick openShmChunk) self ptr with
  | .error e => return .error e
  | .ok mOffset =>
      if asserts && decide (ptr ≠ 0) && decide (mOffset = kNull) then fun _ => none
      else
        let addr ← get cfg.platform (runtime cfg pick openShmChunk) self mOffset
        return .ok addr

/-- Storing the address with the tag and without it both succeed, and the same
    address is read back. -/
def TagIgnored (asserts : Bool) (p : Process M) (self ptr : Word) (tag : BitVec 8) : Prop :=
  ∃ addr addr' p₁ p₂,
    storeAndGet cfg pick openShmChunk asserts self ptr p = some (.ok addr, p₁) ∧
    storeAndGet cfg pick openShmChunk asserts self (withTag tag ptr) p = some (.ok addr', p₂) ∧
    cfg.platform.ptrToVaddr addr = cfg.platform.ptrToVaddr addr'

end calls

/-! ## 3. Where get ends up -/

section resolution

variable [DecidableEq M] {cfg : Config} {pick : Trie.Memory Unit → Word}
  {openShmChunk : M → Word → Word → Option Mapping} {live : List (LiveSegment M)}
  {p p' : Process M} {s s' target : LiveSegment M} {self ptr addr mOffset fileOffset : Word}
  {mgr : M} {asserts : Bool} {tag : BitVec 8}

/-- Mapped below `2 ^ 56`, and elsewhere than the live segments. -/
def Apart (live : List (LiveSegment M)) (s : LiveSegment M) : Prop :=
  s.baseVaddr.toNat + s.size.toNat ≤ 2 ^ 56 ∧ ∀ s' ∈ live,
    Extent.Disjoint ⟨s.baseVaddr.toNat, s.size.toNat⟩ ⟨s'.baseVaddr.toNat, s'.size.toNat⟩

/-- What `mmap` promises: no mapping is at address 0, none reaches into the tag bits,
    and a new one does not overlap a live one. -/
structure CanonicalMappings (live : List (LiveSegment M))
    (openShmChunk : M → Word → Word → Option Mapping) : Prop where
  base_ne : ∀ s ∈ live, s.baseVaddr ≠ 0
  stop_le : ∀ s ∈ live, s.baseVaddr.toNat + s.size.toNat ≤ 2 ^ 56
  mapped : ∀ mgr e s, mapEntry openShmChunk mgr e = some s → Apart live s

/-- The objects in the managers' lists are those of live segments, or new ones that
    are mapped elsewhere. -/
def Known (live : List (LiveSegment M)) (p : Process M) : Prop :=
  ∀ mgr, ∀ seg ∈ p.segments mgr, ∃ s : LiveSegment M,
    p.object seg = s.toSegmentObject ∧ (s ∈ live ∨ Apart live s)

theorem Lists.known (h : Lists live p) : Known live p := by
  intro mgr seg hseg
  rw [h.segments] at hseg
  obtain ⟨s, hs, rfl⟩ := List.mem_map.mp hseg
  have hlive := (mem_segmentsOf.mp hs).1
  exact ⟨s, h.object s hlive, .inl hlive⟩

theorem Known.addSegment (h : Known live p) (hs : Apart live s) :
    Known live (p.addSegment cfg pick s.seg s.toSegmentObject) := by
  intro mgr seg hseg
  by_cases hnew : seg = s.seg
  · subst hnew
    exact ⟨s, Function.update_self .., .inr hs⟩
  · have hold : seg ∈ p.segments mgr := by
      have hlist :
          seg ∈ Function.update p.segments s.manager (p.segments s.manager ++ [s.seg]) mgr := hseg
      by_cases hmgr : mgr = s.manager
      · subst hmgr
        rw [Function.update_self] at hlist
        rcases List.mem_append.mp hlist with hold | hlast
        · exact hold
        · exact absurd (List.mem_singleton.mp hlast) hnew
      · rwa [Function.update_of_ne hmgr] at hlist
    obtain ⟨x, hx, hwhere⟩ := h mgr seg hold
    exact ⟨x, (Function.update_of_ne hnew _ _).trans hx, hwhere⟩

/-- Discovery maps new segments elsewhere. -/
theorem Known.discoverLoop (hcan : CanonicalMappings live openShmChunk) {es : List FileRange}
    (h : Known live p) (hrun : discoverLoop cfg pick openShmChunk mgr es p = some ((), p')) :
    Known live p' := by
  induction es generalizing p with
  | nil =>
    cases hrun
    exact h
  | cons e es ih =>
    rw [OffsetPtr.discoverLoop] at hrun
    cases hmap : openShmChunk mgr e.size e.fileOffset with
    | none =>
      rw [hmap] at hrun
      cases hrun
    | some mapping =>
      rw [hmap] at hrun
      have hentry : mapEntry openShmChunk mgr e = some ⟨discovered mgr e mapping, mapping.seg⟩ := by
        rw [mapEntry, hmap]
        rfl
      exact ih (h.addSegment (hcan.mapped mgr e _ hentry)) hrun

theorem Known.discoverGrowth (hcan : CanonicalMappings live openShmChunk) {found : Bool}
    (h : Known live p)
    (hrun : discoverGrowth cfg pick openShmChunk mgr fileOffset p = some (found, p')) :
    Known live p' := by
  unfold OffsetPtr.discoverGrowth at hrun
  split at hrun
  · cases hrun
    exact h
  · simp only at hrun
    split at hrun
    · cases hrun
    · rename_i hloop
      cases hrun
      exact h.discoverLoop hcan hloop

omit [DecidableEq M] in
/-- What a search finds is at the address that `get` makes of it. -/
theorem Known.findByFileOffset {found : SubSegment M} (hcan : CanonicalMappings live openShmChunk)
    (h : Known live p) (hfind : findByFileOffset mgr fileOffset p = some (some found, p')) :
    ∃ s : LiveSegment M, found = s.toSubSegment ∧ (s ∈ live ∨ Apart live s) ∧
      s.Contains (s.addrOf fileOffset) ∧ (s.addrOf fileOffset).toNat < 2 ^ 56 := by
  have hsearch : ((p.segments mgr).map fun seg => (p.object seg).toSubSegment).find?
      (·.coversFileOffset fileOffset) = some found := congrArg Prod.fst (Option.some.inj hfind)
  obtain ⟨seg, hseg, rfl⟩ := List.mem_map.mp (List.mem_of_find?_eq_some hsearch)
  have hcovers := List.find?_some hsearch
  obtain ⟨s, hobject, hwhere⟩ := h mgr seg hseg
  rw [hobject] at hcovers ⊢
  have hstop : s.baseVaddr.toNat + s.size.toNat ≤ 2 ^ 56 := by
    rcases hwhere with hlive | hapart
    · exact hcan.stop_le s hlive
    · exact hapart.1
  have hin := OffsetPtr.contains_addrOf (Nat.le_trans hstop (by decide)) hcovers
  exact ⟨s, rfl, hwhere, hin, Nat.lt_of_lt_of_le hin.2 hstop⟩

/-- An address of a live segment is in no other one. -/
theorem Maps.eq_of_contains (h : Maps cfg live p) (ht : target ∈ live) (hptr : target.Contains ptr)
    (hs : s ∈ live ∨ Apart live s) (hin : s.Contains ptr) : s = target := by
  rcases hs with hlive | hapart
  · exact h.eq_of_has hlive ht (h.has_of_contains hlive hin) (h.has_of_contains ht hptr)
  · have hdisjoint := hapart.2 target ht
    obtain ⟨hlow, hhigh⟩ := hin
    obtain ⟨hlow', hhigh'⟩ := hptr
    simp only [Extent.Disjoint, Extent.stop] at hdisjoint
    omega

/-- A pointer object in SHM that reads back an address in a live segment, but for its
    tag, stores the distance to the file offset of that address. -/
theorem Maps.get_into (h : Maps cfg live p) (hcan : CanonicalMappings live openShmChunk)
    (harch : cfg.platform.arch = .linuxAArch64) (hs : s ∈ live) (hshm : s.isAnon = false)
    (hself : s.Contains self) (ht : target ∈ live) (hptr : target.Contains ptr)
    (hget : OffsetPtr.get cfg.platform (runtime cfg pick openShmChunk) self mOffset p =
      some (addr, p'))
    (hsame : cfg.platform.ptrToVaddr addr = ptr) :
    s.fileOffsetOf self + mOffset = target.fileOffsetOf ptr := by
  have hcanonical : cfg.platform.ptrToVaddr self = self :=
    ptrToVaddr_of_lt harch (Nat.lt_of_lt_of_le hself.2 (hcan.stop_le s hs))
  have hne : addr ≠ 0 := by
    rintro rfl
    have hzero : ptr.toNat = 0 := by
      rw [← hsame, ptrToVaddr_toNat harch]
      rfl
    apply hcan.base_ne target ht
    apply BitVec.eq_of_toNat_eq
    have hlow := hptr.1
    show target.baseVaddr.toNat = 0
    omega
  have hhas := h.has_of_contains hs hself
  obtain ⟨p₁, hfind, hp₁⟩ := h.find pick (h.key_lt hs hhas)
  have hat : (liveRuntime cfg live).find self = some s.toSubSegment :=
    congrArg (Option.map fun r : LiveSegment M => r.toSubSegment) (h.segmentAt_eq hs hhas)
  have hanon : ¬ s.isAnon = true := by simp [hshm]
  -- whatever is found holds `ptr`, so it is the target
  have hfound : ∀ {q q' : Process M} {found : SubSegment M}, Known live q →
      findByFileOffset s.manager (s.fileOffsetOf self + mOffset) q = some (some found, q') →
      addr = found.addrOf (s.fileOffsetOf self + mOffset) →
      s.fileOffsetOf self + mOffset = target.fileOffsetOf ptr := by
    intro q q' found hq hsearch haddr
    obtain ⟨x, rfl, hwhere, hin, hlt⟩ := hq.findByFileOffset hcan hsearch
    rw [← haddr] at hin hlt
    rw [ptrToVaddr_of_lt harch hlt] at hsame
    subst hsame
    obtain rfl := h.eq_of_contains ht hptr hwhere hin
    rw [haddr, fileOffsetOf_addrOf]
  by_cases hnull : mOffset = kNull
  · rw [OffsetPtr.get, if_pos hnull] at hget
    cases hget
    exact absurd rfl hne
  · rw [OffsetPtr.get, if_neg hnull, hcanonical] at hget
    simp only [run_bind (x := findSegment cfg pick self) hfind, runtime, hat, if_neg hanon] at hget
    obtain ⟨first, p₂, hfirst, hget⟩ := run_bind_eq_some hget
    have hsame₂ : p₂ = p₁ := by
      cases hfirst
      rfl
    cases first with
    | some found =>
      cases hget
      exact hfound hp₁.maps.toLists.known hfirst rfl
    | none =>
      obtain ⟨more, p₃, hdiscover, hget⟩ := run_bind_eq_some hget
      cases more with
      | false =>
        cases hget
        exact absurd rfl hne
      | true =>
        obtain ⟨second, p₄, hsecond, hget⟩ := run_bind_eq_some hget
        cases second with
        | none =>
          cases hget
          exact absurd rfl hne
        | some found =>
          cases hget
          subst hsame₂
          exact hfound (hp₁.maps.toLists.known.discoverGrowth hcan hdiscover) hsecond rfl

/-! ## 4. What set stores -/

/-- The registry finds the segment of a tagged address. -/
theorem Maps.find_withTag (pick : Trie.Memory Unit → Word) (h : Maps cfg live p)
    (hkeys : cfg.platform.pageShift + cfg.stride * cfg.levels ≤ 56) (ht : target ∈ live)
    (hptr : target.Contains ptr) (hlt : ptr.toNat < 2 ^ 56) (tag : BitVec 8) :
    ∃ p', findSegment cfg pick (withTag tag ptr) p = some (some target.toSubSegment, p') ∧
      Searched cfg live p p' := by
  have hhas := h.has_of_contains ht hptr
  have hkey : SameKey cfg (pageOf cfg (withTag tag ptr)) (pageOf cfg ptr) :=
    sameKey_withTag hkeys hlt
  have hfound := h.registry.find_sameKey pick hkey (h.key_lt ht hhas)
  rw [h.registry.owner_eq (List.mem_map_of_mem ht) hhas] at hfound
  obtain ⟨found, p', hrun, hp'⟩ := h.find_keeps pick (withTag tag ptr)
  refine ⟨p', ?_, hp'⟩
  rw [hrun]
  have hvalue :
      found = if target.seg = 0 then none else some (p.object target.seg).toSubSegment := by
    have hfirst := congrArg (fun r => r.map Prod.fst) hrun
    simp only [findSegment, Option.map_some, Option.some.injEq] at hfirst
    rw [← hfirst, hfound]
    rfl
  rw [hvalue, if_neg (h.seg_ne_zero ht), h.object target ht]

/-- `set` succeeds, whatever the tag, and stores it. -/
theorem Maps.set_withTag (pick : Trie.Memory Unit → Word)
    (openShmChunk : M → Word → Word → Option Mapping) (h : Maps cfg live p)
    (hkeys : cfg.platform.pageShift + cfg.stride * cfg.levels ≤ 56)
    (hcanonical : cfg.platform.ptrToVaddr self = self) (hs : s ∈ live) (hshm : s.isAnon = false)
    (hself : s.Contains self) (ht : target ∈ live) (hmgr : target.manager = s.manager)
    (hptr : target.Contains ptr) (hlt : ptr.toNat < 2 ^ 56) (hne : withTag tag ptr ≠ 0) :
    ∃ p', OffsetPtr.set cfg.platform (runtime cfg pick openShmChunk) self (withTag tag ptr) p =
        some (.ok (target.fileOffsetOf (withTag tag ptr) - s.fileOffsetOf self), p') ∧
      Searched cfg live p p' := by
  have hhas := h.has_of_contains hs hself
  obtain ⟨p₁, hfind, hp₁⟩ := h.find pick (h.key_lt hs hhas)
  have hat : (liveRuntime cfg live).find self = some s.toSubSegment :=
    congrArg (Option.map fun r : LiveSegment M => r.toSubSegment) (h.segmentAt_eq hs hhas)
  have hanon : ¬ s.isAnon = true := by simp [hshm]
  obtain ⟨p₂, hfind₂, hp₂⟩ := hp₁.maps.find_withTag pick hkeys ht hptr hlt tag
  refine ⟨p₂, ?_, hp₁.trans hp₂⟩
  rw [OffsetPtr.set, if_neg hne, hcanonical]
  simp only [run_bind (x := findSegment cfg pick self) hfind, runtime, hat, if_neg hanon]
  refine (run_bind hfind₂).trans ?_
  simp only [hmgr, ne_eq, not_true_eq_false, if_false]
  rfl

/-! ## 5. The effect of a tag -/

/-- `this` may have a tag as well. -/
theorem storeAndGet_ptrToVaddr (harch : cfg.platform.arch = .linuxAArch64) (self ptr : Word) :
    storeAndGet cfg pick openShmChunk asserts (cfg.platform.ptrToVaddr self) ptr =
      storeAndGet cfg pick openShmChunk asserts self ptr := by
  simp only [storeAndGet, set, get, ptrToVaddr_ptrToVaddr harch]

/-- Storing and reading back, when `set` succeeds. -/
theorem storeAndGet_of_set (asserts : Bool) {p₁ : Process M} (hptr : ptr ≠ 0)
    (hset : set cfg.platform (runtime cfg pick openShmChunk) self ptr p = some (.ok mOffset, p₁)) :
    storeAndGet cfg pick openShmChunk asserts self ptr p =
      if asserts = true ∧ mOffset = kNull then none
      else (get cfg.platform (runtime cfg pick openShmChunk) self mOffset p₁).map
        fun r => (.ok r.1, r.2) := by
  refine (run_bind hset).trans ?_
  by_cases habort : asserts = true ∧ mOffset = kNull
  · have hcond : (asserts && decide (ptr ≠ 0) && decide (mOffset = kNull)) = true := by
      rw [habort.1, decide_eq_true hptr, decide_eq_true habort.2]
      rfl
    rw [if_pos habort]
    simp only [hcond, if_true]
  · have hcond : ¬ (asserts && decide (ptr ≠ 0) && decide (mOffset = kNull)) = true := by
      intro htrue
      simp only [Bool.and_eq_true, decide_eq_true_eq] at htrue
      exact habort ⟨htrue.1.1, htrue.2⟩
    rw [if_neg habort]
    simp only [if_neg hcond]
    show (get cfg.platform (runtime cfg pick openShmChunk) self mOffset p₁).bind _ = _
    cases get cfg.platform (runtime cfg pick openShmChunk) self mOffset p₁ <;> rfl

/-- Without a tag the address is read back, unless its distance is the sentinel. -/
theorem Maps.get_stored (pick : Trie.Memory Unit → Word)
    (openShmChunk : M → Word → Word → Option Mapping) (h : Maps cfg live p) {anon : M → Bool}
    (hc : Contiguous anon live) (hcanonical : cfg.platform.ptrToVaddr self = self) (hs : s ∈ live)
    (hshm : s.isAnon = false) (hself : s.Contains self) (ht : target ∈ live)
    (hmgr : target.manager = s.manager) (hptr : target.Contains ptr) (hnull : ptr ≠ 0)
    (hne : target.fileOffsetOf ptr - s.fileOffsetOf self ≠ kNull) :
    ∃ p', OffsetPtr.get cfg.platform (runtime cfg pick openShmChunk) self
      (target.fileOffsetOf ptr - s.fileOffsetOf self) p = some (ptr, p') := by
  have hhas := h.has_of_contains hs hself
  have hencodes : Encodes cfg live self ptr (target.fileOffsetOf ptr - s.fileOffsetOf self) := by
    rw [Encodes, if_neg hnull, h.segmentAt_eq hs hhas]
    simp only [hshm, Bool.false_eq_true, if_false]
    exact ⟨hne, target, mem_segmentsOf.mpr ⟨ht, hmgr⟩, hptr, rfl⟩
  obtain ⟨p', hget, -⟩ :=
    h.get_of_encodes pick openShmChunk hc hcanonical (h.key_lt hs hhas) hencodes
  exact ⟨p', hget⟩

/-- For every pointer object in SHM, tagged or not, every address in a segment of the
    same manager and every tag: the tag is ignored if and only if it is 0 (and `set`
    does not come upon its sentinel). -/
theorem tag_ignored_iff (h : Maps cfg live p) (hc : Contiguous p.anon live)
    (hcan : CanonicalMappings live openShmChunk) (harch : cfg.platform.arch = .linuxAArch64)
    (hkeys : cfg.platform.pageShift + cfg.stride * cfg.levels ≤ 56)
    (hs : s ∈ live) (hshm : s.isAnon = false)
    (hself : s.Contains (cfg.platform.ptrToVaddr self)) (ht : target ∈ live)
    (hmgr : target.manager = s.manager) (hptr : target.Contains ptr)
    (hasserts : asserts = true ∨
      target.fileOffsetOf ptr - s.fileOffsetOf (cfg.platform.ptrToVaddr self) ≠ kNull) :
    TagIgnored cfg pick openShmChunk asserts p self ptr tag ↔
      tag = 0 ∧
        target.fileOffsetOf ptr - s.fileOffsetOf (cfg.platform.ptrToVaddr self) ≠ kNull := by
  have hcanonical := ptrToVaddr_ptrToVaddr harch self
  unfold TagIgnored
  simp only [← storeAndGet_ptrToVaddr harch self]
  generalize cfg.platform.ptrToVaddr self = self at hself hasserts hcanonical ⊢
  have hlt : ptr.toNat < 2 ^ 56 := Nat.lt_of_lt_of_le hptr.2 (hcan.stop_le target ht)
  have hnull : ptr ≠ 0 := by
    rintro rfl
    apply hcan.base_ne target ht
    apply BitVec.eq_of_toNat_eq
    exact Nat.le_zero.mp hptr.1
  have hset : ∀ tag, ∃ p', set cfg.platform (runtime cfg pick openShmChunk) self
      (withTag tag ptr) p =
        some (.ok (target.fileOffsetOf (withTag tag ptr) - s.fileOffsetOf self), p') ∧
      withTag tag ptr ≠ 0 ∧ Searched cfg live p p' := by
    intro tag
    have hne : withTag tag ptr ≠ 0 := by
      intro hzero
      have hsum := withTag_toNat tag hlt
      rw [hzero] at hsum
      apply hnull
      apply BitVec.eq_of_toNat_eq
      change 0 = _ at hsum
      show ptr.toNat = 0
      omega
    obtain ⟨p', hrun, hp'⟩ := h.set_withTag pick openShmChunk hkeys hcanonical hs hshm hself ht
      hmgr hptr hlt hne
    exact ⟨p', hrun, hne, hp'⟩
  obtain ⟨p₁, hset₁, -, hp₁⟩ := hset 0
  rw [withTag_zero] at hset₁
  have hstored := storeAndGet_of_set asserts hnull hset₁
  constructor
  · rintro ⟨addr, addr', q, q', hrun, hrun', hsame⟩
    have hne : target.fileOffsetOf ptr - s.fileOffsetOf self ≠ kNull := by
      intro hsentinel
      rw [hstored, if_pos ⟨hasserts.resolve_right (not_not.mpr hsentinel), hsentinel⟩] at hrun
      cases hrun
    refine ⟨?_, hne⟩
    -- without the tag the address itself is read back
    have haddr : addr = ptr := by
      obtain ⟨p₂, hget⟩ := hp₁.maps.get_stored pick openShmChunk hc hcanonical hs hshm hself ht
        hmgr hptr hnull hne
      rw [hstored, if_neg fun habort => hne habort.2, hget] at hrun
      cases hrun
      rfl
    rw [haddr, ptrToVaddr_of_lt harch hlt] at hsame
    -- with the tag it is only if the tag has not moved the file offset
    obtain ⟨p₂, hset₂, hnull₂, hp₂⟩ := hset tag
    rw [storeAndGet_of_set asserts hnull₂ hset₂] at hrun'
    split at hrun'
    · cases hrun'
    · obtain ⟨⟨found, p₃⟩, hget, hfound⟩ := Option.map_eq_some_iff.mp hrun'
      cases hfound
      have hoffset := hp₂.maps.get_into hcan harch hs hshm hself ht hptr hget hsame.symm
      rw [add_sub_self] at hoffset
      apply tag_eq_zero hlt
      have hdist : withTag tag ptr - target.baseVaddr = ptr - target.baseVaddr := by
        simpa [SubSegment.fileOffsetOf] using hoffset
      rw [← add_sub_self target.baseVaddr (withTag tag ptr), hdist, add_sub_self]
  · rintro ⟨rfl, hne⟩
    obtain ⟨p₂, hget⟩ := hp₁.maps.get_stored pick openShmChunk hc hcanonical hs hshm hself ht
      hmgr hptr hnull hne
    rw [if_neg fun habort => hne habort.2, hget] at hstored
    rw [withTag_zero]
    exact ⟨ptr, ptr, p₂, p₂, hstored, hstored, rfl⟩

end resolution

/-- Linux AArch64 with pages of 4 KiB. -/
def topByteIgnored : Config :=
  { Trie.defaultConfig with platform := ⟨.linuxAArch64, 12, fourKiBPages.pageShift_lt⟩ }

/-- A SHM manager with one segment at 0x10000000. -/
def taggedProcess : Process Bool :=
  twoManagers.addSegment topByteIgnored heap firstChunk.seg firstChunk.toSegmentObject

theorem taggedProcess_maps : Maps topByteIgnored [firstChunk] taggedProcess := by
  have hadd : Pointers.CanAdd topByteIgnored id ⟨[], []⟩ firstChunk := by decide
  exact Maps.add (maps_nil rfl fun _ => rfl) hadd (by decide +kernel)

/-- Without a tag 0x10001004 is read back, by an object that is itself addressed with
    a tag. -/
theorem tag_ignored_untagged :
    TagIgnored topByteIgnored heap (fun _ _ _ => none) true taggedProcess
      0x2A00000010000010 0x10001004 0 := by
  have hc : Contiguous taggedProcess.anon [firstChunk] := by
    constructor
    · intro s hs
      obtain rfl := List.mem_singleton.mp hs
      rfl
    · intro mgr hmgr
      obtain rfl : mgr = false := hmgr
      decide
  have hcan : CanonicalMappings [firstChunk] (fun (_ : Bool) (_ _ : Word) => none) := by
    constructor
    · decide
    · decide
    · intro mgr e s hs
      cases hs
  have hdistance : firstChunk.fileOffsetOf 0x10001004 -
      firstChunk.fileOffsetOf (topByteIgnored.platform.ptrToVaddr 0x2A00000010000010) ≠ kNull := by
    decide
  exact (tag_ignored_iff taggedProcess_maps hc hcan rfl (by decide) List.mem_cons_self rfl
    (by decide) List.mem_cons_self rfl (by decide) (.inl rfl)).mpr ⟨rfl, hdistance⟩

/-- With tag 1 the same address is stored, and null is read back. -/
theorem tagged_pointer_lost :
    (storeAndGet topByteIgnored heap (fun _ _ _ => none) true 0x10000010
      (withTag 1 0x10001004) taggedProcess).map Prod.fst = some (.ok 0) ∧
    ¬ TagIgnored topByteIgnored heap (fun _ _ _ => none) true taggedProcess
      0x10000010 0x10001004 1 := by
  have hplain : (storeAndGet topByteIgnored heap (fun _ _ _ => none) true 0x10000010 0x10001004
      taggedProcess).map Prod.fst = some (.ok 0x10001004) := by
    decide +kernel
  have htagged : (storeAndGet topByteIgnored heap (fun _ _ _ => none) true 0x10000010
      (withTag 1 0x10001004) taggedProcess).map Prod.fst = some (.ok 0) := by
    decide +kernel
  refine ⟨htagged, ?_⟩
  rintro ⟨addr, addr', p, p', hrun, hrun', hsame⟩
  rw [hrun] at hplain
  rw [hrun'] at htagged
  cases hplain
  cases htagged
  exact absurd hsame (by decide)

end Memnon.OffsetPtr
