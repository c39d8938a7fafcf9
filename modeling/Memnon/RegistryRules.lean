import Memnon.Registry

/-!
# The operations of the registry keep its invariant

What a thread does to its own cache and to the list of live segments, and one
rule for each operation.
-/

namespace Memnon.Trie

open Memnon.Lib Memnon.Lib.Prog

variable {T : Type} [DecidableEq T] {cfg : Config} {t u : T} {m : Memory T}
  {seg base size addr v : Word} {r : Live T}

/-! ## 1. The thread's own cache -/

/-- The thread rewrites its cache. -/
theorem RegistryInv.setCache (h : RegistryInv cfg m) {es : List TlsEntry}
    (hes : ∀ e ∈ es, e.seg &&& kLeafTag = 0 ∧
      ∀ s, e.leaf = some s → ∃ q, q.toNat < keyBound cfg ∧ LeafAt cfg m q s)
    (hfits : ∀ r ∈ m.live, CacheFits cfg m t r → CacheFits cfg (m.setCache t es) t r)
    (hreading : ∀ r ∈ m.live, ReadingFits cfg (m.setCache t es) t r) :
    RegistryInv cfg (m.setCache t es) where
  heap := h.heap.congr rfl rfl
  leaf := h.leaf
  live := h.live
  disjoint := h.disjoint
  cache u e he := by
    by_cases hut : u = t
    · subst hut
      rw [Memory.setCache_cache_self] at he
      exact hes e he
    · rw [Memory.setCache_cache_of_ne hut] at he
      exact h.cache u e he
  fits r hr u hu := by
    by_cases hut : u = t
    · subst hut
      exact hfits r hr (h.fits r hr u hu)
    · intro e he
      rw [Memory.setCache_cache_of_ne hut] at he
      exact h.fits r hr u hu e he
  reading r hr u := by
    by_cases hut : u = t
    · subst hut
      exact hreading r hr
    · intro b z hread top htop
      rw [Memory.setCache_cache_of_ne hut] at htop
      exact h.reading r hr u b z hread top htop

theorem registryRely_setCache {es : List TlsEntry} (hut : u ≠ t) :
    RegistryRely cfg u m (m.setCache t es) where
  linked := id
  fresh := id
  outOfMemory := id
  cache := Memory.setCache_cache_of_ne hut
  reading := rfl
  own _ _ := Iff.rfl
  pages _ _ _ _ _ := rfl
  warm hw := by
    intro r hr ho e he
    rw [Memory.setCache_cache_of_ne hut] at he
    exact hw r hr ho e he

/-- The bounds that `t` has read are those of the live segment at the object. -/
def ReadLive (cfg : Config) (t : T) (m : Memory T) : Prop :=
  ∀ seg b z, m.reading t = some (seg, b, z) → ∀ r ∈ m.live, r.seg = seg →
    BoundsIn cfg b (b + z.getD r.size) r.base r.size

omit [DecidableEq T] in
theorem ReadLive.readingFits (h : ReadLive cfg t m) (hr : r ∈ m.live) : ReadingFits cfg m t r :=
  fun b z hread _ _ _ _ _ _ _ _ => h _ b z hread r hr rfl

theorem lookupEntries_fit (h : RegistryInv cfg m) (haddr : (pageOf cfg addr).toNat < keyBound cfg)
    {es : List TlsEntry} (hes : LookupEntries cfg t m addr es) (hr : r ∈ m.live)
    (hf : CacheFits cfg m t r) : CacheFits cfg (m.setCache t es) t r := by
  intro e he hseg
  rw [Memory.setCache_cache_self] at he
  obtain he | rfl | ⟨v, s, rfl, hs, -⟩ := hes e he
  · exact hf e he hseg
  · intro s q hs
    cases hs
  · -- the entry of a page fits whatever has that page
    intro s' q hs' hslot hq a hlow hhigh
    obtain rfl := Option.some.inj hs'
    have hslot' : leafSlot cfg m q = some s := hslot
    have hpage : pageOf cfg a = pageOf cfg addr :=
      pageOf_eq_of_covers (v := v) (l := some s) (decide_eq_true ⟨hlow, hhigh⟩)
    have hqa := (h.heap.leafSlot_eq_some_iff.mp hslot').eq hs ((h.live r hr).2.1.lt hq) haddr
    rw [hpage, ← hqa]
    exact hq

/-- A lookup writes its cache back. -/
theorem RegistryInv.lookupEntries (h : RegistryInv cfg m)
    (haddr : (pageOf cfg addr).toNat < keyBound cfg) (hread : ReadLive cfg t m)
    {es : List TlsEntry} (hes : LookupEntries cfg t m addr es) :
    RegistryInv cfg (m.setCache t es) := by
  refine h.setCache (fun e he => ?_) (fun r hr => lookupEntries_fit h haddr hes hr)
    fun r hr => ReadLive.readingFits (m := m.setCache t es) hread hr
  obtain he | rfl | ⟨v, s, rfl, hs, hv⟩ := hes e he
  · exact h.cache t e he
  · exact ⟨rfl, fun s hs => (by cases hs)⟩
  · refine ⟨hv, fun s' hs' => ?_⟩
    obtain rfl := Option.some.inj hs'
    exact ⟨_, haddr, hs⟩

/-- Invalidating a cache makes it fit everything. -/
theorem RegistryInv.invalidate (h : RegistryInv cfg m) :
    RegistryInv cfg (m.setCache t emptyCache) ∧ Warm cfg (m.setCache t emptyCache) t := by
  have hempty : ∀ e ∈ emptyCache, e = {} := fun e he => List.eq_of_mem_replicate he
  have hfits : ∀ r, CacheFits cfg (m.setCache t emptyCache) t r := by
    intro r e he _ s q hs
    rw [Memory.setCache_cache_self] at he
    rw [hempty e he] at hs
    cases hs
  refine ⟨h.setCache (fun e he => ?_) (fun r _ _ => hfits r) fun r _ b z _ top htop _ s q hs => ?_,
    fun r _ _ => hfits r⟩
  · rw [hempty e he]
    exact ⟨rfl, fun s hs => (by cases hs)⟩
  · rw [Memory.setCache_cache_self] at htop
    rw [hempty top (List.mem_of_mem_head? htop)] at hs
    cases hs

/-- The thread notes which fields it has read. -/
theorem RegistryInv.setReading (h : RegistryInv cfg m) {x : Option (Word × Word × Option Word)}
    (hx : ∀ r ∈ m.live, ReadingFits cfg (m.setReading t x) t r) :
    RegistryInv cfg (m.setReading t x) where
  heap := h.heap.congr rfl rfl
  leaf := h.leaf
  live := h.live
  disjoint := h.disjoint
  cache := h.cache
  fits := h.fits
  reading r hr u := by
    by_cases hut : u = t
    · subst hut
      exact hx r hr
    · intro b z hread
      rw [Memory.setReading_reading_of_ne hut] at hread
      exact h.reading r hr u b z hread

theorem registryRely_setReading {x : Option (Word × Word × Option Word)} (hut : u ≠ t) :
    RegistryRely cfg u m (m.setReading t x) where
  linked := id
  fresh := id
  outOfMemory := id
  cache := rfl
  reading := Memory.setReading_reading_of_ne hut
  own _ _ := Iff.rfl
  pages _ _ _ _ _ := rfl
  warm := id

/-! ## 2. Reading the bounds of a segment and widening the newest entry -/

section bounds

variable {Γ : Context (Memory T)} {R : Type} {P : Memory T → Prop} {Q : R → Memory T → Prop}

/-- The base of an object is read. -/
theorem wp_readBase (hΓ : RegistryContext cfg t Γ) (hP : Γ.Stable P) (hm : P m)
    {k : Word → TrieProg R}
    (h : ∀ m, RegistryInv cfg m → P m →
      (k (m.object seg).1).wp (exec t) Γ Q
        (m.setReading t (some (seg, (m.object seg).1, none)))) :
    (act (.readBase seg) k).wp (exec t) Γ Q m := by
  refine wp_act hP hm fun m hi hm c => ⟨hΓ.inv.mpr ?_, hΓ.guar fun u hut =>
    registryRely_setReading hut, h m (hΓ.inv.mp hi) hm⟩
  refine (hΓ.inv.mp hi).setReading fun r hr b z hread top _ _ s q _ _ _ => ?_
  rw [Memory.setReading_reading_self] at hread
  obtain ⟨hseg, hb, rfl⟩ : seg = r.seg ∧ (m.object seg).1 = b ∧ none = z := by
    simpa using hread
  obtain ⟨-, hspace, hobject⟩ := (hΓ.inv.mp hi).live r hr
  rw [hseg, hobject] at hb
  rw [← hb]
  exact hspace.boundsIn

/-- The size of the same object is read. -/
theorem wp_readSize (hΓ : RegistryContext cfg t Γ) (hP : Γ.Stable P) (hm : P m) {b : Word}
    (hread : ∀ m, P m → m.reading t = some (seg, b, none)) {k : Word → TrieProg R}
    (h : ∀ m, RegistryInv cfg m → P m →
      (k (m.object seg).2).wp (exec t) Γ Q
        (m.setReading t (some (seg, b, some (m.object seg).2)))) :
    (act (.readSize seg) k).wp (exec t) Γ Q m := by
  refine wp_act hP hm fun m hi hm c => ?_
  have hexec : exec t (.readSize seg) c m =
      ((m.object seg).2, m.setReading t (some (seg, b, some (m.object seg).2))) := by
    simp only [exec, hread m hm, Option.map_some]
  rw [hexec]
  refine ⟨hΓ.inv.mpr ?_, hΓ.guar fun u hut => registryRely_setReading hut, h m (hΓ.inv.mp hi) hm⟩
  refine (hΓ.inv.mp hi).setReading fun r hr b' z hread' top htop hseg => ?_
  rw [Memory.setReading_reading_self] at hread'
  obtain ⟨hs, rfl, rfl⟩ : seg = r.seg ∧ b = b' ∧ some (m.object seg).2 = z := by
    simpa using hread'
  obtain ⟨-, -, hobject⟩ := (hΓ.inv.mp hi).live r hr
  have hfits : Fits cfg m r top.leaf b (b + (m.object seg).2) := by
    rw [hs, hobject]
    exact (hΓ.inv.mp hi).reading r hr t b none (hs ▸ hread m hm) top htop hseg
  exact hfits

/-- The newest entry is widened to the bounds that have been read. -/
theorem RegistryInv.expand {m : Memory T} (h : RegistryInv cfg m) {b z : Word} {top : TlsEntry}
    {rest : List TlsEntry} (hcache : m.cache t = top :: rest) (hseg : top.seg = seg)
    (hread : m.reading t = some (seg, b, some z)) :
    (∀ r ∈ m.live, CacheFits cfg m t r → CacheFits cfg
      (m.setCache t ({ top with base := b, end_ := b + z } :: rest)) t r) ∧
    RegistryInv cfg (m.setCache t ({ top with base := b, end_ := b + z } :: rest)) := by
  subst hseg
  have hfits : ∀ r ∈ m.live, CacheFits cfg m t r → CacheFits cfg
      (m.setCache t ({ top with base := b, end_ := b + z } :: rest)) t r := by
    intro r hr hf e he hseg
    rw [Memory.setCache_cache_self] at he
    rcases List.mem_cons.mp he with rfl | he
    · exact h.reading r hr t b (some z) (hseg ▸ hread) top (by rw [hcache]; rfl) hseg
    · exact hf e (by rw [hcache]; exact List.mem_cons_of_mem _ he) hseg
  refine ⟨hfits, h.setCache (fun e he => ?_) hfits fun r hr b' z' hread' top' htop' hseg' => ?_⟩
  · rcases List.mem_cons.mp he with rfl | he
    · exact h.cache t top (by rw [hcache]; exact List.mem_cons_self)
    · exact h.cache t e (by rw [hcache]; exact List.mem_cons_of_mem _ he)
  · rw [Memory.setCache_cache_self] at htop'
    obtain rfl := Option.some.inj htop'
    exact h.reading r hr t b' z' hread' top (by rw [hcache]; rfl) hseg'

/-- The rule for reading the bounds of `seg` and widening the newest entry. -/
theorem wp_expandToSegment (hΓ : RegistryContext cfg t Γ) {Q : Memory T → Prop} (hQ : Γ.Stable Q)
    (hQreading : ∀ m x, Q m → Q (m.setReading t x))
    (hQcache : ∀ m es, Q m →
      (∀ r ∈ m.live, CacheFits cfg m t r → CacheFits cfg (m.setCache t es) t r) →
      Q (m.setCache t es)) (hm : Q m) :
    (expandToSegment seg).wp (exec t) Γ (fun _ m => Q m) m := by
  have hreads : ∀ x : Option (Word × Word × Option Word),
      Γ.Stable fun m => Q m ∧ m.reading t = x :=
    fun x _ _ hR hi h => ⟨hQ hR hi h.1, (hΓ.rely hR).reading.trans h.2⟩
  simp only [expandToSegment, expandCacheBoundsTop, bind_eq, act_bind, ret_bind, pure_eq]
  refine wp_readBase hΓ hQ hm fun m _ hm => ?_
  refine wp_readSize hΓ (hreads _) ⟨hQreading _ _ hm, Memory.setReading_reading_self⟩
    (fun m h => h.2) fun m' _ hm' => ?_
  have hm₂ := hQreading _ (some (seg, (m.object seg).1, some (m'.object seg).2)) hm'.1
  refine wp_act (hreads _) ⟨hm₂, Memory.setReading_reading_self⟩ fun m₁ hi₁ hm₁ c =>
    ⟨hi₁, hΓ.heapContext.guar_refl m₁, ?_⟩
  simp only [exec]
  cases hcache : m₁.cache t with
  | nil => exact wp_ret hQ hm₁.1 fun _ _ h => h
  | cons top rest =>
    dsimp only
    split
    · rename_i hseg
      have hsame : Γ.Stable fun m₂ => (Q m₂ ∧ m₂.reading t =
          some (seg, (m.object seg).1, some (m'.object seg).2)) ∧ m₂.cache t = top :: rest :=
        fun hR hi h => ⟨hreads _ hR hi h.1, (hΓ.rely hR).cache.trans h.2⟩
      refine wp_act hsame ⟨hm₁, hcache⟩ fun m₂ hi₂ hq c => ?_
      obtain ⟨⟨hq₂, hread₂⟩, hcache₂⟩ := hq
      obtain ⟨hfits, hinv⟩ := (hΓ.inv.mp hi₂).expand hcache₂ hseg hread₂
      exact ⟨hΓ.inv.mpr hinv, hΓ.guar fun u hut => registryRely_setCache hut,
        wp_ret hQ (hQcache m₂ _ hq₂ hfits) fun _ _ h => h⟩
    · exact wp_ret hQ hm₁.1 fun _ _ h => h

end bounds

/-! ## 3. The operations -/

/-- `r` is the one segment that `t` is registering or unregistering. -/
def Owns (t : T) (r : Live T) (m : Memory T) : Prop :=
  r ∈ m.live ∧ ∀ r' ∈ m.live, r'.phase.owner = some t → r' = r

/-- What holds between the operations of `t`. -/
def Resting (t : T) (m : Memory T) : Prop :=
  (∀ r ∈ m.live, r.phase.owner ≠ some t) ∧ m.reading t = none

section operations

variable {Γ : Context (Memory T)} {A : Memory T → Prop}

omit [DecidableEq T] in
theorem RegistryContext.stable_owns (hΓ : RegistryContext cfg t Γ)
    (howner : r.phase.owner = some t) : Γ.Stable (Owns t r) :=
  fun hR _ ⟨hr, honly⟩ => ⟨((hΓ.rely hR).own r howner).mpr hr,
    fun r' hr' ho => honly r' (((hΓ.rely hR).own r' ho).mp hr') ho⟩

omit [DecidableEq T] in
theorem RegistryContext.stable_resting (hΓ : RegistryContext cfg t Γ) : Γ.Stable (Resting t) :=
  fun hR _ ⟨hnone, hread⟩ => ⟨fun r hr ho => hnone r (((hΓ.rely hR).own r ho).mp hr) ho,
    (hΓ.rely hR).reading.trans hread⟩

/-- What a lookup in the key space returns is null or the owner of the page. -/
theorem wp_lookup_owner (hΓ : RegistryContext cfg t Γ)
    (haddr : (pageOf cfg addr).toNat < keyBound cfg) (hA : Γ.Stable A)
    (hread : ∀ m, RegistryInv cfg m → A m → ReadLive cfg t m) (hwarm : ∀ m, A m → Warm cfg m t)
    {Q : Word → Memory T → Prop} (hQ : ∀ v, Γ.Stable (Q v))
    (hQcache : ∀ v m es, Q v m →
      (∀ r ∈ m.live, CacheFits cfg m t r → CacheFits cfg (m.setCache t es) t r) →
      Q v (m.setCache t es))
    (hnull : ∀ m, RegistryInv cfg m → A m → Q 0 m)
    (howner : ∀ m, RegistryInv cfg m → A m → ∀ r ∈ m.live,
      HasPage cfg r.base r.size (pageOf cfg addr) → Q r.seg m) (hm : A m) :
    (lookup cfg addr).wp (exec t) Γ Q m := by
  refine wp_lookup hΓ.heapContext hA hQ ?_ ?_ (fun m _ hi hA _ _ => hnull m (hΓ.inv.mp hi) hA)
    (fun m hi hA _ _ => hnull m (hΓ.inv.mp hi) hA) ?_ hm
  · intro m es hi hA hes
    have h := hΓ.inv.mp hi
    exact ⟨hΓ.inv.mpr (h.lookupEntries haddr (hread m h hA) hes),
      hΓ.guar fun u hut => registryRely_setCache hut,
      fun v hq => hQcache v m es hq fun r hr => lookupEntries_fit h haddr hes hr⟩
  · -- a checked entry fits the live segment whose pointer its leaf slot holds
    intro m e s hi hA hfind hs htag
    have h := hΓ.inv.mp hi
    obtain ⟨heven, hleaf⟩ := h.cache t e (List.mem_of_find?_eq_some hfind)
    obtain ⟨q, hlt, hq⟩ := hleaf s hs
    have hvalue := (h.heap.leafValue_of_leafAt hq).trans htag
    obtain ⟨r, hr, hpage, hr'⟩ := h.leaf q hlt (by rw [hvalue]; exact tag_ne_zero _)
    have hseg : e.seg = r.seg :=
      tag_inj heven (h.live r hr).1.2 (hvalue.symm.trans hr')
    have hfits : CacheFits cfg m t r := by
      by_cases hphase : r.phase = .registering t
      · exact hwarm m hA r hr (by rw [hphase]; rfl)
      · exact h.fits r hr t hphase
    have hcov : e.covers addr = true := List.find?_some hfind
    have hcovers : e.base ≤ addr ∧ addr < e.end_ := of_decide_eq_true hcov
    rw [hseg]
    exact howner m h hA r hr (hfits e (List.mem_of_find?_eq_some hfind) hseg s q hs
      (h.heap.leafSlot_eq_some_iff.mpr hq) hpage addr hcovers.1 hcovers.2)
  · intro m hi hA _ hne
    have h := hΓ.inv.mp hi
    obtain ⟨r, hr, hpage, hvalue⟩ := h.leaf _ haddr hne
    rw [hvalue, untag_tag (h.live r hr).1.2]
    exact howner m h hA r hr hpage

theorem wp_find (hΓ : RegistryContext cfg t Γ) (haddr : (pageOf cfg addr).toNat < keyBound cfg)
    {Q : Word → Memory T → Prop} (hQ : ∀ v, Γ.Stable (Q v))
    (hQcache : ∀ v m es, Q v m → Q v (m.setCache t es))
    (hQreading : ∀ v m x, Q v m → Q v (m.setReading t x))
    (hnull : ∀ m, RegistryInv cfg m → Resting t m → Q 0 m)
    (howner : ∀ m, RegistryInv cfg m → Resting t m → ∀ r ∈ m.live,
      HasPage cfg r.base r.size (pageOf cfg addr) → Q r.seg m) (hm : Resting t m) :
    (find cfg addr).wp (exec t) Γ Q m := by
  simp only [find, bind_eq, pure_eq]
  refine wp_bind (wp_mono (wp_lookup_owner hΓ haddr hΓ.stable_resting
    (fun m _ h seg b z hz => ?_) (fun m h r hr ho => absurd ho (h.1 r hr)) hQ
    (fun v m es h _ => hQcache v m es h) hnull howner hm) fun v m _ hq => ?_)
  · rw [h.2] at hz
    cases hz
  · split
    · exact wp_bind (wp_mono (wp_expandToSegment hΓ (hQ v) (hQreading v)
        (fun m es h _ => hQcache v m es h) hq) fun _ _ _ h => wp_ret (hQ v) h fun _ _ h => h)
    · exact wp_ret (hQ v) hq fun _ _ h => h

/-- The pages of the segment being registered are filled one after the other. -/
theorem wp_insertRange_own (hΓ : RegistryContext cfg t Γ) (howner : r.phase.owner = some t)
    (hm : Owns t r m) :
    (insertRange cfg r.base r.size r.seg).wp (exec t) Γ
      (fun _ m => Owns t r m ∧ Warm cfg m t) m := by
  have hown : Γ.Stable (Owns t r) := hΓ.stable_owns howner
  have hheap : HeapStable cfg t Γ (Owns t r) := ⟨hown, fun _ h hstep => by
    unfold Owns
    rw [hstep.live]
    exact h⟩
  let P : List Word → Memory T → Prop := fun rest m =>
    Owns t r m ∧ ∀ p ∈ rest, HasPage cfg r.base r.size p
  have hP : ∀ rest, Γ.Stable (P rest) := fun _ _ _ hR hi h => ⟨hown hR hi h.1, h.2⟩
  have hleaf : ∀ p rest m, P (p :: rest) m →
      (insertLeaf cfg p r.seg).wp (exec t) Γ (fun _ m => P rest m) m := by
    intro p rest m ⟨hm, hpages⟩
    have hrest : ∀ q ∈ rest, HasPage cfg r.base r.size q :=
      fun q hq => hpages q (List.mem_cons_of_mem _ hq)
    refine wp_of_rely fun m' hR hi => wp_insertPath hΓ.heapContext hheap (hP rest)
      (fun m s hi h hs => ?_) (fun m _ h _ => ⟨h, hrest⟩) (List.nil_append _)
      (hΓ.inv.mp hi).heap.root (hown hR hi hm)
    obtain ⟨hinv, hrely⟩ := (hΓ.inv.mp hi).write hs h.1 howner (hpages p List.mem_cons_self)
      (.inr rfl)
    exact ⟨hΓ.inv.mpr hinv, hΓ.guar hrely, h, hrest⟩
  simp only [insertRange, invalidateCache, bind_eq]
  refine wp_bind (wp_mono (wp_forM (P := P) hleaf (hP [])
    ⟨hm, fun p hp => mem_pageRange.mp hp⟩) fun _ m _ h => ?_)
  refine wp_act (hP []) h fun m hi h c => ?_
  obtain ⟨hinv, hwarm⟩ := (hΓ.inv.mp hi).invalidate (t := t)
  have hstable : Γ.Stable fun m => Owns t r m ∧ Warm cfg m t :=
    fun hR hi h => ⟨hown hR hi h.1, (hΓ.rely hR).warm h.2⟩
  have hpost : Owns t r (m.setCache t emptyCache) ∧ Warm cfg (m.setCache t emptyCache) t :=
    ⟨h.1, hwarm⟩
  exact ⟨hΓ.inv.mpr hinv, hΓ.guar fun u hut => registryRely_setCache hut,
    wp_ret hstable hpost fun _ _ h => h⟩

/-- The pages of the segment being unregistered are cleared one after the
    other. -/
theorem wp_removeRange_own (hΓ : RegistryContext cfg t Γ) (howner : r.phase.owner = some t)
    {Q : Memory T → Prop} (hQ : Γ.Stable Q)
    (hdone : ∀ m es, Owns t r m → (∀ p, HasPage cfg r.base r.size p → leafValue cfg m p = 0) →
      Q (m.setCache t es)) (hm : Owns t r m) :
    (removeRange cfg r.base r.size).wp (exec t) Γ (fun _ m => Q m) m := by
  have hown : Γ.Stable (Owns t r) := hΓ.stable_owns howner
  let P : List Word → Memory T → Prop := fun rest m =>
    (Owns t r m ∧ ∀ p ∈ rest, HasPage cfg r.base r.size p) ∧
      ∀ p, HasPage cfg r.base r.size p → p ∉ rest → leafValue cfg m p = 0
  have hP : ∀ rest, Γ.Stable (P rest) := fun _ _ _ hR hi h =>
    ⟨⟨hown hR hi h.1.1, h.1.2⟩, fun p hp hrest =>
      ((hΓ.rely hR).pages r h.1.1.1 howner p hp).trans (h.2 p hp hrest)⟩
  have hleaf : ∀ p rest m, P (p :: rest) m →
      (clearLeaf cfg p).wp (exec t) Γ (fun _ m => P rest m) m := by
    intro p rest m hm
    have hrest : ∀ q ∈ rest, HasPage cfg r.base r.size q :=
      fun q hq => hm.1.2 q (List.mem_cons_of_mem _ hq)
    refine wp_of_rely fun m' hR hi => wp_clearPath hΓ.heapContext (hP (p :: rest)) (hP rest)
      (fun m s hi h hs => ?_) (fun m _ h hzero => ?_) (List.nil_append _)
      (hΓ.inv.mp hi).heap.root (hP _ hR hi hm)
    · obtain ⟨hinv, hrely⟩ := (hΓ.inv.mp hi).write hs h.1.1.1 howner
        (h.1.2 p List.mem_cons_self) (.inl rfl)
      refine ⟨hΓ.inv.mpr hinv, hΓ.guar hrely, ⟨h.1.1, hrest⟩, fun q hq hqrest => ?_⟩
      rw [leafValue_write (hΓ.inv.mp hi).heap hs]
      split
      · rfl
      · rename_i hkey
        refine h.2 q hq fun hmem => ?_
        rcases List.mem_cons.mp hmem with rfl | hmem
        · exact hkey ⟨rfl, rfl⟩
        · exact hqrest hmem
    · refine ⟨⟨h.1.1, hrest⟩, fun q hq hqrest => ?_⟩
      by_cases hqp : q = p
      · rw [hqp]
        exact hzero
      · exact h.2 q hq fun hmem => (List.mem_cons.mp hmem).elim hqp hqrest
  simp only [removeRange, invalidateCache, bind_eq]
  refine wp_bind (wp_mono (wp_forM (P := P) hleaf (hP [])
    ⟨⟨hm, fun p hp => mem_pageRange.mp hp⟩, fun p hp hmem =>
      absurd (mem_pageRange.mpr hp) hmem⟩) fun _ m _ h => ?_)
  refine wp_act (hP []) h fun m hi h c => ?_
  exact ⟨hΓ.inv.mpr (hΓ.inv.mp hi).invalidate.1, hΓ.guar fun u hut => registryRely_setCache hut,
    wp_ret hQ (hdone m _ h.1.1 fun p hp => h.2 p hp List.not_mem_nil) fun _ _ h => h⟩

theorem Owns.setReading (h : Owns t r m) (x : Option (Word × Word × Option Word)) :
    Owns t r (m.setReading t x) := h

omit [DecidableEq T] in
/-- The object of the segment that `t` owns states its bounds. -/
theorem Owns.object (h : RegistryInv cfg m) (hm : Owns t r m) :
    (m.object r.seg).1 = r.base ∧ (m.object r.seg).2 = r.size := by
  rw [(h.live r hm.1).2.2]
  exact ⟨rfl, rfl⟩

theorem wp_registerSegment (hΓ : RegistryContext cfg t Γ) (howner : r.phase.owner = some t)
    (hsize : r.size ≠ 0) (hm : Owns t r m) :
    (registerSegment cfg r.seg).wp (exec t) Γ (fun _ m => Owns t r m ∧ Warm cfg m t) m := by
  have hown : Γ.Stable (Owns t r) := hΓ.stable_owns howner
  have hwarm : Γ.Stable fun m => Owns t r m ∧ Warm cfg m t :=
    fun hR hi h => ⟨hown hR hi h.1, (hΓ.rely hR).warm h.2⟩
  have hbase : ∀ b, Γ.Stable fun m => Owns t r m ∧ m.reading t = some (r.seg, b, none) :=
    fun b _ _ hR hi h => ⟨hown hR hi h.1, (hΓ.rely hR).reading.trans h.2⟩
  simp only [registerSegment, bind_eq, act_bind, ret_bind]
  refine wp_readBase hΓ hown hm fun m h hm => ?_
  rw [(hm.object h).1]
  refine wp_readSize hΓ (hbase r.base) ⟨hm.setReading _, Memory.setReading_reading_self⟩
    (fun m h => h.2) fun m h hm => ?_
  rw [(hm.1.object h).2]
  refine wp_bind (wp_mono (wp_insertRange_own hΓ howner (hm.1.setReading _)) fun _ m _ hm => ?_)
  refine wp_readBase hΓ hwarm hm fun m h hm => ?_
  rw [(hm.1.object h).1]
  have hkeep : ∀ (m : Memory T) es, Owns t r m ∧ Warm cfg m t →
      (∀ r ∈ m.live, CacheFits cfg m t r → CacheFits cfg (m.setCache t es) t r) →
      Owns t r (m.setCache t es) ∧ Warm cfg (m.setCache t es) t :=
    fun m es hm hfits => ⟨hm.1, fun r hr ho => hfits r hr (hm.2 r hr ho)⟩
  have hlooked : Γ.Stable fun m =>
      (Owns t r m ∧ Warm cfg m t) ∧ m.reading t = some (r.seg, r.base, none) :=
    fun hR hi h => ⟨hwarm hR hi h.1, (hΓ.rely hR).reading.trans h.2⟩
  refine wp_bind (wp_mono (wp_lookup_owner (Q := fun _ m => Owns t r m ∧ Warm cfg m t) hΓ
    ((h.live r hm.1.1).2.1.base_lt hsize) hlooked (fun m h hm => ?_) (fun m hm => hm.1.2)
    (fun _ => hwarm) (fun _ => hkeep) (fun m _ hm => hm.1) (fun m _ hm _ _ _ => hm.1)
    ⟨hm, Memory.setReading_reading_self⟩) fun _ m _ hm =>
    wp_expandToSegment hΓ hwarm (fun _ _ h => h) hkeep hm)
  -- a live segment at the same object has the same bounds
  intro seg b z hread r' hr' hseg
  rw [hm.2] at hread
  obtain ⟨rfl, rfl, rfl⟩ : r.seg = seg ∧ r.base = b ∧ none = z := by simpa using hread
  obtain ⟨-, hspace, hobject⟩ := h.live r' hr'
  rw [hseg, (h.live r hm.1.1.1).2.2] at hobject
  obtain ⟨hb, hz⟩ := Prod.mk.inj hobject
  rw [hb]
  exact hspace.boundsIn

theorem wp_unregisterSegment (hΓ : RegistryContext cfg t Γ) (howner : r.phase.owner = some t)
    (hm : Owns t r m) :
    (unregisterSegment cfg r.seg).wp (exec t) Γ (fun _ m => Owns t r m ∧
      ∀ p, HasPage cfg r.base r.size p → leafValue cfg m p = 0) m := by
  have hown : Γ.Stable (Owns t r) := hΓ.stable_owns howner
  have hbase : ∀ b, Γ.Stable fun m => Owns t r m ∧ m.reading t = some (r.seg, b, none) :=
    fun b _ _ hR hi h => ⟨hown hR hi h.1, (hΓ.rely hR).reading.trans h.2⟩
  have hcleared : Γ.Stable fun m => Owns t r m ∧
      ∀ p, HasPage cfg r.base r.size p → leafValue cfg m p = 0 :=
    fun hR hi h => ⟨hown hR hi h.1, fun p hp =>
      ((hΓ.rely hR).pages r h.1.1 howner p hp).trans (h.2 p hp)⟩
  simp only [unregisterSegment, invalidateCache, bind_eq, act_bind, ret_bind]
  refine wp_readBase hΓ hown hm fun m h hm => ?_
  rw [(hm.object h).1]
  refine wp_readSize hΓ (hbase r.base) ⟨hm.setReading _, Memory.setReading_reading_self⟩
    (fun m h => h.2) fun m h hm => ?_
  rw [(hm.1.object h).2]
  refine wp_bind (wp_mono (wp_removeRange_own hΓ howner hcleared (fun _ _ hm hp => ⟨hm, hp⟩)
    (hm.1.setReading _))
    fun _ m _ hm => wp_act hcleared hm fun m hi hm c => ?_)
  have hm' : Owns t r (m.setCache t emptyCache) ∧
      ∀ p, HasPage cfg r.base r.size p → leafValue cfg (m.setCache t emptyCache) p = 0 := hm
  exact ⟨hΓ.inv.mpr (hΓ.inv.mp hi).invalidate.1, hΓ.guar fun u hut => registryRely_setCache hut,
    wp_ret hcleared hm' fun _ _ h => h⟩

end operations

end Memnon.Trie
