import Memnon.TrieRules
import Memnon.TriePages
import Memnon.Lib.Pool

/-!
# Lookups across threads

Any number of threads run `insert_range`, `remove_range` and `lookup` on one
trie. While the leaf slot of a page holds one value, a lookup of that page finds
it by the traversal, or by a cache entry filled with it. A cache entry filled
with an earlier value ends the lookup instead: it is evicted and the result is
null, although the comment on that branch says that the traversal follows.
-/

namespace Memnon.Trie

open Memnon.Lib Memnon.Lib.Prog

/-! ## 1. The system -/

inductive TrieOp where
  | insertRange (base size value : Word)
  | removeRange (base size : Word)
  | lookup (addr : Word)
deriving DecidableEq

/-- The pages whose leaves an operation changes, and what it stores there. -/
def TrieOp.Hits (cfg : Config) : TrieOp → Word → Prop
  | .insertRange base size _, q | .removeRange base size, q => RangeHits cfg base size q
  | .lookup _, _ => False

def TrieOp.leaf : TrieOp → Word
  | .insertRange _ _ value => value ||| kLeafTag
  | .removeRange _ _ | .lookup _ => 0

/-- Only pointers are inserted. -/
def TrieOp.Valid : TrieOp → Prop
  | .insertRange _ _ value => ValidPtr value
  | .removeRange _ _ | .lookup _ => True

instance : DecidablePred TrieOp.Valid
  | .insertRange _ _ value => inferInstanceAs (Decidable (ValidPtr value))
  | .removeRange _ _ | .lookup _ => inferInstanceAs (Decidable True)

variable {T : Type} [DecidableEq T]

def trieSystem (cfg : Config) : System T TrieOp Act Word (Memory T) Word Resp where
  exec := exec
  body
    | .insertRange base size value => do
        Trie.insertRange cfg base size value
        return 0
    | .removeRange base size => do
        Trie.removeRange cfg base size
        return 0
    | .lookup addr => Trie.lookup cfg addr
  enter _ op m :=
    match op with
    | .insertRange _ _ value => if ValidPtr value then some m else none
    | _ => some m
  leave _ _ _ m := m

abbrev TriePool (T : Type) := Pool T TrieOp Act (Memory T) Word Resp

/-! ## 2. The invariant -/

/-- Leaf slots hold tagged pointers, and every cache entry is empty or has the
    bounds and the leaf slot of one page. -/
structure LookupInv (cfg : Config) (m : Memory T) : Prop where
  heap : HeapInv cfg m
  leaf : ∀ p, leafValue cfg m p = 0 ∨ ∃ v, ValidPtr v ∧ leafValue cfg m p = v ||| kLeafTag
  cache : ∀ t, ∀ e ∈ m.cache t, e = {} ∨
    ∃ a v s, e = pageEntry cfg a v (some s) ∧ LeafAt cfg m (pageOf cfg a) s ∧ v &&& kLeafTag = 0

/-- What no thread does to another one, and to the nodes of the trie. -/
structure TrieRely (t : T) (m m' : Memory T) : Prop where
  linked : ∀ {n ws}, m.place n = .linked ws → m'.place n = .linked ws
  fresh : ∀ {n}, m.place n = .fresh t → m'.place n = .fresh t
  outOfMemory : m.outOfMemory = true → m'.outOfMemory = true
  cache : m'.cache t = m.cache t

omit [DecidableEq T] in
theorem TrieRely.refl (t : T) (m : Memory T) : TrieRely t m m := ⟨id, id, id, rfl⟩

omit [DecidableEq T] in
theorem TrieRely.trans {t : T} {m₁ m₂ m₃ : Memory T} (h : TrieRely t m₁ m₂)
    (h' : TrieRely t m₂ m₃) : TrieRely t m₁ m₃ :=
  ⟨fun hn => h'.linked (h.linked hn), fun hn => h'.fresh (h.fresh hn),
    fun ho => h'.outOfMemory (h.outOfMemory ho), h'.cache.trans h.cache⟩

/-- An operation changes leaves of its own range only, and to its own value. -/
def LeafChange (cfg : Config) (op : TrieOp) (m m' : Memory T) : Prop :=
  ∀ q, leafValue cfg m' q = leafValue cfg m q ∨
    op.Valid ∧ op.Hits cfg q ∧ leafValue cfg m' q = op.leaf

/-- Each thread guarantees to the others what they rely on, and where it stores. -/
def trieDiscipline (T : Type) [DecidableEq T] (cfg : Config) : Discipline T TrieOp (Memory T) where
  Inv := LookupInv cfg
  Rely := TrieRely
  Guar t op m m' := (∀ u, u ≠ t → TrieRely u m m') ∧ LeafChange cfg op m m'
  rely_refl := TrieRely.refl
  rely_trans := TrieRely.trans

/-- The context of an operation, while `K` is known to hold of every state. -/
def lookupContext (cfg : Config) (t : T) (K : Memory T → Prop) : Context (Memory T) where
  Inv m := LookupInv cfg m ∧ K m
  Rely := TrieRely t
  Guar m m' := ∀ u, u ≠ t → TrieRely u m m'
  rely_refl := TrieRely.refl t
  rely_trans := TrieRely.trans

/-- A context of the lookups of thread `t`: what it knows besides the invariant
    is about leaf values. -/
structure LookupContext (cfg : Config) (t : T) (Γ : Context (Memory T)) : Prop where
  inv : ∀ {m}, Γ.Inv m → LookupInv cfg m
  keep : ∀ {m m'}, Γ.Inv m → LookupInv cfg m' →
    (∀ p, leafValue cfg m' p = leafValue cfg m p) → Γ.Inv m'
  guar : ∀ {m m'}, (∀ u, u ≠ t → TrieRely u m m') →
    (∀ p, leafValue cfg m' p = leafValue cfg m p) → Γ.Guar m m'
  rely : ∀ {m m'}, Γ.Rely m m' → TrieRely t m m'

/-! ## 3. What the steps keep -/

section steps

variable {cfg : Config} {t u : T} {m m' : Memory T} {Γ : Context (Memory T)} {p v : Word} {s : Slot}

omit [DecidableEq T] in
theorem HeapStep.trieRely (h : HeapStep cfg t m m') (hut : u ≠ t) : TrieRely u m m' :=
  ⟨h.linked, h.fresh hut, h.outOfMemory, by rw [h.cache]⟩

omit [DecidableEq T] in
theorem LookupInv.heapStep (h : LookupInv cfg m) (hstep : HeapStep cfg t m m') :
    LookupInv cfg m' := by
  refine ⟨hstep.inv, fun p => by rw [hstep.leaf]; exact h.leaf p, fun t' e he => ?_⟩
  rw [hstep.cache] at he
  obtain rfl | ⟨a, v, s, rfl, hs, hv⟩ := h.cache t' e he
  · exact .inl rfl
  · exact .inr ⟨a, v, s, rfl, ⟨hstep.linked hs.1, hs.2⟩, hv⟩

omit [DecidableEq T] in
theorem LookupContext.heapContext (hΓ : LookupContext cfg t Γ) : HeapContext cfg t Γ where
  inv hi := (hΓ.inv hi).heap
  guar_refl m := hΓ.guar (fun u _ => TrieRely.refl u m) fun _ => rfl
  step hi hstep := ⟨hΓ.keep hi ((hΓ.inv hi).heapStep hstep) hstep.leaf,
    hΓ.guar (fun _ hut => hstep.trieRely hut) hstep.leaf⟩
  linked hR := (hΓ.rely hR).linked
  fresh hR := (hΓ.rely hR).fresh
  outOfMemory hR := (hΓ.rely hR).outOfMemory
  cache hR := (hΓ.rely hR).cache

omit [DecidableEq T] in
/-- A store of a tagged pointer or of null to a leaf slot. -/
theorem LookupInv.write (h : LookupInv cfg m) (hs : LeafAt cfg m p s) {x : Word}
    (hx : x = 0 ∨ ∃ v, ValidPtr v ∧ x = v ||| kLeafTag) : LookupInv cfg (m.write s.1 s.2 x) := by
  refine ⟨heapInv_write h.heap hs, fun q => ?_, fun t e he => ?_⟩
  · rw [leafValue_write h.heap hs]
    split
    · exact hx
    · exact h.leaf q
  · exact h.cache t e he

omit [DecidableEq T] in
theorem trieRely_write {n x : Word} {i : Nat} : TrieRely u m (m.write n i x) :=
  ⟨id, id, id, rfl⟩

omit [DecidableEq T] in
theorem leafChange_write (op : TrieOp) (hop : op.Valid) (h : HeapInv cfg m)
    (hs : LeafAt cfg m p s) (hp : ∀ q, SameKey cfg p q → op.Hits cfg q) :
    LeafChange cfg op m (m.write s.1 s.2 op.leaf) := by
  intro q
  rw [leafValue_write h hs]
  split
  · exact .inr ⟨hop, hp q ‹_›, rfl⟩
  · exact .inl rfl

/-- The thread puts entries of pages into its cache. -/
theorem LookupInv.setCache (h : LookupInv cfg m) {addr : Word} {es : List TlsEntry}
    (hes : LookupEntries cfg t m addr es) : LookupInv cfg (m.setCache t es) := by
  refine ⟨h.heap.congr rfl rfl, h.leaf, fun u e he => ?_⟩
  by_cases hut : u = t
  · subst hut
    rw [Memory.setCache_cache_self] at he
    obtain he | rfl | ⟨v, s, rfl, hs, hv⟩ := hes e he
    · exact h.cache u e he
    · exact .inl rfl
    · exact .inr ⟨addr, v, s, rfl, hs, hv⟩
  · rw [Memory.setCache_cache_of_ne hut] at he
    exact h.cache u e he

theorem trieRely_setCache {es : List TlsEntry} (hut : u ≠ t) : TrieRely u m (m.setCache t es) :=
  ⟨id, id, id, Memory.setCache_cache_of_ne hut⟩

omit [DecidableEq T] in
theorem lookupEntries_empty (addr : Word) : LookupEntries cfg t m addr emptyCache :=
  fun _ he => .inr (.inl (List.eq_of_mem_replicate he))

end steps

/-! ## 4. The operations -/

section operations

variable {cfg : Config} {t : T} {m : Memory T} {Γ : Context (Memory T)}

omit [DecidableEq T] in
theorem stable_true : Γ.Stable fun _ => True := fun _ _ _ => trivial

omit [DecidableEq T] in
theorem heapStable_true : HeapStable cfg t Γ fun _ => True := ⟨stable_true, fun _ _ _ => trivial⟩

theorem lookupContext_discipline (op : TrieOp) :
    LookupContext cfg t ((trieDiscipline T cfg).context t op) :=
  ⟨fun hi => hi, fun _ hi _ => hi, fun h hleaf => ⟨h, fun q => .inl (hleaf q)⟩, fun h => h⟩

/-- The loop over the pages of a range, and the invalidation after it: `A` is
    indexed by the pages that are left. -/
theorem wp_forPages (hΓ : LookupContext cfg t Γ) {A : List Word → Memory T → Prop}
    (hA : ∀ ps, Γ.Stable (A ps)) (hcache : ∀ m es, A [] m → A [] (m.setCache t es))
    {body : Word → TrieProg Unit}
    (hbody : ∀ p ps m, Γ.Inv m → A (p :: ps) m → (body p).wp (exec t) Γ (fun _ m => A ps m) m)
    {ps : List Word} (hm : A ps m) :
    ((ps.forM body).bind fun _ => invalidateCache).wp (exec t) Γ (fun _ m => A [] m) m := by
  refine wp_bind (wp_mono (wp_forM (P := A) (fun p ps m hm => ?_) (hA []) hm) fun _ m _ hm => ?_)
  · exact wp_of_rely fun m' hR hi => hbody p ps m' hi (hA _ hR hi hm)
  · refine wp_act (hA []) hm fun m hi hm c => ?_
    exact ⟨hΓ.keep hi ((hΓ.inv hi).setCache (lookupEntries_empty 0)) fun _ => rfl,
      hΓ.guar (fun u hut => trieRely_setCache hut) fun _ => rfl,
      wp_ret (hA []) (hcache m emptyCache hm) fun _ _ h => h⟩

theorem wp_insertRange (hΓ : LookupContext cfg t Γ) {base size value : Word}
    (hstore : ∀ m p s, Γ.Inv m → HasPage cfg base size p → LeafAt cfg m p s →
      Γ.Inv (m.write s.1 s.2 (value ||| kLeafTag)) ∧
        Γ.Guar m (m.write s.1 s.2 (value ||| kLeafTag))) :
    (Trie.insertRange cfg base size value).wp (exec t) Γ (fun _ _ => True) m := by
  refine wp_mono (wp_forPages hΓ (A := fun ps _ => ∀ p ∈ ps, HasPage cfg base size p)
    (fun _ _ _ _ _ h => h) (fun _ _ h => h) (fun p ps m hi hps => ?_)
    fun p hp => mem_pageRange.mp hp) fun _ _ _ _ => trivial
  have hrest : ∀ p ∈ ps, HasPage cfg base size p := fun p hp => hps p (List.mem_cons_of_mem _ hp)
  refine wp_insertPath hΓ.heapContext heapStable_true (fun _ _ h => h) (fun m s hi _ hs => ?_)
    (fun _ _ _ _ => hrest) (List.nil_append _) (hΓ.inv hi).heap.root trivial
  obtain ⟨hi', hg⟩ := hstore m p s hi (hps p List.mem_cons_self) hs
  exact ⟨hi', hg, hrest⟩

theorem wp_removeRange (hΓ : LookupContext cfg t Γ) {base size : Word}
    {A : List Word → Memory T → Prop} (hA : ∀ ps, Γ.Stable (A ps))
    (hcache : ∀ m es, A [] m → A [] (m.setCache t es))
    (hstore : ∀ m p ps s, Γ.Inv m → A (p :: ps) m → LeafAt cfg m p s →
      Γ.Inv (m.write s.1 s.2 0) ∧ Γ.Guar m (m.write s.1 s.2 0) ∧ A ps (m.write s.1 s.2 0))
    (hnone : ∀ m p ps, Γ.Inv m → A (p :: ps) m → leafValue cfg m p = 0 → A ps m)
    (hm : A (pageRange cfg base size) m) :
    (Trie.removeRange cfg base size).wp (exec t) Γ (fun _ m => A [] m) m := by
  refine wp_forPages hΓ hA hcache (fun p ps m hi hm => ?_) hm
  exact wp_clearPath hΓ.heapContext (hA (p :: ps)) (hA ps)
    (fun m s hi hm hs => hstore m p ps s hi hm hs)
    (fun m hi hm hzero => hnone m p ps hi hm hzero) (List.nil_append _) (hΓ.inv hi).heap.root hm

/-- A lookup while the leaf value of the page is known, from a thread whose
    cache is `es`. -/
theorem wp_lookup_value (hΓ : LookupContext cfg t Γ) {addr : Word} {es : List TlsEntry}
    (hm : m.cache t = es) :
    (Trie.lookup cfg addr).wp (exec t) Γ (fun r _ => ∀ v, ValidPtr v →
      (∀ m, Γ.Inv m → leafValue cfg m (pageOf cfg addr) = v ||| kLeafTag) →
      (r = v ↔ ∀ e ∈ es.find? (·.covers addr), e.seg = v)) m := by
  refine wp_lookup (A := fun m => m.cache t = es) hΓ.heapContext
    (fun hR _ hes => (hΓ.rely hR).cache.trans hes) (fun _ _ _ _ _ h => h) ?_ ?_ ?_ ?_ ?_ hm
  · intro m es' hi _ hes'
    exact ⟨hΓ.keep hi ((hΓ.inv hi).setCache hes') fun _ => rfl,
      hΓ.guar (fun _ hut => trieRely_setCache hut) fun _ => rfl, fun _ h => h⟩
  · rintro m e s - rfl hfind - - v - -
    simp [hfind]
  · -- the entry that covers the address was filled with another value
    rintro m e hi rfl hfind hstale v hv hleaf
    rw [hfind]
    refine ⟨fun h0 => absurd h0.symm hv.1, fun h => ?_⟩
    obtain rfl | ⟨a, w, s, rfl, hs, hw⟩ :=
      (hΓ.inv hi).cache t e (List.mem_of_find?_eq_some hfind)
    · exact absurd (List.find?_some hfind) (by simp [TlsEntry.covers])
    · have hpage := pageOf_eq_of_covers (List.find?_some hfind)
      have hwv : w = v := h _ rfl
      refine absurd ?_ (hstale s rfl)
      rw [← (hΓ.inv hi).heap.leafValue_of_leafAt hs, ← hpage, hleaf m hi]
      exact congrArg (· ||| kLeafTag) hwv.symm
  · rintro m hi - - hzero v - hleaf
    rw [hleaf m hi] at hzero
    exact absurd hzero (tag_ne_zero v)
  · rintro m hi rfl hfind - v hv hleaf
    rw [hleaf m hi, untag_tag hv.2, hfind]
    simp

end operations

/-! ## 5. Results -/

section results

variable {cfg : Config} {t : T} {p₀ p₁ p₂ : TriePool T} {addr v : Word}

/-- Every operation has a proof outline that keeps the invariant. -/
theorem trieOutline (cfg : Config) : Outline (trieSystem (T := T) cfg) (trieDiscipline T cfg)
    (fun _ _ _ => True) (fun _ _ => True) (fun _ _ _ _ => True) where
  compat hut _ _ hg := hg.1 _ (Ne.symm hut)
  rest _ _ h := h
  enter {t op m m'} hi _ _ henter := by
    have hm : m' = m ∧ ((trieSystem (T := T) cfg).body op).wp (exec t)
        ((trieDiscipline T cfg).context t op) (fun _ _ => True) m := by
      cases op with
      | insertRange base size value =>
        simp only [trieSystem] at henter
        split at henter
        · refine ⟨(Option.some.inj henter).symm, ?_⟩
          have hvalue : ValidPtr value := ‹_›
          refine wp_bind (wp_mono (wp_insertRange (lookupContext_discipline _)
            fun m p s hi hp hs => ?_) fun _ _ _ _ => wp_ret stable_true trivial fun _ _ h => h)
          refine ⟨LookupInv.write hi hs (.inr ⟨value, hvalue, rfl⟩), fun _ _ => trieRely_write, ?_⟩
          exact leafChange_write (.insertRange base size value) hvalue hi.heap hs
            fun q hq => ⟨p, hp, hq⟩
        · cases henter
      | removeRange base size =>
        refine ⟨(Option.some.inj henter).symm, ?_⟩
        refine wp_bind (wp_mono (wp_removeRange (lookupContext_discipline _)
          (A := fun ps _ => ∀ p ∈ ps, HasPage cfg base size p) (fun _ _ _ _ _ h => h)
          (fun _ _ h => h) (fun m p ps s hi hps hs => ?_)
          (fun _ _ _ _ hps _ p hp => hps p (List.mem_cons_of_mem _ hp))
          fun p hp => mem_pageRange.mp hp) fun _ _ _ _ => wp_ret stable_true trivial fun _ _ h => h)
        refine ⟨LookupInv.write hi hs (.inl rfl), ⟨fun _ _ => trieRely_write, ?_⟩,
          fun p hp => hps p (List.mem_cons_of_mem _ hp)⟩
        exact leafChange_write (.removeRange base size) trivial hi.heap hs
          fun q hq => ⟨p, hps p List.mem_cons_self, hq⟩
      | lookup addr =>
        refine ⟨(Option.some.inj henter).symm, ?_⟩
        exact wp_mono (wp_lookup_value (lookupContext_discipline _) rfl) fun _ _ _ _ => trivial
    obtain ⟨rfl, hbody⟩ := hm
    exact ⟨hi, fun u _ => TrieRely.refl u _, hbody⟩
  leave hi _ := ⟨hi, fun u _ => TrieRely.refl u _, trivial⟩

omit [DecidableEq T] in
theorem lookupInv_initial : LookupInv cfg (initialMemory T cfg) := by
  refine ⟨heapInv_initial, fun p => .inl ?_, fun t e he => .inl (List.eq_of_mem_replicate he)⟩
  unfold leafValue
  split <;> rfl

theorem trieGood_of_run (hreach : Steps (Pool.step (trieSystem cfg)) anyStep
    (Pool.idle (initialMemory T cfg)) p₀) :
    Outline.Good (trieSystem cfg) (trieDiscipline T cfg) (fun _ _ => True)
      (fun _ _ _ _ => True) p₀ :=
  (trieOutline cfg).good_of_run (Outline.good_idle lookupInv_initial fun _ => trivial)
    (hreach.mono fun _ l _ => by cases l <;> trivial)

/-- A lookup loads the leaf slot and the slots above it, and touches its cache
    before and after. -/
theorem lookup_within (addr : Word) : (lookup cfg addr).Within (cfg.levels + 2) := by
  have hpath : ∀ (leaf : Nat) (rest : List Nat) (cur : Word),
      (lookupPath leaf cur rest).Within (rest.length + 1) := by
    intro leaf rest
    induction rest with
    | nil =>
      intro cur
      simp only [lookupPath, bind_eq, act_bind, ret_bind, pure_eq]
      refine within_act fun raw => ?_
      split <;> trivial
    | cons idx rest ih =>
      intro cur
      simp only [lookupPath, bind_eq, act_bind, ret_bind, pure_eq]
      refine within_act fun raw => ?_
      split
      · trivial
      · exact ih raw
  have hpos := cfg.levels_pos
  simp only [lookup, bind_eq, act_bind, ret_bind, pure_eq]
  refine within_act fun entries => ?_
  split
  · split
    · refine (within_act (n := 1) fun raw => ?_).mono (by omega)
      split <;> exact within_act fun _ => trivial
    · exact (within_act (n := 0) fun _ => within_ret 0 _).mono (by omega)
  · refine (Within.bind (n := 1) (hpath _ _ _) fun r => ?_).mono ?_
    · split
      · exact within_act fun _ => trivial
      · trivial
    · rw [innerPath_length]
      omega

/-- The leaf slot of the page of `addr` holds `v`. -/
def HoldsValue (cfg : Config) (addr v : Word) (p : TriePool T) : Prop :=
  leafValue cfg p.shared (pageOf cfg addr) = v ||| kLeafTag

instance : Decidable (HoldsValue cfg addr v p₀) := inferInstanceAs (Decidable (_ = _))

/-- The steps of a run during which `t` does not return and the leaf slot of the
    page holds `v`. -/
def DuringLookup (cfg : Config) (t : T) (addr v : Word) (p : TriePool T)
    (l : PoolLabel T TrieOp Word) : Prop :=
  HoldsValue cfg addr v p ∧ l ≠ .ret t

/-- While the leaf slot of the page holds one value from the call on, the lookup
    returns, and it returns this value exactly if the calling thread's cache had
    no entry that covers the address or the first one was filled with it. -/
theorem lookup_returns_iff (hv : ValidPtr v)
    (hreach : Steps (Pool.step (trieSystem cfg)) anyStep (Pool.idle (initialMemory T cfg)) p₀)
    (hcall : p₀.step (trieSystem cfg) (.call t (.lookup addr)) = some p₁)
    (hrun : Steps (Pool.step (trieSystem cfg)) (DuringLookup cfg t addr v) p₁ p₂)
    (hend : HoldsValue cfg addr v p₂) :
    (∀ c, ∃ k p₃ r, k ≤ cfg.levels + 2 ∧
      replay (Pool.step (trieSystem cfg)) p₂ (List.replicate k (.act t c)) = some p₃ ∧
      p₃.running t = some (.lookup addr, .ret r)) ∧
    ∀ r, p₂.running t = some (.lookup addr, .ret r) →
      (r = v ↔ ∀ e ∈ (p₀.shared.cache t).find? (·.covers addr), e.seg = v) := by
  have hO := trieOutline (T := T) cfg
  have hgood₀ := trieGood_of_run hreach
  have hgood₁ := (hO.good_step hgood₀ (l := .call t (.lookup addr)) trivial hcall).1
  obtain ⟨hidle, rfl⟩ : p₀.running t = none ∧ p₁ = ⟨p₀.shared,
      Function.update p₀.running t (some (.lookup addr, lookup cfg addr))⟩ := by
    obtain ⟨_, hidle, henter, rfl⟩ := Pool.step_call _ hcall
    cases henter
    exact ⟨hidle, rfl⟩
  let Γ := lookupContext cfg t fun m => leafValue cfg m (pageOf cfg addr) = v ||| kLeafTag
  have hΓ : LookupContext cfg t Γ :=
    ⟨fun hi => hi.1, fun hi hi' hleaf => ⟨hi', (hleaf _).trans hi.2⟩, fun h _ => h, fun h => h⟩
  obtain ⟨prog, hprog, hwp⟩ := hO.observe (.lookup addr) Γ
    (K := HoldsValue cfg addr v)
    (fun p hg hK => ⟨hg.1, hK⟩)
    (fun p l p' hg _ _ _ hC hs hl => (hO.good_step hg hC hs).2 t hl)
    hgood₁ (fun _ => ⟨_, Function.update_self .., wp_lookup_value hΓ rfl⟩)
    (hrun.mono fun _ l h => ⟨by cases l <;> trivial, h.1, h.2⟩) hend
  refine ⟨fun c => ?_, fun r hr => ?_⟩
  · have hreach₂ : Steps (Pool.step (trieSystem cfg)) anyStep
        (Pool.idle (initialMemory T cfg)) p₂ :=
      (hreach.tail trivial hcall).trans (hrun.mono fun _ _ _ => trivial)
    have hwithin := Pool.within_of_run (trieSystem cfg) (lookup_within addr) hreach₂ hprog
    obtain ⟨k, p₃, a, hk, hreplay, hret⟩ := Pool.returns (trieSystem cfg) hwithin c hprog
    exact ⟨k, p₃, a, hk, hreplay, hret⟩
  · obtain rfl : prog = .ret r := (Prod.mk.inj (Option.some.inj (hprog.symm.trans hr))).2
    have hgood₂ := hO.good_of_run hgood₁
      (hrun.mono (D := fun p l => l.OnCall (fun _ _ _ => True) p.shared)
        fun _ l _ => by cases l <;> trivial)
    exact hwp _ (TrieRely.refl t _) ⟨hgood₂.1, hend⟩ v hv fun m hi => hi.2

instance : DecidablePred fun l => DuringLookup cfg t addr v p₀ l := fun _ =>
  inferInstanceAs (Decidable (_ ∧ _))

end results

/-! ## 6. A lookup that finds its value, and one that does not -/

/-- Insert one page into the empty trie. -/
def insertFirst (t : Bool) (base value : Word) : List (PoolLabel Bool TrieOp Word) :=
  PoolLabel.alone t (.insertRange base 0x1000 value)
    [0, 0x2000, 0, 0, 0x3000, 0, 0, 0x4000, 0, 0, 0]

/-- The schedule reaches a call of `lookup addr` by thread `true`, which then
    takes `n` steps, the leaf slot holding `v`, and is about to return `r`. -/
def LooksUp (before : List (PoolLabel Bool TrieOp Word)) (addr v : Word) (n : Nat) (r : Word) :
    Bool :=
  Steps.Watch (Pool.step (trieSystem defaultConfig)) anyStep
    (DuringLookup defaultConfig true addr v) (Pool.idle (initialMemory Bool defaultConfig)) before
    (.call true (.lookup addr)) (List.replicate n (.act true 0)) fun p₂ =>
  decide (HoldsValue defaultConfig addr v p₂ ∧ p₂.returned true = some (.lookup addr, r))

theorem LooksUp.states {before : List (PoolLabel Bool TrieOp Word)} {addr v : Word} {n : Nat}
    {r : Word} (h : LooksUp before addr v n r = true) :
    ∃ p₀ p₁ p₂ : TriePool Bool,
      Steps (Pool.step (trieSystem defaultConfig)) anyStep
        (Pool.idle (initialMemory Bool defaultConfig)) p₀ ∧
      p₀.step (trieSystem defaultConfig) (.call true (.lookup addr)) = some p₁ ∧
      Steps (Pool.step (trieSystem defaultConfig)) (DuringLookup defaultConfig true addr v) p₁ p₂ ∧
      HoldsValue defaultConfig addr v p₂ ∧ p₂.running true = some (.lookup addr, .ret r) := by
  obtain ⟨p₀, p₁, p₂, h₀, h₁, h₂, h⟩ := Steps.of_watch h
  obtain ⟨hend, hret⟩ := of_decide_eq_true h
  exact ⟨p₀, p₁, p₂, h₀, h₁, h₂, hend, Pool.returned_eq_some hret⟩

/-- A second lookup of a page that has not changed. -/
theorem lookup_returns_iff_cached :
    ∃ p₀ p₂ : TriePool Bool, p₂.running true = some (.lookup 0x100000, .ret 0x10) ∧
      ∀ e ∈ (p₀.shared.cache true).find? (·.covers 0x100000), e.seg = 0x10 := by
  have hrun : LooksUp (insertFirst true 0x100000 0x10 ++ PoolLabel.alone true (.lookup 0x100000)
      [0, 0, 0, 0, 0, 0]) 0x100000 0x10 3 0x10 = true := by decide +kernel
  obtain ⟨p₀, p₁, p₂, hreach, hcall, hwindow, hend, hret⟩ := LooksUp.states hrun
  exact ⟨p₀, p₂, hret,
    ((lookup_returns_iff (by decide) hreach hcall hwindow hend).2 0x10 hret).mp rfl⟩

/-- A thread that has looked the page up before another one removed it and
    inserted another value gets null. -/
theorem stale_lookup_null :
    ¬ ∀ (t : Bool) (addr v r : Word) (p₀ p₁ p₂ : TriePool Bool), ValidPtr v →
      Steps (Pool.step (trieSystem defaultConfig)) anyStep
        (Pool.idle (initialMemory Bool defaultConfig)) p₀ →
      p₀.step (trieSystem defaultConfig) (.call t (.lookup addr)) = some p₁ →
      Steps (Pool.step (trieSystem defaultConfig)) (DuringLookup defaultConfig t addr v) p₁ p₂ →
      HoldsValue defaultConfig addr v p₂ → p₂.running t = some (.lookup addr, .ret r) →
      r = v := by
  intro hall
  have hrun : LooksUp (insertFirst false 0x100000 0x10 ++
      PoolLabel.alone true (.lookup 0x100000) [0, 0, 0, 0, 0, 0] ++
      PoolLabel.alone false (.removeRange 0x100000 0x1000) [0, 0, 0, 0, 0] ++
      PoolLabel.alone false (.insertRange 0x100000 0x1000 0x20) [0, 0, 0, 0, 0])
      0x100000 0x20 3 0 = true := by decide +kernel
  obtain ⟨p₀, p₁, p₂, hreach, hcall, hwindow, hend, hret⟩ := LooksUp.states hrun
  exact absurd (hall true 0x100000 0x20 0 p₀ p₁ p₂ (by decide) hreach hcall hwindow hend hret)
    (by decide)

end Memnon.Trie
