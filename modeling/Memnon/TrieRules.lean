import Memnon.TrieHeap

/-!
# Rules for the walks

One rule for each walk of the trie, in any context that tolerates the steps of
node allocation: what the caller has to show is about the leaf slot only.
-/

namespace Memnon.Trie

open Memnon.Lib Memnon.Lib.Prog

variable {T : Type} [DecidableEq T] {cfg : Config} {t : T} {m : Memory T} {Γ : Context (Memory T)}

/-- A context of thread `t` to which allocating and publishing nodes is
    invisible. -/
structure HeapContext (cfg : Config) (t : T) (Γ : Context (Memory T)) : Prop where
  inv : ∀ {m}, Γ.Inv m → HeapInv cfg m
  guar_refl : ∀ m, Γ.Guar m m
  step : ∀ {m m'}, Γ.Inv m → HeapStep cfg t m m' → Γ.Inv m' ∧ Γ.Guar m m'
  linked : ∀ {m m' n ws}, Γ.Rely m m' → m.place n = .linked ws → m'.place n = .linked ws
  fresh : ∀ {m m' n}, Γ.Rely m m' → m.place n = .fresh t → m'.place n = .fresh t
  outOfMemory : ∀ {m m' : Memory T}, Γ.Rely m m' → m.outOfMemory = true → m'.outOfMemory = true
  cache : ∀ {m m' : Memory T}, Γ.Rely m m' → m'.cache t = m.cache t

/-- An assertion that neither interference nor node allocation breaks. -/
structure HeapStable (cfg : Config) (t : T) (Γ : Context (Memory T)) (A : Memory T → Prop) :
    Prop where
  rely : Γ.Stable A
  step : ∀ {m m'}, Γ.Inv m → A m → HeapStep cfg t m m' → A m'

/-! ## 1. The actions of the heap -/

section actions

variable {R : Type} {Q : R → Memory T → Prop} {P : Memory T → Prop} {ws : List Nat} {cur a : Word}
  {idx : Nat}

theorem wp_load (hΓ : HeapContext cfg t Γ) (hP : Γ.Stable P) (hm : P m) {k : Word → TrieProg R}
    (h : ∀ m, Γ.Inv m → P m → (k (m.slot cur idx)).wp (exec t) Γ Q m) :
    (act (.load cur idx) k).wp (exec t) Γ Q m :=
  wp_act hP hm fun m hi hm _ => ⟨hi, hΓ.guar_refl m, h m hi hm⟩

theorem wp_newNode (hΓ : HeapContext cfg t Γ) (hP : Γ.Stable P) (hm : P m) {k : Word → TrieProg R}
    (hnew : ∀ m m' a, Γ.Inv m → P m → a ≠ 0 → HeapStep cfg t m m' → m'.place a = .fresh t →
      (k a).wp (exec t) Γ Q m')
    (hfail : ∀ m m', Γ.Inv m → P m → HeapStep cfg t m m' → m'.outOfMemory = true →
      (k 0).wp (exec t) Γ Q m') :
    (act .newNode k).wp (exec t) Γ Q m := by
  refine wp_act hP hm fun m hi hm c => ?_
  by_cases hc : c ≠ 0 ∧ c &&& 63#64 = 0 ∧ m.place c = .free
  · have hexec : exec t .newNode c m = (c, (m.construct c).setPlace c (.fresh t)) := if_pos hc
    have hstep := heapStep_newNode (t := t) (hΓ.inv hi) hc.1 hc.2.2
    obtain ⟨hi', hg⟩ := hΓ.step hi hstep
    rw [hexec]
    exact ⟨hi', hg, hnew m _ c hi hm hc.1 hstep (Function.update_self ..)⟩
  · have hexec : exec t .newNode c m = ((0 : Word), { m with outOfMemory := true }) := if_neg hc
    have hstep := heapStep_outOfMemory (t := t) (hΓ.inv hi)
    obtain ⟨hi', hg⟩ := hΓ.step hi hstep
    rw [hexec]
    exact ⟨hi', hg, hfail m _ hi hm hstep rfl⟩

/-- Publishing a fresh node: it is linked, or another thread was first. -/
theorem wp_publish (hΓ : HeapContext cfg t Γ) (hP : Γ.Stable P) (hm : P m)
    (hat : ∀ m, P m → m.place cur = .linked ws ∧ m.place a = .fresh t)
    (hlen : ws.length + 1 < cfg.levels) {k : Word → TrieProg R}
    (hwon : ∀ m m', Γ.Inv m → P m → HeapStep cfg t m m' → m'.place a = .linked (ws ++ [idx]) →
      (k 0).wp (exec t) Γ Q m')
    (hlost : ∀ m, Γ.Inv m → P m → m.slot cur idx ≠ 0 →
      (k (m.slot cur idx)).wp (exec t) Γ Q m) :
    (act (.compareExchange cur idx 0 a) k).wp (exec t) Γ Q m := by
  refine wp_act hP hm fun m hi hm c => ?_
  obtain ⟨hcur, ha⟩ := hat m hm
  by_cases hzero : m.slot cur idx = 0
  · have hexec : exec t (.compareExchange cur idx 0 a) c m =
        ((0 : Word), (m.write cur idx a).setPlace a (.linked (ws ++ [idx]))) := by
      simp only [exec, hzero, hcur, Place.child, if_true]
    have hstep := heapStep_link (hΓ.inv hi) hcur hlen hzero ha
    obtain ⟨hi', hg⟩ := hΓ.step hi hstep
    rw [hexec]
    exact ⟨hi', hg, hwon m _ hi hm hstep (Function.update_self ..)⟩
  · have hexec : exec t (.compareExchange cur idx 0 a) c m = (m.slot cur idx, m) := by
      simp only [exec, if_neg hzero]
    rw [hexec]
    exact ⟨hi, hΓ.guar_refl m, hlost m hi hm hzero⟩

theorem wp_deleteNode (hΓ : HeapContext cfg t Γ) (hP : Γ.Stable P) (hm : P m)
    (hat : ∀ m, P m → m.place a = .fresh t) {k : Unit → TrieProg R}
    (h : ∀ m m', Γ.Inv m → P m → HeapStep cfg t m m' → (k ()).wp (exec t) Γ Q m') :
    (act (.deleteNode a) k).wp (exec t) Γ Q m := by
  refine wp_act hP hm fun m hi hm c => ?_
  have hstep := heapStep_deleteNode (hΓ.inv hi) (hat m hm)
  obtain ⟨hi', hg⟩ := hΓ.step hi hstep
  exact ⟨hi', hg, h m _ hi hm hstep⟩

end actions

/-! ## 2. The walks -/

section walks

variable {A : Memory T → Prop} {p v : Word} {ws rest : List Nat} {cur : Word}

omit [DecidableEq T] in
/-- The position of a walk is stable. -/
theorem stable_at (hΓ : HeapContext cfg t Γ) (hA : Γ.Stable A) :
    Γ.Stable fun m => A m ∧ m.place cur = .linked ws :=
  fun hR hi ⟨hA', hcur⟩ => ⟨hA hR hi hA', hΓ.linked hR hcur⟩

/-- A walk that has indices left is above the leaf level. -/
theorem depth_of_path {idx : Nat} (hpath : ws ++ idx :: rest = innerPath cfg p) :
    ws.length + 1 < cfg.levels := by
  have hlen := congrArg List.length hpath
  rw [innerPath_length, List.length_append, List.length_cons] at hlen
  omega

theorem wp_insertPath (hΓ : HeapContext cfg t Γ) (hA : HeapStable cfg t Γ A)
    {Q : Memory T → Prop} (hQ : Γ.Stable Q)
    (hstore : ∀ m s, Γ.Inv m → A m → LeafAt cfg m p s →
      Γ.Inv (m.write s.1 s.2 (v ||| kLeafTag)) ∧ Γ.Guar m (m.write s.1 s.2 (v ||| kLeafTag)) ∧
        Q (m.write s.1 s.2 (v ||| kLeafTag)))
    (hoom : ∀ m, Γ.Inv m → A m → m.outOfMemory = true → Q m)
    (hpath : ws ++ rest = innerPath cfg p) (hcur : m.place cur = .linked ws) (hm : A m) :
    (insertPath v (leafIdx cfg p) cur rest).wp (exec t) Γ (fun _ m => Q m) m := by
  induction rest generalizing ws cur m with
  | nil =>
    refine wp_act (stable_at hΓ hA.rely) ⟨hm, hcur⟩ fun m hi ⟨hm, hcur⟩ c => ?_
    rw [List.append_nil] at hpath
    obtain ⟨hi', hg, hq⟩ := hstore m (cur, leafIdx cfg p) hi hm ⟨hpath ▸ hcur, rfl⟩
    exact ⟨hi', hg, wp_ret hQ hq fun _ _ h => h⟩
  | cons idx rest ih =>
    have hnext : (ws ++ [idx]) ++ rest = innerPath cfg p := by simpa using hpath
    have hlen := depth_of_path hpath
    simp only [insertPath, bind_eq, act_bind, ret_bind, pure_eq]
    refine wp_load hΓ (stable_at hΓ hA.rely) ⟨hm, hcur⟩ fun m hi ⟨hm, hcur⟩ => ?_
    split
    · -- no child: allocate one and try to publish it
      refine wp_newNode hΓ (stable_at hΓ hA.rely) ⟨hm, hcur⟩ ?_ ?_
      · rintro m m₁ a hi ⟨hm, hcur⟩ ha0 hstep ha
        rw [if_neg ha0]
        have hheld : ∀ x y,
            Γ.Stable fun m => (A m ∧ m.place x = .linked y) ∧ m.place a = .fresh t :=
          fun _ _ _ _ hR hi ⟨h, hf⟩ => ⟨stable_at hΓ hA.rely hR hi h, hΓ.fresh hR hf⟩
        refine wp_publish hΓ (hheld cur ws) ⟨⟨hA.step hi hm hstep, hstep.linked hcur⟩, ha⟩
          (fun m h => ⟨h.1.2, h.2⟩) hlen ?_ ?_
        · rintro m m₂ hi ⟨⟨hm, -⟩, -⟩ hstep ha
          rw [if_pos rfl]
          exact ih hnext ha (hA.step hi hm hstep)
        · rintro m hi ⟨⟨hm, hcur⟩, ha⟩ hne
          rw [if_neg hne]
          have hchild := (hΓ.inv hi).child hcur hlen hne
          refine wp_deleteNode hΓ (hheld _ _) ⟨⟨hm, hchild⟩, ha⟩ (fun m h => h.2) ?_
          rintro m₁ m₂ hi ⟨⟨hm, hchild⟩, -⟩ hstep
          exact ih hnext (hstep.linked hchild) (hA.step hi hm hstep)
      · rintro m m₁ hi ⟨hm, -⟩ hstep ho
        rw [if_pos rfl]
        have hfailed : Γ.Stable fun m => A m ∧ m.outOfMemory = true :=
          fun hR hi ⟨h, ho⟩ => ⟨hA.rely hR hi h, hΓ.outOfMemory hR ho⟩
        exact wp_ret hfailed ⟨hA.step hi hm hstep, ho⟩ fun m hi ⟨h, ho⟩ => hoom m hi h ho
    · rename_i hne
      exact ih hnext ((hΓ.inv hi).child hcur hlen hne) hm

theorem wp_clearPath (hΓ : HeapContext cfg t Γ) (hA : Γ.Stable A)
    {Q : Memory T → Prop} (hQ : Γ.Stable Q)
    (hstore : ∀ m s, Γ.Inv m → A m → LeafAt cfg m p s →
      Γ.Inv (m.write s.1 s.2 0) ∧ Γ.Guar m (m.write s.1 s.2 0) ∧ Q (m.write s.1 s.2 0))
    (hnone : ∀ m, Γ.Inv m → A m → leafValue cfg m p = 0 → Q m)
    (hpath : ws ++ rest = innerPath cfg p) (hcur : m.place cur = .linked ws) (hm : A m) :
    (clearPath (leafIdx cfg p) cur rest).wp (exec t) Γ (fun _ m => Q m) m := by
  induction rest generalizing ws cur m with
  | nil =>
    refine wp_act (stable_at hΓ hA) ⟨hm, hcur⟩ fun m hi ⟨hm, hcur⟩ c => ?_
    rw [List.append_nil] at hpath
    obtain ⟨hi', hg, hq⟩ := hstore m (cur, leafIdx cfg p) hi hm ⟨hpath ▸ hcur, rfl⟩
    exact ⟨hi', hg, wp_ret hQ hq fun _ _ h => h⟩
  | cons idx rest ih =>
    have hnext : (ws ++ [idx]) ++ rest = innerPath cfg p := by simpa using hpath
    have hlen := depth_of_path hpath
    simp only [clearPath, bind_eq, act_bind, ret_bind, pure_eq]
    refine wp_load hΓ (stable_at hΓ hA) ⟨hm, hcur⟩ fun m hi ⟨hm, hcur⟩ => ?_
    split
    · rename_i hzero
      exact wp_ret hQ (hnone m hi hm ((hΓ.inv hi).leafValue_eq_zero hcur hpath hzero))
        fun _ _ h => h
    · rename_i hne
      exact ih hnext ((hΓ.inv hi).child hcur hlen hne) hm

theorem wp_lookupPath (hΓ : HeapContext cfg t Γ) (hA : Γ.Stable A)
    {Q : Word × Option Slot → Memory T → Prop} (hQ : ∀ r, Γ.Stable (Q r))
    (hnone : ∀ m, Γ.Inv m → A m → leafValue cfg m p = 0 → Q (0, none) m)
    (hfound : ∀ m s, Γ.Inv m → A m → LeafAt cfg m p s → leafValue cfg m p ≠ 0 →
      Q (leafValue cfg m p &&& ~~~kLeafTag, some s) m)
    (hpath : ws ++ rest = innerPath cfg p) (hcur : m.place cur = .linked ws) (hm : A m) :
    (lookupPath (leafIdx cfg p) cur rest).wp (exec t) Γ Q m := by
  induction rest generalizing ws cur m with
  | nil =>
    simp only [lookupPath, bind_eq, act_bind, ret_bind, pure_eq]
    refine wp_load hΓ (stable_at hΓ hA) ⟨hm, hcur⟩ fun m hi ⟨hm, hcur⟩ => ?_
    rw [List.append_nil] at hpath
    have hleaf : LeafAt cfg m p (cur, leafIdx cfg p) := ⟨hpath ▸ hcur, rfl⟩
    have hvalue := (hΓ.inv hi).leafValue_of_leafAt hleaf
    split
    · rename_i hzero
      exact wp_ret (hQ _) (hnone m hi hm (hvalue.trans hzero)) fun _ _ h => h
    · rename_i hne
      have hf := hfound m _ hi hm hleaf (by rw [hvalue]; exact hne)
      rw [hvalue] at hf
      exact wp_ret (hQ _) hf fun _ _ h => h
  | cons idx rest ih =>
    have hnext : (ws ++ [idx]) ++ rest = innerPath cfg p := by simpa using hpath
    have hlen := depth_of_path hpath
    simp only [lookupPath, bind_eq, act_bind, ret_bind, pure_eq]
    refine wp_load hΓ (stable_at hΓ hA) ⟨hm, hcur⟩ fun m hi ⟨hm, hcur⟩ => ?_
    split
    · rename_i hzero
      exact wp_ret (hQ _) (hnone m hi hm ((hΓ.inv hi).leafValue_eq_zero hcur hpath hzero))
        fun _ _ h => h
    · rename_i hne
      exact ih hnext ((hΓ.inv hi).child hcur hlen hne) hm

end walks

/-! ## 3. lookup -/

/-- What a lookup of `addr` may put into the cache: the entries that are there,
    empty ones, and the entry of the page, filled from its leaf slot. -/
def LookupEntries (cfg : Config) (t : T) (m : Memory T) (addr : Word) (es : List TlsEntry) : Prop :=
  ∀ e ∈ es, e ∈ m.cache t ∨ e = {} ∨
    ∃ v s, e = pageEntry cfg addr v (some s) ∧ LeafAt cfg m (pageOf cfg addr) s ∧
      v &&& kLeafTag = 0

theorem untagged (x : Word) : (x &&& ~~~kLeafTag) &&& kLeafTag = 0 := by
  rw [BitVec.and_assoc, kLeafTag]
  simp

/-- The rule for `lookup`: what the result says holds when it is read, and the
    cache is written back after that. -/
theorem wp_lookup (hΓ : HeapContext cfg t Γ) {A : Memory T → Prop} (hA : Γ.Stable A)
    {Q : Word → Memory T → Prop} (hQ : ∀ r, Γ.Stable (Q r)) {addr : Word}
    (hset : ∀ m es, Γ.Inv m → A m → LookupEntries cfg t m addr es →
      Γ.Inv (m.setCache t es) ∧ Γ.Guar m (m.setCache t es) ∧
        ∀ r, Q r m → Q r (m.setCache t es))
    (hhit : ∀ m e s, Γ.Inv m → A m → (m.cache t).find? (·.covers addr) = some e →
      e.leaf = some s → m.slot s.1 s.2 = e.seg ||| kLeafTag → Q e.seg m)
    (hstale : ∀ m e, Γ.Inv m → A m → (m.cache t).find? (·.covers addr) = some e →
      (∀ s, e.leaf = some s → m.slot s.1 s.2 ≠ e.seg ||| kLeafTag) → Q 0 m)
    (hnone : ∀ m, Γ.Inv m → A m → (m.cache t).find? (·.covers addr) = none →
      leafValue cfg m (pageOf cfg addr) = 0 → Q 0 m)
    (hfound : ∀ m, Γ.Inv m → A m → (m.cache t).find? (·.covers addr) = none →
      leafValue cfg m (pageOf cfg addr) ≠ 0 →
      Q (leafValue cfg m (pageOf cfg addr) &&& ~~~kLeafTag) m)
    (hm : A m) : (lookup cfg addr).wp (exec t) Γ Q m := by
  -- the thread's own cache does not change under interference
  have hsame : ∀ (es : List TlsEntry) {B : Memory T → Prop}, Γ.Stable B →
      Γ.Stable fun m => B m ∧ m.cache t = es :=
    fun es B hB _ _ hR hi ⟨hb, hes⟩ => ⟨hB hR hi hb, (hΓ.cache hR).trans hes⟩
  -- writing the cache back, the result being settled
  have hfinish : ∀ (r : Word) (es es' : List TlsEntry) (m : Memory T),
      (∀ m, m.cache t = es → (A m ∧ Q r m) → LookupEntries cfg t m addr es') →
      (A m ∧ Q r m) ∧ m.cache t = es →
      (act (.setCache es') fun _ => ret r).wp (exec t) Γ Q m := by
    intro r es es' m hes' hm
    have hstable : Γ.Stable fun m => A m ∧ Q r m :=
      fun hR hi h => ⟨hA hR hi h.1, hQ r hR hi h.2⟩
    refine wp_act (hsame es hstable) hm ?_
    intro m hi ⟨hm, hes⟩ c
    obtain ⟨hi', hg, hq⟩ := hset m es' hi hm.1 (hes' m hes hm)
    exact ⟨hi', hg, wp_ret (hQ r) (hq r hm.2) fun _ _ h => h⟩
  have hevict : ∀ m es, m.cache t = es →
      LookupEntries cfg t m addr (es.eraseP (·.covers addr) ++ [({} : TlsEntry)]) := by
    rintro m _ rfl e he
    rcases List.mem_append.mp he with he | he
    · exact .inl (List.mem_of_mem_eraseP he)
    · exact .inr (.inl (List.mem_singleton.mp he))
  simp only [lookup, bind_eq, act_bind, ret_bind, pure_eq]
  refine wp_act hA hm fun m hi hm c => ⟨hi, hΓ.guar_refl m, ?_⟩
  simp only [exec]
  cases hfind : (m.cache t).find? (·.covers addr) with
  | some e =>
    cases hleaf : e.leaf with
    | none =>
      simp only [hleaf]
      refine hfinish 0 _ _ m (fun m hes _ => hevict m _ hes) ⟨⟨hm, ?_⟩, rfl⟩
      exact hstale m e hi hm hfind fun s hs => by rw [hleaf] at hs; cases hs
    | some s =>
      simp only [hleaf]
      refine wp_load hΓ (hsame (m.cache t) hA) ⟨hm, rfl⟩ fun m' hi' ⟨hm', hes⟩ => ?_
      rw [← hes] at hfind
      split
      · rename_i htag
        refine hfinish _ (m.cache t) _ m' (fun m₁ hes₁ _ => ?_)
          ⟨⟨hm', hhit m' e s hi' hm' hfind hleaf htag⟩, hes⟩
        rintro e' he'
        rw [hes₁]
        rcases List.mem_cons.mp he' with rfl | he'
        · exact .inl (hes ▸ List.mem_of_find?_eq_some hfind)
        · exact .inl (List.mem_of_mem_eraseP he')
      · rename_i htag
        refine hfinish 0 (m.cache t) _ m' (fun m hes _ => hevict m _ hes) ⟨⟨hm', ?_⟩, hes⟩
        refine hstale m' e hi' hm' hfind fun s' hs' => ?_
        obtain rfl := Option.some.inj (hleaf.symm.trans hs')
        exact htag
  | none =>
    -- the result, and the slot it was read from
    let B : Word × Option Slot → Memory T → Prop := fun r m' =>
      ((A m' ∧ Q r.1 m') ∧ m'.cache t = m.cache t) ∧
        (r.1 ≠ 0 → ∃ s, r.2 = some s ∧ m'.place s.1 = .linked (innerPath cfg (pageOf cfg addr)) ∧
          s.2 = leafIdx cfg (pageOf cfg addr) ∧ r.1 &&& kLeafTag = 0)
    have hB : ∀ r, Γ.Stable (B r) := by
      intro r m₁ m₂ hR hi ⟨⟨h, hes⟩, hslot⟩
      refine ⟨⟨⟨hA hR hi h.1, hQ _ hR hi h.2⟩, (hΓ.cache hR).trans hes⟩, fun hr => ?_⟩
      obtain ⟨s, hs, hplace, hidx, htag⟩ := hslot hr
      exact ⟨s, hs, hΓ.linked hR hplace, hidx, htag⟩
    refine wp_bind (wp_mono (wp_lookupPath (Q := B) hΓ (hsame (m.cache t) hA) hB ?_ ?_
      (List.nil_append _) (hΓ.inv hi).root ⟨hm, rfl⟩) ?_)
    · rintro m' hi' ⟨hm', hes⟩ hzero
      exact ⟨⟨⟨hm', hnone m' hi' hm' (hes ▸ hfind) hzero⟩, hes⟩, fun h => absurd rfl h⟩
    · rintro m' s hi' ⟨hm', hes⟩ hs hne
      exact ⟨⟨⟨hm', hfound m' hi' hm' (hes ▸ hfind) hne⟩, hes⟩,
        fun _ => ⟨s, rfl, hs.1, hs.2, untagged _⟩⟩
    · rintro ⟨v, leafSlot⟩ m' hi' ⟨⟨⟨hm', hq⟩, hes⟩, hslot⟩
      dsimp only at hslot hq ⊢
      split
      · rename_i hv
        obtain ⟨s, rfl, hplace, hidx, htag⟩ := hslot hv
        refine wp_act (P := B (v, some s)) (hB _) ⟨⟨⟨hm', hq⟩, hes⟩, hslot⟩
          fun m₁ hi₁ ⟨⟨⟨hm₁, hq₁⟩, hes₁⟩, hslot₁⟩ c => ?_
        obtain ⟨s', hs', hplace', hidx', -⟩ := hslot₁ hv
        obtain rfl := Option.some.inj hs'
        have hentries : LookupEntries cfg t m₁ addr
            ((pageEntry cfg addr v (some s) :: m.cache t).take kSize) := by
          intro e he
          rcases List.mem_cons.mp (List.mem_of_mem_take he) with rfl | he
          · exact .inr (.inr ⟨v, s, rfl, ⟨hplace', hidx'⟩, htag⟩)
          · exact .inl (hes₁ ▸ he)
        obtain ⟨hi₂, hg, hq₂⟩ := hset m₁ _ hi₁ hm₁ hentries
        exact ⟨hi₂, hg, wp_ret (hQ v) (hq₂ v hq₁) fun _ _ h => h⟩
      · exact wp_ret (hQ v) hq fun _ _ h => h

end Memnon.Trie
