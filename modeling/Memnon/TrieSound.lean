import Memnon.TrieLookup

/-!
# What a cached lookup may return

A remove does not touch the caches of other threads. A lookup is sound all the
same: a cache entry has the bounds and the leaf slot of one page, so an entry
that covers the address is checked against the slot of the address's own page.
Every value that a lookup returns was in that slot while the lookup ran.
-/

namespace Memnon.Trie

open Memnon.Lib Memnon.Lib.Prog

variable {T : Type} [DecidableEq T] {cfg : Config} {t u : T} {m m' : Memory T}
  {p q v addr base size : Word} {Γ : Context (Memory T)}

/-! ## 1. Lookups -/

/-- A value that the leaf slot does not hold while the lookup runs is not what it
    returns. -/
theorem wp_lookup_avoids (hΓ : LookupContext cfg t Γ)
    (havoid : ∀ m, Γ.Inv m → leafValue cfg m (pageOf cfg addr) &&& ~~~kLeafTag ≠ v) :
    (Trie.lookup cfg addr).wp (exec t) Γ (fun r _ => r = v → r = 0) m := by
  refine wp_lookup (A := fun _ => True) hΓ.heapContext stable_true (fun _ _ _ _ _ h => h)
    ?_ ?_ ?_ ?_ ?_ trivial
  · intro m es hi _ hes
    exact ⟨hΓ.keep hi ((hΓ.inv hi).setCache hes) fun _ => rfl,
      hΓ.guar (fun _ hut => trieRely_setCache hut) fun _ => rfl, fun _ h => h⟩
  · -- the entry is that of the page, and its slot holds what it was filled with
    rintro m e s hi - hfind hleaf htag hev
    obtain rfl | ⟨a, w, s', rfl, hs, hw⟩ :=
      (hΓ.inv hi).cache t e (List.mem_of_find?_eq_some hfind)
    · exact absurd (List.find?_some hfind) (by simp [TlsEntry.covers])
    · obtain rfl : s' = s := Option.some.inj hleaf
      have hpage := pageOf_eq_of_covers (List.find?_some hfind)
      refine absurd ?_ (havoid m hi)
      rw [hpage, (hΓ.inv hi).heap.leafValue_of_leafAt hs, htag]
      exact (untag_tag hw).trans hev
  · intro m e _ _ _ _ _
    rfl
  · intro m _ _ _ _ _
    rfl
  · intro m hi _ _ _ hv
    exact absurd hv (havoid m hi)

/-! ## 2. Removes -/

/-- A context that the leaf slot of `q` stays empty in. -/
def clearedContext (cfg : Config) (t : T) (q : Word) : Context (Memory T) where
  Inv := LookupInv cfg
  Rely m m' := TrieRely t m m' ∧ (leafValue cfg m q = 0 → leafValue cfg m' q = 0)
  Guar _ _ := True
  rely_refl m := ⟨TrieRely.refl t m, id⟩
  rely_trans h h' := ⟨h.1.trans h'.1, fun hm => h'.2 (h.2 hm)⟩

theorem wp_removeRange_clears (hq : RangeHits cfg base size q) :
    (Trie.removeRange cfg base size).wp (exec t) (clearedContext cfg t q)
      (fun _ m => leafValue cfg m q = 0) m := by
  -- either the slot has been emptied, or its page is left
  let A : List Word → Memory T → Prop := fun ps m =>
    leafValue cfg m q = 0 ∨ ∃ p ∈ ps, SameKey cfg p q
  have hΓ : LookupContext cfg t (clearedContext cfg t q) :=
    ⟨fun hi => hi, fun _ hi _ => hi, fun _ _ => trivial, fun h => h.1⟩
  have hA : ∀ ps, (clearedContext cfg t q).Stable (A ps) := by
    intro ps m m' hR _ hm
    exact hm.imp hR.2 id
  have hskip : ∀ {m m' : Memory T} {p ps}, A (p :: ps) m → ¬ SameKey cfg p q →
      leafValue cfg m' q = leafValue cfg m q → A ps m' := by
    rintro m m' p ps (hzero | ⟨p', hp', hkey⟩) hne hsame
    · exact .inl (hsame.trans hzero)
    · rcases List.mem_cons.mp hp' with rfl | hp'
      · exact absurd hkey hne
      · exact .inr ⟨p', hp', hkey⟩
  refine wp_mono (wp_removeRange hΓ hA (fun _ _ h => h) ?_ ?_ ?_) ?_
  · intro m p ps s hi hm hs
    refine ⟨LookupInv.write hi hs (.inl rfl), trivial, ?_⟩
    have hwrite := leafValue_write (v := 0) (q := q) hi.heap hs
    by_cases hkey : SameKey cfg p q
    · exact .inl (hwrite.trans (if_pos hkey))
    · exact hskip hm hkey (hwrite.trans (if_neg hkey))
  · intro m p ps hi hm hzero
    by_cases hkey : SameKey cfg p q
    · exact .inl (hkey.leafValue.symm.trans hzero)
    · exact hskip hm hkey rfl
  · obtain ⟨p, hp, hkey⟩ := hq
    exact .inr ⟨p, mem_pageRange.mpr hp, hkey⟩
  · rintro a m - (hzero | ⟨p, hp, -⟩)
    · exact hzero
    · cases hp

/-! ## 3. Results -/

section results

variable {p₀ p₁ p₂ : TriePool T}

/-- The steps of a run during which `t` does not return. -/
def Unreturned (t : T) (_ : TriePool T) (l : PoolLabel T TrieOp Word) : Prop := l ≠ .ret t

instance (t : T) (p : TriePool T) : DecidablePred (Unreturned t p) := fun _ =>
  inferInstanceAs (Decidable (_ ≠ _))

/-- Between `p` and `p'` the leaf slot of page `q` is empty, and later an
    insertion of `v` that is running stores it there. -/
def InsertedAgain (cfg : Config) (v q : Word) (p p' : TriePool T) : Prop :=
  ∃ z a b u c base size prog, Steps (Pool.step (trieSystem cfg)) anyStep p z ∧
    leafValue cfg z.shared q = 0 ∧ Steps (Pool.step (trieSystem cfg)) anyStep z a ∧
    a.running u = some (.insertRange base size v, prog) ∧ RangeHits cfg base size q ∧
    a.step (trieSystem cfg) (.act u c) = some b ∧ leafValue cfg b.shared q = v ||| kLeafTag ∧
    Steps (Pool.step (trieSystem cfg)) anyStep b p'

/-- A value that is found later in a slot that was empty has been inserted in
    between. -/
theorem insertedAgain_of_run {z : TriePool T} (hv : ValidPtr v)
    (hreach : Steps (Pool.step (trieSystem cfg)) anyStep (Pool.idle (initialMemory T cfg)) z)
    (hzero : leafValue cfg z.shared q = 0)
    (hrun : Steps (Pool.step (trieSystem cfg)) anyStep z p₁)
    (hend : leafValue cfg p₁.shared q = v ||| kLeafTag) : InsertedAgain cfg v q z p₁ := by
  have hstart : leafValue cfg z.shared q ≠ v ||| kLeafTag := by
    rw [hzero]
    exact (tag_ne_zero v).symm
  obtain ⟨a, l, b, hza, -, hs, hb, hnot, hheld⟩ :=
    hrun.exists_change (P := fun p => leafValue cfg p.shared q = v ||| kLeafTag) hstart hend
  obtain ⟨u, op, m, rfl, -, henter, rfl⟩ | ⟨u, c, op, x, k, rfl, hrunning, rfl⟩ |
    ⟨u, op, x, rfl, -, rfl⟩ := Pool.step_cases _ hs
  · -- a call changes no leaf
    have hm : m = a.shared := by
      cases op with
      | insertRange base size value =>
        simp only [trieSystem, Option.ite_none_right_eq_some, Option.some.injEq] at henter
        exact henter.2.symm
      | removeRange base size => exact (Option.some.inj henter).symm
      | lookup addr => exact (Option.some.inj henter).symm
    rw [hm] at hheld
    exact absurd hheld hnot
  · have hchange := (Outline.guar_of_act (trieGood_of_run (hreach.trans hza)) (c := c) hrunning).2 q
    obtain hsame | ⟨hvalid, hhits, hleaf⟩ := hchange
    · exact absurd (hsame.symm.trans hheld) hnot
    · have hop : op.leaf = v ||| kLeafTag := hleaf.symm.trans hheld
      cases op with
      | insertRange base size value =>
        obtain rfl := tag_inj hvalid.2 hv.2 hop
        exact ⟨z, a, _, u, c, base, size, _, .refl z, hzero, hza, hrunning, hhits, hs, hheld, hb⟩
      | removeRange base size => exact absurd hop.symm (tag_ne_zero v)
      | lookup addr => exact hhits.elim
  · exact absurd hheld hnot

theorem onCall_mono {p : TriePool T} (h : Steps (Pool.step (trieSystem cfg)) (Unreturned t) p p₂) :
    Steps (Pool.step (trieSystem cfg))
      (fun p l => l.OnCall (fun _ _ _ => True) p.shared ∧ l ≠ .ret t) p p₂ :=
  h.mono fun _ l hl => ⟨by cases l <;> trivial, hl⟩

/-- A value that a lookup returns was in the slot while it ran. -/
theorem exists_held
    (hreach : Steps (Pool.step (trieSystem cfg)) anyStep (Pool.idle (initialMemory T cfg)) p₀)
    (hcall : p₀.step (trieSystem cfg) (.call t (.lookup addr)) = some p₁)
    (hrun : Steps (Pool.step (trieSystem cfg)) (Unreturned t) p₁ p₂)
    (hret : p₂.running t = some (.lookup addr, .ret v)) (hv : v ≠ 0) :
    ∃ p, Steps (Pool.step (trieSystem cfg)) (Unreturned t) p₁ p ∧
      Steps (Pool.step (trieSystem cfg)) (Unreturned t) p p₂ ∧ ValidPtr v ∧
      leafValue cfg p.shared (pageOf cfg addr) = v ||| kLeafTag := by
  have hreach₁ := hreach.tail trivial hcall
  have hgood₁ := trieGood_of_run hreach₁
  obtain ⟨m, hidle, henter, rfl⟩ := Pool.step_call _ hcall
  cases henter
  let K : Memory T → Prop := fun m => leafValue cfg m (pageOf cfg addr) &&& ~~~kLeafTag ≠ v
  have hΓ : LookupContext cfg t (lookupContext cfg t K) := by
    refine ⟨fun hi => hi.1, fun hi hi' hleaf => ⟨hi', ?_⟩, fun h _ => h, fun h => h⟩
    change leafValue cfg _ _ &&& _ ≠ v
    rw [hleaf]
    exact hi.2
  obtain ⟨p, h₁, h₂, hnot⟩ := (trieOutline cfg).exists_not (lookupContext cfg t K)
    (K := fun p => K p.shared) (fun p hg hK => ⟨hg.1, hK⟩)
    (fun p l p' hg _ _ _ hC hs hl => ((trieOutline cfg).good_step hg hC hs).2 t hl) hgood₁
    (Function.update_self ..) (fun _ => wp_lookup_avoids hΓ fun m hi => hi.2) (onCall_mono hrun)
    hret fun hq => hv (hq rfl)
  refine ⟨p, h₁.mono fun _ _ h => h.2, h₂.mono fun _ _ h => h.2, ?_⟩
  have hheld : leafValue cfg p.shared (pageOf cfg addr) &&& ~~~kLeafTag = v := not_not.mp hnot
  have hgood := trieGood_of_run (hreach₁.trans (h₁.mono fun _ _ _ => trivial))
  rcases hgood.1.leaf (pageOf cfg addr) with hzero | ⟨w, hw, hleaf⟩
  · rw [hzero] at hheld
    exact absurd (hheld.symm.trans BitVec.zero_and) hv
  · rw [hleaf, untag_tag hw.2] at hheld
    exact hheld ▸ ⟨hw, hleaf⟩

/-- A remove empties the slots of its pages while it runs. -/
theorem exists_cleared {a : Word} (hq : RangeHits cfg base size q)
    (hreach : Steps (Pool.step (trieSystem cfg)) anyStep (Pool.idle (initialMemory T cfg)) p₀)
    (hcall : p₀.step (trieSystem cfg) (.call t (.removeRange base size)) = some p₁)
    (hrun : Steps (Pool.step (trieSystem cfg)) (Unreturned t) p₁ p₂)
    (hret : p₂.running t = some (.removeRange base size, .ret a)) :
    ∃ p, Steps (Pool.step (trieSystem cfg)) (Unreturned t) p₁ p ∧
      Steps (Pool.step (trieSystem cfg)) (Unreturned t) p p₂ ∧ leafValue cfg p.shared q = 0 := by
  by_cases hend : leafValue cfg p₂.shared q = 0
  · exact ⟨p₂, hrun, .refl p₂, hend⟩
  have hgood₁ := trieGood_of_run (hreach.tail trivial hcall)
  obtain ⟨m, hidle, henter, rfl⟩ := Pool.step_call _ hcall
  cases henter
  have hstable : (clearedContext cfg t q).Stable fun m => leafValue cfg m q = 0 :=
    fun hR _ hm => hR.2 hm
  have hwp : ((trieSystem (T := T) cfg).body (.removeRange base size)).wp (exec t)
      (clearedContext cfg t q) (fun _ m => leafValue cfg m q = 0) p₀.shared :=
    wp_bind (wp_mono (wp_removeRange_clears hq) fun _ m _ hm => wp_ret hstable hm fun _ _ h => h)
  obtain ⟨p, h₁, h₂, hnot⟩ := (trieOutline cfg).exists_not (clearedContext cfg t q)
    (K := fun p => leafValue cfg p.shared q ≠ 0) (fun p hg _ => hg.1)
    (fun p l p' hg _ hK _ hC hs hl =>
      ⟨((trieOutline cfg).good_step hg hC hs).2 t hl, fun hzero => absurd hzero hK⟩)
    hgood₁ (Function.update_self ..) (fun _ => hwp) (onCall_mono hrun) hret hend
  exact ⟨p, h₁.mono fun _ _ h => h.2, h₂.mono fun _ _ h => h.2, not_not.mp hnot⟩

/-- Every value that a lookup returns was in the leaf slot of the page while it
    ran. So a value that has been removed before the call is returned only if it
    has been inserted again since. -/
theorem lookup_sound
    (hreach : Steps (Pool.step (trieSystem cfg)) anyStep (Pool.idle (initialMemory T cfg)) p₀)
    (hcall : p₀.step (trieSystem cfg) (.call t (.lookup addr)) = some p₁)
    (hrun : Steps (Pool.step (trieSystem cfg)) (Unreturned t) p₁ p₂)
    (hret : p₂.running t = some (.lookup addr, .ret v)) (hv : v ≠ 0) :
    (∃ p, Steps (Pool.step (trieSystem cfg)) (Unreturned t) p₁ p ∧
      Steps (Pool.step (trieSystem cfg)) (Unreturned t) p p₂ ∧
      leafValue cfg p.shared (pageOf cfg addr) = v ||| kLeafTag) ∧
    ∀ u base size q₀ q₁ q₂ a,
      Steps (Pool.step (trieSystem cfg)) anyStep (Pool.idle (initialMemory T cfg)) q₀ →
      q₀.step (trieSystem cfg) (.call u (.removeRange base size)) = some q₁ →
      Steps (Pool.step (trieSystem cfg)) (Unreturned u) q₁ q₂ →
      q₂.running u = some (.removeRange base size, .ret a) →
      Steps (Pool.step (trieSystem cfg)) anyStep q₂ p₀ →
      RangeHits cfg base size (pageOf cfg addr) → InsertedAgain cfg v (pageOf cfg addr) q₁ p₂ := by
  obtain ⟨p, h₁, h₂, hvalid, hheld⟩ := exists_held hreach hcall hrun hret hv
  refine ⟨⟨p, h₁, h₂, hheld⟩, fun u base size q₀ q₁ q₂ a hreach' hcall' hrun' hret' hlater hq => ?_⟩
  obtain ⟨z, hz₁, hz₂, hzero⟩ := exists_cleared hq hreach' hcall' hrun' hret'
  have hany : ∀ {t : T} {p p' : TriePool T},
      Steps (Pool.step (trieSystem cfg)) (Unreturned t) p p' →
      Steps (Pool.step (trieSystem cfg)) anyStep p p' := fun h => h.mono fun _ _ _ => trivial
  have hreach_z := (hreach'.tail trivial hcall').trans (hany hz₁)
  have hrun_z := (((hany hz₂).trans hlater).tail trivial hcall).trans (hany h₁)
  obtain ⟨z', a', b, u', c, b', s', prog, hz', hzero', hza, hins, hhits, hs, hb, hbp⟩ :=
    insertedAgain_of_run hvalid hreach_z hzero hrun_z hheld
  exact ⟨z', a', b, u', c, b', s', prog, (hany hz₁).trans hz', hzero', hza, hins, hhits, hs, hb,
    hbp.trans (hany h₂)⟩

end results

/-! ## 4. A value that is removed and inserted again -/

/-- Thread `false` inserts a value and thread `true` looks it up; then the former
    removes the page. -/
def insertedAndRemoved (test : TriePool Bool → Bool) : Bool :=
  Steps.Watch (Pool.step (trieSystem defaultConfig)) anyStep (Unreturned false)
    (Pool.idle (initialMemory Bool defaultConfig))
    (insertFirst false 0x100000 0x10 ++
      PoolLabel.alone true (.lookup 0x100000) [0, 0, 0, 0, 0, 0])
    (.call false (.removeRange 0x100000 0x1000)) (List.replicate 5 (.act false 0)) fun p =>
  decide (p.returned false = some (.removeRange 0x100000 0x1000, 0)) && test p

/-- It inserts the same value again, and thread `true` looks it up. -/
def insertedAgain (p : TriePool Bool) : Bool :=
  Steps.Watch (Pool.step (trieSystem defaultConfig)) anyStep (Unreturned true) p
    (.ret false ::
      PoolLabel.alone false (.insertRange 0x100000 0x1000 0x10) [0, 0, 0, 0, 0])
    (.call true (.lookup 0x100000)) (List.replicate 3 (.act true 0)) fun p₂ =>
  decide (p₂.returned true = some (.lookup 0x100000, 0x10))

/-- The lookup returns the value from the cache: the slot holds it, and only
    because it has been inserted again. -/
theorem lookup_sound_reinserted : ∃ p q₀ q₁ p₂ : TriePool Bool,
    Steps (Pool.step (trieSystem defaultConfig)) anyStep
      (Pool.idle (initialMemory Bool defaultConfig)) p ∧
    leafValue defaultConfig p.shared 0x100 = 0x11 ∧
    q₀.step (trieSystem defaultConfig) (.call false (.removeRange 0x100000 0x1000)) = some q₁ ∧
    InsertedAgain defaultConfig 0x10 0x100 q₁ p₂ := by
  have hrun : insertedAndRemoved insertedAgain = true := by decide +kernel
  obtain ⟨q₀, q₁, q₂, hreach, hcall, hwindow, hend⟩ := Steps.of_watch hrun
  obtain ⟨hret, hagain⟩ := Bool.and_eq_true_iff.mp hend
  obtain ⟨p₀, p₁, p₂, hlater, hcall', hwindow', hret'⟩ := Steps.of_watch hagain
  have hany : ∀ {t : Bool} {p p' : TriePool Bool},
      Steps (Pool.step (trieSystem defaultConfig)) (Unreturned t) p p' →
      Steps (Pool.step (trieSystem defaultConfig)) anyStep p p' :=
    fun h => h.mono fun _ _ _ => trivial
  have hreach' := ((hreach.tail trivial hcall).trans (hany hwindow)).trans hlater
  obtain ⟨⟨p, h₁, -, hheld⟩, hremoved⟩ := lookup_sound hreach' hcall' hwindow'
    (Pool.returned_eq_some (of_decide_eq_true hret')) (by decide)
  refine ⟨p, q₀, q₁, p₂, (hreach'.tail trivial hcall').trans (hany h₁), hheld, hcall, ?_⟩
  exact hremoved false 0x100000 0x1000 q₀ q₁ q₂ 0 hreach hcall hwindow
    (Pool.returned_eq_some (of_decide_eq_true hret)) hlater ⟨0x100, by decide, by decide⟩

end Memnon.Trie
