import Memnon.TrieRules
import Memnon.TriePages

/-!
# One thread on the trie

What the operations compute when no other thread interferes. Walks that only
load follow the nodes; an insert or a clear of one leaf gives its value to the
pages that share the key, and leaves everything else alone.
-/

namespace Memnon.Trie

open Memnon.Lib Memnon.Lib.Prog

variable {T : Type} [DecidableEq T] {cfg : Config} {t : T} {pick : Memory T → Word}
  {m m' m₁ m₂ : Memory T} {p q v x : Word}

section actions

variable {A : Type} {n seg : Word} {i : Nat} {es : List TlsEntry}

@[simp] theorem eval_load {k : Word → TrieProg A} :
    (Prog.act (.load n i) k).eval (exec t) pick m = (k (m.slot n i)).eval (exec t) pick m := rfl

@[simp] theorem eval_getCache {k : List TlsEntry → TrieProg A} :
    (Prog.act .getCache k).eval (exec t) pick m = (k (m.cache t)).eval (exec t) pick m := rfl

@[simp] theorem eval_setCache {k : Unit → TrieProg A} :
    (Prog.act (.setCache es) k).eval (exec t) pick m =
      (k ()).eval (exec t) pick (m.setCache t es) := rfl

@[simp] theorem eval_readBase {k : Word → TrieProg A} :
    (Prog.act (.readBase seg) k).eval (exec t) pick m =
      (k (m.object seg).1).eval (exec t) pick
        (m.setReading t (some (seg, (m.object seg).1, none))) := rfl

@[simp] theorem eval_readSize {k : Word → TrieProg A} :
    (Prog.act (.readSize seg) k).eval (exec t) pick m =
      (k (m.object seg).2).eval (exec t) pick
        (m.setReading t ((m.reading t).map fun r => (r.1, r.2.1, some (m.object seg).2))) := rfl

@[simp] theorem eval_ret {a : A} : (Prog.ret a : TrieProg A).eval (exec t) pick m = (a, m) := rfl

/-- An allocation that has failed is not forgotten. -/
theorem eval_outOfMemory (prog : TrieProg A) (ho : m.outOfMemory = true) :
    (prog.eval (exec t) pick m).2.outOfMemory = true := by
  induction prog generalizing m with
  | ret a => exact ho
  | act a k ih =>
    apply ih
    cases a with
    | newNode =>
      simp only [exec]
      split
      · exact ho
      · rfl
    | compareExchange node idx expected desired =>
      simp only [exec]
      split <;> exact ho
    | _ => exact ho

theorem eval_allocated {prog : TrieProg A}
    (ho : (prog.eval (exec t) pick m).2.outOfMemory = false) : m.outOfMemory = false := by
  cases hm : m.outOfMemory with
  | false => rfl
  | true => exact absurd ((eval_outOfMemory prog hm).symm.trans ho) (by simp)

end actions

/-! ## 1. Walks that only load -/

theorem eval_lookupPath (leaf : Nat) (rest : List Nat) (cur : Word) :
    (lookupPath leaf cur rest).eval (exec t) pick m =
      (match walk m.slot cur rest with
        | some n =>
            if m.slot n leaf = 0 then (0, none) else (m.slot n leaf &&& ~~~kLeafTag, some (n, leaf))
        | none => (0, none), m) := by
  induction rest generalizing cur with
  | nil =>
    simp only [lookupPath, walk, bind_eq, act_bind, ret_bind, pure_eq, eval_load]
    by_cases hzero : m.slot cur leaf = 0
    · rw [if_pos hzero, if_pos hzero]
      rfl
    · rw [if_neg hzero, if_neg hzero]
      rfl
  | cons idx rest ih =>
    simp only [lookupPath, walk, bind_eq, act_bind, ret_bind, pure_eq, eval_load]
    by_cases hzero : m.slot cur idx = 0
    · rw [if_pos hzero, if_pos hzero]
      rfl
    · rw [if_neg hzero, if_neg hzero]
      exact ih _

/-- The traversal finds what the leaf slot of the page holds. -/
theorem eval_lookupPageWithSlot (p : Word) :
    (lookupPageWithSlot cfg p).eval (exec t) pick m =
      (if leafValue cfg m p = 0 then (0, none)
        else (leafValue cfg m p &&& ~~~kLeafTag, leafSlot cfg m p), m) := by
  rw [lookupPageWithSlot, eval_lookupPath]
  cases hwalk : walk m.slot cfg.root (innerPath cfg p) with
  | none => simp [leafValue, leafSlot, hwalk]
  | some n => simp [leafValue, leafSlot, hwalk]

theorem eval_lookupPage (p : Word) :
    (lookupPage cfg p).eval (exec t) pick m = (leafValue cfg m p &&& ~~~kLeafTag, m) := by
  simp only [lookupPage, bind_eq, eval_bind, eval_lookupPageWithSlot, pure_eq, eval_ret]
  split
  · rename_i hzero
    simp [hzero]
  · rfl

theorem eval_clearPath (leaf : Nat) (rest : List Nat) (cur : Word) :
    ((clearPath leaf cur rest).eval (exec t) pick m).2 =
      match walk m.slot cur rest with
      | some n => m.write n leaf 0
      | none => m := by
  induction rest generalizing cur with
  | nil => rfl
  | cons idx rest ih =>
    simp only [clearPath, walk, bind_eq, act_bind, ret_bind, pure_eq, eval_load]
    by_cases hzero : m.slot cur idx = 0
    · rw [if_pos hzero, if_pos hzero]
      rfl
    · rw [if_neg hzero, if_neg hzero]
      exact ih _

/-! ## 2. Stores to the leaves -/

/-- What the updates of leaves leave alone. -/
structure SameRest (m m' : Memory T) : Prop where
  linked : ∀ {n ws}, m.place n = .linked ws → m'.place n = .linked ws
  other : ∀ {n}, m.place n = .other → m'.place n = .other ∧ m'.slot n = m.slot n
  outOfMemory : m.outOfMemory = true → m'.outOfMemory = true
  cache : m'.cache = m.cache
  object : m'.object = m.object
  live : m'.live = m.live

omit [DecidableEq T] in
theorem SameRest.refl (m : Memory T) : SameRest m m :=
  ⟨id, fun hn => ⟨hn, rfl⟩, id, rfl, rfl, rfl⟩

omit [DecidableEq T] in
theorem SameRest.trans (h : SameRest m m₁) (h' : SameRest m₁ m₂) : SameRest m m₂ where
  linked hn := h'.linked (h.linked hn)
  other hn := ⟨(h'.other (h.other hn).1).1, (h'.other (h.other hn).1).2.trans (h.other hn).2⟩
  outOfMemory ho := h'.outOfMemory (h.outOfMemory ho)
  cache := h'.cache.trans h.cache
  object := h'.object.trans h.object
  live := h'.live.trans h.live

omit [DecidableEq T] in
theorem SameRest.allocated (h : SameRest m m') (ho : m'.outOfMemory = false) :
    m.outOfMemory = false := by
  cases hm : m.outOfMemory with
  | false => rfl
  | true => exact absurd ((h.outOfMemory hm).symm.trans ho) (by simp)

omit [DecidableEq T] in
theorem HeapStep.sameRest (h : HeapStep cfg t m m₁) : SameRest m m₁ :=
  ⟨h.linked, h.other, h.outOfMemory, h.cache, h.object, h.live⟩

omit [DecidableEq T] in
theorem sameRest_write {s : Slot} (hs : LeafAt cfg m p s) : SameRest m (m.write s.1 s.2 x) := by
  refine ⟨id, fun {n} hn => ⟨hn, funext fun i => ?_⟩, id, rfl, rfl, rfl⟩
  have hne := ne_of_place hs.1 hn (by simp)
  exact Memory.write_slot_of_ne fun heq => hne (congrArg Prod.fst heq)

/-- Unless an allocation has failed, the pages of `S` have the leaf value `x`
    and the others the one they had. -/
structure Stored (cfg : Config) (S : Word → Prop) (x : Word) (m m' : Memory T) : Prop where
  heap : HeapInv cfg m'
  rest : SameRest m m'
  inside : m'.outOfMemory = false → ∀ q, S q → leafValue cfg m' q = x
  outside : m'.outOfMemory = false → ∀ q, ¬ S q → leafValue cfg m' q = leafValue cfg m q

omit [DecidableEq T] in
theorem stored_write (h : HeapInv cfg m) {s : Slot} (hs : LeafAt cfg m p s) :
    Stored cfg (SameKey cfg p) x m (m.write s.1 s.2 x) := by
  refine ⟨heapInv_write h hs, sameRest_write hs, fun _ q hq => ?_, fun _ q hq => ?_⟩
  · rw [leafValue_write h hs, if_pos hq]
  · rw [leafValue_write h hs, if_neg hq]

omit [DecidableEq T] in
/-- An update after another one with the same value. -/
theorem Stored.trans {S S' : Word → Prop} (h : Stored cfg S x m m₁) (h' : Stored cfg S' x m₁ m₂) :
    Stored cfg (fun q => S q ∨ S' q) x m m₂ := by
  have hoom : m₂.outOfMemory = false → m₁.outOfMemory = false := h'.rest.allocated
  refine ⟨h'.heap, h.rest.trans h'.rest, fun ho q hq => ?_, fun ho q hq => ?_⟩
  · by_cases hq' : S' q
    · exact h'.inside ho q hq'
    · rw [h'.outside ho q hq']
      exact h.inside (hoom ho) q (hq.resolve_right hq')
  · rw [not_or] at hq
    rw [h'.outside ho q hq.2, h.outside (hoom ho) q hq.1]

omit [DecidableEq T] in
theorem HeapStep.stored (h : HeapStep cfg t m m₁) : Stored cfg (fun _ => False) x m m₁ :=
  ⟨h.inv, h.sameRest, fun _ _ hq => hq.elim, fun _ q _ => h.leaf q⟩

omit [DecidableEq T] in
theorem Stored.congr {S S' : Word → Prop} (h : Stored cfg S x m m₁) (hS : ∀ q, S q ↔ S' q) :
    Stored cfg S' x m m₁ :=
  ⟨h.heap, h.rest, fun ho q hq => h.inside ho q ((hS q).mpr hq),
    fun ho q hq => h.outside ho q fun hq' => hq ((hS q).mp hq')⟩

omit [DecidableEq T] in
/-- Allocating and publishing nodes is invisible to a thread that runs alone. -/
theorem solo_heapContext {Inv : Memory T → Prop} (hinv : ∀ {m}, Inv m → HeapInv cfg m)
    (hstep : ∀ {m m'}, Inv m → HeapStep cfg t m m' → Inv m') : HeapContext cfg t (solo Inv) where
  inv := hinv
  guar_refl _ := trivial
  step hi h := ⟨hstep hi h, trivial⟩
  linked {m m' n ws} hR hn := by
    obtain rfl : m' = m := hR
    exact hn
  fresh {m m' n} hR hn := by
    obtain rfl : m' = m := hR
    exact hn
  outOfMemory {m m'} hR ho := by
    obtain rfl : m' = m := hR
    exact ho
  cache {m m'} hR := by
    obtain rfl : m' = m := hR
    rfl

theorem stored_insertLeaf (h : HeapInv cfg m) (p v : Word) :
    Stored cfg (SameKey cfg p) (v ||| kLeafTag) m
      ((insertLeaf cfg p v).eval (exec t) pick m).2 := by
  have hΓ : HeapContext cfg t (solo (HeapInv cfg)) := solo_heapContext id fun _ hs => hs.inv
  let A : Memory T → Prop := Stored cfg (fun _ => False) (v ||| kLeafTag) m
  have hA : HeapStable cfg t (solo (HeapInv cfg)) A := by
    refine ⟨solo_stable, fun _ hm hstep => ?_⟩
    exact (Stored.trans hm hstep.stored).congr fun _ => or_self_iff
  have hstart : A m := ⟨h, SameRest.refl m, fun _ _ hq => hq.elim, fun _ _ _ => rfl⟩
  refine (eval_of_wp (wp_insertPath hΓ hA solo_stable ?_ ?_ (List.nil_append _) h.root hstart) h).2
  · intro m₁ s hi hm hs
    have hstored := Stored.trans hm (stored_write hi hs)
    exact ⟨hstored.heap, trivial, hstored.congr fun _ => or_iff_right id⟩
  · -- an allocation has failed: nothing is promised about the leaves
    intro m₁ hi hm ho
    refine ⟨hi, hm.rest, fun ho' => ?_, fun ho' => ?_⟩
    all_goals
      rw [ho] at ho'
      cases ho'

theorem stored_clearLeaf (h : HeapInv cfg m) (p : Word) :
    Stored cfg (SameKey cfg p) 0 m ((clearLeaf cfg p).eval (exec t) pick m).2 := by
  rw [clearLeaf, eval_clearPath]
  cases hwalk : walk m.slot cfg.root (innerPath cfg p) with
  | some n =>
    have hslot : leafSlot cfg m p = some (n, leafIdx cfg p) := by rw [leafSlot, hwalk]; rfl
    exact stored_write h (h.leafSlot_eq_some_iff.mp hslot)
  | none =>
    have hzero : leafValue cfg m p = 0 := by simp [leafValue, leafSlot, hwalk]
    exact ⟨h, SameRest.refl m, fun _ q hq => hq.leafValue.symm.trans hzero, fun _ _ _ => rfl⟩

/-- The loops over the pages of a range. -/
theorem stored_forM (t : T) (pick : Memory T → Word) {body : Word → TrieProg Unit}
    (hbody : ∀ p m, HeapInv cfg m →
      Stored cfg (SameKey cfg p) x m ((body p).eval (exec t) pick m).2)
    (ps : List Word) (h : HeapInv cfg m) :
    Stored cfg (fun q => ∃ p ∈ ps, SameKey cfg p q) x m
      ((ps.forM body).eval (exec t) pick m).2 := by
  apply eval_forM (P := fun done => Stored cfg (fun q => ∃ p ∈ done, SameKey cfg p q) x m) _ []
  · refine ⟨h, SameRest.refl m, fun _ q hq => ?_, fun _ _ _ => rfl⟩
    obtain ⟨p, hp, -⟩ := hq
    cases hp
  · intro done p m₁ h₁
    apply (h₁.trans (hbody p m₁ h₁.heap)).congr
    intro q
    simp only [List.mem_append, List.mem_singleton, or_and_right, exists_or, exists_eq_left]

/-! ## 3. Ranges -/

theorem stored_insertRange (t : T) (pick : Memory T → Word) (h : HeapInv cfg m)
    (base size value : Word) :
    ∃ m₁, Stored cfg (RangeHits cfg base size) (value ||| kLeafTag) m m₁ ∧
      (insertRange cfg base size value).eval (exec t) pick m = ((), m₁.setCache t emptyCache) := by
  have hloop := stored_forM t pick (fun p m h => stored_insertLeaf h p value)
    (pageRange cfg base size) h
  refine ⟨_, hloop.congr fun q => ?_, ?_⟩
  · simp only [mem_pageRange, RangeHits]
  · simp only [insertRange, invalidateCache, bind_eq, eval_bind, eval_setCache, eval_ret]

theorem stored_removeRange (t : T) (pick : Memory T → Word) (h : HeapInv cfg m)
    (base size : Word) :
    ∃ m₁, Stored cfg (RangeHits cfg base size) 0 m m₁ ∧
      (removeRange cfg base size).eval (exec t) pick m = ((), m₁.setCache t emptyCache) := by
  have hloop := stored_forM t pick (fun p m h => stored_clearLeaf h p)
    (pageRange cfg base size) h
  refine ⟨_, hloop.congr fun q => ?_, ?_⟩
  · simp only [mem_pageRange, RangeHits]
  · simp only [removeRange, invalidateCache, bind_eq, eval_bind, eval_setCache, eval_ret]

/-! ## 4. lookup -/

/-- A hit moves its entry to the front, a stale one is evicted, and a miss that
    finds a value adds the entry of the page. -/
theorem eval_lookup (addr : Word) :
    (lookup cfg addr).eval (exec t) pick m =
      match (m.cache t).find? (·.covers addr) with
      | some e =>
          if ∃ s, e.leaf = some s ∧ m.slot s.1 s.2 = e.seg ||| kLeafTag then
            (e.seg, m.setCache t (e :: (m.cache t).eraseP (·.covers addr)))
          else (0, m.setCache t ((m.cache t).eraseP (·.covers addr) ++ [{}]))
      | none =>
          let v := leafValue cfg m (pageOf cfg addr) &&& ~~~kLeafTag
          if v = 0 then (0, m)
          else (v, m.setCache t ((pageEntry cfg addr v (leafSlot cfg m (pageOf cfg addr)) ::
            m.cache t).take kSize)) := by
  simp only [lookup, bind_eq, act_bind, ret_bind, pure_eq, eval_getCache]
  cases hfind : (m.cache t).find? (·.covers addr) with
  | some e =>
    cases hleaf : e.leaf with
    | none => simp [hleaf]
    | some s =>
      by_cases htag : m.slot s.1 s.2 = e.seg ||| kLeafTag
      · simp [hleaf, htag]
      · simp [hleaf, htag]
  | none =>
    rw [eval_bind, eval_lookupPageWithSlot]
    by_cases hzero : leafValue cfg m (pageOf cfg addr) = 0
    · rw [if_pos hzero]
      simp [hzero]
    · rw [if_neg hzero]
      generalize leafValue cfg m (pageOf cfg addr) &&& ~~~kLeafTag = v
      by_cases hv : v = 0
      · simp only [ne_eq, hv, not_true_eq_false, if_true, if_false, eval_ret]
      · simp only [ne_eq, hv, not_false_eq_true, if_true, if_false, eval_setCache, eval_ret]

end Memnon.Trie
