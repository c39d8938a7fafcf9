import Memnon.TrieMap
import Memnon.TrieLookup

/-!
# Two tries and one cache

The thread's cache is a static member of the template: two live tries of one
instantiation share it. One thread runs operations on both. What a lookup on one
of them returns is what that trie holds, unless the cache covers the address by
an entry that a lookup on the other trie has left there.
-/

namespace Memnon.Trie

open Memnon.Lib Memnon.Lib.Prog

/-! ## 1. Two tries in one address space -/

/-- The instantiation, and the root nodes of the two tries. -/
structure TwoTries where
  cfg : Config
  root : Bool → Word
  root_ne : ∀ x, root x ≠ 0
  root_inj : root false ≠ root true

def TwoTries.conf (W : TwoTries) (x : Bool) : Config :=
  { W.cfg with root := W.root x, root_ne := W.root_ne x }

/-- The words of the address space and the thread's cache, which the tries
    share. Where an address stands is relative to one of them. -/
structure Tries where
  slot : Word → Nat → Word
  cache : List TlsEntry
  place : Bool → Word → Place Unit
  outOfMemory : Bool

namespace Tries

/-- The memory as operations on trie `x` find it. -/
def seen (s : Tries) (x : Bool) : Memory Unit where
  slot := s.slot
  cache := fun _ => s.cache
  object := fun _ => (0, 0)
  place := s.place x
  outOfMemory := s.outOfMemory
  live := []
  reading := fun _ => none

/-- The memory after an operation on trie `x`; its nodes are something else to
    the other trie. -/
def put (s : Tries) (x : Bool) (m : Memory Unit) : Tries where
  slot := m.slot
  cache := m.cache ()
  place y :=
    if y = x then m.place
    else fun n =>
      match m.place n with
      | .free => .free
      | .other => s.place y n
      | .fresh _ | .linked _ => .other
  outOfMemory := m.outOfMemory

end Tries

variable (W : TwoTries) (pick : Bool → Memory Unit → Word)

/-- Both tries have been constructed. -/
def TwoTries.initial : Tries where
  slot := fun _ _ => 0
  cache := emptyCache
  place x := Function.update (Function.update (fun _ => .free) (W.root !x) .other)
    (W.root x) (.linked [])
  outOfMemory := false

/-- One operation on trie `x`. -/
def serve (x : Bool) (op : TrieOp) (s : Tries) : Word × Tries :=
  let r := ((trieSystem (T := Unit) (W.conf x)).body op).eval (exec ()) (pick x) (s.seen x)
  (r.1, s.put x r.2)

abbrev History := List (Bool × TrieOp)

def serveAll (s : Tries) (ops : History) : Tries :=
  ops.foldl (fun s op => (serve W pick op.1 op.2 s).2) s

/-- What the lookups on trie `b` return. -/
def answers (b : Bool) : History → Tries → List Word
  | [], _ => []
  | (x, op) :: rest, s =>
      let later := answers b rest (serve W pick x op s).2
      match op with
      | .lookup _ => if x = b then (serve W pick x op s).1 :: later else later
      | _ => later

/-- The operations on trie `b` alone. -/
def History.only (b : Bool) (ops : History) : History := ops.filter fun op => op.1 == b

/-- The first entry that covers the address has been filled from `b`, or `b` has
    its value for the page too. -/
def EntryAgrees (b : Bool) (addr : Word) (s : Tries) : Prop :=
  let page := pageOf (W.conf b) addr
  ∀ e ∈ s.cache.find? (·.covers addr), e.leaf = leafSlot (W.conf b) (s.seen b) page ∨
    leafValue (W.conf b) (s.seen b) page = e.seg ||| kLeafTag

instance (b : Bool) (addr : Word) (s : Tries) : Decidable (EntryAgrees W b addr s) :=
  inferInstanceAs <| Decidable <| ∀ e ∈ s.cache.find? (·.covers addr),
    e.leaf = leafSlot (W.conf b) (s.seen b) (pageOf (W.conf b) addr) ∨
      leafValue (W.conf b) (s.seen b) (pageOf (W.conf b) addr) = e.seg ||| kLeafTag

/-- So it is at every lookup on `b`. -/
def EntriesAgree (b : Bool) : History → Tries → Prop
  | [], _ => True
  | (x, op) :: rest, s =>
      (x = b → ∀ addr, op = .lookup addr → EntryAgrees W b addr s) ∧
        EntriesAgree b rest (serve W pick x op s).2

/-! ## 2. The invariant -/

variable {W pick}

/-- The nodes of each trie are something else to the other one, and every cache
    entry has the value that one of them holds for its page. -/
structure TriesInv (W : TwoTries) (s : Tries) : Prop where
  heap : ∀ x, HeapInv (W.conf x) (s.seen x)
  apart : ∀ x n, (s.place (!x) n).Owned → s.place x n = .other
  leaf : ∀ x p, leafValue (W.conf x) (s.seen x) p = 0 ∨
    ∃ v, ValidPtr v ∧ leafValue (W.conf x) (s.seen x) p = v ||| kLeafTag

/-- An entry of trie `x`. -/
def FilledFrom (W : TwoTries) (s : Tries) (x : Bool) (e : TlsEntry) : Prop :=
  ∃ a v l, e = pageEntry (W.conf x) a v (some l) ∧ ValidPtr v ∧
    LeafAt (W.conf x) (s.seen x) (pageOf (W.conf x) a) l ∧
    leafValue (W.conf x) (s.seen x) (pageOf (W.conf x) a) = v ||| kLeafTag

/-- The cache has entries of the tries in `P` only. -/
def CachedFrom (W : TwoTries) (P : Bool → Prop) (s : Tries) : Prop :=
  ∀ e ∈ s.cache, e = {} ∨ ∃ x, P x ∧ FilledFrom W s x e

section invariant

variable {s : Tries} {x y b : Bool} {m : Memory Unit} {p addr : Word} {op : TrieOp}
  {P : Bool → Prop}

@[simp] theorem seen_put_place : ((s.put x m).seen x).place = m.place := if_pos rfl

theorem put_place_of_ne (hxy : y ≠ x) (n : Word) : (s.put x m).place y n =
    match m.place n with
    | .free => .free
    | .other => s.place y n
    | .fresh _ | .linked _ => .other := by
  simp only [Tries.put, if_neg hxy]

theorem triesInv_initial : TriesInv W W.initial := by
  have hroot : ∀ x, W.root (!x) ≠ W.root x := by
    intro x
    cases x
    · exact W.root_inj.symm
    · exact W.root_inj
  have hplace : ∀ x n, ((W.initial.seen x).place n).Owned → n = W.root x := by
    intro x n hn
    by_contra hne
    by_cases hother : n = W.root (!x)
    · simp [Tries.seen, TwoTries.initial, hother, hroot x, Place.Owned] at hn
    · simp [Tries.seen, TwoTries.initial, hother, hne, Place.Owned] at hn
  have hinit : ∀ x n, ((initialMemory Unit (W.conf x)).place n).Owned → n = W.root x := by
    intro x n hn
    by_contra hne
    have hne' : n ≠ (W.conf x).root := hne
    simp [initialMemory, hne', Place.Owned] at hn
  have hheap : ∀ x, HeapInv (W.conf x) (W.initial.seen x) := by
    intro x
    refine (heapInv_initial.transfer fun n hn => ?_).1
    have hn' : n = W.root x := hn.elim (hinit x n) (hplace x n)
    subst hn'
    refine ⟨?_, rfl⟩
    simp [Tries.seen, TwoTries.initial, initialMemory, TwoTries.conf]
  refine ⟨hheap, fun x n hn => ?_, fun x p => .inl ?_⟩
  · have hn' : n = W.root (!x) := hplace (!x) n hn
    simp [TwoTries.initial, hn', hroot x]
  · unfold leafValue
    split <;> rfl

/-- An operation on one trie leaves the nodes of the other one alone. -/
theorem TriesInv.put_other (h : TriesInv W s)
    (hother : ∀ {n}, s.place x n = .other → m.place n = .other ∧ m.slot n = s.slot n)
    (hxy : y ≠ x) {n : Word} (hn : (s.place y n).Owned ∨ ((s.put x m).place y n).Owned) :
    (s.put x m).place y n = s.place y n ∧ m.slot n = s.slot n := by
  have hput := put_place_of_ne (s := s) (m := m) hxy n
  have hyx : y = !x := by
    cases x <;> cases y <;> simp at hxy ⊢
  have howned : (s.place y n).Owned := by
    rcases hn with hn | hn
    · exact hn
    · rw [hput] at hn
      split at hn
      · exact hn.elim
      · exact hn
      · exact hn.elim
      · exact hn.elim
  obtain ⟨hplace, hslot⟩ := hother (h.apart x n (hyx ▸ howned))
  rw [hput, hplace]
  exact ⟨rfl, hslot⟩

/-- The invariant, and the leaves of both tries, after an operation on `x`. -/
theorem TriesInv.put (h : TriesInv W s) (hheap : HeapInv (W.conf x) m)
    (hother : ∀ {n}, s.place x n = .other → m.place n = .other ∧ m.slot n = s.slot n)
    (hleaf : ∀ p, leafValue (W.conf x) m p = 0 ∨
      ∃ v, ValidPtr v ∧ leafValue (W.conf x) m p = v ||| kLeafTag) :
    TriesInv W (s.put x m) ∧
      ∀ y, y ≠ x → ∀ p, leafValue (W.conf y) ((s.put x m).seen y) p =
        leafValue (W.conf y) (s.seen y) p := by
  have hsame : ∀ y, y ≠ x → HeapInv (W.conf y) ((s.put x m).seen y) ∧
      ∀ p, leafValue (W.conf y) ((s.put x m).seen y) p = leafValue (W.conf y) (s.seen y) p :=
    fun y hy => (h.heap y).transfer fun n hn => h.put_other hother hy hn
  refine ⟨⟨fun y => ?_, fun y n hn => ?_, fun y p => ?_⟩, fun y hy => (hsame y hy).2⟩
  · by_cases hy : y = x
    · subst hy
      exact hheap.congr rfl seen_put_place
    · exact (hsame y hy).1
  · by_cases hy : y = x
    · subst hy
      have hne : (!y) ≠ y := by cases y <;> simp
      obtain ⟨hplace, -⟩ := h.put_other hother hne (.inr hn)
      rw [hplace] at hn
      exact (congrFun seen_put_place n).trans (hother (h.apart y n hn)).1
    · have hyx : (!y) = x := by
        cases x <;> cases y <;> simp at hy ⊢
      rw [hyx] at hn
      have hn' : (m.place n).Owned := by
        have hplace := congrFun (seen_put_place (s := s) (x := x) (m := m)) n
        exact hplace ▸ hn
      rw [put_place_of_ne hy]
      cases hm : m.place n with
      | fresh u => rfl
      | linked ws => rfl
      | free => rw [hm] at hn'; exact hn'.elim
      | other => rw [hm] at hn'; exact hn'.elim
  · by_cases hy : y = x
    · subst hy
      exact hleaf p
    · rw [(hsame y hy).2]
      exact h.leaf y p

/-! ## 3. The operations -/

/-- An update stores its leaves and empties the cache. -/
theorem serve_update (pick : Bool → Memory Unit → Word) (x : Bool) (h : TriesInv W s)
    (hop : ∀ addr, op ≠ .lookup addr) :
    ∃ m₁, Stored (W.conf x) (op.Hits (W.conf x)) op.leaf (s.seen x) m₁ ∧
      (serve W pick x op s).2 = s.put x (m₁.setCache () emptyCache) := by
  cases op with
  | insertRange base size value =>
    obtain ⟨m₁, hm₁, heval⟩ :=
      stored_insertRange () (pick x) (h.heap x) base size value
    refine ⟨m₁, hm₁, ?_⟩
    simp only [serve, trieSystem, bind_eq, eval_bind, heval, pure_eq, eval_ret]
  | removeRange base size =>
    obtain ⟨m₁, hm₁, heval⟩ := stored_removeRange () (pick x) (h.heap x) base size
    refine ⟨m₁, hm₁, ?_⟩
    simp only [serve, trieSystem, bind_eq, eval_bind, heval, pure_eq, eval_ret]
  | lookup addr => exact absurd rfl (hop addr)

/-- A lookup rearranges the cache and may add the entry of the page. -/
theorem serve_lookup (pick : Bool → Memory Unit → Word) (x : Bool) (addr : Word)
    (h : TriesInv W s) :
    ∃ es, (serve W pick x (.lookup addr) s).2 = s.put x ((s.seen x).setCache () es) ∧
      ∀ e ∈ es, e ∈ s.cache ∨ e = {} ∨ FilledFrom W s x e := by
  have hsame : (s.seen x).setCache () s.cache = s.seen x := by
    simp [Memory.setCache, Tries.seen]
  simp only [serve, trieSystem, eval_lookup]
  split
  · rename_i e hfind
    split
    · refine ⟨_, rfl, fun e' he' => .inl ?_⟩
      rcases List.mem_cons.mp he' with rfl | he'
      · exact List.mem_of_find?_eq_some hfind
      · exact List.mem_of_mem_eraseP he'
    · refine ⟨_, rfl, fun e' he' => ?_⟩
      rcases List.mem_append.mp he' with he' | he'
      · exact .inl (List.mem_of_mem_eraseP he')
      · exact .inr (.inl (List.mem_singleton.mp he'))
  · split
    · exact ⟨s.cache, by rw [hsame], fun e he => .inl he⟩
    · rename_i hne
      refine ⟨_, rfl, fun e he => ?_⟩
      rcases List.mem_cons.mp (List.mem_of_mem_take he) with rfl | he
      · -- the page has a leaf slot, which holds the value found
        rcases h.leaf x (pageOf (W.conf x) addr) with hzero | ⟨v, hv, hleaf⟩
        · exact absurd (by rw [hzero]; exact BitVec.zero_and) hne
        · obtain ⟨l, hl⟩ := (h.heap x).exists_leafAt (by rw [hleaf]; exact tag_ne_zero v)
          rw [hleaf, untag_tag hv.2, (h.heap x).leafSlot_eq_some_iff.mpr hl]
          exact .inr (.inr ⟨addr, v, l, rfl, hv, hl, hleaf⟩)
      · exact .inl he

/-- Entries stay filled when only the cache changes. -/
theorem FilledFrom.put {e : TlsEntry} {es : List TlsEntry} (h : TriesInv W s)
    (he : FilledFrom W s y e) : FilledFrom W (s.put x ((s.seen x).setCache () es)) y e := by
  obtain ⟨a, v, l, rfl, hv, hl, hleaf⟩ := he
  refine ⟨a, v, l, rfl, hv, ⟨?_, hl.2⟩, hleaf⟩
  by_cases hy : y = x
  · subst hy
    exact (congrFun seen_put_place l.1).trans hl.1
  · have howned : (s.place y l.1).Owned := by
      have hlinked : s.place y l.1 = _ := hl.1
      rw [hlinked]
      trivial
    have hkeep := h.put_other (m := (s.seen x).setCache () es) (fun hn => ⟨hn, rfl⟩) hy
      (.inl howned)
    exact hkeep.1.trans hl.1

/-- One operation: what the tries hold after it, and where the entries of the
    cache come from. -/
theorem serve_spec (h : TriesInv W s) (hv : op.Valid)
    (ho : (serve W pick x op s).2.outOfMemory = false) :
    let s' := (serve W pick x op s).2
    s.outOfMemory = false ∧ TriesInv W s' ∧
      (∀ {P : Bool → Prop}, P x → CachedFrom W P s → CachedFrom W P s') ∧
      ∀ b p, (x = b ∧ op.Hits (W.conf b) p → leafValue (W.conf b) (s'.seen b) p = op.leaf) ∧
        (¬ (x = b ∧ op.Hits (W.conf b) p) →
          leafValue (W.conf b) (s'.seen b) p = leafValue (W.conf b) (s.seen b) p) := by
  by_cases hop : ∃ addr, op = .lookup addr
  · obtain ⟨addr, rfl⟩ := hop
    obtain ⟨es, hs', hes⟩ := serve_lookup pick x addr h
    simp only [hs'] at ho ⊢
    have hput := h.put (x := x) (m := (s.seen x).setCache () es)
      ((h.heap x).congr rfl rfl) (fun hn => ⟨hn, rfl⟩) (h.leaf x)
    refine ⟨ho, hput.1, fun hP hc e he => ?_, fun b p => ⟨fun hhit => hhit.2.elim, fun _ => rfl⟩⟩
    rcases hes e (by simpa [Tries.put] using he) with he | rfl | he
    · rcases hc e he with rfl | ⟨y, hy, hfilled⟩
      · exact .inl rfl
      · exact .inr ⟨y, hy, hfilled.put h⟩
    · exact .inl rfl
    · exact .inr ⟨x, hP, he.put h⟩
  · obtain ⟨m₁, hm₁, hs'⟩ := serve_update pick x h
      fun addr haddr => hop ⟨addr, haddr⟩
    simp only [hs'] at ho ⊢
    have ho₁ : m₁.outOfMemory = false := ho
    have hleaf : ∀ p, leafValue (W.conf x) m₁ p = 0 ∨
        ∃ v, ValidPtr v ∧ leafValue (W.conf x) m₁ p = v ||| kLeafTag := by
      intro p
      by_cases hp : op.Hits (W.conf x) p
      · rw [hm₁.inside ho₁ p hp]
        cases op with
        | insertRange base size value => exact .inr ⟨value, hv, rfl⟩
        | removeRange base size => exact .inl rfl
        | lookup addr => exact .inl rfl
      · rw [hm₁.outside ho₁ p hp]
        exact h.leaf x p
    have hput := h.put (x := x) (m := m₁.setCache () emptyCache) (hm₁.heap.congr rfl rfl)
      (fun hn => hm₁.rest.other hn) hleaf
    refine ⟨hm₁.rest.allocated ho₁, hput.1, fun _ _ e he => ?_, fun b p => ?_⟩
    · have hempty : e ∈ emptyCache := by simpa [Tries.put] using he
      exact .inl (List.eq_of_mem_replicate hempty)
    · by_cases hb : b = x
      · subst hb
        exact ⟨fun hhit => hm₁.inside ho₁ p hhit.2,
          fun hhit => hm₁.outside ho₁ p fun hp => hhit ⟨rfl, hp⟩⟩
      · exact ⟨fun hhit => absurd hhit.1.symm hb, fun _ => hput.2 b hb p⟩

/-- What a lookup on `b` returns is what `b` holds, if and only if the entry that
    covers the address agrees with `b`. -/
theorem lookup_answer (pick : Bool → Memory Unit → Word) (addr : Word) (h : TriesInv W s)
    (hc : CachedFrom W P s) :
    (serve W pick b (.lookup addr) s).1 =
        leafValue (W.conf b) (s.seen b) (pageOf (W.conf b) addr) &&& ~~~kLeafTag ↔
      EntryAgrees W b addr s := by
  simp only [serve, trieSystem, eval_lookup, EntryAgrees]
  have hcache : (s.seen b).cache () = s.cache := rfl
  rw [hcache]
  cases hfind : s.cache.find? (·.covers addr) with
  | none =>
    simp only [Option.mem_def, reduceCtorEq, false_implies, implies_true, iff_true]
    split
    · rename_i hzero
      exact hzero.symm
    · rfl
  | some e =>
    rcases hc e (List.mem_of_find?_eq_some hfind) with rfl | ⟨y, -, a, v, l, rfl, hv, hl, hleaf⟩
    · exact absurd (List.find?_some hfind) (by simp [TlsEntry.covers])
    · -- the entry is a hit: its slot holds the value it was filled with
      have hslot : s.slot l.1 l.2 = v ||| kLeafTag := by
        rw [← hleaf, (h.heap y).leafValue_of_leafAt hl]
        rfl
      have hhit : ∃ l', (pageEntry (W.conf y) a v (some l)).leaf = some l' ∧
          (s.seen b).slot l'.1 l'.2 = (pageEntry (W.conf y) a v (some l)).seg ||| kLeafTag :=
        ⟨l, rfl, hslot⟩
      simp only [if_pos hhit, Option.mem_def, Option.some.injEq, forall_eq']
      have hown : some l = leafSlot (W.conf b) (s.seen b) (pageOf (W.conf b) addr) →
          leafValue (W.conf b) (s.seen b) (pageOf (W.conf b) addr) = v ||| kLeafTag := by
        intro hsome
        rw [leafValue, ← hsome]
        exact hslot
      rcases h.leaf b (pageOf (W.conf b) addr) with hzero | ⟨w, hw, hleafb⟩
      · rw [hzero] at hown ⊢
        constructor
        · intro hv0
          exact absurd (hv0.trans BitVec.zero_and) hv.1
        · rintro (hsome | htag)
          · exact absurd (hown hsome).symm (tag_ne_zero v)
          · exact absurd htag.symm (tag_ne_zero v)
      · rw [hleafb] at hown ⊢
        rw [untag_tag hw.2]
        constructor
        · intro hvw
          exact .inr (congrArg (· ||| kLeafTag) hvw.symm)
        · rintro (hsome | htag)
          · exact (tag_inj hw.2 hv.2 (hown hsome)).symm
          · exact (tag_inj hw.2 hv.2 htag).symm

/-- An entry that was filled from `b` agrees with it. -/
theorem entryAgrees_of_cachedFrom (hc : CachedFrom W (· = b) s) :
    EntryAgrees W b addr s := by
  intro e he
  have hmem := List.mem_of_find?_eq_some he
  rcases hc e hmem with rfl | ⟨y, rfl, a, v, l, rfl, hv, hl, hleaf⟩
  · exact absurd (List.find?_some he) (by simp [TlsEntry.covers])
  · right
    rw [pageOf_eq_of_covers (List.find?_some he)]
    exact hleaf

end invariant

/-! ## 4. Results -/

section results

variable {b : Bool} {s s' : Tries} {ops : History}

theorem serveAll_outOfMemory (ops : History) (ho : (serveAll W pick s ops).outOfMemory = false) :
    s.outOfMemory = false := by
  induction ops generalizing s with
  | nil => exact ho
  | cons op ops ih =>
    have hnext : (serve W pick op.1 op.2 s).2.outOfMemory = false := ih ho
    exact eval_allocated (m := s.seen op.1) hnext

/-- The two runs, from states in which `b` holds the same. -/
theorem answers_eq_iff {pick' : Bool → Memory Unit → Word} (h : TriesInv W s)
    (hc : CachedFrom W (fun _ => True) s) (h' : TriesInv W s') (hc' : CachedFrom W (· = b) s')
    (hsame : ∀ p, leafValue (W.conf b) (s.seen b) p = leafValue (W.conf b) (s'.seen b) p)
    (hvalid : ∀ op ∈ ops, op.2.Valid) (ho : (serveAll W pick s ops).outOfMemory = false)
    (ho' : (serveAll W pick' s' (ops.only b)).outOfMemory = false) :
    answers W pick b ops s = answers W pick' b (ops.only b) s' ↔ EntriesAgree W pick b ops s := by
  induction ops generalizing s s' with
  | nil => exact ⟨fun _ => trivial, fun _ => rfl⟩
  | cons op ops ih =>
    obtain ⟨x, op⟩ := op
    have hv : op.Valid := hvalid (x, op) List.mem_cons_self
    have hvalid' : ∀ op ∈ ops, op.2.Valid := fun op hop => hvalid op (List.mem_cons_of_mem _ hop)
    have ho₁ : (serve W pick x op s).2.outOfMemory = false := serveAll_outOfMemory ops ho
    obtain ⟨-, hnext, hcached, hleaf⟩ := serve_spec h hv ho₁
    by_cases hx : x = b
    · subst hx
      have honly : History.only x ((x, op) :: ops) = (x, op) :: History.only x ops := by
        simp [History.only]
      rw [honly] at ho' ⊢
      have ho₁' : (serve W pick' x op s').2.outOfMemory = false :=
        serveAll_outOfMemory (History.only x ops) ho'
      obtain ⟨-, hnext', hcached', hleaf'⟩ := serve_spec h' hv ho₁'
      have hsame' : ∀ p,
          leafValue (W.conf x) ((serve W pick x op s).2.seen x) p =
            leafValue (W.conf x) ((serve W pick' x op s').2.seen x) p := by
        intro p
        by_cases hp : op.Hits (W.conf x) p
        · rw [(hleaf x p).1 ⟨rfl, hp⟩, (hleaf' x p).1 ⟨rfl, hp⟩]
        · rw [(hleaf x p).2 fun hhit => hp hhit.2, (hleaf' x p).2 fun hhit => hp hhit.2, hsame]
      have hrest := ih hnext (hcached trivial hc) hnext' (hcached' rfl hc') hsame' hvalid' ho ho'
      cases op with
      | lookup addr =>
        have hown := (lookup_answer pick' addr h' hc').mpr
          (entryAgrees_of_cachedFrom hc')
        have hfirst : (serve W pick x (.lookup addr) s).1 = (serve W pick' x (.lookup addr) s').1 ↔
            EntryAgrees W x addr s := by
          rw [hown, ← hsame]
          exact lookup_answer pick addr h hc
        simp only [answers, EntriesAgree, if_true, List.cons.injEq, hfirst, hrest]
        simp
      | insertRange base size value =>
        simp only [answers, EntriesAgree, hrest]
        simp
      | removeRange base size =>
        simp only [answers, EntriesAgree, hrest]
        simp
    · have honly : History.only b ((x, op) :: ops) = History.only b ops := by
        simp [History.only, hx]
      rw [honly] at ho' ⊢
      have hsame' : ∀ p, leafValue (W.conf b) ((serve W pick x op s).2.seen b) p =
          leafValue (W.conf b) (s'.seen b) p := by
        intro p
        rw [(hleaf b p).2 fun hhit => hx hhit.1, hsame]
      have hrest := ih hnext (hcached trivial hc) h' hc' hsame' hvalid' ho ho'
      cases op <;> simp [answers, EntriesAgree, hrest, hx]

/-- One thread, any sequence of operations on two tries: as long as nodes can be
    allocated, the lookups on `b` return the same as without the operations on
    the other trie, if and only if every entry that covers the address of such a
    lookup agrees with `b`. -/
theorem lookups_isolated_iff {pick' : Bool → Memory Unit → Word}
    (hvalid : ∀ op ∈ ops, op.2.Valid)
    (ho : (serveAll W pick W.initial ops).outOfMemory = false)
    (ho' : (serveAll W pick' W.initial (ops.only b)).outOfMemory = false) :
    answers W pick b ops W.initial = answers W pick' b (ops.only b) W.initial ↔
      EntriesAgree W pick b ops W.initial := by
  have hempty : ∀ P, CachedFrom W P W.initial :=
    fun P e he => .inl (List.eq_of_mem_replicate he)
  exact answers_eq_iff triesInv_initial (hempty _) triesInv_initial (hempty _) (fun _ => rfl)
    hvalid ho ho'

end results

/-! ## 5. Two tries that disagree about a page -/

def twoTries : TwoTries where
  cfg := defaultConfig
  root x := if x then 0x1000 else 0x9000
  root_ne := by decide
  root_inj := by decide

/-- A heap for both tries. -/
def sixNodes (_ : Bool) : Memory Unit → Word :=
  firstFree [0x2000, 0x3000, 0x4000, 0x5000, 0x6000, 0x7000]

/-- Trie `false` maps a page and is asked for it; then the same address is looked
    up in trie `true`, which is empty. -/
def foreignEntry : History :=
  [(false, .insertRange 0x100000 0x1000 0x10), (false, .lookup 0x100000), (true, .lookup 0x100000)]

/-- Trie `true` returns the value of trie `false`. -/
theorem foreign_entry_returned :
    ¬ ∀ (W : TwoTries) (pick pick' : Bool → Memory Unit → Word) (b : Bool) (ops : History),
      (∀ op ∈ ops, op.2.Valid) →
      (serveAll W pick W.initial ops).outOfMemory = false →
      (serveAll W pick' W.initial (ops.only b)).outOfMemory = false →
      answers W pick b ops W.initial = answers W pick' b (ops.only b) W.initial := by
  intro hall
  have hvalid : ∀ op ∈ foreignEntry, op.2.Valid := by decide +kernel
  have hsame := hall twoTries sixNodes sixNodes true foreignEntry hvalid
    (by decide +kernel) (by decide +kernel)
  revert hsame
  decide +kernel

/-- Trie `true` maps the page too, and answers for itself. -/
def ownEntry : History :=
  (true, .insertRange 0x100000 0x1000 0x20) :: foreignEntry.take 1 ++
    [(true, .lookup 0x100000), (false, .insertRange 0x100000 0x1000 0x30), (true, .lookup 0x100000)]

theorem lookups_isolated_own :
    answers twoTries sixNodes true ownEntry twoTries.initial =
      answers twoTries sixNodes true (ownEntry.only true) twoTries.initial := by
  have hvalid : ∀ op ∈ ownEntry, op.2.Valid := by decide +kernel
  apply (lookups_isolated_iff hvalid (by decide +kernel) (by decide +kernel)).mpr
  refine ⟨by simp, by simp, ?_, by simp, ?_, trivial⟩
  · rintro - addr ⟨⟩
    decide +kernel
  · rintro - addr ⟨⟩
    decide +kernel

end Memnon.Trie
