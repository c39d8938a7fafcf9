import Memnon.Trie
import Mathlib.Data.List.Induction

/-!
# The nodes of the trie

Nodes are only ever added, and each one hangs below one slot. `place` records
where: a linked node has the path of indices that leads to it, a fresh one is
all zero and known to one thread only. From this follows that the leaf slot of a
page is one slot for good once it exists, that inserting nodes changes the value
of no page, and that a store to a leaf slot changes the value of one page key.
-/

namespace Memnon.Trie

open Memnon.Lib

variable {T : Type} {cfg : Config} {m m' : Memory T} {n cur a : Word} {i idx : Nat}
  {ws rest : List Nat} {p q v : Word} {t u : T} {s : Slot}

/-! ## 1. Fields after updates -/

namespace Memory

@[simp] theorem write_slot_self : (m.write n i v).slot n i = v := by
  simp [write]

theorem write_slot_of_ne {n' : Word} {i' : Nat} (h : (n', i') ≠ (n, i)) :
    (m.write n i v).slot n' i' = m.slot n' i' := by
  by_cases hn : n' = n
  · subst hn
    have hi : i' ≠ i := fun hi => h (by rw [hi])
    simp [write, Function.update_of_ne hi]
  · simp [write, Function.update_of_ne hn]

@[simp] theorem write_place : (m.write n i v).place = m.place := rfl
@[simp] theorem write_cache : (m.write n i v).cache = m.cache := rfl
@[simp] theorem write_object : (m.write n i v).object = m.object := rfl
@[simp] theorem write_live : (m.write n i v).live = m.live := rfl
@[simp] theorem write_reading : (m.write n i v).reading = m.reading := rfl
@[simp] theorem write_outOfMemory : (m.write n i v).outOfMemory = m.outOfMemory := rfl

@[simp] theorem setPlace_slot {x : Place T} : (m.setPlace n x).slot = m.slot := rfl

section

variable [DecidableEq T] {es : List TlsEntry} {r : Option (Word × Word × Option Word)}

@[simp] theorem setCache_cache_self : (m.setCache t es).cache t = es :=
  Function.update_self ..

theorem setCache_cache_of_ne (h : u ≠ t) : (m.setCache t es).cache u = m.cache u :=
  Function.update_of_ne h _ _

@[simp] theorem setCache_slot : (m.setCache t es).slot = m.slot := rfl
@[simp] theorem setCache_place : (m.setCache t es).place = m.place := rfl
@[simp] theorem setCache_object : (m.setCache t es).object = m.object := rfl
@[simp] theorem setCache_live : (m.setCache t es).live = m.live := rfl
@[simp] theorem setCache_reading : (m.setCache t es).reading = m.reading := rfl
@[simp] theorem setCache_outOfMemory : (m.setCache t es).outOfMemory = m.outOfMemory := rfl

@[simp] theorem setReading_reading_self : (m.setReading t r).reading t = r :=
  Function.update_self ..

theorem setReading_reading_of_ne (h : u ≠ t) : (m.setReading t r).reading u = m.reading u :=
  Function.update_of_ne h _ _

@[simp] theorem setReading_slot : (m.setReading t r).slot = m.slot := rfl
@[simp] theorem setReading_place : (m.setReading t r).place = m.place := rfl
@[simp] theorem setReading_cache : (m.setReading t r).cache = m.cache := rfl
@[simp] theorem setReading_object : (m.setReading t r).object = m.object := rfl
@[simp] theorem setReading_live : (m.setReading t r).live = m.live := rfl
@[simp] theorem setReading_outOfMemory : (m.setReading t r).outOfMemory = m.outOfMemory := rfl

end

end Memory

/-! ## 2. Walks and leaf slots -/

/-- The node at the end of a path of non-zero slots. -/
def walk (slot : Word → Nat → Word) : Word → List Nat → Option Word
  | n, [] => some n
  | n, idx :: rest => if slot n idx = 0 then none else walk slot (slot n idx) rest

theorem walk_append {slot : Word → Nat → Word} (is js : List Nat) :
    walk slot n (is ++ js) = (walk slot n is).bind fun u => walk slot u js := by
  induction is generalizing n with
  | nil => rfl
  | cons idx rest ih =>
    simp only [List.cons_append, walk]
    split
    · rfl
    · exact ih

/-- The leaf slot of a page, if its nodes exist. -/
def leafSlot (cfg : Config) (m : Memory T) (p : Word) : Option Slot :=
  (walk m.slot cfg.root (innerPath cfg p)).map fun n => (n, leafIdx cfg p)

/-- What the leaf slot of a page holds. -/
def leafValue (cfg : Config) (m : Memory T) (p : Word) : Word :=
  match leafSlot cfg m p with
  | some s => m.slot s.1 s.2
  | none => 0

/-- `s` is the leaf slot of page `p`. -/
def LeafAt (cfg : Config) (m : Memory T) (p : Word) (s : Slot) : Prop :=
  m.place s.1 = .linked (innerPath cfg p) ∧ s.2 = leafIdx cfg p

/-- Pages that share their leaf slot. -/
def SameKey (cfg : Config) (p q : Word) : Prop :=
  innerPath cfg p = innerPath cfg q ∧ leafIdx cfg p = leafIdx cfg q

instance : Decidable (SameKey cfg p q) := inferInstanceAs (Decidable (_ ∧ _))

structure HeapInv (cfg : Config) (m : Memory T) : Prop where
  root : m.place cfg.root = .linked []
  root_unique : ∀ {n}, m.place n = .linked [] → n = cfg.root
  depth : ∀ {n ws}, m.place n = .linked ws → ws.length < cfg.levels
  child : ∀ {n ws i}, m.place n = .linked ws → ws.length + 1 < cfg.levels → m.slot n i ≠ 0 →
    m.place (m.slot n i) = .linked (ws ++ [i])
  parent : ∀ {n ws i}, m.place n = .linked (ws ++ [i]) →
    n ≠ 0 ∧ ∃ u, m.place u = .linked ws ∧ m.slot u i = n
  fresh : ∀ {n t}, m.place n = .fresh t → n ≠ 0 ∧ ∀ i, m.slot n i = 0

/-- The invariant is about slots and places only. -/
theorem HeapInv.congr (h : HeapInv cfg m) (hslot : m'.slot = m.slot) (hplace : m'.place = m.place) :
    HeapInv cfg m' := by
  refine ⟨?_, ?_, ?_, ?_, ?_, ?_⟩ <;> rw [hplace] <;> try rw [hslot]
  exacts [h.root, h.root_unique, h.depth, h.child, h.parent, h.fresh]

theorem innerPath_length (cfg : Config) (p : Word) : (innerPath cfg p).length = cfg.levels - 1 := by
  simp [innerPath]

theorem heapInv_initial : HeapInv cfg (initialMemory T cfg) := by
  have hplace : ∀ n ws, (initialMemory T cfg).place n = .linked ws → n = cfg.root ∧ ws = [] := by
    intro n ws h
    by_cases hn : n = cfg.root
    · subst hn
      simpa [initialMemory] using h.symm
    · simp [initialMemory, Function.update_of_ne hn] at h
  refine ⟨by simp [initialMemory], fun h => (hplace _ _ h).1, fun h => ?_, fun _ _ hs => ?_,
    fun h => ?_, fun {n t} h => ?_⟩
  · obtain ⟨-, rfl⟩ := hplace _ _ h
    exact cfg.levels_pos
  · exact absurd rfl hs
  · exact absurd (hplace _ _ h).2 (by simp)
  · by_cases hn : n = cfg.root
    · subst hn
      simp [initialMemory] at h
    · simp [initialMemory, Function.update_of_ne hn] at h

namespace HeapInv

variable (h : HeapInv cfg m)
include h

/-- The path of a linked node leads to it. -/
theorem walk_of_place (hn : m.place n = .linked ws) : walk m.slot cfg.root ws = some n := by
  induction ws using List.reverseRecOn generalizing n with
  | nil => exact congrArg some (h.root_unique hn).symm
  | append_singleton ws i ih =>
    obtain ⟨hn0, u, hu, hslot⟩ := h.parent hn
    rw [walk_append, ih hu]
    simp only [Option.bind_some, walk, hslot, if_neg hn0]

theorem place_unique {n' : Word} (hn : m.place n = .linked ws) (hn' : m.place n' = .linked ws) :
    n = n' :=
  Option.some.inj ((h.walk_of_place hn).symm.trans (h.walk_of_place hn'))

/-- Above the leaf level a walk from a linked node ends at a linked node. -/
theorem place_of_walk (hn : m.place n = .linked ws) (hlen : ws.length + rest.length < cfg.levels)
    (hw : walk m.slot n rest = some a) : m.place a = .linked (ws ++ rest) := by
  induction rest generalizing n ws with
  | nil =>
    cases hw
    simpa using hn
  | cons idx rest ih =>
    simp only [walk] at hw
    simp only [List.length_cons] at hlen
    split at hw
    · cases hw
    · have hchild := h.child hn (by omega) ‹_›
      simpa using ih hchild (by simp only [List.length_append, List.length_singleton]; omega) hw

theorem leafSlot_eq_some_iff : leafSlot cfg m p = some s ↔ LeafAt cfg m p s := by
  have hpos := cfg.levels_pos
  constructor
  · intro hs
    obtain ⟨n, hn, rfl⟩ := Option.map_eq_some_iff.mp hs
    refine ⟨?_, rfl⟩
    simpa using h.place_of_walk h.root (by simp [innerPath_length]; omega) hn
  · rintro ⟨hplace, hidx⟩
    rw [leafSlot, h.walk_of_place hplace, Option.map_some, ← hidx]

theorem leafValue_of_leafAt (hs : LeafAt cfg m p s) : leafValue cfg m p = m.slot s.1 s.2 := by
  rw [leafValue, h.leafSlot_eq_some_iff.mpr hs]

theorem exists_leafAt (hp : leafValue cfg m p ≠ 0) : ∃ s, LeafAt cfg m p s := by
  unfold leafValue at hp
  split at hp
  · exact ⟨_, h.leafSlot_eq_some_iff.mp ‹_›⟩
  · exact absurd rfl hp

/-- The walk to a page stops at a slot that is zero. -/
theorem leafValue_eq_zero (hcur : m.place cur = .linked ws)
    (hpath : ws ++ idx :: rest = innerPath cfg p) (hzero : m.slot cur idx = 0) :
    leafValue cfg m p = 0 := by
  have hslot : leafSlot cfg m p = none := by
    rw [leafSlot, ← hpath, walk_append, h.walk_of_place hcur]
    simp [walk, hzero]
  rw [leafValue, hslot]

end HeapInv

theorem LeafAt.sameKey (hp : LeafAt cfg m p s) (hq : LeafAt cfg m q s) : SameKey cfg p q :=
  ⟨Place.linked.inj (hp.1.symm.trans hq.1), hp.2.symm.trans hq.2⟩

theorem SameKey.leafAt (h : SameKey cfg p q) (hp : LeafAt cfg m p s) : LeafAt cfg m q s :=
  ⟨hp.1.trans (by rw [h.1]), hp.2.trans h.2⟩

theorem SameKey.leafValue (h : SameKey cfg p q) : leafValue cfg m p = leafValue cfg m q := by
  simp only [Memnon.Trie.leafValue, leafSlot, h.1, h.2]

/-! ## 3. Stores to leaf slots -/

theorem heapInv_write (h : HeapInv cfg m) (hs : LeafAt cfg m p s) :
    HeapInv cfg (m.write s.1 s.2 v) := by
  have hlen := innerPath_length cfg p
  have hpos := cfg.levels_pos
  -- no slot above the leaf level is the one written
  have hinner : ∀ {n ws}, m.place n = .linked ws → ws.length + 1 < cfg.levels → ∀ i,
      (m.write s.1 s.2 v).slot n i = m.slot n i := by
    intro n ws hn hws i
    refine Memory.write_slot_of_ne fun heq => ?_
    obtain rfl : n = s.1 := congrArg Prod.fst heq
    obtain rfl := Place.linked.inj (hn.symm.trans hs.1)
    omega
  refine ⟨h.root, h.root_unique, h.depth, fun hn hws hne => ?_, fun hn => ?_, fun hn => ?_⟩
  · rw [hinner hn hws] at hne ⊢
    exact h.child hn hws hne
  · obtain ⟨hn0, u, hu, hslot⟩ := h.parent hn
    have hdepth := h.depth hn
    rw [List.length_append, List.length_singleton] at hdepth
    exact ⟨hn0, u, hu, (hinner hu hdepth _).trans hslot⟩
  · obtain ⟨hn0, hzero⟩ := h.fresh hn
    refine ⟨hn0, fun i => ?_⟩
    rw [Memory.write_slot_of_ne, hzero i]
    intro heq
    obtain rfl := congrArg Prod.fst heq
    rw [Memory.write_place] at hn
    have hlinked := hs.1
    rw [hn] at hlinked
    cases hlinked

theorem leafValue_write (h : HeapInv cfg m) (hs : LeafAt cfg m p s) :
    leafValue cfg (m.write s.1 s.2 v) q = if SameKey cfg p q then v else leafValue cfg m q := by
  have h' : HeapInv cfg (m.write s.1 s.2 v) := heapInv_write h hs
  split
  · rename_i hkey
    have hq : LeafAt cfg (m.write s.1 s.2 v) q s := hkey.leafAt hs
    rw [h'.leafValue_of_leafAt hq, Memory.write_slot_self]
  · rename_i hkey
    unfold leafValue
    have hsame : leafSlot cfg (m.write s.1 s.2 v) q = leafSlot cfg m q := by
      ext s'
      rw [h'.leafSlot_eq_some_iff, h.leafSlot_eq_some_iff]
      rfl
    rw [hsame]
    split
    · rename_i s' hs'
      refine Memory.write_slot_of_ne fun heq => hkey ?_
      obtain rfl : s' = s := heq
      exact hs.sameKey (h.leafSlot_eq_some_iff.mp hs')
    · rfl

/-! ## 4. Steps that change no leaf -/

/-- What allocating, publishing or deleting a node does, seen from outside. -/
structure HeapStep (cfg : Config) (t : T) (m m' : Memory T) : Prop where
  inv : HeapInv cfg m'
  linked : ∀ {n ws}, m.place n = .linked ws → m'.place n = .linked ws
  fresh : ∀ {n u}, u ≠ t → m.place n = .fresh u → m'.place n = .fresh u
  leaf : ∀ p, leafValue cfg m' p = leafValue cfg m p
  cache : m'.cache = m.cache
  object : m'.object = m.object
  live : m'.live = m.live
  reading : m'.reading = m.reading
  outOfMemory : m.outOfMemory = true → m'.outOfMemory = true
  other : ∀ {n}, m.place n = .other → m'.place n = .other ∧ m'.slot n = m.slot n

/-- Leaf values are the same when every leaf slot keeps its value and no new
    one is non-zero. -/
theorem leafValue_congr (h : HeapInv cfg m) (h' : HeapInv cfg m')
    (hold : ∀ {s}, LeafAt cfg m p s → LeafAt cfg m' p s ∧ m'.slot s.1 s.2 = m.slot s.1 s.2)
    (hnew : ∀ {s}, LeafAt cfg m' p s → m'.slot s.1 s.2 ≠ 0 → LeafAt cfg m p s) :
    leafValue cfg m' p = leafValue cfg m p := by
  by_cases hm : ∃ s, LeafAt cfg m p s
  · obtain ⟨s, hs⟩ := hm
    obtain ⟨hs', hslot⟩ := hold hs
    rw [h.leafValue_of_leafAt hs, h'.leafValue_of_leafAt hs', hslot]
  · have hzero : leafValue cfg m p = 0 := by
      by_contra hne
      exact hm (h.exists_leafAt hne)
    rw [hzero]
    by_contra hne
    obtain ⟨s, hs⟩ := h'.exists_leafAt hne
    rw [h'.leafValue_of_leafAt hs] at hne
    exact hm ⟨s, hnew hs hne⟩

/-- A node of the trie, published or not. -/
def Place.Owned : Place T → Prop
  | .fresh _ | .linked _ => True
  | .free | .other => False

/-- A change that leaves the trie's own nodes alone. -/
theorem HeapInv.transfer (h : HeapInv cfg m)
    (hplace : ∀ n, (m.place n).Owned ∨ (m'.place n).Owned →
      m'.place n = m.place n ∧ m'.slot n = m.slot n) :
    HeapInv cfg m' ∧ ∀ p, leafValue cfg m' p = leafValue cfg m p := by
  have hmine : ∀ {n x}, m.place n = x → x.Owned → m'.place n = x ∧ m'.slot n = m.slot n := by
    rintro n x rfl hx
    exact hplace n (.inl hx)
  have hback : ∀ {n x}, m'.place n = x → x.Owned → m.place n = x ∧ m'.slot n = m.slot n := by
    rintro n x rfl hx
    exact ⟨(hplace n (.inr hx)).1.symm, (hplace n (.inr hx)).2⟩
  have hinv : HeapInv cfg m' := by
    refine ⟨(hmine h.root trivial).1, fun hn => h.root_unique (hback hn trivial).1,
      fun hn => h.depth (hback hn trivial).1, fun hn hws hne => ?_, fun hn => ?_, fun hn => ?_⟩
    · obtain ⟨hm, hslot⟩ := hback hn trivial
      rw [hslot] at hne ⊢
      exact (hmine (h.child hm hws hne) trivial).1
    · obtain ⟨hn0, u, hu, hs⟩ := h.parent (hback hn trivial).1
      obtain ⟨hu', hslot⟩ := hmine hu trivial
      exact ⟨hn0, u, hu', by rw [hslot]; exact hs⟩
    · obtain ⟨hm, hslot⟩ := hback hn trivial
      rw [hslot]
      exact h.fresh hm
  refine ⟨hinv, fun p => leafValue_congr h hinv (fun hs => ?_) fun hs _ => ?_⟩
  · obtain ⟨hs', hslot⟩ := hmine hs.1 trivial
    exact ⟨⟨hs', hs.2⟩, by rw [hslot]⟩
  · exact ⟨(hback hs.1 trivial).1, hs.2⟩

theorem heapStep_outOfMemory (h : HeapInv cfg m) :
    HeapStep cfg t m { m with outOfMemory := true } where
  inv := ⟨h.root, h.root_unique, h.depth, h.child, h.parent, h.fresh⟩
  linked hn := hn
  fresh _ hn := hn
  leaf _ := rfl
  cache := rfl
  object := rfl
  live := rfl
  reading := rfl
  outOfMemory _ := rfl
  other hn := ⟨hn, rfl⟩

theorem ne_of_place {x y : Place T} {n' : Word} (hn : m.place n = x) (hn' : m.place n' = y)
    (hxy : x ≠ y) : n' ≠ n := by
  rintro rfl
  exact hxy (hn.symm.trans hn')

/-- A node that no slot points to may change its contents and its place. -/
theorem heapStep_newNode (h : HeapInv cfg m) (ha0 : a ≠ 0) (ha : m.place a = .free) :
    HeapStep cfg t m ((m.construct a).setPlace a (.fresh t)) := by
  have hplace : ∀ n, n ≠ a → ((m.construct a).setPlace a (.fresh t)).place n = m.place n :=
    fun n hn => Function.update_of_ne hn _ _
  have hslot : ∀ n, n ≠ a → ((m.construct a).setPlace a (.fresh t)).slot n = m.slot n :=
    fun n hn => Function.update_of_ne hn _ _
  have hplace_a : ((m.construct a).setPlace a (.fresh t)).place a = .fresh t :=
    Function.update_self ..
  have hlinked : ∀ {n ws}, m.place n = .linked ws → n ≠ a := by
    rintro n ws hn rfl
    rw [ha] at hn
    cases hn
  have hback : ∀ {n ws}, ((m.construct a).setPlace a (.fresh t)).place n = .linked ws →
      n ≠ a ∧ m.place n = .linked ws := by
    intro n ws hn
    by_cases hna : n = a
    · rw [hna, hplace_a] at hn
      cases hn
    · exact ⟨hna, (hplace n hna).symm.trans hn⟩
  have hinv : HeapInv cfg ((m.construct a).setPlace a (.fresh t)) := by
    refine ⟨(hplace _ (hlinked h.root)).trans h.root, fun hn => h.root_unique (hback hn).2,
      fun hn => h.depth (hback hn).2, fun hn hws hne => ?_, fun hn => ?_, fun {n u} hn => ?_⟩
    · obtain ⟨hna, hn⟩ := hback hn
      rw [hslot _ hna] at hne ⊢
      have hchild := h.child hn hws hne
      exact (hplace _ (hlinked hchild)).trans hchild
    · obtain ⟨hn0, u, hu, hs⟩ := h.parent (hback hn).2
      exact ⟨hn0, u, (hplace u (hlinked hu)).trans hu, by rw [hslot u (hlinked hu)]; exact hs⟩
    · by_cases hna : n = a
      · subst hna
        exact ⟨ha0, fun i => by simp [Memory.construct]⟩
      · obtain ⟨hn0, hzero⟩ := h.fresh ((hplace n hna).symm.trans hn)
        exact ⟨hn0, fun i => by rw [hslot n hna]; exact hzero i⟩
  refine ⟨hinv, fun hn => (hplace _ (hlinked hn)).trans hn, fun {n u} _ hn => ?_, fun p => ?_,
    rfl, rfl, rfl, rfl, fun ho => ho, fun hn => ?_⟩
  · rw [hplace n (by rintro rfl; rw [ha] at hn; cases hn), hn]
  · refine leafValue_congr h hinv (fun hs => ?_) fun hs _ => ⟨(hback hs.1).2, hs.2⟩
    have hsa := hlinked hs.1
    exact ⟨⟨(hplace _ hsa).trans hs.1, hs.2⟩, by rw [hslot _ hsa]⟩
  · have hna := ne_of_place ha hn (by simp)
    exact ⟨(hplace _ hna).trans hn, hslot _ hna⟩

/-- Publishing a fresh node in an empty slot above the leaf level. -/
theorem heapStep_link (h : HeapInv cfg m) (hcur : m.place cur = .linked ws)
    (hws : ws.length + 1 < cfg.levels) (hzero : m.slot cur idx = 0) (ha : m.place a = .fresh t) :
    HeapStep cfg t m ((m.write cur idx a).setPlace a (.linked (ws ++ [idx]))) := by
  obtain ⟨ha0, hazero⟩ := h.fresh ha
  have hplace : ∀ n, n ≠ a →
      ((m.write cur idx a).setPlace a (.linked (ws ++ [idx]))).place n = m.place n :=
    fun n hn => Function.update_of_ne hn _ _
  have hplace_a : ((m.write cur idx a).setPlace a (.linked (ws ++ [idx]))).place a =
      .linked (ws ++ [idx]) := Function.update_self ..
  have hslot : ∀ {n i}, (n, i) ≠ (cur, idx) → (m.write cur idx a).slot n i = m.slot n i :=
    Memory.write_slot_of_ne
  have hlinked : ∀ {n ws}, m.place n = .linked ws → n ≠ a := by
    rintro n ws hn rfl
    rw [ha] at hn
    cases hn
  have hback : ∀ {n ws'}, ((m.write cur idx a).setPlace a (.linked (ws ++ [idx]))).place n =
      .linked ws' → n = a ∧ ws' = ws ++ [idx] ∨ n ≠ a ∧ m.place n = .linked ws' := by
    intro n ws' hn
    by_cases hna : n = a
    · rw [hna, hplace_a] at hn
      exact .inl ⟨hna, (Place.linked.inj hn).symm⟩
    · exact .inr ⟨hna, (hplace n hna).symm.trans hn⟩
  have hacur : a ≠ cur := fun hac => hlinked hcur hac.symm
  have hinv : HeapInv cfg ((m.write cur idx a).setPlace a (.linked (ws ++ [idx]))) := by
    refine ⟨(hplace _ (hlinked h.root)).trans h.root, fun {n} hn => ?_, fun {n ws'} hn => ?_,
      fun {n ws' j} hn hws' hne => ?_, fun {n ws' j} hn => ?_, fun {n u} hn => ?_⟩
    · obtain ⟨-, hnil⟩ | ⟨-, hn⟩ := hback hn
      · simp at hnil
      · exact h.root_unique hn
    · obtain ⟨-, rfl⟩ | ⟨-, hn⟩ := hback hn
      · simpa using hws
      · exact h.depth hn
    · rw [Memory.setPlace_slot] at hne ⊢
      obtain ⟨rfl, rfl⟩ | ⟨hna, hm⟩ := hback hn
      · -- the new node is all zero
        rw [hslot (fun heq => hacur (congrArg Prod.fst heq)), hazero j] at hne
        exact absurd rfl hne
      · by_cases heq : (n, j) = (cur, idx)
        · obtain ⟨rfl, rfl⟩ := Prod.mk.inj heq
          obtain rfl := Place.linked.inj (hm.symm.trans hcur)
          rw [Memory.write_slot_self]
          exact hplace_a
        · rw [hslot heq] at hne ⊢
          have hchild := h.child hm hws' hne
          exact (hplace _ (hlinked hchild)).trans hchild
    · obtain ⟨rfl, heq⟩ | ⟨hna, hn⟩ := hback hn
      · obtain ⟨rfl, hj⟩ := List.append_inj' heq rfl
        obtain rfl : j = idx := by simpa using hj
        exact ⟨ha0, cur, (hplace cur hacur.symm).trans hcur, Memory.write_slot_self⟩
      · obtain ⟨hn0, u, hu, hs⟩ := h.parent hn
        refine ⟨hn0, u, (hplace u (hlinked hu)).trans hu, ?_⟩
        rw [Memory.setPlace_slot, hslot, hs]
        rintro heq
        obtain ⟨rfl, rfl⟩ := Prod.mk.inj heq
        exact hn0 (hs.symm.trans hzero)
    · have hna : n ≠ a := by
        rintro rfl
        rw [hplace_a] at hn
        cases hn
      rw [hplace n hna] at hn
      obtain ⟨hn0, hz⟩ := h.fresh hn
      refine ⟨hn0, fun j => ?_⟩
      rw [Memory.setPlace_slot, hslot, hz j]
      rintro heq
      obtain ⟨rfl, -⟩ := Prod.mk.inj heq
      rw [hcur] at hn
      cases hn
  refine ⟨hinv, fun hn => (hplace _ (hlinked hn)).trans hn, fun {n u} hut hn => ?_, fun p => ?_,
    rfl, rfl, rfl, rfl, fun ho => ho, fun hn => ?_⟩
  · rw [hplace n, hn]
    rintro rfl
    rw [ha] at hn
    exact hut (Place.fresh.inj hn).symm
  · -- the slot written is above the leaf level
    have hne : ∀ {s}, LeafAt cfg m p s → s ≠ (cur, idx) := by
      rintro s hs rfl
      have heq := Place.linked.inj (hcur.symm.trans hs.1)
      have hlen := innerPath_length cfg p
      rw [← heq] at hlen
      omega
    refine leafValue_congr h hinv (fun hs => ?_) fun {s} hs hs0 => ?_
    · exact ⟨⟨(hplace _ (hlinked hs.1)).trans hs.1, hs.2⟩, hslot (hne hs)⟩
    · obtain ⟨hsa, -⟩ | ⟨-, hn⟩ := hback hs.1
      · rw [Memory.setPlace_slot, hslot, hsa, hazero] at hs0
        · exact absurd rfl hs0
        · exact fun heq => hacur (hsa.symm.trans (congrArg Prod.fst heq))
      · exact ⟨hn, hs.2⟩
  · have hcur' := ne_of_place hcur hn (by simp)
    refine ⟨(hplace _ (ne_of_place ha hn (by simp))).trans hn, funext fun i => ?_⟩
    exact hslot fun heq => hcur' (congrArg Prod.fst heq)

theorem heapStep_deleteNode (h : HeapInv cfg m) (ha : m.place a = .fresh t) :
    HeapStep cfg t m (m.setPlace a .free) := by
  have hplace : ∀ n, n ≠ a → (m.setPlace a .free).place n = m.place n :=
    fun n hn => Function.update_of_ne hn _ _
  have hlinked : ∀ {n ws}, m.place n = .linked ws → n ≠ a := by
    rintro n ws hn rfl
    rw [ha] at hn
    cases hn
  have hback : ∀ {n x}, (m.setPlace a .free).place n = x → x ≠ .free → m.place n = x := by
    intro n x hn hx
    by_cases hna : n = a
    · subst hna
      rw [← hn] at hx
      exact absurd (Function.update_self ..) hx
    · exact (hplace n hna).symm.trans hn
  have hinv : HeapInv cfg (m.setPlace a .free) := by
    refine ⟨(hplace _ (hlinked h.root)).trans h.root,
      fun hn => h.root_unique (hback hn (by simp)), fun hn => h.depth (hback hn (by simp)),
      fun hn hws hne => ?_, fun hn => ?_, fun hn => h.fresh (hback hn (by simp))⟩
    · have hchild := h.child (hback hn (by simp)) hws hne
      exact (hplace _ (hlinked hchild)).trans hchild
    · obtain ⟨hn0, u, hu, hs⟩ := h.parent (hback hn (by simp))
      exact ⟨hn0, u, (hplace u (hlinked hu)).trans hu, hs⟩
  refine ⟨hinv, fun hn => (hplace _ (hlinked hn)).trans hn, fun {n u} hut hn => ?_, fun p => ?_,
    rfl, rfl, rfl, rfl, fun ho => ho, fun hn => ?_⟩
  · rw [hplace n, hn]
    rintro rfl
    rw [ha] at hn
    exact hut (Place.fresh.inj hn).symm
  · exact leafValue_congr h hinv
      (fun hs => ⟨⟨(hplace _ (hlinked hs.1)).trans hs.1, hs.2⟩, rfl⟩)
      fun hs _ => ⟨hback hs.1 (by simp), hs.2⟩
  · exact ⟨(hplace _ (ne_of_place ha hn (by simp))).trans hn, rfl⟩

end Memnon.Trie
