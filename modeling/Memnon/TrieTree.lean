import Memnon.TrieMap
import Memnon.Lib.DepthFirst
import Mathlib.Algebra.BigOperators.Intervals

/-!
# The trie as a tree

`count_nodes` and `destroy_subtree` tell links from values by the depth of the
recursion alone. The slots above the leaf level are links, each node hangs below
one path, and the paths are the index prefixes of the pages ever inserted, so the
two traversals meet every node once.
-/

namespace Memnon.Trie

open Memnon.Lib Memnon.Lib.Prog

/-! ## 1. count_nodes and destroy_subtree -/

section source

variable (cfg : Config)

def kFanOut : Nat := 2 ^ cfg.stride

/-- `count_nodes` at depth `levels - 1 - below`. -/
def countNodes : Nat → Word → TrieProg Nat
  | 0, node => if node = 0 then return 0 else return 1
  | below + 1, node =>
      if node = 0 then return 0
      else (List.range (kFanOut cfg)).foldlM (fun total i => do
        let raw ← load node i
        if raw ≠ 0 then
          let nodes ← countNodes below raw
          return total + nodes
        else return total) 1

def nodeCount : TrieProg Nat := countNodes cfg (cfg.levels - 1) cfg.root

/-- `destroy_subtree` at depth `levels - 1 - below`. -/
def destroySubtree : Nat → Word → TrieProg Unit
  | 0, node => if node = 0 then return () else deleteNode node
  | below + 1, node =>
      if node = 0 then return ()
      else do
        (List.range (kFanOut cfg)).forM fun i => do
          let raw ← load node i
          if raw ≠ 0 then destroySubtree below raw
          else return ()
        deleteNode node

/-- The nodes that a run deletes, in order. -/
def deletions (actions : List Act) : List Word :=
  actions.filterMap fun
    | .deleteNode node => some node
    | _ => none

/-- The first `d` indices of a page. -/
def indexPrefix (d : Nat) (p : Word) : List Nat := (List.range d).map (levelIdx cfg p)

/-- The pages that the calls insert. -/
def insertedPages (calls : List RangeCall) : List Word :=
  calls.flatMap fun
    | .insertRange base size _ => pageRange cfg base size
    | .removeRange _ _ => []

end source

variable {T : Type} [DecidableEq T] {cfg : Config} {t : T} {pick : Memory T → Word}
  {m m' : Memory T} {below : Nat} {node n a cur p v : Word} {idx i : Nat} {ws rest path : List Nat}

/-! ## 2. The traversals -/

/-- The node that a slot links to. -/
def childOf (slot : Word → Nat → Word) (n : Word) (i : Nat) : Option Word :=
  if slot n i = 0 then none else some (slot n i)

theorem walk_eq_follow {slot : Word → Nat → Word} :
    walk slot n path = follow (childOf slot) n path := by
  induction path generalizing n with
  | nil => rfl
  | cons i path ih =>
    rw [walk, follow, childOf]
    split
    · rfl
    · exact ih

abbrev nodesBelow (cfg : Config) (slot : Word → Nat → Word) (below : Nat) (node : Word) :
    List Word :=
  postOrder (childOf slot) (List.range (kFanOut cfg)) below node

theorem eval_countNodes (hnode : node ≠ 0) :
    (countNodes cfg below node).eval (exec t) pick m =
      ((nodesBelow cfg m.slot below node).length, m) := by
  induction below generalizing node with
  | zero =>
    rw [countNodes, if_neg hnode]
    rfl
  | succ below ih =>
    let found : Nat → List Word := fun i =>
      (childOf m.slot node i).elim [] (nodesBelow cfg m.slot below)
    have hround : ∀ total i, (do
        let raw ← load node i
        if raw ≠ 0 then
          let nodes ← countNodes cfg below raw
          return total + nodes
        else return total : TrieProg Nat).eval (exec t) pick m = (total + (found i).length, m) := by
      intro total i
      simp only [bind_eq, act_bind, ret_bind, pure_eq, eval_load, found, childOf]
      by_cases hzero : m.slot node i = 0
      · rw [if_neg (not_not_intro hzero), if_pos hzero]
        rfl
      · rw [if_pos hzero, if_neg hzero, eval_bind, ih hzero]
        rfl
    have hsum : ∀ (links : List Nat) (total : Nat),
        links.foldl (fun total i => total + (found i).length) total =
          total + (links.flatMap found).length := by
      intro links
      induction links with
      | nil => exact fun _ => rfl
      | cons i links ihl =>
        intro total
        rw [List.foldl_cons, ihl, List.flatMap_cons, List.length_append, Nat.add_assoc]
    rw [countNodes, if_neg hnode, eval_foldlM hround, hsum, nodesBelow, postOrder,
      List.length_append, List.length_singleton, Nat.add_comm]

omit [DecidableEq T] in
theorem deletions_append (l l' : List Act) : deletions (l ++ l') = deletions l ++ deletions l' :=
  List.filterMap_append

/-- A run that stores nothing, deletes the nodes `deleted` and loads from nodes in
    `loaded` only. -/
structure Frees (t : T) (pick : Memory T → Word) (prog : TrieProg Unit) (deleted : List Word)
    (loaded : Word → Prop) (m : Memory T) : Prop where
  slot : (prog.eval (exec t) pick m).2.slot = m.slot
  deleted : deletions (prog.trace (exec t) pick m) = deleted
  loaded : ∀ {x i}, Act.load x i ∈ prog.trace (exec t) pick m → loaded x

section frees

variable {prog : TrieProg Unit} {f : Unit → TrieProg Unit} {ds ds' : List Word}
  {L L' : Word → Prop}

theorem Frees.mono (h : Frees t pick prog ds L m) (hL : ∀ {x}, L x → L' x) :
    Frees t pick prog ds L' m :=
  ⟨h.slot, h.deleted, fun hx => hL (h.loaded hx)⟩

theorem frees_ret : Frees t pick (.ret ()) [] L m :=
  ⟨rfl, rfl, fun h => nomatch h⟩

theorem frees_deleteNode : Frees t pick (deleteNode node) [node] L m := by
  refine ⟨rfl, rfl, fun h => ?_⟩
  cases List.mem_singleton.mp h

theorem frees_load {k : Word → TrieProg Unit} (hL : L node)
    (h : Frees t pick (k (m.slot node i)) ds L m) :
    Frees t pick (.act (.load node i) k) ds L m := by
  refine ⟨h.slot, h.deleted, fun hx => ?_⟩
  rcases List.mem_cons.mp hx with heq | hx
  · obtain ⟨rfl, -⟩ := Act.load.inj heq
    exact hL
  · exact h.loaded hx

theorem Frees.bind (h : Frees t pick prog ds L m)
    (h' : Frees t pick (f ()) ds' L (prog.eval (exec t) pick m).2) :
    Frees t pick (prog.bind f) (ds ++ ds') L m := by
  refine ⟨?_, ?_, fun hx => ?_⟩
  · rw [eval_bind]
    exact h'.slot.trans h.slot
  · rw [trace_bind, deletions_append, h.deleted]
    exact congrArg (ds ++ ·) h'.deleted
  · rw [trace_bind] at hx
    rcases List.mem_append.mp hx with hx | hx
    · exact h.loaded hx
    · exact h'.loaded hx

theorem frees_forM {X : Type} {body : X → TrieProg Unit} {found : X → List Word}
    {slot : Word → Nat → Word}
    (hbody : ∀ x m, m.slot = slot → Frees t pick (body x) (found x) L m) (xs : List X)
    (hm : m.slot = slot) : Frees t pick (xs.forM body) (xs.flatMap found) L m := by
  induction xs generalizing m with
  | nil => exact frees_ret
  | cons x xs ih =>
    have hfirst := hbody x m hm
    exact hfirst.bind (ih (hfirst.slot.trans hm))

end frees

/-- The nodes of a subtree are deleted children first. Only slots above the leaf
    level are loaded. -/
theorem frees_destroySubtree (hnode : node ≠ 0) :
    Frees t pick (destroySubtree cfg below node) (nodesBelow cfg m.slot below node)
      (fun x => ∃ path, path.length < below ∧ follow (childOf m.slot) node path = some x) m := by
  induction below generalizing node m with
  | zero =>
    rw [destroySubtree, if_neg hnode]
    exact frees_deleteNode
  | succ below ih =>
    rw [destroySubtree, if_neg hnode]
    refine Frees.bind (frees_forM (fun i m' (hm' : m'.slot = m.slot) => ?_) _ rfl) frees_deleteNode
    rw [← hm']
    apply frees_load ⟨[], Nat.succ_pos _, rfl⟩
    rw [ret_bind]
    by_cases hzero : m'.slot node i = 0
    · rw [if_neg (not_not_intro hzero), childOf, if_pos hzero]
      exact frees_ret
    · rw [if_pos hzero, childOf, if_neg hzero]
      apply (ih hzero).mono
      rintro x ⟨path, hlen, hpath⟩
      refine ⟨i :: path, Nat.succ_lt_succ hlen, ?_⟩
      rw [follow, childOf, if_neg hzero]
      exact hpath

/-! ## 3. The tree while it grows -/

def Linked (m : Memory T) (ws : List Nat) : Prop := ∃ n, m.place n = .linked ws

/-- The nodes are where they should be, links have no tag, and values have one. -/
structure Tree (cfg : Config) (m : Memory T) : Prop where
  heap : HeapInv cfg m
  link : ∀ {n ws i}, m.place n = .linked ws → ws.length + 1 < cfg.levels →
    m.slot n i &&& kLeafTag = 0
  leaf : ∀ {n ws i}, m.place n = .linked ws → ws.length + 1 = cfg.levels →
    m.slot n i = 0 ∨ m.slot n i &&& kLeafTag = kLeafTag

omit [DecidableEq T] in
/-- The invariant is about slots and places only. -/
theorem Tree.congr (h : Tree cfg m) (hslot : m'.slot = m.slot) (hplace : m'.place = m.place) :
    Tree cfg m' := by
  refine ⟨h.heap.congr hslot hplace, ?_, ?_⟩ <;> rw [hplace, hslot]
  exacts [h.link, h.leaf]

omit [DecidableEq T] in
theorem tree_initial : Tree cfg (initialMemory T cfg) :=
  ⟨heapInv_initial, fun _ _ => BitVec.zero_and, fun _ _ => .inl rfl⟩

omit [DecidableEq T] in
theorem Tree.write {s : Slot} (h : Tree cfg m) (hs : LeafAt cfg m p s)
    (hv : v = 0 ∨ v &&& kLeafTag = kLeafTag) : Tree cfg (m.write s.1 s.2 v) := by
  have hpos := cfg.levels_pos
  have hlen := innerPath_length cfg p
  refine ⟨heapInv_write h.heap hs, fun {n ws i} hn hws => ?_, fun {n ws i} hn hws => ?_⟩
  · rw [Memory.write_slot_of_ne]
    · exact h.link hn hws
    · intro heq
      obtain rfl : n = s.1 := congrArg Prod.fst heq
      obtain rfl := Place.linked.inj (hn.symm.trans hs.1)
      omega
  · by_cases heq : (n, i) = s
    · rw [← heq, Memory.write_slot_self]
      exact hv
    · rw [Memory.write_slot_of_ne heq]
      exact h.leaf hn hws

/-- A new node at `a`, published in slot `idx` of the node with path `ws`. -/
def attach (t : T) (m : Memory T) (cur : Word) (ws : List Nat) (idx : Nat) (a : Word) : Memory T :=
  (((m.construct a).setPlace a (.fresh t)).write cur idx a).setPlace a (.linked (ws ++ [idx]))

section attach

omit [DecidableEq T] in
theorem attach_place_self : (attach t m cur ws idx a).place a = .linked (ws ++ [idx]) :=
  Function.update_self ..

omit [DecidableEq T] in
theorem attach_place_of_ne (hn : n ≠ a) : (attach t m cur ws idx a).place n = m.place n :=
  (Function.update_of_ne hn _ _).trans (Function.update_of_ne hn _ _)

omit [DecidableEq T] in
theorem attach_slot_of_ne (hn : n ≠ a) (hne : (n, i) ≠ (cur, idx)) :
    (attach t m cur ws idx a).slot n i = m.slot n i := by
  refine (Memory.write_slot_of_ne hne).trans ?_
  exact congrFun (Function.update_of_ne hn _ _) i

omit [DecidableEq T] in
theorem attach_slot_self (hcur : a ≠ cur) : (attach t m cur ws idx a).slot a i = 0 := by
  refine (Memory.write_slot_of_ne fun heq => hcur (congrArg Prod.fst heq)).trans ?_
  simp [Memory.construct]

omit [DecidableEq T] in
theorem tree_attach (h : Tree cfg m) (hcur : m.place cur = .linked ws)
    (hlen : ws.length + 1 < cfg.levels) (hzero : m.slot cur idx = 0) (ha0 : a ≠ 0)
    (halign : a &&& 63#64 = 0) (ha : m.place a = .free) : Tree cfg (attach t m cur ws idx a) := by
  have hne : cur ≠ a := ne_of_place ha hcur (by simp)
  have hnew := heapStep_newNode (t := t) h.heap ha0 ha
  have hzero' : ((m.construct a).setPlace a (.fresh t)).slot cur idx = 0 :=
    (congrFun (Function.update_of_ne hne _ _) idx).trans hzero
  have hlink := heapStep_link hnew.inv (hnew.linked hcur) hlen hzero' (Function.update_self ..)
  have hback : ∀ {n ws'}, (attach t m cur ws idx a).place n = .linked ws' →
      n = a ∨ n ≠ a ∧ m.place n = .linked ws' := by
    intro n ws' hn
    by_cases hna : n = a
    · exact .inl hna
    · exact .inr ⟨hna, (attach_place_of_ne hna).symm.trans hn⟩
  refine ⟨hlink.inv, fun {n ws' i} hn hws => ?_, fun {n ws' i} hn hws => ?_⟩
  · rcases hback hn with rfl | ⟨hna, hn⟩
    · rw [attach_slot_self hne.symm]
      exact BitVec.zero_and
    · by_cases heq : (n, i) = (cur, idx)
      · obtain ⟨rfl, rfl⟩ := Prod.mk.inj heq
        -- an aligned address has no tag
        have hslot : (attach t m n ws i a).slot n i = a := Memory.write_slot_self
        have htag : kLeafTag = 63#64 &&& kLeafTag := by decide
        rw [hslot, htag, ← BitVec.and_assoc, halign]
        exact BitVec.zero_and
      · rw [attach_slot_of_ne hna heq]
        exact h.link hn hws
  · rcases hback hn with rfl | ⟨hna, hm⟩
    · exact .inl (attach_slot_self hne.symm)
    · have heq : (n, i) ≠ (cur, idx) := by
        rintro heq
        obtain ⟨rfl, rfl⟩ := Prod.mk.inj heq
        obtain rfl := Place.linked.inj (hm.symm.trans hcur)
        omega
      rw [attach_slot_of_ne hna heq]
      exact h.leaf hm hws

omit [DecidableEq T] in
theorem linked_attach (ha : m.place a = .free) :
    Linked (attach t m cur ws idx a) path ↔ Linked m path ∨ path = ws ++ [idx] := by
  constructor
  · rintro ⟨n, hn⟩
    by_cases hna : n = a
    · rw [hna, attach_place_self] at hn
      exact .inr (Place.linked.inj hn).symm
    · exact .inl ⟨n, (attach_place_of_ne hna).symm.trans hn⟩
  · rintro (⟨n, hn⟩ | rfl)
    · exact ⟨n, (attach_place_of_ne (ne_of_place ha hn (by simp))).trans hn⟩
    · exact ⟨a, attach_place_self⟩

end attach

/-- One level of the walk of `insert_leaf`. -/
theorem eval_insertPath_cons {leaf : Nat} (hcur : m.place cur = .linked ws) :
    (insertPath v leaf cur (idx :: rest)).eval (exec t) pick m =
      if m.slot cur idx = 0 then
        if pick m ≠ 0 ∧ pick m &&& 63#64 = 0 ∧ m.place (pick m) = .free then
          (insertPath v leaf (pick m) rest).eval (exec t) pick
            (attach t m cur ws idx (pick m))
        else ((), { m with outOfMemory := true })
      else (insertPath v leaf (m.slot cur idx) rest).eval (exec t) pick m := by
  simp only [insertPath, bind_eq, act_bind, ret_bind, pure_eq, eval_load]
  by_cases hzero : m.slot cur idx = 0
  · rw [if_pos hzero, if_pos hzero]
    by_cases hnew : pick m ≠ 0 ∧ pick m &&& 63#64 = 0 ∧ m.place (pick m) = .free
    · have hne : cur ≠ pick m := ne_of_place hnew.2.2 hcur (by simp)
      have hslot : ((m.construct (pick m)).setPlace (pick m) (.fresh t)).slot cur idx = 0 :=
        (congrFun (Function.update_of_ne hne _ _) idx).trans hzero
      have hplace : ((m.construct (pick m)).setPlace (pick m) (.fresh t)).place cur = .linked ws :=
        (Function.update_of_ne hne _ _).trans hcur
      simp only [Prog.eval, exec, if_pos hnew, if_neg hnew.1, hslot, hplace, if_true, Place.child]
      rfl
    · simp only [Prog.eval, exec, if_neg hnew, if_true]
  · rw [if_neg hzero, if_neg hzero]

omit [DecidableEq T] in
/-- The prefixes of a path that go on from one of them. -/
theorem prefix_iff {ws' : List Nat} (h : ws <+: ws') :
    ws' <+: ws ++ idx :: rest ↔ ws' = ws ∨ ws ++ [idx] <+: ws' ∧ ws' <+: (ws ++ [idx]) ++ rest := by
  obtain ⟨more, rfl⟩ := h
  cases more with
  | nil => simp
  | cons j more =>
    simp only [List.append_assoc, List.prefix_append_right_inj, List.cons_append, List.nil_append,
      List.cons_prefix_cons, List.append_right_eq_self, reduceCtorEq, false_or, List.nil_prefix]
    constructor
    · rintro ⟨rfl, hmore⟩
      exact ⟨⟨rfl, trivial⟩, rfl, hmore⟩
    · exact And.right

/-- The walk of `insert_leaf` leaves nodes for all prefixes of the path, unless an
    allocation has failed. -/
theorem tree_insertPath (t : T) (pick : Memory T → Word) (h : Tree cfg m)
    (hcur : m.place cur = .linked ws) (hpath : ws ++ rest = innerPath cfg p) :
    let m' := ((insertPath v (leafIdx cfg p) cur rest).eval (exec t) pick m).2
    Tree cfg m' ∧ (m'.outOfMemory = false → ∀ path, Linked m' path ↔
      Linked m path ∨ ws <+: path ∧ path <+: ws ++ rest) := by
  induction rest generalizing m cur ws with
  | nil =>
    rw [List.append_nil] at hpath ⊢
    have hleaf : LeafAt cfg m p (cur, leafIdx cfg p) := ⟨hpath ▸ hcur, rfl⟩
    refine ⟨h.write hleaf (.inr (tag_and v)), fun _ path => ?_⟩
    constructor
    · exact .inl
    · rintro (hlinked | ⟨hlow, hhigh⟩)
      · exact hlinked
      · obtain rfl := hlow.eq_of_length_le hhigh.length_le
        exact ⟨cur, hcur⟩
  | cons idx rest ih =>
    have hlen := depth_of_path hpath
    have hnext : (ws ++ [idx]) ++ rest = innerPath cfg p := by simpa using hpath
    -- from the child on, the prefixes longer than `ws` are added
    have hgrown : ∀ {m₁ m' : Memory T}, (∀ path, Linked m' path ↔
        Linked m₁ path ∨ ws ++ [idx] <+: path ∧ path <+: (ws ++ [idx]) ++ rest) →
        (∀ path, Linked m₁ path ↔ Linked m path ∨ path = ws ++ [idx]) → ∀ path,
        Linked m' path ↔ Linked m path ∨ ws <+: path ∧ path <+: ws ++ idx :: rest := by
      intro m₁ m' h' h₁ path
      rw [h', h₁]
      constructor
      · rintro ((hlinked | rfl) | ⟨hlow, hhigh⟩)
        · exact .inl hlinked
        · exact .inr ⟨List.prefix_append .., by simp⟩
        · exact .inr ⟨(List.prefix_append ..).trans hlow, by simpa using hhigh⟩
      · rintro (hlinked | ⟨hlow, hhigh⟩)
        · exact .inl (.inl hlinked)
        · rcases (prefix_iff hlow).mp hhigh with rfl | hbelow
          · exact .inl (.inl ⟨cur, hcur⟩)
          · exact .inr hbelow
    simp only [eval_insertPath_cons hcur]
    by_cases hzero : m.slot cur idx = 0
    · rw [if_pos hzero]
      by_cases hnew : pick m ≠ 0 ∧ pick m &&& 63#64 = 0 ∧ m.place (pick m) = .free
      · rw [if_pos hnew]
        obtain ⟨ha0, halign, ha⟩ := hnew
        obtain ⟨htree, hpaths⟩ := ih (tree_attach h hcur hlen hzero ha0 halign ha)
          attach_place_self hnext
        exact ⟨htree, fun ho => hgrown (hpaths ho) fun _ => linked_attach ha⟩
      · rw [if_neg hnew]
        exact ⟨h.congr rfl rfl, fun ho => nomatch ho⟩
    · rw [if_neg hzero]
      have hchild := h.heap.child hcur hlen hzero
      obtain ⟨htree, hpaths⟩ := ih h hchild hnext
      refine ⟨htree, fun ho => hgrown (hpaths ho) fun path => ⟨.inl, ?_⟩⟩
      rintro (hlinked | rfl)
      · exact hlinked
      · exact ⟨_, hchild⟩

/-! ## 4. Calls -/

/-- A tree whose paths are those of the pages `pages`. -/
structure Built (cfg : Config) (pages : List Word) (m : Memory T) : Prop where
  tree : Tree cfg m
  paths : m.outOfMemory = false → ∀ ws,
    Linked m ws ↔ ws = [] ∨ ∃ p ∈ pages, ws <+: innerPath cfg p

section calls

variable {pages : List Word}

omit [DecidableEq T] in
theorem Built.congr (h : Built cfg pages m) (htree : Tree cfg m') (hplace : m'.place = m.place)
    (ho : m'.outOfMemory = m.outOfMemory) : Built cfg pages m' := by
  refine ⟨htree, ?_⟩
  rw [ho]
  unfold Linked
  rw [hplace]
  exact h.paths

omit [DecidableEq T] in
theorem built_initial : Built cfg [] (initialMemory T cfg) := by
  refine ⟨tree_initial, fun _ ws => ?_⟩
  constructor
  · rintro ⟨n, hn⟩
    by_cases hroot : n = cfg.root
    · subst hroot
      have hnil := heapInv_initial.root.symm.trans hn
      exact .inl (Place.linked.inj hnil).symm
    · simp [initialMemory, Function.update_of_ne hroot] at hn
  · rintro (rfl | ⟨p, hp, -⟩)
    · exact ⟨cfg.root, heapInv_initial.root⟩
    · cases hp

theorem built_insertLeaf (h : Built cfg pages m) (p v : Word) :
    Built cfg (pages ++ [p]) ((insertLeaf cfg p v).eval (exec t) pick m).2 := by
  obtain ⟨htree, hpaths⟩ := tree_insertPath (v := v) t pick h.tree h.tree.heap.root
    (List.nil_append (innerPath cfg p))
  refine ⟨htree, fun ho ws => ?_⟩
  rw [insertLeaf, hpaths ho, h.paths (eval_allocated ho), List.nil_append]
  simp only [List.nil_prefix, true_and, List.mem_append, List.mem_singleton, or_assoc]
  constructor
  · rintro (hnil | ⟨q, hq, hws⟩ | hws)
    · exact .inl hnil
    · exact .inr ⟨q, .inl hq, hws⟩
    · exact .inr ⟨p, .inr rfl, hws⟩
  · rintro (hnil | ⟨q, hq | rfl, hws⟩)
    · exact .inl hnil
    · exact .inr (.inl ⟨q, hq, hws⟩)
    · exact .inr (.inr hws)

theorem built_insertRange (h : Built cfg pages m) (base size value : Word) :
    Built cfg (pages ++ pageRange cfg base size)
      ((insertRange cfg base size value).eval (exec t) pick m).2 := by
  have hinserted : Built cfg (pages ++ pageRange cfg base size)
      (((pageRange cfg base size).forM (insertLeaf cfg · value)).eval (exec t) pick m).2 := by
    apply eval_forM (P := fun done => Built cfg (pages ++ done)) _ []
    · rw [List.append_nil]
      exact h
    · intro done p m₁ h₁
      rw [← List.append_assoc]
      exact built_insertLeaf h₁ p value
  simp only [insertRange, invalidateCache, bind_eq, eval_bind, eval_setCache, eval_ret]
  exact hinserted.congr (hinserted.tree.congr rfl rfl) rfl rfl

/-- Clearing leaves allocates nothing and unlinks nothing. -/
structure Cleared (cfg : Config) (m m' : Memory T) : Prop where
  tree : Tree cfg m'
  place : m'.place = m.place
  outOfMemory : m'.outOfMemory = m.outOfMemory

theorem cleared_clearLeaf (t : T) (pick : Memory T → Word) (h : Tree cfg m) (p : Word) :
    Cleared cfg m ((clearLeaf cfg p).eval (exec t) pick m).2 := by
  rw [clearLeaf, eval_clearPath]
  cases hwalk : walk m.slot cfg.root (innerPath cfg p) with
  | none => exact ⟨h, rfl, rfl⟩
  | some n =>
    have hslot : leafSlot cfg m p = some (n, leafIdx cfg p) := by rw [leafSlot, hwalk]; rfl
    exact ⟨h.write (h.heap.leafSlot_eq_some_iff.mp hslot) (.inl rfl), rfl, rfl⟩

theorem cleared_removeRange (t : T) (pick : Memory T → Word) (h : Tree cfg m)
    (base size : Word) :
    Cleared cfg m ((removeRange cfg base size).eval (exec t) pick m).2 := by
  have hcleared : Cleared cfg m
      (((pageRange cfg base size).forM (clearLeaf cfg)).eval (exec t) pick m).2 := by
    apply eval_forM (P := fun _ => Cleared cfg m) _ [] _ ⟨h, rfl, rfl⟩
    intro _ p m₁ h₁
    have hleaf := cleared_clearLeaf t pick h₁.tree p
    exact ⟨hleaf.tree, hleaf.place.trans h₁.place, hleaf.outOfMemory.trans h₁.outOfMemory⟩
  simp only [removeRange, invalidateCache, bind_eq, eval_bind, eval_setCache, eval_ret]
  exact ⟨hcleared.tree.congr rfl rfl, hcleared.place, hcleared.outOfMemory⟩

theorem built_call (h : Built cfg pages m) (c : RangeCall) :
    Built cfg (pages ++ insertedPages cfg [c]) ((c.body cfg).eval (exec t) pick m).2 := by
  cases c with
  | insertRange base size value =>
    rw [insertedPages, List.flatMap_singleton]
    exact built_insertRange h base size value
  | removeRange base size =>
    rw [insertedPages, List.flatMap_singleton, List.append_nil]
    have hcleared := cleared_removeRange t pick h.tree base size
    exact h.congr hcleared.tree hcleared.place hcleared.outOfMemory

theorem built_runCalls (calls : List RangeCall) :
    Built cfg (insertedPages cfg calls) (runCalls cfg t pick (initialMemory T cfg) calls) := by
  induction calls using List.reverseRecOn with
  | nil => exact built_initial
  | append_singleton calls c ih =>
    rw [runCalls_concat, insertedPages, List.flatMap_append]
    exact built_call ih c

/-! ## 5. Paths and prefixes -/

omit [DecidableEq T] in
theorem Tree.linked_iff_walk (h : Tree cfg m) :
    m.place n = .linked path ↔ path.length < cfg.levels ∧ walk m.slot cfg.root path = some n := by
  constructor
  · exact fun hn => ⟨h.heap.depth hn, h.heap.walk_of_place hn⟩
  · rintro ⟨hlen, hwalk⟩
    have hplace := h.heap.place_of_walk h.heap.root (by simpa using hlen) hwalk
    simpa using hplace

omit [DecidableEq T] in
theorem Tree.onePath (h : Tree cfg m) : OnePath (childOf m.slot) (cfg.levels - 1) cfg.root := by
  intro x ws ws' hlen hlen' hx hx'
  have hpos := cfg.levels_pos
  rw [← walk_eq_follow] at hx hx'
  have hplace := h.linked_iff_walk.mpr ⟨by omega, hx⟩
  have hplace' := h.linked_iff_walk.mpr ⟨by omega, hx'⟩
  exact Place.linked.inj (hplace.symm.trans hplace')

theorem innerPath_prefix_iff :
    ws <+: innerPath cfg p ↔ ws.length ≤ cfg.levels - 1 ∧ ws = indexPrefix cfg ws.length p := by
  have htake : ∀ d ≤ cfg.levels - 1, (innerPath cfg p).take d = indexPrefix cfg d p := by
    intro d hd
    rw [innerPath, indexPrefix, ← List.map_take, List.take_range, Nat.min_eq_left hd]
  constructor
  · intro h
    have hlen := h.length_le
    rw [innerPath_length] at hlen
    rw [← htake _ hlen]
    exact ⟨hlen, List.prefix_iff_eq_take.mp h⟩
  · rintro ⟨hlen, heq⟩
    rw [← htake _ hlen] at heq
    exact List.prefix_iff_eq_take.mpr heq

theorem levelIdx_lt (cfg : Config) (p : Word) (d : Nat) : levelIdx cfg p d < kFanOut cfg := by
  rw [levelIdx_eq]
  exact Nat.mod_lt _ (Nat.two_pow_pos _)

/-- The prefixes of length `d` that lead to nodes. -/
def prefixesAt (cfg : Config) (pages : List Word) (d : Nat) : Finset (List Nat) :=
  if d = 0 then {[]} else (pages.map (indexPrefix cfg d)).toFinset

theorem mem_prefixesAt {d : Nat} (hd : d ≤ cfg.levels - 1) : ws ∈ prefixesAt cfg pages d ↔
    ws.length = d ∧ (ws = [] ∨ ∃ p ∈ pages, ws <+: innerPath cfg p) := by
  rw [prefixesAt]
  split
  · rename_i hzero
    rw [Finset.mem_singleton, hzero, List.length_eq_zero_iff]
    constructor
    · exact fun hnil => ⟨hnil, .inl hnil⟩
    · exact And.left
  · rename_i hne
    simp only [List.mem_toFinset, List.mem_map]
    constructor
    · rintro ⟨p, hp, rfl⟩
      have hlen : (indexPrefix cfg d p).length = d := by simp [indexPrefix]
      refine ⟨hlen, .inr ⟨p, hp, innerPath_prefix_iff.mpr ?_⟩⟩
      rw [hlen]
      exact ⟨hd, rfl⟩
    · rintro ⟨rfl, rfl | ⟨p, hp, hws⟩⟩
      · exact absurd rfl hne
      · exact ⟨p, hp, (innerPath_prefix_iff.mp hws).2.symm⟩

section built

variable (h : Built cfg pages m) (ho : m.outOfMemory = false)
include h ho

omit [DecidableEq T] in
theorem Built.lt_kFanOut (hn : m.place n = .linked ws) :
    ∀ i ∈ ws, i ∈ List.range (kFanOut cfg) := by
  intro i hi
  rcases (h.paths ho ws).mp ⟨n, hn⟩ with rfl | ⟨p, -, hws⟩
  · cases hi
  · obtain ⟨d, -, rfl⟩ := List.mem_map.mp (hws.subset hi)
    exact List.mem_range.mpr (levelIdx_lt cfg p d)

omit [DecidableEq T] in
/-- The nodes that a traversal from the root meets are the linked ones. -/
theorem Built.mem_nodesBelow :
    n ∈ nodesBelow cfg m.slot (cfg.levels - 1) cfg.root ↔ ∃ ws, m.place n = .linked ws := by
  have hpos := cfg.levels_pos
  rw [nodesBelow, mem_postOrder]
  simp only [h.tree.linked_iff_walk, ← walk_eq_follow]
  constructor
  · rintro ⟨ws, hlen, -, hwalk⟩
    exact ⟨ws, by omega, hwalk⟩
  · rintro ⟨ws, hlen, hwalk⟩
    refine ⟨ws, by omega, ?_, hwalk⟩
    exact h.lt_kFanOut ho (h.tree.linked_iff_walk.mpr ⟨hlen, hwalk⟩)

omit [DecidableEq T] in
theorem Built.length_nodesBelow :
    (nodesBelow cfg m.slot (cfg.levels - 1) cfg.root).length =
      1 + ∑ d ∈ Finset.Icc 1 (cfg.levels - 1),
        ((pages.map (indexPrefix cfg d)).toFinset).card := by
  have hpos := cfg.levels_pos
  have hrange : Finset.range cfg.levels = insert 0 (Finset.Icc 1 (cfg.levels - 1)) := by
    ext d
    simp only [Finset.mem_range, Finset.mem_insert, Finset.mem_Icc]
    omega
  have hpaths : ∀ {ws}, ws ∈ (Finset.range cfg.levels).biUnion (prefixesAt cfg pages) ↔
      ws.length ≤ cfg.levels - 1 ∧ (∀ i ∈ ws, i ∈ List.range (kFanOut cfg)) ∧
        (follow (childOf m.slot) cfg.root ws).isSome = true := by
    intro ws
    rw [Finset.mem_biUnion]
    constructor
    · rintro ⟨d, hd, hws⟩
      have hd' := Finset.mem_range.mp hd
      obtain ⟨rfl, hprefix⟩ := (mem_prefixesAt (by omega)).mp hws
      obtain ⟨n, hn⟩ := (h.paths ho ws).mpr hprefix
      refine ⟨by omega, h.lt_kFanOut ho hn, ?_⟩
      rw [← walk_eq_follow, h.tree.heap.walk_of_place hn]
      rfl
    · rintro ⟨hlen, -, hsome⟩
      obtain ⟨n, hn⟩ := Option.isSome_iff_exists.mp hsome
      rw [← walk_eq_follow] at hn
      have hplace := h.tree.linked_iff_walk.mpr ⟨by omega, hn⟩
      refine ⟨ws.length, Finset.mem_range.mpr (by omega), (mem_prefixesAt hlen).mpr ⟨rfl, ?_⟩⟩
      exact (h.paths ho ws).mp ⟨n, hplace⟩
  rw [nodesBelow, length_postOrder List.nodup_range h.tree.onePath hpaths, Finset.card_biUnion,
    hrange, Finset.sum_insert (by simp)]
  · congr 1
    apply Finset.sum_congr rfl
    intro d hd
    have hne : d ≠ 0 := by
      have := (Finset.mem_Icc.mp hd).1
      omega
    rw [prefixesAt, if_neg hne]
  · -- prefixes of different lengths are different
    intro d hd d' hd' hne
    have hlt := Finset.mem_range.mp hd
    have hlt' := Finset.mem_range.mp hd'
    apply Finset.disjoint_left.mpr
    intro ws hws hws'
    have hlen := ((mem_prefixesAt (by omega)).mp hws).1
    have hlen' := ((mem_prefixesAt (by omega)).mp hws').1
    exact hne (hlen.symm.trans hlen')

theorem Built.eval_nodeCount :
    ((nodeCount cfg).eval (exec t) pick m).1 =
      1 + ∑ d ∈ Finset.Icc 1 (cfg.levels - 1),
        ((pages.map (indexPrefix cfg d)).toFinset).card := by
  rw [nodeCount, eval_countNodes cfg.root_ne]
  exact h.length_nodesBelow ho

/-- The total of `count_nodes` fits in a `std::size_t`. -/
theorem Built.nodeCount_lt : ((nodeCount cfg).eval (exec t) pick m).1 < 2 ^ 64 := by
  rw [nodeCount, eval_countNodes cfg.root_ne]
  let nodes := nodesBelow cfg m.slot (cfg.levels - 1) cfg.root
  have hzero : (0 : Word) ∉ nodes := by
    intro hmem
    obtain ⟨ws, hws⟩ := (h.mem_nodesBelow ho).mp hmem
    cases ws using List.reverseRecOn with
    | nil => exact cfg.root_ne (h.tree.heap.root_unique hws).symm
    | append_singleton ws i => exact (h.tree.heap.parent hws).1 rfl
  have hnodup : ((0 :: nodes).map BitVec.toNat).Nodup := by
    apply List.Nodup.map fun _ _ => BitVec.eq_of_toNat_eq
    exact List.nodup_cons.mpr ⟨hzero, nodup_postOrder List.nodup_range h.tree.onePath⟩
  have hsub : (0 :: nodes).map BitVec.toNat ⊆ List.range (2 ^ 64) := by
    intro x hx
    obtain ⟨w, -, rfl⟩ := List.mem_map.mp hx
    exact List.mem_range.mpr w.isLt
  have hle := (List.subperm_of_subset hnodup hsub).length_le
  rw [List.length_map, List.length_cons, List.length_range] at hle
  exact hle

end built

end calls

/-! ## 6. One tree, freed once -/

/-- The path leads from the root to node `n`. -/
def NodeAt (cfg : Config) (m : Memory T) (path : List Nat) (n : Word) : Prop :=
  path.length < cfg.levels ∧ walk m.slot cfg.root path = some n

/-- Above the leaf level a slot is empty or an untagged link to a node of the trie,
    at the leaf level it is empty or a tagged value. Each node of the trie has one
    path. -/
structure IsTree (cfg : Config) (m : Memory T) : Prop where
  link : ∀ {path n}, NodeAt cfg m path n → path.length + 1 < cfg.levels → ∀ i,
    m.slot n i = 0 ∨
      m.slot n i &&& kLeafTag = 0 ∧ m.place (m.slot n i) = .linked (path ++ [i])
  leaf : ∀ {path n}, NodeAt cfg m path n → path.length + 1 = cfg.levels → ∀ i,
    m.slot n i = 0 ∨ m.slot n i &&& kLeafTag = kLeafTag
  one_path : ∀ {n ws}, m.place n = .linked ws → ∃! path, NodeAt cfg m path n

/-- The run deletes each node once and loads slots above the leaf level only. -/
structure FreesOnce (cfg : Config) (m : Memory T) (actions : List Act) : Prop where
  once : (deletions actions).Nodup
  nodes : ∀ n, n ∈ deletions actions ↔ ∃ path, NodeAt cfg m path n
  loads : ∀ {n i}, Act.load n i ∈ actions →
    ∃ path, NodeAt cfg m path n ∧ path.length + 1 < cfg.levels

omit [DecidableEq T] in
theorem Tree.isTree (h : Tree cfg m) : IsTree cfg m := by
  refine ⟨fun {path n} hn hlen i => ?_, fun {path n} hn hlen i => ?_, fun {n ws} hn => ?_⟩
  · have hplace := h.linked_iff_walk.mpr hn
    by_cases hzero : m.slot n i = 0
    · exact .inl hzero
    · exact .inr ⟨h.link hplace hlen, h.heap.child hplace hlen hzero⟩
  · exact h.leaf (h.linked_iff_walk.mpr hn) hlen
  · refine ⟨ws, h.linked_iff_walk.mp hn, fun path hpath => ?_⟩
    exact Place.linked.inj ((h.linked_iff_walk.mpr hpath).symm.trans hn)

theorem Built.freesOnce {pages : List Word} (h : Built cfg pages m) (ho : m.outOfMemory = false) :
    FreesOnce cfg m
      ((destroySubtree cfg (cfg.levels - 1) cfg.root).trace (exec t) pick m) := by
  have hpos := cfg.levels_pos
  have hfrees : Frees t pick (destroySubtree cfg (cfg.levels - 1) cfg.root) _ _ m :=
    frees_destroySubtree cfg.root_ne
  refine ⟨?_, fun n => ?_, fun {n i} hload => ?_⟩
  · rw [hfrees.deleted]
    exact nodup_postOrder List.nodup_range h.tree.onePath
  · rw [hfrees.deleted, h.mem_nodesBelow ho]
    exact exists_congr fun _ => h.tree.linked_iff_walk
  · obtain ⟨path, hlen, hpath⟩ := hfrees.loaded hload
    rw [← walk_eq_follow] at hpath
    exact ⟨path, ⟨by omega, hpath⟩, by omega⟩

/-- Whatever ranges have been inserted and removed, the nodes form a tree. There is
    one for the root and one for each index prefix, of any length below `levels`, of
    a page that has ever been inserted, and `destroy_subtree` deletes each of them
    once. -/
theorem trie_stays_tree {calls : List RangeCall}
    (halloc : (runCalls cfg t pick (initialMemory T cfg) calls).outOfMemory = false) :
    let m := runCalls cfg t pick (initialMemory T cfg) calls
    IsTree cfg m ∧
      ((nodeCount cfg).eval (exec t) pick m).1 =
        1 + ∑ d ∈ Finset.Icc 1 (cfg.levels - 1),
          (((insertedPages cfg calls).map (indexPrefix cfg d)).toFinset).card ∧
      (∀ base size, ((nodeCount cfg).eval (exec t) pick
          (runCalls cfg t pick (initialMemory T cfg) (calls ++ [.removeRange base size]))).1 =
        ((nodeCount cfg).eval (exec t) pick m).1) ∧
      FreesOnce cfg m
        ((destroySubtree cfg (cfg.levels - 1) cfg.root).trace (exec t) pick m) := by
  have hbuilt : Built cfg _ (runCalls cfg t pick (initialMemory T cfg) calls) :=
    built_runCalls calls
  refine ⟨hbuilt.tree.isTree, hbuilt.eval_nodeCount halloc, fun base size => ?_,
    hbuilt.freesOnce halloc⟩
  have hcleared := cleared_removeRange t pick hbuilt.tree base size
  rw [runCalls_concat, hbuilt.eval_nodeCount halloc]
  exact (hbuilt.congr hcleared.tree hcleared.place hcleared.outOfMemory).eval_nodeCount
    (hcleared.outOfMemory.trans halloc)

/-- Two pages with the same index prefix, one of them removed again, and a third
    page that shares the first index only. -/
def treeCalls : List RangeCall :=
  [.insertRange 0x100800 0x1800 0x10, .removeRange 0x101000 0x1000,
    .insertRange 0x40000000 0x1000 0x20]

theorem trie_stays_tree_removed :
    ((nodeCount defaultConfig).eval (exec ())
      (firstFree [0x2000, 0x3000, 0x4000, 0x5000, 0x6000])
      (runCalls defaultConfig () (firstFree [0x2000, 0x3000, 0x4000, 0x5000, 0x6000])
        (initialMemory Unit defaultConfig) treeCalls)).1 = 6 := by
  have halloc : (runCalls defaultConfig () (firstFree [0x2000, 0x3000, 0x4000, 0x5000, 0x6000])
    (initialMemory Unit defaultConfig) treeCalls).outOfMemory = false := by decide +kernel
  exact (trie_stays_tree halloc).2.1.trans (by decide +kernel)

end Memnon.Trie
