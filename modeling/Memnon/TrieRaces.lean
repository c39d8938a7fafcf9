import Memnon.TrieSolo
import Memnon.Lib.LastWrite
import Memnon.Lib.Pool
import Mathlib.Data.List.Basic

/-!
# Races of insert_leaf and clear_leaf

Any number of threads insert and clear leaves, in any interleaving of their
loads, compare-exchanges and stores. Two inserters that miss the same child both
allocate a node; one of them publishes it, and the other deletes its own node and
goes on in the published one. Either way each insert ends with one store to the
leaf slot of its page.
-/

namespace Memnon.Trie

open Memnon.Lib Memnon.Lib.Prog

/-! ## 1. The system -/

inductive LeafOp where
  | insertLeaf (pageNum value : Word)
  | clearLeaf (pageNum : Word)
deriving DecidableEq

namespace LeafOp

def page : LeafOp → Word
  | insertLeaf pageNum _ | clearLeaf pageNum => pageNum

/-- What a lookup of the page is to find after the call. -/
def value : LeafOp → Word
  | insertLeaf _ value => value
  | clearLeaf _ => 0

/-- What the call stores in the leaf slot. -/
def word : LeafOp → Word
  | insertLeaf _ value => value ||| kLeafTag
  | clearLeaf _ => 0

/-- Only pointers are inserted. -/
def Valid : LeafOp → Prop
  | insertLeaf _ value => ValidPtr value
  | clearLeaf _ => True

instance : DecidablePred Valid
  | insertLeaf _ value => inferInstanceAs (Decidable (ValidPtr value))
  | clearLeaf _ => inferInstanceAs (Decidable True)

theorem Valid.untag {op : LeafOp} (h : op.Valid) : op.word &&& ~~~kLeafTag = op.value := by
  cases op with
  | insertLeaf p v => exact untag_tag h.2
  | clearLeaf p => exact BitVec.zero_and

end LeafOp

variable {T : Type} [DecidableEq T]

def leafSystem (cfg : Config) : System T LeafOp Act Word (Memory T) Unit Resp where
  exec := exec
  body
    | .insertLeaf pageNum value => insertLeaf cfg pageNum value
    | .clearLeaf pageNum => clearLeaf cfg pageNum
  enter _ op m := if op.Valid then some m else none
  leave _ _ _ m := m

abbrev LeafPool (T : Type) := Pool T LeafOp Act (Memory T) Unit Resp

/-- What the log of a run tells: the calls, and the leaf stores with the calls
    that have executed them. -/
inductive LeafEvent (T : Type) where
  | call (t : T)
  | store (t : T) (op : LeafOp) (s : Slot) (word : Word)

def leafEvents (p : LeafPool T) : PoolLabel T LeafOp Word → List (LeafEvent T)
  | .call t _ => [.call t]
  | .act t _ =>
      match p.running t with
      | some (op, .act (.store node idx word) _) => [.store t op (node, idx) word]
      | _ => []
  | .ret _ => []

abbrev LeafRun (T : Type) := LeafPool T × List (LeafEvent T)

def leafStep (cfg : Config) : LeafRun T → PoolLabel T LeafOp Word → Option (LeafRun T) :=
  logged (Pool.step (leafSystem cfg)) leafEvents

/-- No call has been made, and the trie is empty. -/
def leafStart (T : Type) (cfg : Config) : LeafRun T := (Pool.idle (initialMemory T cfg), [])

/-- The leaf stores of the latest call of `t`. -/
def performed (t : T) (es : List (LeafEvent T)) : List (Slot × Word) :=
  es.foldl (fun stores e =>
    match e with
    | .call u => if u = t then [] else stores
    | .store u _ s word => if u = t then stores ++ [(s, word)] else stores) []

/-- The event is a leaf store for a page congruent to `q`. -/
def LeafEvent.StoresTo (cfg : Config) (q : Word) : LeafEvent T → Prop
  | .call _ => False
  | .store _ op _ _ => op.page.toNat % 2 ^ (cfg.stride * cfg.levels) =
      q.toNat % 2 ^ (cfg.stride * cfg.levels)

instance (cfg : Config) (q : Word) : DecidablePred (LeafEvent.StoresTo (T := T) cfg q)
  | .call _ => inferInstanceAs (Decidable False)
  | .store _ _ _ _ => inferInstanceAs (Decidable (_ = _))

def LeafEvent.value : LeafEvent T → Word
  | .call _ => 0
  | .store _ op _ _ => op.value

/-! ## 2. The steps of one thread -/

section points

variable (cfg : Config) (t : T) (a : Act) (m m' : Memory T)

/-- What an action of `t` does to the nodes. -/
inductive NodeStep : Prop
  | same (hplace : m'.place = m.place)
  | allocated (n : Word) (ha : a = .newNode) (hn : m.place n = .free)
      (hplace : m'.place = Function.update m.place n (.fresh t))
  | linked (n u : Word) (i : Nat) (ws : List Nat) (ha : a = .compareExchange u i 0 n)
      (hn : m.place n = .fresh t)
      (hplace : m'.place = Function.update m.place n (.linked (ws ++ [i])))
  | deleted (n : Word) (ha : a = .deleteNode n) (hn : m.place n = .fresh t)
      (hplace : m'.place = Function.update m.place n .free)

/-- `insert_leaf` after the allocation of a node. -/
def afterAlloc (value : Word) (leaf : Nat) (cur : Word) (idx : Nat) (rest : List Nat)
    (fresh : Word) : TrieProg Unit :=
  if fresh = 0 then .ret ()
  else .act (.compareExchange cur idx 0 fresh) fun expected =>
    if expected = 0 then insertPath value leaf fresh rest
    else .act (.deleteNode fresh) fun _ => insertPath value leaf expected rest

/-- Where a running call of `t` stands: the leaf stores it has executed, what is
    left of its program, and the node that it holds and has not published. -/
inductive Point (op : LeafOp) (stores : List (Slot × Word)) (prog : TrieProg Unit)
    (held : Option Word) : Prop
  | inserting (p v : Word) (ws rest : List Nat) (cur : Word) (hop : op = .insertLeaf p v)
      (hstores : stores = []) (hprog : prog = insertPath v (leafIdx cfg p) cur rest)
      (hheld : held = none) (hpath : ws ++ rest = innerPath cfg p)
      (hcur : m.place cur = .linked ws)
  | allocating (p v : Word) (ws rest : List Nat) (idx : Nat) (cur : Word)
      (hop : op = .insertLeaf p v) (hstores : stores = [])
      (hprog : prog = .act .newNode (afterAlloc v (leafIdx cfg p) cur idx rest))
      (hheld : held = none) (hpath : ws ++ idx :: rest = innerPath cfg p)
      (hcur : m.place cur = .linked ws)
  | publishing (p v : Word) (ws rest : List Nat) (idx : Nat) (cur n : Word)
      (hop : op = .insertLeaf p v) (hstores : stores = [])
      (hprog : prog = .act (.compareExchange cur idx 0 n) fun expected =>
        if expected = 0 then insertPath v (leafIdx cfg p) n rest
        else .act (.deleteNode n) fun _ => insertPath v (leafIdx cfg p) expected rest)
      (hheld : held = some n) (hpath : ws ++ idx :: rest = innerPath cfg p)
      (hcur : m.place cur = .linked ws) (hn : m.place n = .fresh t)
  | deleting (p v : Word) (ws rest : List Nat) (cur n : Word)
      (hop : op = .insertLeaf p v) (hstores : stores = [])
      (hprog : prog = .act (.deleteNode n) fun _ => insertPath v (leafIdx cfg p) cur rest)
      (hheld : held = some n) (hpath : ws ++ rest = innerPath cfg p)
      (hcur : m.place cur = .linked ws) (hn : m.place n = .fresh t)
  | failed (p v : Word) (hop : op = .insertLeaf p v) (hstores : stores = [])
      (hprog : prog = .ret ()) (hheld : held = none) (ho : m.outOfMemory = true)
  | clearing (p : Word) (ws rest : List Nat) (cur : Word) (hop : op = .clearLeaf p)
      (hstores : stores = []) (hprog : prog = clearPath (leafIdx cfg p) cur rest)
      (hheld : held = none) (hpath : ws ++ rest = innerPath cfg p)
      (hcur : m.place cur = .linked ws)
  | missing (p : Word) (hop : op = .clearLeaf p) (hstores : stores = [])
      (hprog : prog = .ret ()) (hheld : held = none)
  | stored (s : Slot) (hstores : stores = [(s, op.word)]) (hprog : prog = .ret ())
      (hheld : held = none) (hs : LeafAt cfg m op.page s)

end points

variable {cfg : Config} {t u : T} {a : Act} {m m' : Memory T} {op : LeafOp}
  {stores : List (Slot × Word)} {prog : TrieProg Unit} {held : Option Word} {n : Word}

omit [DecidableEq T] in
theorem HeapStep.refl (h : HeapInv cfg m) : HeapStep cfg t m m :=
  ⟨h, id, fun _ => id, fun _ => rfl, rfl, rfl, rfl, rfl, id, fun hn => ⟨hn, rfl⟩⟩

/-- What the thread holds is all that it has allocated and not published. -/
def HoldsAll (t : T) (m : Memory T) (held : Option Word) : Prop :=
  ∀ n, m.place n = .fresh t → held = some n

omit [DecidableEq T] in
theorem HoldsAll.allocate (hall : HoldsAll t m none)
    (hplace : m'.place = Function.update m.place n (.fresh t)) : HoldsAll t m' (some n) := by
  intro n' hn'
  by_cases hne : n' = n
  · rw [hne]
  · rw [hplace, Function.update_of_ne hne] at hn'
    cases hall n' hn'

omit [DecidableEq T] in
theorem HoldsAll.release {x : Place T} (hall : HoldsAll t m (some n))
    (hplace : m'.place = Function.update m.place n x) (hx : x ≠ .fresh t) :
    HoldsAll t m' none := by
  intro n' hn'
  by_cases hne : n' = n
  · rw [hne, hplace, Function.update_self] at hn'
    exact absurd hn' hx
  · rw [hplace, Function.update_of_ne hne] at hn'
    exact absurd (Option.some.inj (hall n' hn')).symm hne

/-- One action of a running call: it goes on to the next point, or it is the
    call's leaf store. -/
theorem Point.step {k : Resp a → TrieProg Unit} (h : HeapInv cfg m)
    (hp : Point cfg t m op stores (.act a k) held) (hall : HoldsAll t m held) (c : Word) :
    (HeapStep cfg t m (exec t a c m).2 ∧ NodeStep t a m (exec t a c m).2 ∧
      (∀ node idx word, a ≠ .store node idx word) ∧
      ∃ held', Point cfg t (exec t a c m).2 op stores (k (exec t a c m).1) held' ∧
        HoldsAll t (exec t a c m).2 held') ∨
    (∃ s, LeafAt cfg m op.page s ∧ a = .store s.1 s.2 op.word ∧ stores = [] ∧ held = none ∧
      ∀ r, k r = .ret ()) := by
  cases hp with
  | inserting p v ws rest cur hop hstores hprog hheld hpath hcur =>
    subst hop hstores hheld
    cases rest with
    | nil =>
      cases hprog
      rw [List.append_nil] at hpath
      exact .inr ⟨(cur, leafIdx cfg p), ⟨hpath ▸ hcur, rfl⟩, rfl, rfl, rfl, fun _ => rfl⟩
    | cons idx rest =>
      cases hprog
      refine .inl ⟨HeapStep.refl h, .same rfl, by simp, none, ?_, hall⟩
      have hchild : m.slot cur idx ≠ 0 → m.place (m.slot cur idx) = .linked (ws ++ [idx]) :=
        h.child hcur (depth_of_path hpath)
      simp only [exec, bind_eq, ret_bind, act_bind, pure_eq]
      split
      · exact .allocating p v ws rest idx cur rfl rfl rfl rfl hpath hcur
      · rename_i hne
        exact .inserting p v _ rest _ rfl rfl rfl rfl (by simpa using hpath) (hchild hne)
  | allocating p v ws rest idx cur hop hstores hprog hheld hpath hcur =>
    subst hop hstores hheld
    cases hprog
    left
    by_cases hc : c ≠ 0 ∧ c &&& 63#64 = 0 ∧ m.place c = .free
    · have hexec : exec t .newNode c m = (c, (m.construct c).setPlace c (.fresh t)) := if_pos hc
      have hstep := heapStep_newNode (t := t) h hc.1 hc.2.2
      rw [hexec]
      refine ⟨hstep, .allocated c rfl hc.2.2 rfl, by simp, some c, ?_, hall.allocate rfl⟩
      simp only [afterAlloc, if_neg hc.1]
      exact .publishing p v ws rest idx cur c rfl rfl rfl rfl hpath (hstep.linked hcur)
        (Function.update_self ..)
    · have hexec : exec t .newNode c m = ((0 : Word), { m with outOfMemory := true }) := if_neg hc
      rw [hexec]
      refine ⟨heapStep_outOfMemory h, .same rfl, by simp, none, ?_, hall⟩
      exact .failed p v rfl rfl rfl rfl rfl
  | publishing p v ws rest idx cur n hop hstores hprog hheld hpath hcur hn =>
    subst hop hstores hheld
    cases hprog
    left
    have hlen := depth_of_path hpath
    have hnext : (ws ++ [idx]) ++ rest = innerPath cfg p := by simpa using hpath
    by_cases hzero : m.slot cur idx = 0
    · have hexec : exec t (.compareExchange cur idx 0 n) c m =
          ((0 : Word), (m.write cur idx n).setPlace n (.linked (ws ++ [idx]))) := by
        simp only [exec, hzero, hcur, Place.child, if_true]
      rw [hexec]
      refine ⟨heapStep_link h hcur hlen hzero hn, .linked n cur idx ws rfl hn rfl, by simp, none,
        ?_, hall.release rfl (by simp)⟩
      exact .inserting p v _ rest n rfl rfl rfl rfl hnext (Function.update_self ..)
    · have hexec : exec t (.compareExchange cur idx 0 n) c m = (m.slot cur idx, m) := by
        simp only [exec, if_neg hzero]
      rw [hexec]
      refine ⟨HeapStep.refl h, .same rfl, by simp, some n, ?_, hall⟩
      simp only [if_neg hzero]
      exact .deleting p v _ rest _ n rfl rfl rfl rfl hnext (h.child hcur hlen hzero) hn
  | deleting p v ws rest cur n hop hstores hprog hheld hpath hcur hn =>
    subst hop hstores hheld
    cases hprog
    have hstep := heapStep_deleteNode h hn
    refine .inl ⟨hstep, .deleted n rfl hn rfl, by simp, none, ?_, hall.release rfl (by simp)⟩
    exact .inserting p v ws rest cur rfl rfl rfl rfl hpath (hstep.linked hcur)
  | failed p v hop hstores hprog hheld ho => cases hprog
  | clearing p ws rest cur hop hstores hprog hheld hpath hcur =>
    subst hop hstores hheld
    cases rest with
    | nil =>
      cases hprog
      rw [List.append_nil] at hpath
      exact .inr ⟨(cur, leafIdx cfg p), ⟨hpath ▸ hcur, rfl⟩, rfl, rfl, rfl, fun _ => rfl⟩
    | cons idx rest =>
      cases hprog
      refine .inl ⟨HeapStep.refl h, .same rfl, by simp, none, ?_, hall⟩
      have hchild : m.slot cur idx ≠ 0 → m.place (m.slot cur idx) = .linked (ws ++ [idx]) :=
        h.child hcur (depth_of_path hpath)
      simp only [exec, ret_bind, pure_eq]
      split
      · exact .missing p rfl rfl rfl rfl
      · rename_i hne
        exact .clearing p _ rest _ rfl rfl rfl rfl (by simpa using hpath) (hchild hne)
  | missing p hop hstores hprog hheld => cases hprog
  | stored s hstores hprog hheld hs => cases hprog

omit [DecidableEq T] in
/-- A call that is about to return has executed its leaf store, unless an
    allocation has failed or there was nothing to clear. -/
theorem Point.ret (hp : Point cfg t m op stores (.ret ()) held) :
    held = none ∧ ((∃ s, LeafAt cfg m op.page s ∧ stores = [(s, op.word)]) ∨
      m.outOfMemory = true ∨ ∃ p, op = .clearLeaf p) := by
  cases hp with
  | inserting p v ws rest cur hop hstores hprog hheld hpath hcur => cases rest <;> cases hprog
  | allocating p v ws rest idx cur hop hstores hprog hheld hpath hcur => cases hprog
  | publishing p v ws rest idx cur n hop hstores hprog hheld hpath hcur hn => cases hprog
  | deleting p v ws rest cur n hop hstores hprog hheld hpath hcur hn => cases hprog
  | failed p v hop hstores hprog hheld ho => exact ⟨hheld, .inr (.inl ho)⟩
  | clearing p ws rest cur hop hstores hprog hheld hpath hcur => cases rest <;> cases hprog
  | missing p hop hstores hprog hheld => exact ⟨hheld, .inr (.inr ⟨p, hop⟩)⟩
  | stored s hstores hprog hheld hs => exact ⟨hheld, .inl ⟨s, hs, hstores⟩⟩

omit [DecidableEq T] in
/-- The steps of the other threads leave a thread where it stands. -/
theorem Point.mono (hp : Point cfg t m op stores prog held)
    (hlinked : ∀ {n ws}, m.place n = .linked ws → m'.place n = .linked ws)
    (hfresh : ∀ {n}, m.place n = .fresh t → m'.place n = .fresh t)
    (hoom : m.outOfMemory = true → m'.outOfMemory = true) :
    Point cfg t m' op stores prog held := by
  cases hp with
  | inserting p v ws rest cur hop hstores hprog hheld hpath hcur =>
    exact .inserting p v ws rest cur hop hstores hprog hheld hpath (hlinked hcur)
  | allocating p v ws rest idx cur hop hstores hprog hheld hpath hcur =>
    exact .allocating p v ws rest idx cur hop hstores hprog hheld hpath (hlinked hcur)
  | publishing p v ws rest idx cur n hop hstores hprog hheld hpath hcur hn =>
    exact .publishing p v ws rest idx cur n hop hstores hprog hheld hpath (hlinked hcur) (hfresh hn)
  | deleting p v ws rest cur n hop hstores hprog hheld hpath hcur hn =>
    exact .deleting p v ws rest cur n hop hstores hprog hheld hpath (hlinked hcur) (hfresh hn)
  | failed p v hop hstores hprog hheld ho => exact .failed p v hop hstores hprog hheld (hoom ho)
  | clearing p ws rest cur hop hstores hprog hheld hpath hcur =>
    exact .clearing p ws rest cur hop hstores hprog hheld hpath (hlinked hcur)
  | missing p hop hstores hprog hheld => exact .missing p hop hstores hprog hheld
  | stored s hstores hprog hheld hs => exact .stored s hstores hprog hheld ⟨hlinked hs.1, hs.2⟩

omit [DecidableEq T] in
/-- Nobody else allocates in the name of a thread. -/
theorem NodeStep.fresh_of_ne (h : NodeStep t a m m') (hut : u ≠ t) (hn : m'.place n = .fresh u) :
    m.place n = .fresh u := by
  have hback : ∀ {x : Word} {y : Place T}, m'.place = Function.update m.place x y → y ≠ .fresh u →
      m.place n = .fresh u := by
    intro x y hplace hy
    by_cases hnx : n = x
    · rw [hnx, hplace, Function.update_self] at hn
      exact absurd hn hy
    · rwa [hplace, Function.update_of_ne hnx] at hn
  cases h with
  | same hplace => rwa [hplace] at hn
  | allocated x ha hx hplace => exact hback hplace fun heq => hut (Place.fresh.inj heq).symm
  | linked x y i ws ha hx hplace => exact hback hplace (by simp)
  | deleted x ha hx hplace => exact hback hplace (by simp)

/-! ## 3. The invariant -/

structure RaceInv (cfg : Config) (r : LeafRun T) : Prop where
  heap : HeapInv cfg r.1.shared
  running : ∀ {t op prog}, r.1.running t = some (op, prog) → op.Valid ∧
    ∃ held, Point cfg t r.1.shared op (performed t r.2) prog held ∧ HoldsAll t r.1.shared held
  idle : ∀ {t}, r.1.running t = none → HoldsAll t r.1.shared none
  value : ∀ q, leafValue cfg r.1.shared q &&& ~~~kLeafTag =
    lastWrite (fun e => decide (e.StoresTo cfg q)) LeafEvent.value 0 r.2

section events

variable {es : List (LeafEvent T)} {q : Word} {s : Slot} {word : Word}

@[simp] theorem performed_call (u : T) :
    performed t (es ++ [.call u]) = if u = t then [] else performed t es := by
  simp only [performed, List.foldl_append, List.foldl_cons, List.foldl_nil]

@[simp] theorem performed_store (u : T) :
    performed t (es ++ [.store u op s word]) =
      if u = t then performed t es ++ [(s, word)] else performed t es := by
  simp only [performed, List.foldl_append, List.foldl_cons, List.foldl_nil]

end events

theorem raceInv_start : RaceInv cfg (leafStart T cfg) := by
  refine ⟨heapInv_initial, fun h => (by cases h), fun {t} _ n hn => ?_, fun q => ?_⟩
  · by_cases hroot : n = cfg.root
    · simp [leafStart, Pool.idle, initialMemory, hroot] at hn
    · simp [leafStart, Pool.idle, initialMemory, hroot] at hn
  · have hzero : leafValue cfg (initialMemory T cfg) q = 0 := by
      unfold leafValue
      split <;> rfl
    exact (congrArg (· &&& ~~~kLeafTag) hzero).trans BitVec.zero_and

/-- A step of thread `t`, which is at `x` after it. -/
theorem RaceInv.update {p : LeafPool T} {es es' : List (LeafEvent T)}
    {x : Option (LeafOp × TrieProg Unit)} (h : RaceInv cfg (p, es)) (hheap : HeapInv cfg m')
    (hlinked : ∀ {n ws}, p.shared.place n = .linked ws → m'.place n = .linked ws)
    (hfresh : ∀ {u n}, u ≠ t → (m'.place n = .fresh u ↔ p.shared.place n = .fresh u))
    (hoom : p.shared.outOfMemory = true → m'.outOfMemory = true)
    (hes : ∀ {u}, u ≠ t → performed u es' = performed u es)
    (hsome : ∀ {op prog}, x = some (op, prog) → op.Valid ∧
      ∃ held, Point cfg t m' op (performed t es') prog held ∧ HoldsAll t m' held)
    (hnone : x = none → HoldsAll t m' none)
    (hvalue : ∀ q, leafValue cfg m' q &&& ~~~kLeafTag =
      lastWrite (fun e => decide (e.StoresTo cfg q)) LeafEvent.value 0 es') :
    RaceInv cfg (⟨m', Function.update p.running t x⟩, es') := by
  refine ⟨hheap, fun {u op prog} hu => ?_, fun {u} hu => ?_, hvalue⟩
  · replace hu : Function.update p.running t x u = some (op, prog) := hu
    by_cases hut : u = t
    · subst hut
      rw [Function.update_self] at hu
      exact hsome hu
    · rw [Function.update_of_ne hut] at hu
      obtain ⟨hvalid, held, hpoint, hall⟩ := h.running hu
      refine ⟨hvalid, held, ?_, fun n hn => hall n ((hfresh hut).mp hn)⟩
      change Point cfg u m' op (performed u es') prog held
      rw [hes hut]
      exact hpoint.mono hlinked (hfresh hut).mpr hoom
  · replace hu : Function.update p.running t x u = none := hu
    by_cases hut : u = t
    · subst hut
      rw [Function.update_self] at hu
      exact hnone hu
    · rw [Function.update_of_ne hut] at hu
      exact fun n hn => h.idle hu n ((hfresh hut).mp hn)

/-- Every step keeps the invariant. -/
theorem RaceInv.step {r r' : LeafRun T} {l : PoolLabel T LeafOp Word} (h : RaceInv cfg r)
    (hs : leafStep cfg r l = some r') : RaceInv cfg r' := by
  obtain ⟨p, es⟩ := r
  obtain ⟨p', es'⟩ := r'
  obtain ⟨hs, rfl⟩ := logged_eq_some hs
  obtain ⟨t, op, m, rfl, hidle, henter, rfl⟩ | ⟨t, c, op, a, k, rfl, hrun, rfl⟩ |
    ⟨t, op, a, rfl, hrun, rfl⟩ := Pool.step_cases _ hs
  · -- a call starts at the root
    simp only [leafSystem, Option.ite_none_right_eq_some, Option.some.injEq] at henter
    obtain ⟨hvalid, rfl⟩ := henter
    refine h.update h.heap id (fun _ => Iff.rfl) id (fun hut => ?_) (fun hx => ?_)
      (fun hx => by cases hx) fun q => ?_
    · simp [leafEvents, hut.symm]
    · cases hx
      refine ⟨hvalid, none, ?_, h.idle hidle⟩
      cases op with
      | insertLeaf v p =>
        exact .inserting _ _ [] _ _ rfl (by simp [leafEvents]) rfl rfl (List.nil_append _)
          h.heap.root
      | clearLeaf p =>
        exact .clearing _ [] _ _ rfl (by simp [leafEvents]) rfl rfl (List.nil_append _) h.heap.root
    · rw [h.value q, leafEvents, lastWrite_concat, if_neg]
      exact fun hcall => of_decide_eq_true hcall
  · replace hrun : p.running t = some (op, .act a k) := hrun
    obtain ⟨hvalid, held, hpoint, hall⟩ := h.running hrun
    obtain ⟨hheap, hnodes, hquiet, held', hpoint', hall'⟩ | ⟨s, hleaf, rfl, hnil, rfl, hk⟩ :=
      hpoint.step h.heap hall c
    · have hevents : leafEvents p (.act t c) = [] := by
        cases a with
        | store node idx word => exact absurd rfl (hquiet node idx word)
        | _ => simp only [leafEvents, hrun]
      rw [hevents, List.append_nil]
      refine h.update hheap.inv hheap.linked (fun hut => ?_) hheap.outOfMemory (fun _ => rfl)
        (fun hx => ?_) (fun hx => by cases hx) fun q => ?_
      · exact ⟨hnodes.fresh_of_ne hut, hheap.fresh hut⟩
      · cases hx
        exact ⟨hvalid, held', hpoint', hall'⟩
      · rw [← h.value q]
        exact congrArg (· &&& ~~~kLeafTag) (hheap.leaf q)
    · have hevents : leafEvents p (.act t c) = [.store t op s op.word] := by
        simp only [leafEvents, hrun]
      rw [hevents]
      refine h.update (heapInv_write h.heap hleaf) id (fun _ => Iff.rfl) id (fun hut => ?_)
        (fun hx => ?_) (fun hx => by cases hx) fun q => ?_
      · simp [hut.symm]
      · cases hx
        refine ⟨hvalid, none, .stored s ?_ (hk _) rfl hleaf, hall⟩
        rw [performed_store, if_pos rfl, hnil, List.nil_append]
      · have hiff : (LeafEvent.store t op s op.word).StoresTo cfg q ↔ SameKey cfg op.page q :=
          sameKey_iff.symm
        rw [lastWrite_concat, ← h.value q]
        change leafValue cfg (p.shared.write s.1 s.2 op.word) q &&& _ = _
        rw [leafValue_write h.heap hleaf]
        by_cases hq : SameKey cfg op.page q
        · rw [if_pos hq, if_pos (decide_eq_true (hiff.mpr hq))]
          exact hvalid.untag
        · rw [if_neg hq, if_neg fun hstores => hq (hiff.mp (of_decide_eq_true hstores))]
  · obtain ⟨-, held, hpoint, hall⟩ := h.running hrun
    obtain ⟨rfl, -⟩ := hpoint.ret
    rw [leafEvents, List.append_nil]
    exact h.update h.heap id (fun _ => Iff.rfl) id (fun _ => rfl) (fun hx => by cases hx)
      (fun _ => hall) h.value

/-! ## 4. Results -/

/-- Slot `s` of a node above the leaf level that is reached from the root
    holds `n`. -/
def ChildLink (cfg : Config) (m : Memory T) (s : Slot) (n : Word) : Prop :=
  n ≠ 0 ∧ m.slot s.1 s.2 = n ∧ ∃ ws, ws.length + 1 < cfg.levels ∧ walk m.slot cfg.root ws = some s.1

section links

variable {s : Slot} {ws : List Nat}

omit [DecidableEq T] in
theorem HeapInv.childLink_iff (h : HeapInv cfg m) :
    ChildLink cfg m s n ↔ ∃ ws, m.place s.1 = .linked ws ∧ m.place n = .linked (ws ++ [s.2]) := by
  constructor
  · rintro ⟨hn0, hslot, ws, hlen, hwalk⟩
    have hplace : m.place s.1 = .linked ws := by
      simpa using h.place_of_walk h.root (by simp; omega) hwalk
    refine ⟨ws, hplace, ?_⟩
    rw [← hslot]
    exact h.child hplace hlen (by rw [hslot]; exact hn0)
  · rintro ⟨ws, hplace, hn⟩
    obtain ⟨hn0, u, hu, hslot⟩ := h.parent hn
    obtain rfl := h.place_unique hu hplace
    have hdepth := h.depth hn
    rw [List.length_append, List.length_singleton] at hdepth
    exact ⟨hn0, hslot, ws, hdepth, h.walk_of_place hplace⟩

omit [DecidableEq T] in
/-- A linked node other than the root hangs in exactly one slot. -/
theorem HeapInv.childLink_unique (h : HeapInv cfg m) (hn : m.place n = .linked ws) (hws : ws ≠ []) :
    ∃ s, ChildLink cfg m s n ∧ ∀ s', ChildLink cfg m s' n → s' = s := by
  obtain ⟨ws, i, rfl⟩ := (List.eq_nil_or_concat' ws).resolve_left hws
  obtain ⟨hn0, u, hu, hslot⟩ := h.parent hn
  refine ⟨(u, i), h.childLink_iff.mpr ⟨ws, hu, hn⟩, fun s' hs' => ?_⟩
  obtain ⟨ws', hplace, hn'⟩ := h.childLink_iff.mp hs'
  obtain ⟨rfl, hi⟩ := List.append_inj' (Place.linked.inj (hn.symm.trans hn')) rfl
  obtain rfl := h.place_unique hu hplace
  exact Prod.ext rfl (by simpa using hi.symm)

end links

omit [DecidableEq T] in
theorem NodeStep.linked_mono {ws : List Nat} (h : NodeStep t a m m') (hn : m.place n = .linked ws) :
    m'.place n = .linked ws := by
  have hkeep : ∀ {x : Word} {y z : Place T}, m'.place = Function.update m.place x y →
      m.place x = z → z ≠ .linked ws → m'.place n = .linked ws := by
    intro x y z hplace hx hz
    rw [hplace, Function.update_of_ne (ne_of_place hx hn hz), hn]
  cases h with
  | same hplace => rwa [hplace]
  | allocated x ha hx hplace => exact hkeep hplace hx (by simp)
  | linked x y i ws ha hx hplace => exact hkeep hplace hx (by simp)
  | deleted x ha hx hplace => exact hkeep hplace hx (by simp)

/-- What a step of a run does to the nodes. -/
theorem RaceInv.nodeStep {r r' : LeafRun T} {l : PoolLabel T LeafOp Word} (h : RaceInv cfg r)
    (hs : leafStep cfg r l = some r') : r'.1.shared.place = r.1.shared.place ∨
      ∃ t c op a k, l = .act t c ∧ r.1.running t = some (op, .act a k) ∧
        NodeStep t a r.1.shared r'.1.shared := by
  obtain ⟨hs, -⟩ := logged_eq_some hs
  obtain ⟨t, op, m, rfl, hidle, henter, hr'⟩ | ⟨t, c, op, a, k, rfl, hrun, hr'⟩ |
    ⟨t, op, a, rfl, hrun, hr'⟩ := Pool.step_cases _ hs
  · simp only [leafSystem, Option.ite_none_right_eq_some, Option.some.injEq] at henter
    rw [hr', ← henter.2]
    exact .inl rfl
  · rw [hr']
    obtain ⟨-, held, hpoint, hall⟩ := h.running hrun
    obtain ⟨-, hnodes, -⟩ | ⟨s, -, rfl, -⟩ := hpoint.step h.heap hall c
    · exact .inr ⟨t, c, op, a, k, rfl, hrun, hnodes⟩
    · exact .inl rfl
  · rw [hr']
    exact .inl rfl

theorem raceInv_of_run {r : LeafRun T} (hrun : Steps (leafStep cfg) anyStep (leafStart T cfg) r) :
    RaceInv cfg r :=
  hrun.invariant (RaceInv cfg) raceInv_start fun _ _ _ h _ hs => h.step hs

/-- A node that its creator has not published is in no slot that the root leads
    to, and its creator is inside a call; any other node but the root is in
    exactly one. -/
def NodesAccounted (cfg : Config) (r : LeafRun T) : Prop :=
  ∀ n, match r.1.shared.place n with
    | .fresh t => (∀ s, ¬ ChildLink cfg r.1.shared s n) ∧ (r.1.running t).isSome = true
    | .linked _ => n = cfg.root ∨ ∃ s, ChildLink cfg r.1.shared s n ∧
        ∀ s', ChildLink cfg r.1.shared s' n → s' = s
    | .free | .other => ∀ s, ¬ ChildLink cfg r.1.shared s n

/-- A node that `t` has allocated stays unpublished until a step of `t` puts it
    into a slot, or deletes it. -/
def NodeFates (cfg : Config) (r : LeafRun T) (l : PoolLabel T LeafOp Word) (r' : LeafRun T) :
    Prop :=
  ∀ n t, r.1.shared.place n = .fresh t → r'.1.shared.place n = .fresh t ∨
    l.thread = t ∧ ((∃ s, ChildLink cfg r'.1.shared s n) ∨
      r'.1.shared.place n = .free ∧
        ∃ op k, r.1.running t = some (op, .act (.deleteNode n) k))

theorem RaceInv.nodesAccounted {r : LeafRun T} (h : RaceInv cfg r) : NodesAccounted cfg r := by
  intro n
  have hnone : (∀ ws, r.1.shared.place n ≠ .linked ws) → ∀ s, ¬ ChildLink cfg r.1.shared s n := by
    intro hn s hs
    obtain ⟨ws, -, hlinked⟩ := h.heap.childLink_iff.mp hs
    exact hn _ hlinked
  split
  · rename_i t hn
    refine ⟨hnone fun ws => by simp [hn], ?_⟩
    cases hrun : r.1.running t with
    | none => cases h.idle hrun n hn
    | some x => rfl
  · rename_i ws hn
    by_cases hws : ws = []
    · exact .inl (h.heap.root_unique (hws ▸ hn))
    · exact .inr (h.heap.childLink_unique hn hws)
  · rename_i hn
    exact hnone fun ws => by simp [hn]
  · rename_i hn
    exact hnone fun ws => by simp [hn]

theorem RaceInv.nodeFates {r r' : LeafRun T} {l : PoolLabel T LeafOp Word} (h : RaceInv cfg r)
    (hs : leafStep cfg r l = some r') : NodeFates cfg r l r' := by
  intro n t hn
  obtain hsame | ⟨u, c, op, a, k, rfl, hrun, hnode⟩ := h.nodeStep hs
  · rw [hsame]
    exact .inl hn
  · cases hnode with
    | same hplace =>
      rw [hplace]
      exact .inl hn
    | allocated x ha hx hplace =>
      rw [hplace, Function.update_of_ne (ne_of_place hx hn (by simp))]
      exact .inl hn
    | linked x y i ws ha hx hplace =>
      by_cases hnx : n = x
      · subst hnx
        obtain rfl : u = t := Place.fresh.inj (hx.symm.trans hn)
        have hlinked : r'.1.shared.place n = .linked (ws ++ [i]) := by
          rw [hplace, Function.update_self]
        obtain ⟨s, hs, -⟩ := (h.step hs).heap.childLink_unique hlinked (by simp)
        exact .inr ⟨rfl, .inl ⟨s, hs⟩⟩
      · rw [hplace, Function.update_of_ne hnx]
        exact .inl hn
    | deleted x ha hx hplace =>
      by_cases hnx : n = x
      · subst hnx ha
        obtain rfl : u = t := Place.fresh.inj (hx.symm.trans hn)
        exact .inr ⟨rfl, .inr ⟨by rw [hplace, Function.update_self], op, k, hrun⟩⟩
      · rw [hplace, Function.update_of_ne hnx]
        exact .inl hn

/-- A link that is set stays. -/
theorem childLink_of_run {r r' : LeafRun T} {s : Slot} (h : RaceInv cfg r)
    (hrun : Steps (leafStep cfg) anyStep r r') (hs : ChildLink cfg r.1.shared s n) :
    ChildLink cfg r'.1.shared s n := by
  refine (hrun.invariant (fun r => RaceInv cfg r ∧ ChildLink cfg r.1.shared s n) ⟨h, hs⟩ ?_).2
  rintro r l r' ⟨h, hlink⟩ - hstep
  refine ⟨h.step hstep, ?_⟩
  rw [(h.step hstep).heap.childLink_iff]
  obtain ⟨ws, hu, hn⟩ := h.heap.childLink_iff.mp hlink
  obtain hsame | ⟨t, c, op, a, k, -, -, hnode⟩ := h.nodeStep hstep
  · rw [hsame]
    exact ⟨ws, hu, hn⟩
  · exact ⟨ws, hnode.linked_mono hu, hnode.linked_mono hn⟩

/-- Any interleaving of inserts and clears: links stay; a node that is allocated
    is linked in one slot or deleted by its creator without ever having been
    reachable; an insert returns after one store, to the leaf slot of its page,
    unless an allocation has failed; and what is found for a page is the value of
    the last leaf store for its key. -/
theorem races_lose_nothing {r : LeafRun T}
    (hrun : Steps (leafStep cfg) anyStep (leafStart T cfg) r) :
    (∀ r', Steps (leafStep cfg) anyStep r r' → ∀ s n, ChildLink cfg r.1.shared s n →
      ChildLink cfg r'.1.shared s n) ∧
    NodesAccounted cfg r ∧ (∀ l r', leafStep cfg r l = some r' → NodeFates cfg r l r') ∧
    (∀ t p v, r.1.running t = some (.insertLeaf p v, .ret ()) → r.1.shared.outOfMemory = false →
      ∃ s, leafSlot cfg r.1.shared p = some s ∧ performed t r.2 = [(s, v ||| kLeafTag)]) ∧
    ∀ t pick q, ((lookupPage cfg q).eval (exec t) pick r.1.shared).1 =
      lastWrite (fun e => decide (e.StoresTo cfg q)) LeafEvent.value 0 r.2 := by
  have h := raceInv_of_run hrun
  refine ⟨fun r' hrun' s n => childLink_of_run h hrun', h.nodesAccounted,
    fun l r' => h.nodeFates, fun t p v hret ho => ?_, fun t pick q => ?_⟩
  · obtain ⟨-, held, hpoint, -⟩ := h.running hret
    obtain ⟨-, ⟨s, hs, hstores⟩ | hfull | ⟨p', hclear⟩⟩ := hpoint.ret
    · exact ⟨s, h.heap.leafSlot_eq_some_iff.mpr hs, hstores⟩
    · exact absurd (ho.symm.trans hfull) (by simp)
    · cases hclear
  · rw [eval_lookupPage]
    exact h.value q

/-- Two threads insert the same page into the empty trie. Both find no child and
    allocate one; thread `true` loses, deletes its node, and stores last. -/
def lostRace : List (PoolLabel Bool LeafOp Word) :=
  [.call false (.insertLeaf 0x100 0x10), .call true (.insertLeaf 0x100 0x20), .act false 0,
    .act true 0, .act false 0x2000, .act true 0x3000, .act false 0, .act true 0, .act true 0] ++
  [0, 0x4000, 0, 0, 0x5000, 0, 0].map (.act false) ++ [.ret false] ++
  List.replicate 3 (.act true 0) ++ [.ret true]

theorem races_lose_nothing_lost : ∃ r : LeafRun Bool,
    (r.1.running false = none ∧ r.1.running true = none) ∧
      ((lookupPage defaultConfig 0x100).eval (exec true) (fun _ => 0) r.1.shared).1 = 0x20 := by
  have hrun : (replay (restrict (leafStep defaultConfig) anyStep) (leafStart Bool defaultConfig)
    lostRace).isSome = true := by decide +kernel
  refine ⟨_, ?_, ((races_lose_nothing (Steps.of_schedule hrun)).2.2.2.2 true _ 0x100).trans ?_⟩
  · decide +kernel
  · decide +kernel

end Memnon.Trie
