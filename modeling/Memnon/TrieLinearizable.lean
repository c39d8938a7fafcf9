import Memnon.TrieRaces
import Memnon.Lib.Linearizable

/-!
# Linearizability of the operations on single pages

Any number of threads insert, clear and look up pages, in any interleaving of
their loads, compare-exchanges and stores. The threads see a map from pages to
values that each call changes or reads in one moment: an insert and a clear at
their leaf store, a lookup at its last load, and a clear or a lookup that finds
no child at the load that finds none. An insert whose allocation has failed is
dropped.
-/

namespace Memnon.Trie

open Memnon.Lib Memnon.Lib.Prog

/-! ## 1. The system -/

inductive PageOp where
  | leaf (op : LeafOp)
  | lookupPage (pageNum : Word)
deriving DecidableEq

variable {T : Type} [DecidableEq T]

def PageOp.body (cfg : Config) : PageOp → TrieProg (Option Word)
  | .leaf (.insertLeaf pageNum value) => do
      insertLeaf cfg pageNum value
      return none
  | .leaf (.clearLeaf pageNum) => do
      clearLeaf cfg pageNum
      return none
  | .lookupPage pageNum => do
      let v ← Trie.lookupPage cfg pageNum
      return some v

def pageSystem (cfg : Config) : System T PageOp Act Word (Memory T) (Option Word) Resp where
  exec := exec
  body := PageOp.body cfg
  enter
    | _, .leaf op, m => if op.Valid then some m else none
    | _, .lookupPage _, m => some m
  leave _ _ _ m := m

abbrev PagePool (T : Type) := Pool T PageOp Act (Memory T) (Option Word) Resp

/-- A run with its calls and returns. -/
abbrev PageRun (T : Type) := PagePool T × List (HistoryEvent T PageOp (Option Word))

def pageStep (cfg : Config) : PageRun T → PoolLabel T PageOp Word → Option (PageRun T) :=
  logged (Pool.step (pageSystem cfg)) Pool.history

def pageStart (T : Type) (cfg : Config) : PageRun T := (Pool.idle (initialMemory T cfg), [])

/-! ## 2. The object -/

/-- `v` for every page that has the key of `p`. -/
def assign (cfg : Config) (p v : Word) (f : Word → Word) : Word → Word :=
  fun q => if SameKey cfg p q then v else f q

/-- A map from pages to values. When it is `lossy`, an insert may do nothing. -/
def pageObject (cfg : Config) (lossy : Bool) : AtomicObject PageOp (Word → Word) (Option Word) where
  start := fun _ => 0
  Allows
    | .leaf (.insertLeaf p v), f, a, f' =>
        a = none ∧ (f' = assign cfg p v f ∨ lossy = true ∧ f' = f)
    | .leaf (.clearLeaf p), f, a, f' => a = none ∧ f' = assign cfg p 0 f
    | .lookupPage p, f, a, f' => a = some (f p) ∧ f' = f

theorem allows_assign (cfg : Config) (lossy : Bool) (op : LeafOp) (f : Word → Word) :
    (pageObject cfg lossy).Allows (.leaf op) f none (assign cfg op.page op.value f) := by
  cases op with
  | insertLeaf p v => exact ⟨rfl, .inl rfl⟩
  | clearLeaf p => exact ⟨rfl, rfl⟩

/-- A lossy map may do all that the other one does. -/
theorem allows_lossy {cfg : Config} (lossy : Bool) {op : PageOp} {f f' : Word → Word}
    {a : Option Word}
    (h : (pageObject cfg false).Allows op f a f') : (pageObject cfg lossy).Allows op f a f' := by
  cases op with
  | leaf op =>
    cases op with
    | insertLeaf p v => exact ⟨h.1, .inl (h.2.resolve_right fun hlossy => by cases hlossy.1)⟩
    | clearLeaf p => exact h
  | lookupPage p => exact h

/-! ## 3. Where a thread stands -/

section standing

variable (cfg : Config) (t : T) (m : Memory T)

/-- The program of a thread and its place at the object. -/
inductive At : Option (PageOp × TrieProg (Option Word)) → Standing PageOp (Option Word) → Prop
  | outside (hall : HoldsAll t m none) : At none none
  | updating (op : LeafOp) (prog : TrieProg Unit) (held : Option Word)
      (hp : Point cfg t m op [] prog held) (hall : HoldsAll t m held) (hvalid : op.Valid)
      (hret : prog = .ret () → m.outOfMemory = true ∧ ∃ p v, op = .insertLeaf p v) :
      At (some (.leaf op, prog.bind fun _ => .ret none)) (some (.leaf op, none))
  | looking (p : Word) (ws rest : List Nat) (cur : Word) (hpath : ws ++ rest = innerPath cfg p)
      (hcur : m.place cur = .linked ws) (hall : HoldsAll t m none) :
      At (some (.lookupPage p, ((lookupPath (leafIdx cfg p) cur rest).bind fun r => .ret r.1).bind
        fun v => .ret (some v))) (some (.lookupPage p, none))
  | done (op : PageOp) (a : Option Word) (hall : HoldsAll t m none) :
      At (some (op, .ret a)) (some (op, some a))

end standing

variable {cfg : Config} {t u : T} {m m' : Memory T} {op : LeafOp} {stores : List (Slot × Word)}
  {held : Option Word} {a : Act} {x : Option (PageOp × TrieProg (Option Word))}
  {st : Standing PageOp (Option Word)}

omit [DecidableEq T] in
/-- The steps of the other threads leave a thread where it stands. -/
theorem At.mono (h : At cfg t m x st)
    (hlinked : ∀ {n ws}, m.place n = .linked ws → m'.place n = .linked ws)
    (hfresh : ∀ {n}, m'.place n = .fresh t ↔ m.place n = .fresh t)
    (hoom : m.outOfMemory = true → m'.outOfMemory = true) : At cfg t m' x st := by
  have hholds : ∀ {held}, HoldsAll t m held → HoldsAll t m' held :=
    fun hall n hn => hall n (hfresh.mp hn)
  cases h with
  | outside hall => exact .outside (hholds hall)
  | updating op prog held hp hall hvalid hret =>
    exact .updating op prog held (hp.mono hlinked hfresh.mpr hoom) (hholds hall) hvalid
      fun hprog => ⟨hoom (hret hprog).1, (hret hprog).2⟩
  | looking p ws rest cur hpath hcur hall =>
    exact .looking p ws rest cur hpath (hlinked hcur) (hholds hall)
  | done op a hall => exact .done op a (hholds hall)

theorem insertPath_ne_ret (value : Word) (leaf : Nat) (cur : Word) (rest : List Nat) :
    insertPath value leaf cur rest ≠ .ret () := by
  cases rest <;> exact fun h => by cases h

theorem clearPath_ne_ret (leaf : Nat) (cur : Word) (rest : List Nat) :
    clearPath leaf cur rest ≠ .ret () := by
  cases rest <;> exact fun h => by cases h

/-- A clear that ends without a store has found its page empty. -/
theorem Point.leafValue_of_missing {p : Word} {k : Resp a → TrieProg Unit} (h : HeapInv cfg m)
    (hp : Point cfg t m (.clearLeaf p) stores (.act a k) held)
    (hquiet : ∀ node idx word, a ≠ .store node idx word) {c : Word}
    (hret : k (exec t a c m).1 = .ret ()) : leafValue cfg m p = 0 := by
  cases hp with
  | inserting p' v ws rest cur hop hstores hprog hheld hpath hcur => cases hop
  | allocating p' v ws rest idx cur hop hstores hprog hheld hpath hcur => cases hop
  | publishing p' v ws rest idx cur n hop hstores hprog hheld hpath hcur hn => cases hop
  | deleting p' v ws rest cur n hop hstores hprog hheld hpath hcur hn => cases hop
  | failed p' v hop hstores hprog hheld ho => cases hop
  | clearing p' ws rest cur hop hstores hprog hheld hpath hcur =>
    cases hop
    cases rest with
    | nil =>
      cases hprog
      exact absurd rfl (hquiet _ _ _)
    | cons idx rest =>
      cases hprog
      by_cases hzero : m.slot cur idx = 0
      · exact h.leafValue_eq_zero hcur hpath hzero
      · simp only [exec, ret_bind, if_neg hzero] at hret
        exact absurd hret (clearPath_ne_ret _ _ _)
  | missing p' hop hstores hprog hheld => cases hprog
  | stored s hstores hprog hheld hs => cases hprog

/-- What a step of `t` is to the threads that do not take it. -/
structure Unmoved (t : T) (m m' : Memory T) : Prop where
  linked : ∀ {n ws}, m.place n = .linked ws → m'.place n = .linked ws
  fresh : ∀ {u n}, u ≠ t → (m'.place n = .fresh u ↔ m.place n = .fresh u)
  outOfMemory : m.outOfMemory = true → m'.outOfMemory = true

omit [DecidableEq T] in
theorem Unmoved.refl (t : T) (m : Memory T) : Unmoved t m m := ⟨id, fun _ => Iff.rfl, id⟩

/-- The map that the leaves hold. -/
def Holds (cfg : Config) (m : Memory T) (f : Word → Word) : Prop :=
  ∀ q, leafValue cfg m q &&& ~~~kLeafTag = f q

omit [DecidableEq T] in
theorem Holds.write {f : Word → Word} {s : Slot} (hf : Holds cfg m f) (h : HeapInv cfg m)
    (hs : LeafAt cfg m op.page s) (hvalid : op.Valid) :
    Holds cfg (m.write s.1 s.2 op.word) (assign cfg op.page op.value f) := by
  intro q
  rw [leafValue_write h hs, assign]
  by_cases hq : SameKey cfg op.page q
  · rw [if_pos hq, if_pos hq]
    exact hvalid.untag
  · rw [if_neg hq, if_neg hq]
    exact hf q

omit [DecidableEq T] in
/-- Clearing a page that holds nothing. -/
theorem Holds.assign_zero {f : Word → Word} {p : Word} (hf : Holds cfg m f)
    (hp : leafValue cfg m p = 0) : assign cfg p 0 f = f := by
  funext q
  rw [assign]
  by_cases hq : SameKey cfg p q
  · rw [if_pos hq, ← hf q, ← hq.leafValue, hp]
    exact BitVec.zero_and.symm
  · rw [if_neg hq]

/-- An action of a thread leaves the map alone, or it is the moment in which the
    call takes effect. -/
structure Acts (cfg : Config) (t : T) (m m' : Memory T) (f : Word → Word) (op : PageOp)
    (x : Option (PageOp × TrieProg (Option Word))) (f' : Word → Word)
    (st' : Standing PageOp (Option Word)) : Prop where
  heap : HeapInv cfg m'
  others : Unmoved t m m'
  holds : Holds cfg m' f'
  standing : At cfg t m' x st'
  commits : (f' = f ∧ st' = some (op, none)) ∨
    ∃ a, (pageObject cfg false).Allows op f a f' ∧ st' = some (op, some a)

theorem At.update_step {f : Word → Word} {k : Resp a → TrieProg Unit}
    (h : HeapInv cfg m) (hf : Holds cfg m f)
    (hp : Point cfg t m op [] (.act a k) held) (hall : HoldsAll t m held) (hvalid : op.Valid)
    (c : Word) :
    ∃ f' st', Acts cfg t m (exec t a c m).2 f (.leaf op)
      (some (.leaf op, (k (exec t a c m).1).bind fun _ => .ret none)) f' st' := by
  obtain ⟨hheap, hnodes, hquiet, held', hp', hall'⟩ | ⟨s, hleaf, rfl, -, rfl, hk⟩ :=
    hp.step h hall c
  · have hothers : Unmoved t m (exec t a c m).2 :=
      ⟨hheap.linked, fun hu => ⟨hnodes.fresh_of_ne hu, hheap.fresh hu⟩, hheap.outOfMemory⟩
    have hf' : Holds cfg (exec t a c m).2 f := by
      intro q
      rw [hheap.leaf q]
      exact hf q
    by_cases hmissing : k (exec t a c m).1 = .ret () ∧ ∃ p, op = .clearLeaf p
    · -- there was no child, so there is nothing to clear
      obtain ⟨hret, p, rfl⟩ := hmissing
      rw [hret] at hp' ⊢
      obtain ⟨rfl, -⟩ := hp'.ret
      have hzero := hp.leafValue_of_missing h hquiet hret
      refine ⟨f, _, hheap.inv, hothers, hf', .done _ none hall', .inr ⟨none, ?_, rfl⟩⟩
      exact ⟨rfl, (hf.assign_zero hzero).symm⟩
    · refine ⟨f, _, hheap.inv, hothers, hf', .updating op _ held' hp' hall' hvalid ?_,
        .inl ⟨rfl, rfl⟩⟩
      intro hret
      rw [hret] at hp'
      obtain ⟨-, ⟨s, -, hstores⟩ | hoom | hclear⟩ := hp'.ret
      · cases hstores
      · cases op with
        | insertLeaf p v => exact ⟨hoom, p, v, rfl⟩
        | clearLeaf p => exact absurd ⟨hret, p, rfl⟩ hmissing
      · exact absurd ⟨hret, hclear⟩ hmissing
  · refine ⟨_, _, heapInv_write h hleaf, ⟨id, fun _ => Iff.rfl, id⟩, hf.write h hleaf hvalid, ?_,
      .inr ⟨none, allows_assign cfg false op f, rfl⟩⟩
    rw [hk]
    exact .done _ none hall

/-- The walk of a lookup loads a child, or what the page holds. -/
theorem At.lookup_step {f : Word → Word} {p : Word} {ws rest : List Nat} {cur : Word}
    {k : Resp a → TrieProg (Option Word)} (h : HeapInv cfg m) (hf : Holds cfg m f)
    (hpath : ws ++ rest = innerPath cfg p) (hcur : m.place cur = .linked ws)
    (hall : HoldsAll t m none)
    (hprog : Prog.act a k = ((lookupPath (leafIdx cfg p) cur rest).bind fun r => .ret r.1).bind
      fun v => .ret (some v)) (c : Word) :
    ∃ f' st', Acts cfg t m (exec t a c m).2 f (.lookupPage p)
      (some (.lookupPage p, k (exec t a c m).1)) f' st' := by
  have hread : ∀ v, v = f p → Acts cfg t m m f (.lookupPage p)
      (some (.lookupPage p, .ret (some v))) f (some (.lookupPage p, some (some v))) :=
    fun v hv => ⟨h, Unmoved.refl t m, hf, .done _ _ hall, .inr ⟨some v, ⟨by rw [hv], rfl⟩, rfl⟩⟩
  cases rest with
  | nil =>
    cases hprog
    rw [List.append_nil] at hpath
    have hleaf : LeafAt cfg m p (cur, leafIdx cfg p) := ⟨hpath ▸ hcur, rfl⟩
    have hvalue : m.slot cur (leafIdx cfg p) &&& ~~~kLeafTag = f p := by
      rw [← hf p, h.leafValue_of_leafAt hleaf]
    simp only [exec, ret_bind, pure_eq]
    split
    · rename_i hzero
      rw [hzero] at hvalue
      exact ⟨_, _, hread 0 (BitVec.zero_and.symm.trans hvalue)⟩
    · exact ⟨_, _, hread _ hvalue⟩
  | cons idx rest =>
    cases hprog
    simp only [exec, ret_bind, pure_eq]
    split
    · rename_i hzero
      refine ⟨_, _, hread 0 ?_⟩
      rw [← hf p, h.leafValue_eq_zero hcur hpath hzero]
      exact BitVec.zero_and.symm
    · rename_i hne
      have hchild := h.child hcur (depth_of_path hpath) hne
      exact ⟨f, _, h, Unmoved.refl t m, hf,
        .looking p _ rest _ (by simpa using hpath) hchild hall, .inl ⟨rfl, rfl⟩⟩

/-- One action of a call. -/
theorem At.act_step {f : Word → Word} {op : PageOp} {k : Resp a → TrieProg (Option Word)}
    (h : HeapInv cfg m) (hf : Holds cfg m f) (hat : At cfg t m (some (op, .act a k)) st)
    (c : Word) :
    st = some (op, none) ∧ ∃ f' st', Acts cfg t m (exec t a c m).2 f op
      (some (op, k (exec t a c m).1)) f' st' := by
  generalize hx : some (op, Prog.act a k) = x at hat
  cases hat with
  | outside hall => cases hx
  | updating op' prog held hp hall hvalid hret =>
    cases prog with
    | ret r => cases hx
    | act a' k' =>
      cases hx
      exact ⟨rfl, At.update_step h hf hp hall hvalid c⟩
  | looking p ws rest cur hpath hcur hall =>
    obtain ⟨rfl, hprog⟩ := Prod.mk.inj (Option.some.inj hx)
    exact ⟨rfl, At.lookup_step h hf hpath hcur hall hprog c⟩
  | done op' r hall => cases hx

/-! ## 4. The simulation -/

/-- The pool, the map that it holds, and where its threads stand. -/
structure PageInv (cfg : Config) (p : PagePool T)
    (w : (Word → Word) × (T → Standing PageOp (Option Word))) : Prop where
  heap : HeapInv cfg p.shared
  holds : Holds cfg p.shared w.1
  thread : ∀ t, At cfg t p.shared (p.running t) (w.2 t)

omit [DecidableEq T] in
theorem pageInv_start :
    PageInv cfg (Pool.idle (initialMemory T cfg)) ((pageObject cfg true).start, fun _ => none) := by
  refine ⟨heapInv_initial, fun q => ?_, fun t => .outside fun n hn => ?_⟩
  · have hzero : leafValue cfg (initialMemory T cfg) q = 0 := by
      unfold leafValue
      split <;> rfl
    exact (congrArg (· &&& ~~~kLeafTag) hzero).trans BitVec.zero_and
  · by_cases hroot : n = cfg.root
    · simp [Pool.idle, initialMemory, hroot] at hn
    · simp [Pool.idle, initialMemory, hroot] at hn

/-- A step of thread `t`, which is at `x` after it. -/
theorem PageInv.update {p : PagePool T} {f f' : Word → Word}
    {sts : T → Standing PageOp (Option Word)} (h : PageInv cfg p (f, sts)) (hheap : HeapInv cfg m')
    (hothers : Unmoved t p.shared m') (hf : Holds cfg m' f') (hat : At cfg t m' x st) :
    PageInv cfg ⟨m', Function.update p.running t x⟩ (f', Function.update sts t st) := by
  refine ⟨hheap, hf, fun u => ?_⟩
  show At cfg u m' (Function.update p.running t x u) (Function.update sts t st u)
  by_cases hut : u = t
  · subst hut
    rw [Function.update_self, Function.update_self]
    exact hat
  · rw [Function.update_of_ne hut, Function.update_of_ne hut]
    exact (h.thread u).mono hothers.linked (hothers.fresh hut) hothers.outOfMemory

/-- Every step is matched by the map: a call and a return by themselves, an action
    by nothing or by its call taking effect. -/
theorem PageInv.step {lossy : Bool} {p p' : PagePool T} {l : PoolLabel T PageOp Word}
    {w : (Word → Word) × (T → Standing PageOp (Option Word))} (h : PageInv cfg p w)
    (hlossy : p.shared.outOfMemory = true → lossy = true)
    (hs : p.step (pageSystem cfg) l = some p') :
    ∃ es w', (pageObject cfg lossy).Run w es w' ∧
      es.filter HistoryEvent.visible = p.history l ∧ PageInv cfg p' w' := by
  obtain ⟨f, sts⟩ := w
  obtain ⟨t, op, m, rfl, hidle, henter, rfl⟩ | ⟨t, c, op, a, k, rfl, hrun, rfl⟩ |
    ⟨t, op, a, rfl, hrun, rfl⟩ := Pool.step_cases _ hs
  · -- a call starts at the root
    have hat : At cfg t p.shared (p.running t) (sts t) := h.thread t
    rw [hidle] at hat
    generalize hst : sts t = st at hat
    cases hat with
    | outside hall =>
      refine ⟨_, _, (AtomicObject.Step.call hst).run, rfl, ?_⟩
      cases op with
      | leaf op =>
        obtain ⟨hvalid, hm⟩ := Option.ite_none_right_eq_some.mp henter
        obtain rfl := Option.some.inj hm
        refine h.update h.heap (Unmoved.refl t _) h.holds ?_
        cases op with
        | insertLeaf q v =>
          exact .updating _ (insertLeaf cfg q v) none
            (.inserting _ _ [] _ _ rfl rfl rfl rfl (List.nil_append _) h.heap.root) hall hvalid
            fun hret => absurd hret (insertPath_ne_ret _ _ _ _)
        | clearLeaf q =>
          exact .updating _ (clearLeaf cfg q) none
            (.clearing _ [] _ _ rfl rfl rfl rfl (List.nil_append _) h.heap.root) hall hvalid
            fun hret => absurd hret (clearPath_ne_ret _ _ _)
      | lookupPage q =>
        obtain rfl := Option.some.inj henter
        exact h.update h.heap (Unmoved.refl t _) h.holds
          (.looking q [] _ _ (List.nil_append _) h.heap.root hall)
  · have hat := h.thread t
    rw [hrun] at hat
    obtain ⟨hst, f', st', hacts⟩ := hat.act_step h.heap h.holds c
    have hnext := h.update hacts.heap hacts.others hacts.holds hacts.standing
    obtain ⟨rfl, rfl⟩ | ⟨r, hallows, rfl⟩ := hacts.commits
    · refine ⟨[], _, .refl, rfl, ?_⟩
      rw [← hst, Function.update_eq_self] at hnext
      exact hnext
    · exact ⟨_, _, (AtomicObject.Step.commit hst (allows_lossy lossy hallows)).run, rfl, hnext⟩
  · have hat : At cfg t p.shared (p.running t) (sts t) := h.thread t
    rw [hrun] at hat
    generalize hst : sts t = st at hat
    generalize hx : some (op, Prog.ret a) = x at hat
    cases hat with
    | outside hall => cases hx
    | updating op' prog held hp hall hvalid hret =>
      cases prog with
      | act a' k' => cases hx
      | ret r =>
        -- an allocation has failed: the insert is dropped as it returns
        cases hx
        obtain ⟨hoom, q, v, rfl⟩ := hret rfl
        obtain ⟨rfl, -⟩ := hp.ret
        have hdrop : (pageObject cfg lossy).Allows (.leaf (.insertLeaf q v)) f none f :=
          ⟨rfl, .inr ⟨hlossy hoom, rfl⟩⟩
        have hret := AtomicObject.Step.ret (O := pageObject cfg lossy) (x := f)
          (Function.update_self t (some (PageOp.leaf (.insertLeaf q v), some none)) sts)
        refine ⟨_, _, (AtomicObject.Step.commit hst hdrop).run.tail hret, ?_, ?_⟩
        · simp [HistoryEvent.visible, Pool.history, Pool.returned, hrun]
        · rw [Function.update_idem]
          exact h.update h.heap (Unmoved.refl t _) h.holds (.outside hall)
    | looking q ws rest cur hpath hcur hall => cases rest <;> cases hx
    | done op' r hall =>
      cases hx
      refine ⟨_, _, (AtomicObject.Step.ret hst).run, ?_,
        h.update h.heap (Unmoved.refl t _) h.holds (.outside hall)⟩
      simp [HistoryEvent.visible, Pool.history, Pool.returned, hrun]

/-! ## 5. Linearizability -/

/-- An allocation that has failed is not forgotten. -/
theorem outOfMemory_of_run {r r' : PageRun T} (hrun : Steps (pageStep cfg) anyStep r r')
    (ho : r.1.shared.outOfMemory = true) : r'.1.shared.outOfMemory = true := by
  refine hrun.invariant (fun r => r.1.shared.outOfMemory = true) ho fun r l r' ho _ hs => ?_
  obtain ⟨hs, -⟩ := logged_eq_some hs
  obtain ⟨t, op, m, -, -, henter, hr'⟩ | ⟨t, c, op, a, k, -, -, hr'⟩ | ⟨t, op, a, -, -, hr'⟩ :=
    Pool.step_cases _ hs <;> rw [hr']
  · cases op with
    | leaf op =>
      obtain ⟨-, hm⟩ := Option.ite_none_right_eq_some.mp henter
      rwa [← Option.some.inj hm]
    | lookupPage q => rwa [← Option.some.inj henter]
  · exact @eval_outOfMemory T _ t (fun _ => c) _ _ (.act a .ret) ho
  · exact ho

/-- In every interleaving, inserts, clears and lookups of pages are linearizable:
    each takes effect in one moment between its call and its return, on one map;
    only when an allocation has failed may inserts have been dropped. -/
theorem pages_linearizable {r : PageRun T}
    (hrun : Steps (pageStep cfg) anyStep (pageStart T cfg) r) :
    (pageObject cfg r.1.shared.outOfMemory).Linearizable r.2 := by
  have hlossy := hrun.strengthen
    (K := fun a => a.1.shared.outOfMemory = true → r.1.shared.outOfMemory = true)
    fun _ _ hrest => outOfMemory_of_run hrest
  exact AtomicObject.linearizable_of_simulation (R := PageInv cfg)
    (C := fun p _ => p.shared.outOfMemory = true → r.1.shared.outOfMemory = true)
    pageInv_start (fun h hC hs => h.step hC hs) (hlossy.mono fun _ _ h => h.2)

/-- A lookup that overtakes nothing: it has found no child when the insert starts,
    and returns after it. -/
def slowLookup : List (PoolLabel Bool PageOp Word) :=
  [.call true (.lookupPage 0x100), .act true 0, .call false (.leaf (.insertLeaf 0x100 0x10))] ++
  [0, 0x2000, 0, 0, 0x3000, 0, 0, 0x4000, 0, 0].map (.act false) ++ [.ret false, .ret true] ++
  PoolLabel.alone true (.lookupPage 0x100) [0, 0, 0, 0]

def slowHistory : List (HistoryEvent Bool PageOp (Option Word)) :=
  [.call true (.lookupPage 0x100), .call false (.leaf (.insertLeaf 0x100 0x10)),
    .ret false (.leaf (.insertLeaf 0x100 0x10)) none, .ret true (.lookupPage 0x100) (some 0),
    .call true (.lookupPage 0x100), .ret true (.lookupPage 0x100) (some 0x10)]

theorem pages_linearizable_slow : (pageObject defaultConfig false).Linearizable slowHistory := by
  have hrun : (replay (restrict (pageStep defaultConfig) anyStep) (pageStart Bool defaultConfig)
      slowLookup).any (fun r => decide (r.2 = slowHistory ∧ r.1.shared.outOfMemory = false)) =
    true := by decide +kernel
  obtain ⟨r, hr, htest⟩ := Steps.exists_of_replay slowLookup hrun
  obtain ⟨hhistory, hoom⟩ := of_decide_eq_true htest
  have hlin := pages_linearizable hr
  rwa [hhistory, hoom] at hlin

end Memnon.Trie
