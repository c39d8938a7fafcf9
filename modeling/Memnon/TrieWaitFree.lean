import Memnon.TrieLookup
import Memnon.Registry
import Memnon.Lib.WaitFree

/-!
# The trie never waits

The walks of the trie go down one level at a time and never come back: a failed
compare-exchange hands out the child that another thread has linked, and the walk goes on
with it. So every operation is wait-free. A search takes as many steps as the trie has
levels, and a few for the cache of the thread; an update takes a bounded number for each
page.
-/

namespace Memnon.Trie

open Memnon.Lib Memnon.Lib.Prog

variable {cfg : Config}

/-! ## 1. The bounds -/

theorem within_forM {X : Type} {body : X → TrieProg PUnit} {n : Nat} (h : ∀ x, (body x).Within n)
    (xs : List X) : (xs.forM body).Within (xs.length * n) := by
  induction xs with
  | nil => exact within_ret _ _
  | cons x xs ih =>
    have hnext : ((x :: xs).forM body).Within (n + xs.length * n) := (h x).bind fun _ => ih
    refine hnext.mono ?_
    rw [List.length_cons, Nat.succ_mul]
    omega

/-- Each level costs a load, and where there is no child a node and a compare-exchange,
    and the node again when another thread has been faster. -/
theorem insertPath_within (value : Word) (leaf : Nat) (rest : List Nat) (cur : Word) :
    (insertPath value leaf cur rest).Within (4 * rest.length + 1) := by
  induction rest generalizing cur with
  | nil => exact within_act fun _ => trivial
  | cons idx rest ih =>
    simp only [insertPath, bind_eq, act_bind, ret_bind, pure_eq, List.length_cons]
    refine within_act (n := 4 * (rest.length + 1)) fun child => ?_
    split
    · refine within_act (n := 4 * rest.length + 3) fun fresh => ?_
      split
      · exact within_ret _ _
      · refine within_act (n := 4 * rest.length + 2) fun expected => ?_
        split
        · exact (ih fresh).mono (Nat.le_succ _)
        · exact within_act (n := 4 * rest.length + 1) fun _ => ih expected
    · exact (ih child).mono (by omega)

theorem clearPath_within (leaf : Nat) (rest : List Nat) (cur : Word) :
    (clearPath leaf cur rest).Within (rest.length + 1) := by
  induction rest generalizing cur with
  | nil => exact within_act fun _ => trivial
  | cons idx rest ih =>
    simp only [clearPath, bind_eq, act_bind, ret_bind, pure_eq, List.length_cons]
    refine within_act (n := rest.length + 1) fun child => ?_
    split
    · exact within_ret _ _
    · exact ih child

/-- The pages of a range. -/
def pageCount (cfg : Config) (base size : Word) : Nat :=
  (pageEnd cfg base size).toNat - (pageOf cfg base).toNat

/-- The actions of an operation, at most. -/
def TrieOp.actions (cfg : Config) : TrieOp → Nat
  | .insertRange base size _ => pageCount cfg base size * (4 * (cfg.levels - 1) + 1) + 1
  | .removeRange base size => pageCount cfg base size * cfg.levels + 1
  | .lookup _ => cfg.levels + 2

theorem pageRange_length (base size : Word) :
    (pageRange cfg base size).length = pageCount cfg base size := by
  simp [pageRange, pageCount]

/-- A loop over the pages of a range, and the emptied cache. -/
theorem rangeLoop_within {body : Word → TrieProg Unit} {n : Nat} (h : ∀ p, (body p).Within n)
    (base size : Word) :
    (((pageRange cfg base size).forM body).bind fun _ => invalidateCache).Within
      (pageCount cfg base size * n + 1) := by
  have hloop := within_forM h (pageRange cfg base size)
  rw [pageRange_length] at hloop
  exact hloop.bind fun _ => within_act fun _ => trivial

theorem insertRange_within (base size value : Word) :
    (insertRange cfg base size value).Within
      (TrieOp.actions cfg (.insertRange base size value)) := by
  apply rangeLoop_within
  intro p
  rw [← innerPath_length cfg p]
  exact insertPath_within value _ _ _

theorem removeRange_within (base size : Word) :
    (removeRange cfg base size).Within (TrieOp.actions cfg (.removeRange base size)) := by
  apply rangeLoop_within
  intro p
  have hpos := cfg.levels_pos
  refine (clearPath_within _ _ _).mono ?_
  rw [innerPath_length]
  omega

theorem body_within {T : Type} [DecidableEq T] (op : TrieOp) :
    ((trieSystem (T := T) cfg).body op).Within (op.actions cfg) := by
  cases op with
  | insertRange base size value =>
    exact (insertRange_within base size value).bind fun _ => within_ret 0 _
  | removeRange base size => exact (removeRange_within base size).bind fun _ => within_ret 0 _
  | lookup addr => exact lookup_within addr

/-- A search of the registry reads the bounds of the segment, and touches the cache twice
    more. -/
theorem find_within (addr : Word) : (find cfg addr).Within (cfg.levels + 6) := by
  refine (Within.bind (n := 4) (lookup_within addr) fun seg => ?_).mono (by omega)
  split
  · simp only [expandToSegment, expandCacheBoundsTop, bind_eq, act_bind, ret_bind, pure_eq]
    refine within_act fun base => within_act fun size => within_act fun entries => ?_
    split
    · split
      · exact within_act fun _ => within_ret 0 _
      · exact within_ret 1 _
    · exact within_ret 1 _
  · exact within_ret _ _

/-! ## 2. Result -/

section results

variable {T : Type} [DecidableEq T]

/-- A thread within its operation has taken at most `n` actions, and unless it is about to
    return, it has not taken them all and can take the next one. -/
def Unhindered {Op : Type} (sys : System T Op Act Word (Memory T) Word Resp)
    (past : List (Pool T Op Act (Memory T) Word Resp × PoolLabel T Op Word))
    (p : Pool T Op Act (Memory T) Word Resp) (t : T) (prog : TrieProg Word) (n : Nat) : Prop :=
  Pool.actsInCall t past ≤ n ∧
    ((∃ a, prog = .ret a) ∨
      Pool.actsInCall t past < n ∧ ∀ c, (p.step sys (.act t c)).isSome = true)

/-- Every operation of the trie is wait-free, and so is `find` of the registry: in every
    interleaving of any number of threads, also while others register, unregister and
    allocate nodes, a call ends after a number of its own actions that depends on nothing but
    the levels of the trie and, for an update, the pages of its range. -/
theorem operations_wait_free :
    (∀ (p : TriePool T) past, Steps (logged (Pool.step (trieSystem cfg)) visited)
        (fun a l => anyStep a.1 l) (Pool.idle (initialMemory T cfg), []) (p, past) →
      ∀ t op prog, p.running t = some (op, prog) →
        Unhindered (trieSystem cfg) past p t prog (op.actions cfg)) ∧
    ∀ (p : RegistryPool T) past, Steps (logged (Pool.step (registrySystem cfg)) visited)
        (fun a l => anyStep a.1 l) (Pool.idle (initialMemory T cfg), []) (p, past) →
      ∀ t addr prog, p.running t = some (.find addr, prog) →
        Unhindered (registrySystem cfg) past p t prog (cfg.levels + 6) := by
  constructor
  · intro p past hrun t op prog h
    exact Pool.wait_free (body_within op) (D := anyStep) hrun h
  · intro p past hrun t addr prog h
    exact Pool.wait_free (find_within addr) (D := anyStep) hrun h

end results

/-- Two threads insert the same page; the node of the first one to load is in vain. -/
theorem operations_wait_free_race : ∃ (p : TriePool Bool) (past : List (TriePool Bool ×
      PoolLabel Bool TrieOp Word)) (prog : TrieProg Word),
    p.running true = some (.insertRange 0x100000 0x1000 0x10, prog) ∧
      Pool.actsInCall true past = 4 ∧
      Unhindered (trieSystem defaultConfig) past p true prog 14 := by
  let op : TrieOp := .insertRange 0x100000 0x1000 0x10
  let schedule : List (PoolLabel Bool TrieOp Word) :=
    [.call true op, .act true 0, .act true 0x2000, .call false op, .act false 0,
      .act false 0x3000, .act false 0, .act true 0, .act true 0]
  have hex : ∃ a : TriePool Bool × List (TriePool Bool × PoolLabel Bool TrieOp Word),
      Steps (logged (Pool.step (trieSystem defaultConfig)) visited) (fun a l => anyStep a.1 l)
        (Pool.idle (initialMemory Bool defaultConfig), []) a ∧
      (decide ((a.1.running true).map Prod.fst = some op) &&
        decide (Pool.actsInCall true a.2 = 4)) = true :=
    Steps.exists_of_replay_labels schedule (fun _ _ _ => trivial) (by decide +kernel)
  obtain ⟨⟨p, past⟩, hrun, htest⟩ := hex
  obtain ⟨hop, hacts⟩ := Bool.and_eq_true_iff.mp htest
  obtain ⟨⟨op', prog⟩, hprog, hsame⟩ := Option.map_eq_some_iff.mp (of_decide_eq_true hop)
  obtain rfl : op' = op := hsame
  have hbound : op.actions defaultConfig = 14 := by decide
  have hfree := operations_wait_free.1 p past hrun true op prog hprog
  rw [hbound] at hfree
  exact ⟨p, past, prog, hprog, of_decide_eq_true hacts, hfree⟩

end Memnon.Trie
