import Memnon.TrieTree
import Memnon.Lib.Recency

/-!
# The cache of one thread

A thread that is alone on a trie finds in its cache what the trie holds: only
lookups fill the cache, from the current leaves, and every update empties it. So
a cached lookup answers as `lookup_page` does, no entry is ever stale, and
between two updates the cache is the list of the pages found last.
-/

namespace Memnon.Trie

open Memnon.Lib Memnon.Lib.Prog

/-! ## 1. The entries in place -/

/-- The entry at `i` goes to index 0, the ones before it move down. -/
def moveToFront (entries : List TlsEntry) (i : Nat) : List TlsEntry :=
  (shiftDown {} entries i).set 0 (entries.getD i {})

/-- The entries behind `i` move up, and the last one becomes empty. -/
def evict (entries : List TlsEntry) (i : Nat) : List TlsEntry :=
  (shiftUp {} entries i (kSize - 1 - i)).set (kSize - 1) {}

/-- `tls_cache_t::insert`. -/
def insertEntry (entries : List TlsEntry) (entry : TlsEntry) : List TlsEntry :=
  (shiftDown {} entries (kSize - 1)).set 0 entry

/-- `lookup_impl`, with its loops over the array of entries. -/
def lookupImpl (cfg : Config) (addr : Word) : TrieProg Word := do
  let entries ← getCache
  match entries.findIdx? (·.covers addr) with
  | some i =>
      let entry := entries.getD i {}
      match entry.leaf with
      | some (node, idx) =>
          let raw ← load node idx
          if raw = entry.seg ||| kLeafTag then
            let moved := if 0 < i then moveToFront entries i else entries
            setCache moved
            return (moved.getD 0 {}).seg
          else
            setCache (evict entries i)
            return 0
      | none =>
          setCache (evict entries i)
          return 0
  | none =>
      let (v, leafSlot) ← lookupPageWithSlot cfg (pageOf cfg addr)
      if v ≠ 0 then
        setCache (insertEntry entries (pageEntry cfg addr v leafSlot))
        return v
      else return v

variable {T : Type} [DecidableEq T] {cfg : Config} {t : T} {pick : Memory T → Word}
  {m m' : Memory T} {addr p q : Word} {e : TlsEntry} {entries es : List TlsEntry}

theorem Memory.setCache_self : m.setCache t (m.cache t) = m := by
  rw [Memory.setCache, Function.update_eq_self]

/-- The shifting loops are those of the list operations of `lookup`. -/
theorem eval_lookupImpl (hsize : (m.cache t).length = kSize) :
    (lookupImpl cfg addr).eval (exec t) pick m = (lookup cfg addr).eval (exec t) pick m := by
  simp only [lookupImpl, lookup, bind_eq, act_bind, ret_bind, pure_eq, eval_getCache]
  generalize m.cache t = entries at hsize
  have hinsert : insertEntry entries = fun entry => (entry :: entries).take kSize :=
    funext fun entry => set_shiftDown_last hsize entry
  cases hidx : entries.findIdx? (·.covers addr) with
  | none =>
    have hfind : entries.find? (·.covers addr) = none := by
      rw [List.find?_eq_none]
      exact fun e he => List.findIdx?_eq_none_iff.mp hidx e he ▸ Bool.false_ne_true
    rw [hfind, hinsert]
  | some i =>
    obtain ⟨hi, hcovers, hfirst⟩ := List.findIdx?_eq_some_iff_getElem.mp hidx
    have hfind : entries.find? (·.covers addr) = some entries[i] := by
      rw [List.find?_eq_some_iff_getElem]
      exact ⟨hcovers, i, hi, rfl, fun j hj => by simpa using hfirst j hj⟩
    have hget : entries.getD i {} = entries[i] := by
      rw [List.getD_eq_getElem?_getD, List.getElem?_eq_getElem hi, Option.getD_some]
    have herase : entries.eraseP (·.covers addr) = entries.eraseIdx i := by
      rw [List.eraseP_eq_eraseIdx, hidx]
    have hevict : evict entries i = entries.eraseIdx i ++ [({} : TlsEntry)] := by
      rw [hsize] at hi
      exact set_shiftUp hsize (Nat.le_of_lt_succ hi) {}
    have hmoved : (if 0 < i then moveToFront entries i else entries) =
        entries[i] :: entries.eraseIdx i := by
      split
      · exact set_shiftDown_self hi
      · obtain rfl : i = 0 := by omega
        cases entries with
        | nil => cases hi
        | cons entry entries => rfl
    rw [hfind]
    dsimp only
    rw [hmoved, hevict, herase, hget]
    rfl

/-! ## 2. The entries of the current leaves -/

/-- What `lookup_page` finds. -/
def pageValue (cfg : Config) (m : Memory T) (p : Word) : Word :=
  leafValue cfg m p &&& ~~~kLeafTag

theorem eval_lookupPage_eq (p : Word) :
    (lookupPage cfg p).eval (exec t) pick m = (pageValue cfg m p, m) := eval_lookupPage p

/-- The bounds, the value and the leaf slot of a page. -/
def cacheEntry (cfg : Config) (m : Memory T) (p : Word) : TlsEntry where
  base := p <<< cfg.platform.pageShift
  end_ := (p <<< cfg.platform.pageShift) + cfg.platform.pageSize
  seg := pageValue cfg m p
  leaf := leafSlot cfg m p

/-- The entry that the lookup meets first is no longer what the trie holds. -/
def StaleHit (t : T) (m : Memory T) (addr : Word) : Prop :=
  ∃ e, (m.cache t).find? (·.covers addr) = some e ∧
    ¬ ∃ s, e.leaf = some s ∧ m.slot s.1 s.2 = e.seg ||| kLeafTag

/-- The entries after a lookup: a hit moves the entry of the page to the front, and
    a miss on a mapped page adds it there. -/
def entriesAfter (cfg : Config) (m : Memory T) (addr : Word) (entries : List TlsEntry) :
    List TlsEntry :=
  if (entries.find? (·.covers addr)).isSome then
    cacheEntry cfg m (pageOf cfg addr) :: entries.eraseP (·.covers addr)
  else if pageValue cfg m (pageOf cfg addr) = 0 then entries
  else (cacheEntry cfg m (pageOf cfg addr) :: entries).take kSize

/-- The cache holds entries of mapped pages as the trie has them now, and empty
    ones. -/
structure Current (cfg : Config) (t : T) (m : Memory T) : Prop where
  tree : Tree cfg m
  size : (m.cache t).length = kSize
  entries : ∀ e ∈ m.cache t, e = {} ∨
    ∃ a, pageValue cfg m (pageOf cfg a) ≠ 0 ∧ e = cacheEntry cfg m (pageOf cfg a)

theorem not_covers_empty : TlsEntry.covers addr {} = false := by
  apply decide_eq_false
  rintro ⟨-, hlt⟩
  exact absurd (BitVec.lt_def.mp hlt) (Nat.not_lt_zero _)

omit [DecidableEq T] in
theorem pageOf_eq_of_covers_cacheEntry {a : Word}
    (h : (cacheEntry cfg m (pageOf cfg a)).covers addr = true) : pageOf cfg addr = pageOf cfg a :=
  pageOf_eq_of_covers (v := pageValue cfg m (pageOf cfg a)) h

omit [DecidableEq T] in
/-- The leaf slot of a mapped page holds its value, tagged. -/
theorem Tree.exists_slot (h : Tree cfg m) (hp : pageValue cfg m p ≠ 0) :
    ∃ s, leafSlot cfg m p = some s ∧ m.slot s.1 s.2 = pageValue cfg m p ||| kLeafTag := by
  have hne : leafValue cfg m p ≠ 0 := by
    intro hzero
    rw [pageValue, hzero] at hp
    exact hp BitVec.zero_and
  obtain ⟨s, hs⟩ := h.heap.exists_leafAt hne
  have hvalue := h.heap.leafValue_of_leafAt hs
  have hlen : (innerPath cfg p).length + 1 = cfg.levels := by
    have hpos := cfg.levels_pos
    rw [innerPath_length]
    omega
  have htag := (h.leaf hs.1 hlen (i := s.2)).resolve_left (hvalue ▸ hne)
  refine ⟨s, h.heap.leafSlot_eq_some_iff.mpr hs, ?_⟩
  rw [pageValue, hvalue, tag_untag htag]

namespace Current

variable (h : Current cfg t m)
include h

omit [DecidableEq T] in
/-- What the lookup meets is the entry of the page. -/
theorem of_find (hfind : (m.cache t).find? (·.covers addr) = some e) :
    pageValue cfg m (pageOf cfg addr) ≠ 0 ∧ e = cacheEntry cfg m (pageOf cfg addr) := by
  have hcovers : e.covers addr = true := List.find?_some hfind
  rcases h.entries e (List.mem_of_find?_eq_some hfind) with rfl | ⟨a, hmapped, rfl⟩
  · rw [not_covers_empty] at hcovers
    cases hcovers
  · rw [pageOf_eq_of_covers_cacheEntry hcovers]
    exact ⟨hmapped, rfl⟩

omit [DecidableEq T] in
theorem not_staleHit : ¬ StaleHit t m addr := by
  rintro ⟨e, hfind, hstale⟩
  obtain ⟨hmapped, rfl⟩ := h.of_find hfind
  exact hstale (h.tree.exists_slot hmapped)

/-- A lookup answers as `lookup_page` does. -/
theorem eval_lookup : (lookup cfg addr).eval (exec t) pick m =
    (pageValue cfg m (pageOf cfg addr), m.setCache t (entriesAfter cfg m addr (m.cache t))) := by
  rw [Trie.eval_lookup, entriesAfter]
  cases hfind : (m.cache t).find? (·.covers addr) with
  | some e =>
    obtain ⟨hmapped, rfl⟩ := h.of_find hfind
    have hslot : ∃ s, (cacheEntry cfg m (pageOf cfg addr)).leaf = some s ∧
        m.slot s.1 s.2 = (cacheEntry cfg m (pageOf cfg addr)).seg ||| kLeafTag :=
      h.tree.exists_slot hmapped
    dsimp only
    rw [if_pos hslot]
    rfl
  | none =>
    dsimp only
    rw [← pageValue, Option.isSome_none, if_neg Bool.false_ne_true]
    by_cases hzero : pageValue cfg m (pageOf cfg addr) = 0
    · rw [if_pos hzero, if_pos hzero, hzero, Memory.setCache_self]
    · rw [if_neg hzero, if_neg hzero]
      rfl

theorem afterLookup (addr : Word) :
    Current cfg t (m.setCache t (entriesAfter cfg m addr (m.cache t))) := by
  have hentries : (entriesAfter cfg m addr (m.cache t)).length = kSize ∧
      ∀ e ∈ entriesAfter cfg m addr (m.cache t), e ∈ m.cache t ∨
        pageValue cfg m (pageOf cfg addr) ≠ 0 ∧ e = cacheEntry cfg m (pageOf cfg addr) := by
    rw [entriesAfter]
    cases hfind : (m.cache t).find? (·.covers addr) with
    | some e =>
      obtain ⟨hmapped, rfl⟩ := h.of_find hfind
      have hmem := List.mem_of_find?_eq_some hfind
      rw [if_pos Option.isSome_some]
      refine ⟨?_, fun e he => ?_⟩
      · rw [List.length_cons, List.length_eraseP_of_mem hmem (List.find?_some hfind), h.size]
        rfl
      · rcases List.mem_cons.mp he with rfl | he
        · exact .inl hmem
        · exact .inl (List.mem_of_mem_eraseP he)
    | none =>
      rw [Option.isSome_none, if_neg Bool.false_ne_true]
      by_cases hzero : pageValue cfg m (pageOf cfg addr) = 0
      · rw [if_pos hzero]
        exact ⟨h.size, fun e he => .inl he⟩
      · rw [if_neg hzero]
        refine ⟨?_, fun e he => ?_⟩
        · rw [List.length_take, List.length_cons, h.size]
          rfl
        · rcases List.mem_cons.mp (List.mem_of_mem_take he) with rfl | he
          · exact .inr ⟨hzero, rfl⟩
          · exact .inl he
  refine ⟨h.tree.congr rfl rfl, ?_, ?_⟩
  · rw [Memory.setCache_cache_self]
    exact hentries.1
  · intro e he
    rw [Memory.setCache_cache_self] at he
    rcases hentries.2 e he with hold | hnew
    · exact h.entries e hold
    · exact .inr ⟨addr, hnew⟩

end Current

/-! ## 3. Any sequence of calls -/

inductive CacheCall where
  | range (c : RangeCall)
  | invalidateCache
  | lookup (addr : Word)
deriving DecidableEq

def CacheCall.body (cfg : Config) : CacheCall → TrieProg Unit
  | range c => c.body cfg
  | invalidateCache => Trie.invalidateCache
  | lookup addr => do
      let _ ← lookupImpl cfg addr
      return ()

/-- One thread makes the calls one after the other. -/
def runCached (cfg : Config) (t : T) (pick : Memory T → Word) (m : Memory T)
    (calls : List CacheCall) : Memory T :=
  calls.foldl (fun m c => ((c.body cfg).eval (exec t) pick m).2) m

omit [DecidableEq T] in
theorem current_empty (h : Tree cfg m) (hempty : m.cache t = emptyCache) : Current cfg t m := by
  refine ⟨h, by rw [hempty]; rfl, fun e he => ?_⟩
  rw [hempty] at he
  exact .inl (List.eq_of_mem_replicate he)

/-- An update keeps the tree, whether allocations fail or not, and empties the
    cache. -/
theorem eval_rangeCall (h : Tree cfg m) (c : RangeCall) :
    let m' := ((c.body cfg).eval (exec t) pick m).2
    Tree cfg m' ∧ m'.cache t = emptyCache := by
  cases c with
  | insertRange base size value =>
    have hinserted : Tree cfg
        (((pageRange cfg base size).forM (insertLeaf cfg · value)).eval (exec t) pick m).2 := by
      apply eval_forM (P := fun _ => Tree cfg) _ [] _ h
      intro _ p m₁ h₁
      exact (tree_insertPath t pick h₁ h₁.heap.root (List.nil_append (innerPath cfg p))).1
    simp only [RangeCall.body, insertRange, Trie.invalidateCache, bind_eq, eval_bind,
      eval_setCache, eval_ret]
    exact ⟨hinserted.congr rfl rfl, Memory.setCache_cache_self⟩
  | removeRange base size =>
    refine ⟨(cleared_removeRange t pick h base size).tree, ?_⟩
    simp only [RangeCall.body, removeRange, Trie.invalidateCache, bind_eq, eval_bind,
      eval_setCache, eval_ret]
    exact Memory.setCache_cache_self

theorem Current.call (h : Current cfg t m) (c : CacheCall) :
    Current cfg t ((c.body cfg).eval (exec t) pick m).2 := by
  cases c with
  | range c =>
    obtain ⟨htree, hempty⟩ := eval_rangeCall (t := t) h.tree c
    exact current_empty htree hempty
  | invalidateCache =>
    have htree : Tree cfg (m.setCache t emptyCache) := h.tree.congr rfl rfl
    exact current_empty htree Memory.setCache_cache_self
  | lookup addr =>
    simp only [CacheCall.body, bind_eq, eval_bind, pure_eq, eval_ret, eval_lookupImpl h.size,
      h.eval_lookup]
    exact h.afterLookup addr

theorem Current.run (h : Current cfg t m) (calls : List CacheCall) :
    Current cfg t (runCached cfg t pick m calls) := by
  induction calls generalizing m with
  | nil => exact h
  | cons c calls ih => exact ih (h.call c)

/-- On one thread a cached lookup is an uncached one: after any sequence of calls,
    `lookup` returns what `lookup_page` does, for every address, and does not meet a
    stale entry. -/
theorem lookup_eq_lookupPage (cfg : Config) (t : T) (pick : Memory T → Word)
    (calls : List CacheCall) (addr : Word) :
    let m := runCached cfg t pick (initialMemory T cfg) calls
    ((lookupImpl cfg addr).eval (exec t) pick m).1 =
        ((lookupPage cfg (pageOf cfg addr)).eval (exec t) pick m).1 ∧
      ¬ StaleHit t m addr := by
  have hcurrent : Current cfg t (runCached cfg t pick (initialMemory T cfg) calls) :=
    (current_empty tree_initial rfl).run calls
  refine ⟨?_, hcurrent.not_staleHit⟩
  rw [eval_lookupImpl hcurrent.size, hcurrent.eval_lookup, eval_lookupPage_eq]

/-! ## 4. The most recent pages -/

/-- The entries of the pages `pages`, and empty ones behind them. -/
def cacheOf (cfg : Config) (m : Memory T) (pages : List Word) : List TlsEntry :=
  pages.map (cacheEntry cfg m) ++ List.replicate (kSize - pages.length) ({} : TlsEntry)

omit [DecidableEq T] in
/-- The entry of a page other than the last one covers the page. -/
theorem covers_cacheEntry_iff {a : Word} (ha : a.toNat < 2 ^ 64 - 2 ^ cfg.platform.pageShift) :
    (cacheEntry cfg m (pageOf cfg a)).covers addr = true ↔ pageOf cfg addr = pageOf cfg a := by
  refine ⟨pageOf_eq_of_covers_cacheEntry, fun hpage => ?_⟩
  have hpos : 0 < 2 ^ cfg.platform.pageShift := Nat.two_pow_pos _
  have hstart : (pageOf cfg a <<< cfg.platform.pageShift).toNat =
      a.toNat / 2 ^ cfg.platform.pageShift * 2 ^ cfg.platform.pageShift := by
    rw [BitVec.toNat_shiftLeft, pageOf_toNat, Nat.shiftLeft_eq]
    exact Nat.mod_eq_of_lt (Nat.lt_of_le_of_lt (Nat.div_mul_le_self _ _) a.isLt)
  have hfloor := Nat.div_mul_le_self a.toNat (2 ^ cfg.platform.pageShift)
  have hdiv : addr.toNat / 2 ^ cfg.platform.pageShift =
      a.toNat / 2 ^ cfg.platform.pageShift := by
    rw [← pageOf_toNat, ← pageOf_toNat, hpage]
  have hlow := Nat.div_mul_le_self addr.toNat (2 ^ cfg.platform.pageShift)
  have hhigh := Nat.lt_div_mul_add hpos (a := addr.toNat)
  rw [hdiv] at hlow hhigh
  apply decide_eq_true
  rw [BitVec.le_def, BitVec.lt_def]
  simp only [cacheEntry]
  rw [BitVec.toNat_add, cfg.platform.pageSize_toNat, hstart, Nat.mod_eq_of_lt (by omega)]
  exact ⟨hlow, hhigh⟩

/-- Pages that can be in the cache: mapped, and not the last one of the address space. -/
def Cacheable (cfg : Config) (m : Memory T) (p : Word) : Prop :=
  pageValue cfg m p ≠ 0 ∧
    ∃ a : Word, a.toNat < 2 ^ 64 - 2 ^ cfg.platform.pageShift ∧ pageOf cfg a = p

section recency

variable {pages : List Word} (hpages : ∀ q ∈ pages, Cacheable cfg m q)
include hpages

omit [DecidableEq T] in
theorem covers_iff_of_mem (hq : q ∈ pages) :
    (cacheEntry cfg m q).covers addr = true ↔ q = pageOf cfg addr := by
  obtain ⟨-, a, ha, rfl⟩ := hpages q hq
  rw [covers_cacheEntry_iff ha]
  exact eq_comm

omit [DecidableEq T] in
theorem find?_cacheOf : ((cacheOf cfg m pages).find? (·.covers addr)).isSome = true ↔
    pageOf cfg addr ∈ pages := by
  rw [List.find?_isSome]
  constructor
  · rintro ⟨e, he, hcovers⟩
    rcases List.mem_append.mp he with he | he
    · obtain ⟨q, hq, rfl⟩ := List.mem_map.mp he
      rwa [← (covers_iff_of_mem hpages hq).mp hcovers]
    · obtain rfl := List.eq_of_mem_replicate he
      rw [not_covers_empty] at hcovers
      cases hcovers
  · intro hmem
    refine ⟨cacheEntry cfg m (pageOf cfg addr), ?_, (covers_iff_of_mem hpages hmem).mpr rfl⟩
    exact List.mem_append_left _ (List.mem_map_of_mem hmem)

omit [DecidableEq T] in
/-- Taking out the entry of a page. -/
theorem eraseP_cacheOf (hmem : pageOf cfg addr ∈ pages) :
    (cacheOf cfg m pages).eraseP (·.covers addr) =
      (pages.erase (pageOf cfg addr)).map (cacheEntry cfg m) ++
        List.replicate (kSize - pages.length) ({} : TlsEntry) := by
  have hcovers : (cacheEntry cfg m (pageOf cfg addr)).covers addr = true :=
    (covers_iff_of_mem hpages hmem).mpr rfl
  rw [cacheOf, List.eraseP_append_left hcovers _ (List.mem_map_of_mem hmem), List.eraseP_map,
    List.erase_eq_eraseP']
  congr 2
  apply eraseP_congr
  intro q hq
  rw [Bool.eq_iff_iff, beq_iff_eq]
  exact covers_iff_of_mem hpages hq

omit [DecidableEq T] in
/-- On the entries, a lookup is one use of its page. -/
theorem entriesAfter_cacheOf (hlen : pages.length ≤ kSize) :
    entriesAfter cfg m addr (cacheOf cfg m pages) = cacheOf cfg m
      (if pageValue cfg m (pageOf cfg addr) ≠ 0 then touch kSize pages (pageOf cfg addr)
        else pages) := by
  rw [entriesAfter, touch]
  by_cases hmem : pageOf cfg addr ∈ pages
  · have hcount : (pages.erase (pageOf cfg addr)).length + 1 = pages.length := by
      have hpos := List.length_pos_of_mem hmem
      rw [List.length_erase_of_mem hmem]
      omega
    rw [if_pos ((find?_cacheOf hpages).mpr hmem), if_pos (hpages _ hmem).1, if_pos hmem,
      eraseP_cacheOf hpages hmem, cacheOf, List.length_cons, hcount]
    rfl
  · rw [if_neg fun hfind => hmem ((find?_cacheOf hpages).mp hfind), if_neg hmem]
    by_cases hzero : pageValue cfg m (pageOf cfg addr) = 0
    · rw [if_pos hzero, if_neg (not_not_intro hzero)]
    · rw [if_neg hzero, if_pos hzero, cacheOf, cacheOf, ← List.cons_append, ← List.map_cons,
        List.take_append, List.map_take, List.length_map, List.take_replicate, List.length_take,
        List.length_cons]
      congr 2
      omega

end recency

theorem Current.run_lookups {pages addrs : List Word} (h : Current cfg t m)
    (hcache : m.cache t = cacheOf cfg m pages) (hpages : ∀ q ∈ pages, Cacheable cfg m q)
    (hlen : pages.length ≤ kSize)
    (hlow : ∀ a ∈ addrs, a.toNat < 2 ^ 64 - 2 ^ cfg.platform.pageShift) :
    (runCached cfg t pick m (addrs.map .lookup)).cache t = cacheOf cfg m
      (((addrs.map (pageOf cfg)).filter fun p => decide (pageValue cfg m p ≠ 0)).foldl
        (touch kSize) pages) := by
  induction addrs generalizing m pages with
  | nil => exact hcache
  | cons a addrs ih =>
    obtain ⟨ha, hlow⟩ := List.forall_mem_cons.mp hlow
    have hstep : ((CacheCall.body cfg (.lookup a)).eval (exec t) pick m).2 =
        m.setCache t (entriesAfter cfg m a (m.cache t)) := by
      simp only [CacheCall.body, bind_eq, eval_bind, pure_eq, eval_ret, eval_lookupImpl h.size,
        h.eval_lookup]
    have hnext := h.afterLookup a
    rw [hcache, entriesAfter_cacheOf hpages hlen] at hstep hnext
    rw [List.map_cons, List.map_cons, runCached, List.foldl_cons, hstep]
    by_cases hmapped : pageValue cfg m (pageOf cfg a) ≠ 0
    · rw [if_pos hmapped] at hnext ⊢
      rw [List.filter_cons_of_pos (by simpa using hmapped), List.foldl_cons]
      refine ih hnext Memory.setCache_cache_self (fun q hq => ?_) (length_touch_le hlen) hlow
      rcases mem_of_mem_touch hq with rfl | hq
      · exact ⟨hmapped, a, ha, rfl⟩
      · exact hpages q hq
    · rw [if_neg hmapped] at hnext ⊢
      rw [List.filter_cons_of_neg (by simpa using hmapped)]
      exact ih hnext Memory.setCache_cache_self hpages hlen hlow

theorem runCached_append (calls calls' : List CacheCall) :
    runCached cfg t pick m (calls ++ calls') =
      runCached cfg t pick (runCached cfg t pick m calls) calls' :=
  List.foldl_append

/-- Between two updates the cache is a list of the pages used last: after an
    invalidation and any lookups below the last page it holds the entries of the
    mapped pages that have been looked up, most recent first and at most 16 of them,
    and empty entries behind. -/
theorem cache_is_lru (t : T) (pick : Memory T → Word) (calls : List CacheCall) {addrs : List Word}
    (hlow : ∀ a ∈ addrs, a.toNat < 2 ^ 64 - 2 ^ cfg.platform.pageShift) :
    let m := runCached cfg t pick (initialMemory T cfg) (calls ++ [.invalidateCache])
    let pages := recent
      ((addrs.map (pageOf cfg)).filter fun p => decide (pageValue cfg m p ≠ 0))
    (runCached cfg t pick m (addrs.map .lookup)).cache t =
        (pages.take kSize).map (cacheEntry cfg m) ++
          List.replicate (kSize - pages.length) ({} : TlsEntry) ∧
      pages.Nodup ∧ ∀ p ∈ pages, cacheEntry cfg m p ≠ {} := by
  intro m pages
  have hcurrent : Current cfg t m := (current_empty tree_initial rfl).run _
  have hempty : m.cache t = cacheOf cfg m [] := by
    show (runCached cfg t pick (initialMemory T cfg) (calls ++ [.invalidateCache])).cache t = _
    rw [runCached_append]
    exact Memory.setCache_cache_self
  refine ⟨?_, nodup_recent, fun p hp heq => ?_⟩
  · rw [hcurrent.run_lookups hempty (fun q hq => nomatch hq) (Nat.zero_le _) hlow, foldl_touch]
    show (pages.take kSize).map _ ++ List.replicate (kSize - (pages.take kSize).length) _ = _
    have hcount : kSize - min kSize pages.length = kSize - pages.length := by omega
    rw [List.length_take, hcount]
  · have hmapped := (List.mem_filter.mp (mem_recent.mp hp)).2
    have hseg : pageValue cfg m p = 0 := congrArg TlsEntry.seg heq
    simp [hseg] at hmapped

/-- Nodes of 65536 slots, and no level above the leaves. -/
def oneLevel : Config :=
  { defaultConfig with
    stride := 16
    levels := 1
    levels_pos := by decide
    stride_pos := by decide
    stride_le := by decide }

/-- The pages 256 to 272, one more than there is room for, then page 259 again and
    one that is not mapped. -/
def seventeenPages : List Word :=
  (List.range 17).map (fun k => BitVec.ofNat 64 (0x100000 + 0x1000 * k)) ++ [0x103800, 0x200000]

theorem cache_is_lru_seventeen :
    ((runCached oneLevel () (firstFree [])
        (runCached oneLevel () (firstFree []) (initialMemory Unit oneLevel)
          ([.range (.insertRange 0x100000 0x11000 0x10)] ++ [.invalidateCache]))
        (seventeenPages.map .lookup)).cache ()).map TlsEntry.base =
      [0x103000, 0x110000, 0x10f000, 0x10e000, 0x10d000, 0x10c000, 0x10b000, 0x10a000, 0x109000,
        0x108000, 0x107000, 0x106000, 0x105000, 0x104000, 0x102000, 0x101000] := by
  have hlow : ∀ a ∈ seventeenPages, a.toNat < 2 ^ 64 - 2 ^ oneLevel.platform.pageShift := by
    have hall : seventeenPages.all
        (·.toNat < 2 ^ 64 - 2 ^ oneLevel.platform.pageShift) = true := by decide +kernel
    exact fun a ha => of_decide_eq_true (List.all_eq_true.mp hall a ha)
  rw [(cache_is_lru () (firstFree []) _ hlow).1]
  decide +kernel

end Memnon.Trie
