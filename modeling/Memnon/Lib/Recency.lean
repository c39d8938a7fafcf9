import Mathlib.Data.List.Basic
import Mathlib.Data.List.Nodup
import Mathlib.Data.List.Induction

/-!
# Recency

Arrays of fixed size that are kept in order of recency by shifting their entries
in place, and what a bounded list of keys holds that is kept so: the most
recently used keys, each once, the last one first.
-/

namespace Memnon.Lib

section shifts

variable {A : Type} {d : A} {as : List A} {i n : Nat}

/-- `for (j = i; j > 0; --j) as[j] = as[j - 1]`. -/
def shiftDown (d : A) : List A → Nat → List A
  | as, 0 => as
  | as, j + 1 => shiftDown d (as.set (j + 1) (as.getD j d)) j

/-- `for (j = i; j < i + n; ++j) as[j] = as[j + 1]`. -/
def shiftUp (d : A) : List A → Nat → Nat → List A
  | as, _, 0 => as
  | as, j, n + 1 => shiftUp d (as.set j (as.getD (j + 1) d)) (j + 1) n

theorem length_shiftDown : (shiftDown d as i).length = as.length := by
  induction i generalizing as with
  | zero => rfl
  | succ i ih => rw [shiftDown, ih, List.length_set]

theorem length_shiftUp : (shiftUp d as i n).length = as.length := by
  induction n generalizing as i with
  | zero => rfl
  | succ n ih => rw [shiftUp, ih, List.length_set]

theorem getElem?_shiftDown (hi : i < as.length) (k : Nat) :
    (shiftDown d as i)[k]? = if 0 < k ∧ k ≤ i then as[k - 1]? else as[k]? := by
  induction i generalizing as with
  | zero => rw [shiftDown, if_neg (by omega)]
  | succ i ih =>
    rw [shiftDown, ih (by rw [List.length_set]; omega)]
    by_cases hk : 0 < k ∧ k ≤ i
    · rw [if_pos hk, if_pos (by omega), List.getElem?_set_ne (by omega)]
    · rw [if_neg hk]
      by_cases hlast : k = i + 1
      · subst hlast
        rw [if_pos (by omega), List.getElem?_set_self hi, Nat.add_sub_cancel,
          List.getD_eq_getElem?_getD, List.getElem?_eq_getElem (by omega), Option.getD_some]
      · rw [if_neg (by omega), List.getElem?_set_ne (Ne.symm hlast)]

theorem getElem?_shiftUp (hlen : i + n < as.length) (k : Nat) :
    (shiftUp d as i n)[k]? = if i ≤ k ∧ k < i + n then as[k + 1]? else as[k]? := by
  induction n generalizing as i with
  | zero => rw [shiftUp, if_neg (by omega)]
  | succ n ih =>
    rw [shiftUp, ih (by rw [List.length_set]; omega)]
    by_cases hk : i + 1 ≤ k ∧ k < i + 1 + n
    · rw [if_pos hk, if_pos (by omega), List.getElem?_set_ne (by omega)]
    · rw [if_neg hk]
      by_cases hfirst : k = i
      · subst hfirst
        rw [if_pos (by omega), List.getElem?_set_self (by omega), List.getD_eq_getElem?_getD,
          List.getElem?_eq_getElem (by omega), Option.getD_some]
      · rw [if_neg (by omega), List.getElem?_set_ne (Ne.symm hfirst)]

/-- Moving an entry to the front. -/
theorem set_shiftDown_self (hi : i < as.length) :
    (shiftDown d as i).set 0 (as.getD i d) = as[i] :: as.eraseIdx i := by
  apply List.ext_getElem?
  intro k
  cases k with
  | zero =>
    rw [List.getElem?_set_self (by rw [length_shiftDown]; omega), List.getD_eq_getElem?_getD,
      List.getElem?_eq_getElem hi]
    rfl
  | succ k =>
    rw [List.getElem?_set_ne (by omega), getElem?_shiftDown hi, List.getElem?_cons_succ,
      List.getElem?_eraseIdx]
    by_cases hk : k < i
    · rw [if_pos (by omega), if_pos hk, Nat.add_sub_cancel]
    · rw [if_neg (by omega), if_neg hk]

/-- Adding an entry at the front, the last one being dropped. -/
theorem set_shiftDown_last (hlen : as.length = n + 1) (a : A) :
    (shiftDown d as n).set 0 a = (a :: as).take (n + 1) := by
  apply List.ext_getElem?
  intro k
  cases k with
  | zero =>
    rw [List.getElem?_set_self (by rw [length_shiftDown]; omega)]
    rfl
  | succ k =>
    rw [List.getElem?_set_ne (by omega), getElem?_shiftDown (by omega), List.getElem?_take,
      List.getElem?_cons_succ, Nat.add_sub_cancel]
    by_cases hk : k < n
    · rw [if_pos (by omega), if_pos (by omega)]
    · rw [if_neg (by omega), if_neg (by omega), List.getElem?_eq_none (by omega)]

/-- Taking an entry out, with `a` as the new last one. -/
theorem set_shiftUp (hlen : as.length = n + 1) (hi : i ≤ n) (a : A) :
    (shiftUp d as i (n - i)).set n a = as.eraseIdx i ++ [a] := by
  have hlength : (as.eraseIdx i).length = n := by
    rw [List.length_eraseIdx, if_pos (by omega), hlen, Nat.add_sub_cancel]
  apply List.ext_getElem?
  intro k
  by_cases hlast : k = n
  · subst hlast
    rw [List.getElem?_set_self (by rw [length_shiftUp]; omega),
      List.getElem?_append_right (by omega), hlength, Nat.sub_self]
    rfl
  · rw [List.getElem?_set_ne (Ne.symm hlast), getElem?_shiftUp (by omega), List.getElem?_append,
      List.getElem?_eraseIdx]
    by_cases hk : k < n
    · rw [if_pos (by omega : k < (as.eraseIdx i).length)]
      by_cases hki : k < i
      · rw [if_neg (by omega), if_pos hki]
      · rw [if_pos (by omega), if_neg hki]
    · rw [if_neg (by omega), if_neg (by omega : ¬ k < (as.eraseIdx i).length),
        List.getElem?_eq_none (by omega), List.getElem?_eq_none]
      rw [List.length_singleton]
      omega

theorem eraseP_congr {p q : A → Bool} (h : ∀ a ∈ as, p a = q a) :
    as.eraseP p = as.eraseP q := by
  induction as with
  | nil => rfl
  | cons a as ih =>
    obtain ⟨ha, has⟩ := List.forall_mem_cons.mp h
    rw [List.eraseP_cons, List.eraseP_cons, ha, ih has]

end shifts

section keys

variable {K : Type} [DecidableEq K] {x : K} {xs keys : List K} {n : Nat}

/-- One use of the key `x` with room for `n` keys. -/
def touch (n : Nat) (keys : List K) (x : K) : List K :=
  if x ∈ keys then x :: keys.erase x else (x :: keys).take n

theorem mem_of_mem_touch {y : K} (h : y ∈ touch n keys x) : y = x ∨ y ∈ keys := by
  rw [touch] at h
  split at h
  · exact (List.mem_cons.mp h).imp_right List.mem_of_mem_erase
  · exact List.mem_cons.mp (List.mem_of_mem_take h)

theorem length_touch_le (h : keys.length ≤ n) : (touch n keys x).length ≤ n := by
  rw [touch]
  split
  · rename_i hx
    have hpos := List.length_pos_of_mem hx
    rw [List.length_cons, List.length_erase_of_mem hx]
    omega
  · exact List.length_take_le _ _

/-- The distinct keys of a sequence of uses, the last one first. -/
def recent (xs : List K) : List K := xs.reverse.eraseDups

theorem filter_eraseDups (p : K → Bool) (l : List K) :
    (l.filter p).eraseDups = l.eraseDups.filter p := by
  induction hn : l.length using Nat.strongRecOn generalizing l with
  | ind n ih =>
    cases l with
    | nil => rfl
    | cons a l =>
      have hshort : (l.filter fun b => !b == a).length < n := by
        rw [← hn]
        exact Nat.lt_succ_of_le (List.length_filter_le _ _)
      have hrest := ih _ hshort (l.filter fun b => !b == a) rfl
      have hcomm : (l.filter p).filter (fun b => !b == a) =
          (l.filter fun b => !b == a).filter p := by
        rw [List.filter_filter, List.filter_filter]
        exact List.filter_congr fun b _ => Bool.and_comm _ _
      rw [List.eraseDups_cons]
      cases hp : p a with
      | true =>
        rw [List.filter_cons_of_pos hp, List.filter_cons_of_pos hp, List.eraseDups_cons, hcomm,
          hrest]
      | false =>
        have hp' : ¬ p a = true := by rw [hp]; exact Bool.false_ne_true
        have hout : l.filter p = (l.filter p).filter fun b => !b == a := by
          symm
          apply List.filter_eq_self.mpr
          intro b hb
          have hne : b ≠ a := by
            rintro rfl
            exact hp' (List.mem_filter.mp hb).2
          simpa using hne
        rw [List.filter_cons_of_neg hp', List.filter_cons_of_neg hp', hout, hcomm, hrest]

theorem recent_concat : recent (xs ++ [x]) = x :: (recent xs).filter fun y => !y == x := by
  rw [recent, recent, List.reverse_concat, List.eraseDups_cons, filter_eraseDups]

theorem mem_recent : x ∈ recent xs ↔ x ∈ xs := by
  rw [recent, List.mem_eraseDups, List.mem_reverse]

theorem nodup_recent : (recent xs).Nodup := by
  induction xs using List.reverseRecOn with
  | nil => exact List.nodup_nil
  | append_singleton xs x ih =>
    rw [recent_concat, List.nodup_cons]
    refine ⟨?_, ih.filter _⟩
    simp

/-- Taking a key out of a front part in which it is makes that part one shorter. -/
theorem take_succ_erase (hkeys : keys.Nodup) (hx : x ∈ keys.take (n + 1)) :
    (keys.take (n + 1)).erase x = (keys.filter fun y => !y == x).take n := by
  induction keys generalizing n with
  | nil => cases hx
  | cons y keys ih =>
    obtain ⟨hy, hkeys⟩ := List.nodup_cons.mp hkeys
    rw [List.take_succ_cons] at hx ⊢
    by_cases hyx : y = x
    · subst hyx
      have hout : keys.filter (fun z => !z == y) = keys := by
        rw [List.filter_eq_self]
        rintro z hz
        have hne : z ≠ y := fun heq => hy (heq ▸ hz)
        simpa using hne
      rw [List.erase_cons_head, List.filter_cons_of_neg (by simp), hout]
    · have hx' : x ∈ keys.take n := (List.mem_cons.mp hx).resolve_left (Ne.symm hyx)
      cases n with
      | zero => cases hx'
      | succ n =>
        rw [List.erase_cons_tail (by simpa using hyx), ih hkeys hx',
          List.filter_cons_of_pos (by simpa using hyx), List.take_succ_cons]

/-- A key that is not in a front part may be taken out of what is behind it. -/
theorem take_filter_of_notMem (hx : x ∉ keys.take n) :
    (keys.filter fun y => !y == x).take n = keys.take n := by
  induction keys generalizing n with
  | nil => rfl
  | cons y keys ih =>
    cases n with
    | zero => rfl
    | succ n =>
      rw [List.take_succ_cons, List.mem_cons, not_or] at hx
      have hyx : y ≠ x := Ne.symm hx.1
      rw [List.filter_cons_of_pos (by simpa using hyx), List.take_succ_cons, List.take_succ_cons,
        ih hx.2]

theorem touch_take (hkeys : keys.Nodup) :
    touch n (keys.take n) x = (x :: keys.filter fun y => !y == x).take n := by
  rw [touch]
  split
  · rename_i hx
    cases n with
    | zero => cases hx
    | succ n => rw [take_succ_erase hkeys hx, List.take_succ_cons]
  · rename_i hx
    cases n with
    | zero => rfl
    | succ n =>
      rw [List.take_succ_cons, List.take_succ_cons, List.take_take, Nat.min_eq_left (Nat.le_succ n)]
      have hx' : x ∉ keys.take n := fun h => hx ((List.take_subset_take_left _ (Nat.le_succ n)) h)
      rw [take_filter_of_notMem hx']

/-- A list with room for `n` keys holds the `n` most recent ones. -/
theorem foldl_touch (n : Nat) (xs : List K) : xs.foldl (touch n) [] = (recent xs).take n := by
  induction xs using List.reverseRecOn with
  | nil =>
    rw [recent]
    exact List.take_nil.symm
  | append_singleton xs x ih =>
    rw [List.foldl_append, ih, List.foldl_cons, List.foldl_nil, touch_take nodup_recent,
      recent_concat]

end keys

end Memnon.Lib
