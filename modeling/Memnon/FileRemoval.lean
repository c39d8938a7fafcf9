import Memnon.Lib.TransitionSystem
import Mathlib.Tactic.Common
import Mathlib.Data.Fintype.Basic

/-!
# Who removes which file

A creator makes its file at the path of the root name. Its `sub_segment` keeps the
name in a buffer of `kShmNameMax` bytes, and on destruction unlinks the path of what
is in there. Any number of managers are created, opened and destroyed, in any
processes; a creation begins with unlinking what its own path leads to.
-/

namespace Memnon.FileRemoval

open Memnon.Lib

/-! ## 1. Names and paths -/

/-- A C string, up to its terminating null. -/
abbrev CString := List Char

def kShmNameMax : Nat := 128

/-- `c_str()` as the C library reads it. -/
def cStr (s : List Char) : CString := s.takeWhile (· ≠ Char.ofNat 0)

/-- `strchr(name, '/')`, as an index. -/
def firstSlash (name : CString) : Option Nat := name.findIdx? (· = '/')

def isCustomPath (name : CString) : Bool :=
  match firstSlash name with
  | none => false
  | some i => decide (i ≠ 0) || (firstSlash (name.drop (i + 1))).isSome

/-- The systems that `get_platform_shm_path` tells apart. -/
inductive System where
  | apple
  | other
deriving DecidableEq

def System.shmDirectory : System → CString
  | .apple => ['/', 't', 'm', 'p', '/', 'm', 'e', 'm', 'n', 'o', 'n', '_', 's', 'h', 'm', '_']
  | .other => ['/', 'd', 'e', 'v', '/', 's', 'h', 'm', '/']

def getPlatformShmPath (sys : System) (name : CString) : CString :=
  if isCustomPath name then name
  else sys.shmDirectory ++ (if name.head? = some '/' then name.tail else name)

/-- `strncpy(seg->shm_name, name, kShmNameMax - 1)` into a zeroed buffer. -/
def shmName (name : CString) : CString := name.take (kShmNameMax - 1)

/-- The path that `shm_destroy` unlinks, given the buffer. -/
def destroyedPath (sys : System) (buffer : CString) : Option CString :=
  if buffer = [] then none else some (getPlatformShmPath sys buffer)

section names

variable {sys : System} {name : CString}

/-- A path is custom when it has a slash behind its first character. -/
theorem isCustomPath_iff : isCustomPath name = true ↔ '/' ∈ name.tail := by
  cases name with
  | nil => simp [isCustomPath, firstSlash]
  | cons c rest =>
    have hsome : ∀ l : CString, (firstSlash l).isSome = true ↔ '/' ∈ l := by
      intro l
      simp [firstSlash]
    by_cases hc : c = '/'
    · simp [isCustomPath, firstSlash, List.findIdx?_cons, hc]
    · simp only [isCustomPath, List.tail_cons, ← hsome rest]
      simp only [firstSlash, List.findIdx?_cons, hc, decide_false]
      cases List.findIdx? (fun x => decide (x = '/')) rest <;> simp

theorem isCustomPath_directory (rest : CString) :
    isCustomPath (sys.shmDirectory ++ rest) = true := by
  rw [isCustomPath_iff]
  cases sys <;> simp [System.shmDirectory]

theorem isCustomPath_of_take {n : Nat} (h : isCustomPath (name.take n) = true) :
    isCustomPath name = true := by
  rw [isCustomPath_iff] at h ⊢
  cases n with
  | zero => cases h
  | succ n =>
    cases name with
    | nil => cases h
    | cons c rest => exact List.mem_of_mem_take h

theorem directory_length : sys.shmDirectory.length ≤ kShmNameMax - 1 := by
  cases sys <;> decide

/-- A name that does not fit into the buffer has another path when it is cut. -/
theorem shmName_path_ne (hlong : kShmNameMax ≤ name.length) :
    getPlatformShmPath sys (shmName name) ≠ getPlatformShmPath sys name := by
  have hcut : (shmName name).length < name.length := by
    rw [shmName, List.length_take]
    simp only [kShmNameMax] at hlong ⊢
    omega
  intro hsame
  unfold getPlatformShmPath at hsame
  by_cases hcustom : isCustomPath name = true
  · rw [if_pos hcustom] at hsame
    by_cases hcustom' : isCustomPath (shmName name) = true
    · rw [if_pos hcustom'] at hsame
      rw [hsame] at hcut
      exact absurd hcut (Nat.lt_irrefl _)
    · -- the name would begin with the directory, and so would what is left of it
      rw [if_neg hcustom'] at hsame
      apply hcustom'
      rw [shmName, ← hsame, List.take_append, List.take_of_length_le directory_length]
      exact isCustomPath_directory _
  · rw [if_neg hcustom] at hsame
    have hcustom' : ¬ isCustomPath (shmName name) = true :=
      fun h => hcustom (isCustomPath_of_take h)
    rw [if_neg hcustom', List.append_cancel_left_eq] at hsame
    have hhead : (shmName name).head? = name.head? := by
      cases name with
      | nil => rfl
      | cons c rest => rfl
    have hlength := congrArg List.length hsame
    rw [hhead] at hlength
    split at hlength
    · rw [List.length_tail, List.length_tail] at hlength
      simp only [kShmNameMax] at hlong
      omega
    · omega

/-- When the path that a creator unlinks is the one at which it has created its file. -/
theorem destroyedPath_shmName_iff :
    destroyedPath sys (shmName name) = some (getPlatformShmPath sys name) ↔
      name ≠ [] ∧ name.length < kShmNameMax := by
  constructor
  · intro h
    constructor
    · rintro rfl
      cases h
    · by_contra hlong
      unfold destroyedPath at h
      split at h
      · cases h
      · exact shmName_path_ne (Nat.le_of_not_lt hlong) (Option.some.inj h)
  · rintro ⟨hne, hlt⟩
    have hfits : shmName name = name := List.take_of_length_le (Nat.le_pred_of_lt hlt)
    rw [hfits, destroyedPath, if_neg hne]

end names

/-! ## 2. Managers and their files -/

/-- Segment 0 of a creator: the buffer, the path at which `shm_create` has made the
    file, and the number of that file. -/
structure Created where
  buffer : CString
  path : CString
  file : Nat
deriving DecidableEq

/-- A manager. All segments but segment 0 of a creator have `is_creator = false`, and
    unlink nothing. -/
inductive Attached where
  | creator (c : Created)
  | opener
deriving DecidableEq

/-- The directory entries, with the number of the file that each one refers to, and the
    number of files made so far. -/
structure World (K E : Type) where
  entry : E → Option Nat
  made : Nat
  manager : K → Option Attached

/-- Which system calls of `shm_create` succeed, as far as the state allows. -/
structure Outcomes where
  unlinkStale : Bool
  openExclusive : Bool
  truncate : Bool
  map : Bool
deriving DecidableEq

inductive Event (K : Type) where
  | create (k : K) (rootName : List Char) (outcomes : Outcomes)
  | attach (k : K) (rootName : List Char)
  | destroy (k : K)
deriving DecidableEq

variable {K E : Type} [DecidableEq K] [DecidableEq E] (sys : System) (resolve : K → CString → E)

namespace World

variable (w : World K E)

def setManager (k : K) (a : Option Attached) : World K E :=
  { w with manager := Function.update w.manager k a }

/-- `platform_shm_unlink`. -/
def unlink (e : E) : World K E := { w with entry := Function.update w.entry e none }

/-- The beginning of `shm_create`. -/
def unlinkStale (k : K) (path : CString) (outcomes : Outcomes) : World K E :=
  if outcomes.unlinkStale then w.unlink (resolve k path) else w

/-- `open` with `O_CREAT | O_EXCL` succeeds: a path that ends with a slash names no
    file, and the entry has to be free. -/
def Opens (k : K) (path : CString) (outcomes : Outcomes) : Prop :=
  outcomes.openExclusive = true ∧ path.getLast? ≠ some '/' ∧
    (w.unlinkStale resolve k path outcomes).entry (resolve k path) = none

instance (k : K) (path : CString) (outcomes : Outcomes) :
    Decidable (w.Opens resolve k path outcomes) :=
  inferInstanceAs (Decidable (_ ∧ _ ∧ _))

/-- `create_shm`; a creation that fails after `open` unlinks the path again. -/
def create (k : K) (name : CString) (outcomes : Outcomes) : World K E :=
  let path := getPlatformShmPath sys name
  let w₁ := w.unlinkStale resolve k path outcomes
  if w.Opens resolve k path outcomes then
    let w₂ : World K E :=
      { w₁ with entry := Function.update w₁.entry (resolve k path) (some w.made)
                made := w.made + 1 }
    if outcomes.truncate && outcomes.map then
      w₂.setManager k (some (.creator ⟨shmName name, path, w.made⟩))
    else w₂.unlink (resolve k path)
  else w₁

/-- `~sub_segment` of segment 0. -/
def destroy (k : K) : Attached → World K E
  | .creator c =>
      match destroyedPath sys c.buffer with
      | some path => (w.unlink (resolve k path)).setManager k none
      | none => w.setManager k none
  | .opener => w.setManager k none

end World

/-- One operation. `resolve` gives the directory entry to which a path leads in the
    process of a manager. -/
def step (w : World K E) : Event K → Option (World K E)
  | .create k rootName outcomes =>
      match w.manager k with
      | some _ => none
      | none => some (w.create sys resolve k (cStr rootName) outcomes)
  | .attach k _ =>
      match w.manager k with
      | some _ => none
      | none => some (w.setManager k (some .opener))
  | .destroy k => (w.manager k).map (w.destroy sys resolve k)

/-- Every creator that is destroyed now unlinks the path at which it made its file, and
    that entry still refers to that file. -/
def RemoveOwn (w : World K E) : Prop :=
  ∀ k c, w.manager k = some (.creator c) →
    destroyedPath sys c.buffer = some c.path ∧ w.entry (resolve k c.path) = some c.file

/-- No live creator's file is unlinked, and a name under which a file comes about is
    not empty and fits into the buffer. -/
def Event.KeepsApart (w : World K E) : Event K → Prop
  | .create k rootName outcomes =>
      (outcomes.unlinkStale = true → ∀ k' c, w.manager k' = some (.creator c) →
        resolve k (getPlatformShmPath sys (cStr rootName)) ≠ resolve k' c.path) ∧
      (w.Opens resolve k (getPlatformShmPath sys (cStr rootName)) outcomes →
        outcomes.truncate = true → outcomes.map = true →
        cStr rootName ≠ [] ∧ (cStr rootName).length < kShmNameMax)
  | .attach _ _ | .destroy _ => True

/-- What is asked of the manager, if it is a creator. -/
def decidableCreator (p : Created → Prop) [DecidablePred p] :
    (a : Option Attached) → Decidable (∀ c, a = some (.creator c) → p c)
  | some (.creator c) => decidable_of_iff (p c)
      ⟨fun h _ hc => Attached.creator.inj (Option.some.inj hc) ▸ h, fun h => h c rfl⟩
  | some .opener | none => .isTrue nofun

instance [Fintype K] (w : World K E) : Decidable (RemoveOwn sys resolve w) :=
  haveI (k : K) := decidableCreator
    (fun c => destroyedPath sys c.buffer = some c.path ∧ w.entry (resolve k c.path) = some c.file)
    (w.manager k)
  inferInstanceAs (Decidable (∀ _, _))

instance [Fintype K] (w : World K E) : (ev : Event K) → Decidable (ev.KeepsApart sys resolve w)
  | .create k rootName _ =>
      haveI (k' : K) := decidableCreator
        (fun c => resolve k (getPlatformShmPath sys (cStr rootName)) ≠ resolve k' c.path)
        (w.manager k')
      inferInstanceAs (Decidable (_ ∧ _))
  | .attach _ _ | .destroy _ => .isTrue trivial

/-! ## 3. Steps -/

/-- Every file has a number of its own, and at most one creator. -/
structure Numbered (w : World K E) : Prop where
  entry_lt : ∀ e f, w.entry e = some f → f < w.made
  file_lt : ∀ k c, w.manager k = some (.creator c) → c.file < w.made
  file_inj : ∀ k k' c c', w.manager k = some (.creator c) → w.manager k' = some (.creator c') →
    c.file = c'.file → k = k'

section steps

variable {sys : System} {resolve : K → CString → E} {w w' : World K E} {k k' : K} {c c' : Created}
  {name : CString} {outcomes : Outcomes} {a : Option Attached} {e e' : E} {ev : Event K}

omit [DecidableEq E] in
@[simp] theorem setManager_manager_self : (w.setManager k a).manager k = a :=
  Function.update_self ..

omit [DecidableEq E] in
theorem setManager_manager_of_ne (hne : k' ≠ k) :
    (w.setManager k a).manager k' = w.manager k' := Function.update_of_ne hne _ _

omit [DecidableEq K] in
@[simp] theorem unlink_entry_self : (w.unlink e).entry e = none := Function.update_self ..

omit [DecidableEq K] in
theorem unlink_entry_of_ne (hne : e' ≠ e) : (w.unlink e).entry e' = w.entry e' :=
  Function.update_of_ne hne _ _

omit [DecidableEq K] in
theorem unlinkStale_manager :
    (w.unlinkStale resolve k name outcomes).manager = w.manager := by
  unfold World.unlinkStale
  split <;> rfl

omit [DecidableEq K] in
theorem unlinkStale_made : (w.unlinkStale resolve k name outcomes).made = w.made := by
  unfold World.unlinkStale
  split <;> rfl

omit [DecidableEq K] in
theorem unlinkStale_entry_of_ne (hne : e ≠ resolve k name) :
    (w.unlinkStale resolve k name outcomes).entry e = w.entry e := by
  unfold World.unlinkStale
  split
  · exact unlink_entry_of_ne hne
  · rfl

omit [DecidableEq K] [DecidableEq E] in
theorem Numbered.congr (h : Numbered w) (hentry : ∀ e f, w'.entry e = some f → w.entry e = some f)
    (hmade : w.made ≤ w'.made) (hmanager : w'.manager = w.manager) : Numbered w' := by
  constructor
  · intro e f hf
    exact Nat.lt_of_lt_of_le (h.entry_lt e f (hentry e f hf)) hmade
  · intro k c hc
    rw [hmanager] at hc
    exact Nat.lt_of_lt_of_le (h.file_lt k c hc) hmade
  · rw [hmanager]
    exact h.file_inj

omit [DecidableEq K] in
theorem Numbered.unlink (h : Numbered w) (e : E) : Numbered (w.unlink e) := by
  refine h.congr (fun e' f hf => ?_) (Nat.le_refl _) rfl
  by_cases he : e' = e
  · subst he
    rw [unlink_entry_self] at hf
    cases hf
  · rwa [unlink_entry_of_ne he] at hf

omit [DecidableEq K] in
theorem Numbered.unlinkStale (h : Numbered w) :
    Numbered (w.unlinkStale resolve k name outcomes) := by
  unfold World.unlinkStale
  split
  · exact h.unlink _
  · exact h

omit [DecidableEq E] in
/-- A manager that has made no file comes or goes. -/
theorem Numbered.setManager (h : Numbered w) (ha : ∀ c, a ≠ some (.creator c)) :
    Numbered (w.setManager k a) := by
  have hold : ∀ k' c, (w.setManager k a).manager k' = some (.creator c) →
      w.manager k' = some (.creator c) := by
    intro k' c hc
    by_cases hk : k' = k
    · subst hk
      rw [setManager_manager_self] at hc
      exact absurd hc (ha c)
    · rwa [setManager_manager_of_ne hk] at hc
  constructor
  · exact h.entry_lt
  · intro k' c hc
    exact h.file_lt k' c (hold k' c hc)
  · intro k₁ k₂ c₁ c₂ h₁ h₂
    exact h.file_inj k₁ k₂ c₁ c₂ (hold k₁ c₁ h₁) (hold k₂ c₂ h₂)

/-- The world with one more file, and its creator. -/
def World.withFile (w : World K E) (k : K) (e : E) (buffer path : CString) : World K E :=
  { entry := Function.update w.entry e (some w.made)
    made := w.made + 1
    manager := Function.update w.manager k (some (.creator ⟨buffer, path, w.made⟩)) }

section withFile

variable {buffer path : CString}

@[simp] theorem withFile_entry_self :
    (w.withFile k e buffer path).entry e = some w.made := Function.update_self ..

theorem withFile_entry_of_ne (hne : e' ≠ e) :
    (w.withFile k e buffer path).entry e' = w.entry e' := Function.update_of_ne hne _ _

@[simp] theorem withFile_manager_self :
    (w.withFile k e buffer path).manager k = some (.creator ⟨buffer, path, w.made⟩) :=
  Function.update_self ..

theorem withFile_manager_of_ne (hne : k' ≠ k) :
    (w.withFile k e buffer path).manager k' = w.manager k' := Function.update_of_ne hne _ _

end withFile

/-- The three ends of a creation. -/
theorem create_cases (sys : System) (resolve : K → CString → E) (w : World K E) (k : K)
    (name : CString) (outcomes : Outcomes) :
    let path := getPlatformShmPath sys name
    let w₁ := w.unlinkStale resolve k path outcomes
    (¬ w.Opens resolve k path outcomes ∧ w.create sys resolve k name outcomes = w₁) ∨
    (w.Opens resolve k path outcomes ∧ ¬ (outcomes.truncate = true ∧ outcomes.map = true) ∧
      w.create sys resolve k name outcomes =
        { w₁.unlink (resolve k path) with made := w₁.made + 1 }) ∨
    (w.Opens resolve k path outcomes ∧ outcomes.truncate = true ∧ outcomes.map = true ∧
      w.create sys resolve k name outcomes =
        w₁.withFile k (resolve k path) (shmName name) path) := by
  intro path w₁
  by_cases hopens : w.Opens resolve k path outcomes
  · right
    by_cases hrest : outcomes.truncate = true ∧ outcomes.map = true
    · right
      refine ⟨hopens, hrest.1, hrest.2, ?_⟩
      simp only [World.create, path, w₁] at hopens ⊢
      rw [if_pos hopens, hrest.1, hrest.2]
      simp [World.withFile, World.setManager, unlinkStale_made]
    · left
      refine ⟨hopens, hrest, ?_⟩
      simp only [World.create, path, w₁] at hopens ⊢
      rw [if_pos hopens, if_neg (by simpa using hrest)]
      simp only [World.unlink, Function.update_idem, unlinkStale_made]
  · left
    exact ⟨hopens, if_neg hopens⟩

theorem Numbered.withFile (h : Numbered w) (buffer path : CString) :
    Numbered (w.withFile k e buffer path) := by
  have hold : ∀ k' c, k' ≠ k → (w.withFile k e buffer path).manager k' = some (.creator c) →
      w.manager k' = some (.creator c) := by
    intro k' c hk hc
    rwa [withFile_manager_of_ne hk] at hc
  have hnew : ∀ c, (w.withFile k e buffer path).manager k = some (.creator c) →
      c.file = w.made := by
    intro c hc
    rw [withFile_manager_self] at hc
    cases hc
    rfl
  constructor
  · intro e' f hf
    by_cases he : e' = e
    · subst he
      rw [withFile_entry_self] at hf
      cases hf
      exact Nat.lt_succ_self _
    · rw [withFile_entry_of_ne he] at hf
      exact Nat.lt_succ_of_lt (h.entry_lt e' f hf)
  · intro k' c hc
    by_cases hk : k' = k
    · subst hk
      rw [hnew c hc]
      exact Nat.lt_succ_self _
    · exact Nat.lt_succ_of_lt (h.file_lt k' c (hold k' c hk hc))
  · intro k₁ k₂ c₁ c₂ h₁ h₂ hsame
    by_cases hk₁ : k₁ = k
    · by_cases hk₂ : k₂ = k
      · rw [hk₁, hk₂]
      · subst hk₁
        have hlt := h.file_lt k₂ c₂ (hold k₂ c₂ hk₂ h₂)
        rw [hnew c₁ h₁] at hsame
        omega
    · by_cases hk₂ : k₂ = k
      · subst hk₂
        have hlt := h.file_lt k₁ c₁ (hold k₁ c₁ hk₁ h₁)
        rw [hnew c₂ h₂] at hsame
        omega
      · exact h.file_inj k₁ k₂ c₁ c₂ (hold k₁ c₁ hk₁ h₁) (hold k₂ c₂ hk₂ h₂) hsame

theorem Numbered.create (h : Numbered w) : Numbered (w.create sys resolve k name outcomes) := by
  rcases create_cases sys resolve w k name outcomes with
    ⟨-, hend⟩ | ⟨-, -, hend⟩ | ⟨-, -, -, hend⟩
  · rw [hend]
    exact h.unlinkStale
  · rw [hend]
    exact (h.unlinkStale.unlink _).congr (fun _ _ => id) (Nat.le_succ _) rfl
  · rw [hend]
    exact h.unlinkStale.withFile _ _

theorem Numbered.destroy (h : Numbered w) (a : Attached) :
    Numbered (w.destroy sys resolve k a) := by
  cases a with
  | creator c =>
    simp only [World.destroy]
    split
    · exact (h.unlink _).setManager nofun
    · exact h.setManager nofun
  | opener => exact h.setManager nofun

theorem Numbered.step (h : Numbered w) (hs : step sys resolve w ev = some w') : Numbered w' := by
  cases ev with
  | create k rootName outcomes =>
    simp only [FileRemoval.step] at hs
    split at hs
    · cases hs
    · cases hs
      exact h.create
  | attach k rootName =>
    simp only [FileRemoval.step] at hs
    split at hs
    · cases hs
    · cases hs
      exact h.setManager nofun
  | destroy k =>
    obtain ⟨a, -, rfl⟩ := Option.map_eq_some_iff.mp hs
    exact h.destroy a

/-! ## 4. What a step does to the files of the others -/

omit [DecidableEq K] [DecidableEq E] in
/-- Creators that are left keep their entries. -/
theorem RemoveOwn.keep (h : RemoveOwn sys resolve w)
    (hmanager : ∀ k c, w'.manager k = some (.creator c) → w.manager k = some (.creator c))
    (hentry : ∀ k c, w'.manager k = some (.creator c) →
      w'.entry (resolve k c.path) = w.entry (resolve k c.path)) :
    RemoveOwn sys resolve w' := by
  intro k c hc
  obtain ⟨hpath, hfile⟩ := h k c (hmanager k c hc)
  exact ⟨hpath, (hentry k c hc).trans hfile⟩

omit [DecidableEq K] [DecidableEq E] in
/-- Two creators have different entries. -/
theorem RemoveOwn.apart (h : RemoveOwn sys resolve w) (hn : Numbered w)
    (hc : w.manager k = some (.creator c)) (hc' : w.manager k' = some (.creator c'))
    (hne : k ≠ k') : resolve k c.path ≠ resolve k' c'.path := by
  intro hsame
  have hfile := (h k c hc).2
  rw [hsame, (h k' c' hc').2] at hfile
  exact hne (hn.file_inj k k' c c' hc hc' (Option.some.inj hfile).symm)

theorem RemoveOwn.destroy (h : RemoveOwn sys resolve w) (hn : Numbered w)
    {a : Attached} (ha : w.manager k = some a) :
    RemoveOwn sys resolve (w.destroy sys resolve k a) := by
  have hgone : ∀ (w₁ : World K E) k' c, (w₁.setManager k none).manager k' = some (.creator c) →
      k' ≠ k ∧ w₁.manager k' = some (.creator c) := by
    intro w₁ k' c hc
    have hk : k' ≠ k := by
      rintro rfl
      rw [setManager_manager_self] at hc
      cases hc
    rw [setManager_manager_of_ne hk] at hc
    exact ⟨hk, hc⟩
  cases a with
  | creator c =>
    simp only [World.destroy, (h k c ha).1]
    apply h.keep
    · intro k' c' hc'
      exact (hgone _ k' c' hc').2
    · intro k' c' hc'
      obtain ⟨hk, hold⟩ := hgone _ k' c' hc'
      exact unlink_entry_of_ne (h.apart hn hold ha hk)
  | opener =>
    apply h.keep
    · intro k' c' hc'
      exact (hgone _ k' c' hc').2
    · intro k' c' _
      rfl

/-- A creation that keeps apart leaves every live creator its entry. -/
theorem RemoveOwn.create (h : RemoveOwn sys resolve w) (hfree : w.manager k = none)
    (hstale : outcomes.unlinkStale = true → ∀ k' c, w.manager k' = some (.creator c) →
      resolve k (getPlatformShmPath sys name) ≠ resolve k' c.path)
    (hfits : w.Opens resolve k (getPlatformShmPath sys name) outcomes →
      outcomes.truncate = true → outcomes.map = true → name ≠ [] ∧ name.length < kShmNameMax) :
    RemoveOwn sys resolve (w.create sys resolve k name outcomes) := by
  -- where the new file gets its entry, no live creator has one
  have hopens : w.Opens resolve k (getPlatformShmPath sys name) outcomes →
      ∀ k' c, w.manager k' = some (.creator c) →
        resolve k' c.path ≠ resolve k (getPlatformShmPath sys name) := by
    intro hopens k' c hc hsame
    by_cases hunlink : outcomes.unlinkStale = true
    · exact hstale hunlink k' c hc hsame.symm
    · have hentry := hopens.2.2
      rw [World.unlinkStale, if_neg hunlink, ← hsame, (h k' c hc).2] at hentry
      cases hentry
  have hother : ∀ k' c, w.manager k' = some (.creator c) → k' ≠ k := by
    rintro k' c hc rfl
    rw [hfree] at hc
    cases hc
  rcases create_cases sys resolve w k name outcomes with
    ⟨-, hend⟩ | ⟨hopen, -, hend⟩ | ⟨hopen, htruncate, hmap, hend⟩
  · rw [hend]
    apply h.keep
    · intro k' c hc
      rwa [unlinkStale_manager] at hc
    · intro k' c hc
      rw [unlinkStale_manager] at hc
      by_cases hunlink : outcomes.unlinkStale = true
      · exact unlinkStale_entry_of_ne (hstale hunlink k' c hc).symm
      · rw [World.unlinkStale, if_neg hunlink]
  · rw [hend]
    apply h.keep
    · intro k' c hc
      rwa [World.unlink, unlinkStale_manager] at hc
    · intro k' c hc
      rw [World.unlink, unlinkStale_manager] at hc
      have hne := hopens hopen k' c hc
      exact (unlink_entry_of_ne hne).trans (unlinkStale_entry_of_ne hne)
  · rw [hend]
    intro k' c hc
    by_cases hk : k' = k
    · subst hk
      rw [withFile_manager_self] at hc
      cases hc
      exact ⟨destroyedPath_shmName_iff.mpr (hfits hopen htruncate hmap), withFile_entry_self⟩
    · rw [withFile_manager_of_ne hk, unlinkStale_manager] at hc
      have hne := hopens hopen k' c hc
      rw [withFile_entry_of_ne hne, unlinkStale_entry_of_ne hne]
      exact h k' c hc

/-- A creation after which every creator has its file has kept apart. -/
theorem RemoveOwn.of_create (h : RemoveOwn sys resolve (w.create sys resolve k name outcomes))
    (hn : Numbered w) (hfree : w.manager k = none) :
    (outcomes.unlinkStale = true → ∀ k' c, w.manager k' = some (.creator c) →
      resolve k (getPlatformShmPath sys name) ≠ resolve k' c.path) ∧
    (w.Opens resolve k (getPlatformShmPath sys name) outcomes →
      outcomes.truncate = true → outcomes.map = true →
        name ≠ [] ∧ name.length < kShmNameMax) := by
  rcases create_cases sys resolve w k name outcomes with
    ⟨hnot, hend⟩ | ⟨hopen, hfails, hend⟩ | ⟨hopen, -, -, hend⟩
  · rw [hend] at h
    refine ⟨fun hunlink k' c hc hsame => ?_, fun hopen => absurd hopen hnot⟩
    have hfile := (h k' c (by rwa [unlinkStale_manager])).2
    rw [← hsame, World.unlinkStale, if_pos hunlink, unlink_entry_self] at hfile
    cases hfile
  · rw [hend] at h
    refine ⟨fun _ k' c hc hsame => ?_, fun _ htruncate hmap => absurd ⟨htruncate, hmap⟩ hfails⟩
    have hfile := (h k' c (by rwa [World.unlink, unlinkStale_manager])).2
    rw [← hsame] at hfile
    have hnone := unlink_entry_self.symm.trans hfile
    cases hnone
  · rw [hend] at h
    refine ⟨fun _ k' c hc hsame => ?_, fun _ _ _ => ?_⟩
    · have hk : k' ≠ k := by
        rintro rfl
        rw [hfree] at hc
        cases hc
      have hfile := (h k' c (by rwa [withFile_manager_of_ne hk, unlinkStale_manager])).2
      rw [← hsame, withFile_entry_self, unlinkStale_made] at hfile
      have hlt := hn.file_lt k' c hc
      rw [← Option.some.inj hfile] at hlt
      exact absurd hlt (Nat.lt_irrefl _)
    · exact destroyedPath_shmName_iff.mp (h k _ withFile_manager_self).1

/-- A step leaves every creator its file if and only if it keeps apart. -/
theorem RemoveOwn.step_iff (h : RemoveOwn sys resolve w) (hn : Numbered w)
    (hs : step sys resolve w ev = some w') :
    RemoveOwn sys resolve w' ↔ ev.KeepsApart sys resolve w := by
  cases ev with
  | create k rootName outcomes =>
    simp only [step] at hs
    cases hfree : w.manager k with
    | some a =>
      rw [hfree] at hs
      cases hs
    | none =>
      rw [hfree] at hs
      cases hs
      constructor
      · intro h'
        exact h'.of_create hn hfree
      · rintro ⟨hstale, hfits⟩
        exact h.create hfree hstale hfits
  | attach k rootName =>
    simp only [step] at hs
    cases hfree : w.manager k with
    | some a =>
      rw [hfree] at hs
      cases hs
    | none =>
      rw [hfree] at hs
      cases hs
      apply iff_of_true _ trivial
      have hold : ∀ k' c, (w.setManager k (some .opener)).manager k' = some (.creator c) →
          w.manager k' = some (.creator c) := by
        intro k' c hc
        by_cases hk : k' = k
        · subst hk
          rw [setManager_manager_self] at hc
          cases hc
        · rwa [setManager_manager_of_ne hk] at hc
      exact h.keep hold fun _ _ _ => rfl
  | destroy k =>
    obtain ⟨a, ha, rfl⟩ := Option.map_eq_some_iff.mp hs
    exact iff_of_true (h.destroy hn ha) trivial

end steps

/-! ## 5. Runs -/

section runs

variable {sys : System} {resolve : K → CString → E} {w₀ w : World K E}
  {past : List (World K E × Event K)}

/-- Before the first manager; the files of other programs have their numbers. -/
structure Start (w : World K E) : Prop where
  entry_lt : ∀ e f, w.entry e = some f → f < w.made
  manager : ∀ k, w.manager k = none

/-- In every run of creations, openings and destructions under any names: after each of
    its steps every live creator removes exactly the file it made if and only if each of
    its steps keeps apart. -/
theorem creators_remove_own_iff (hstart : Start w₀)
    (hrun : Steps (logged (step sys resolve) visited) anyStep (w₀, []) (w, past)) :
    (∀ q ∈ past, ∀ w', step sys resolve q.1 q.2 = some w' → RemoveOwn sys resolve w') ↔
      ∀ q ∈ past, q.2.KeepsApart sys resolve q.1 := by
  have hnumbered : Numbered w₀ := by
    refine ⟨hstart.entry_lt, fun k c hc => ?_, fun k k' c c' hc => ?_⟩
    · rw [hstart.manager k] at hc
      cases hc
    · rw [hstart.manager k] at hc
      cases hc
  have hown : RemoveOwn sys resolve w₀ := by
    intro k c hc
    rw [hstart.manager k] at hc
    cases hc
  have hany : Steps (logged (step sys resolve) visited) (fun a ev => anyStep a.1 ev) (w₀, [])
      (w, past) := hrun
  apply hany.good_iff_visited Numbered (RemoveOwn sys resolve) hnumbered hown
  · intro a ev b hn _ hs
    exact hn.step hs
  · intro a ev b hn ha _ hs
    exact ha.step_iff hn hs

end runs

/-- No file yet; every path leads to an entry of its own. -/
def emptyDirectory : World Bool CString where
  entry := fun _ => none
  made := 0
  manager := fun _ => none

def allSucceed : Outcomes := ⟨true, true, true, true⟩

/-- Two creators under different names, one of them a custom path, and an opener that
    comes after the first one has gone. -/
def twoNames : List (Event Bool) :=
  [.create false ['/', 'a'] allSucceed, .create true ['t', '/', 'b'] allSucceed, .destroy false,
    .attach false ['t', '/', 'b'], .destroy true]

theorem creators_remove_own_two : ∃ past : List (World Bool CString × Event Bool),
    past.length = 5 ∧ ∀ q ∈ past, ∀ w', step .other (fun _ path => path) q.1 q.2 = some w' →
      RemoveOwn .other (fun _ path => path) w' := by
  have hstart : Start emptyDirectory := ⟨nofun, fun _ => rfl⟩
  have hex : ∃ s, Steps (logged (step .other fun (_ : Bool) (path : CString) => path) visited)
      anyStep (emptyDirectory, []) s ∧
      decide (s.2.length = 5 ∧ ∀ q ∈ s.2, q.2.KeepsApart .other (fun _ path => path) q.1) =
        true := by
    apply Steps.exists_of_replay_labels twoNames
    · intro _ _ _
      trivial
    · decide +kernel
  obtain ⟨⟨w, past⟩, hrun, htest⟩ := hex
  obtain ⟨hlength, hapart⟩ := of_decide_eq_true htest
  exact ⟨past, hlength, (creators_remove_own_iff hstart hrun).mpr hapart⟩

/-- A name of 128 bytes. -/
def longName : CString := List.replicate 128 'a'

/-- A creator under a name of 128 bytes unlinks another path, and the first of two
    creators under one name unlinks the file of the second. -/
theorem file_of_another_removed :
    (∃ w, replay (step .other fun (_ : Bool) (path : CString) => path) emptyDirectory
      [.create false longName allSucceed] = some w ∧
      ¬ RemoveOwn .other (fun _ path => path) w) ∧
    ∃ w, replay (step .other fun (_ : Bool) (path : CString) => path) emptyDirectory
      [.create false ['a'] allSucceed, .create true ['a'] allSucceed] = some w ∧
      ¬ RemoveOwn .other (fun _ path => path) w := by
  have hlong : (replay (step .other fun (_ : Bool) (path : CString) => path) emptyDirectory
      [.create false longName allSucceed]).any
        (fun w => decide (¬ RemoveOwn .other (fun _ path => path) w)) = true := by
    decide +kernel
  have hsame : (replay (step .other fun (_ : Bool) (path : CString) => path) emptyDirectory
      [.create false ['a'] allSucceed, .create true ['a'] allSucceed]).any
        (fun w => decide (¬ RemoveOwn .other (fun _ path => path) w)) = true := by
    decide +kernel
  constructor
  · obtain ⟨w, hw, htest⟩ := (Option.any_eq_true _ _).mp hlong
    exact ⟨w, hw, of_decide_eq_true htest⟩
  · obtain ⟨w, hw, htest⟩ := (Option.any_eq_true _ _).mp hsame
    exact ⟨w, hw, of_decide_eq_true htest⟩

end Memnon.FileRemoval
