import Memnon.ManagerNames

/-!
# Where a named object is found

The index of a segment finds an object where it was constructed, until it is
destroyed; nothing else moves it. So the search of a manager over its segments
keeps its answer as long as no segment constructs or destroys the name.
-/

namespace Memnon

open Memnon.Lib

variable {H N : Type}

/-- What is relied on of the index of one segment: a constructed object is found
    at its offset, other calls leave it there, and only a name that is present
    is refused. -/
structure InnerManager.FindsObjects (I : InnerManager H N) : Prop
    extends InnerManager.NamesLawful I where
  constructed_at : ∀ {h h' name bytes offset}, I.construct h name bytes = .constructed offset h' →
    I.find h' name = some offset
  allocate_find : ∀ {h h' bytes offset} name, I.allocate h bytes = some (offset, h') →
    I.find h' name = I.find h name
  deallocate_find : ∀ h offset name, I.find (I.deallocate h offset) name = I.find h name
  construct_find : ∀ {h h' name name' bytes offset},
    I.construct h name bytes = .constructed offset h' → name' ≠ name →
    I.find h' name' = I.find h name'
  destroy_find : ∀ {h h' name name' offset}, I.destroy h name = some (offset, h') →
    name' ≠ name → I.find h' name' = I.find h name'
  accepts : ∀ {h name bytes}, I.find h name = none → I.construct h name bytes ≠ .refused

section findLoop

variable {I : InnerManager H N} {pre post segments segments' : List (SegInfo H)}
  {info : SegInfo H} {name name' : N} {bytes offset p : Word} {smgr : H} {o : Option Word}

/-- A change that keeps where the changed segment has the name keeps where the
    manager finds it. -/
theorem findLoop_same (h : I.find smgr name = I.find info.smgr name) :
    findLoop I name (pre ++ { info with smgr := smgr } :: post) =
      findLoop I name (pre ++ info :: post) := by
  have haddr : ∀ offset, SegInfo.blockAddr I { info with smgr := smgr } offset =
      info.blockAddr I offset := fun _ => rfl
  simp only [findLoop, List.findSome?_append, List.findSome?_cons, h]
  rfl

theorem findLoop_fresh (hI : I.NamesLawful) {size : Word} (hcreate : info.smgr = I.create size) :
    findLoop I name (segments ++ [info]) = findLoop I name segments := by
  simp [findLoop, List.findSome?_append, hcreate, hI.create]

/-- The name is found nowhere, until a segment constructs it. -/
theorem findLoop_constructed (hI : I.FindsObjects)
    (hnone : findLoop I name (pre ++ info :: post) = none)
    (hcons : I.construct info.smgr name bytes = .constructed offset smgr) :
    findLoop I name (pre ++ { info with smgr := smgr } :: post) =
      some (info.blockAddr I offset) := by
  simp only [findLoop, List.findSome?_append, List.findSome?_cons, Option.or_eq_none_iff] at hnone ⊢
  rw [hnone.1, hI.constructed_at hcons]
  rfl

theorem stable_findLoop (hI : I.FindsObjects) (name : N) (o : Option Word) :
    Stable I (fun segments => findLoop I name segments = o) where
  fresh h hcreate := (findLoop_fresh hI.toNamesLawful hcreate).trans h
  alloc halloc h := (findLoop_same (hI.allocate_find name halloc)).trans h
  dealloc h := (findLoop_same (hI.deallocate_find _ _ name)).trans h

/-- The loop of a construction, of the name or of another one. -/
theorem findLoop_constructLoop (hI : I.FindsObjects)
    (h : constructLoop I name' bytes segments = .constructed p segments') :
    (name' = name → findLoop I name segments = none → findLoop I name segments' = some p) ∧
    (name' ≠ name → findLoop I name segments' = findLoop I name segments) := by
  obtain ⟨pre, info, post, offset, smgr, rfl, hcons, rfl, rfl⟩ := constructLoop_split h
  constructor
  · rintro rfl hnone
    exact findLoop_constructed hI hnone hcons
  · intro hne
    exact findLoop_same (hI.construct_find hcons (Ne.symm hne))

theorem constructLoop_not_refused (hI : I.FindsObjects) (hnone : findLoop I name segments = none) :
    constructLoop I name bytes segments ≠ .refused := by
  intro h
  obtain ⟨info, hinfo, hrefused⟩ := constructLoop_refused h
  refine hI.accepts ?_ hrefused
  have hfind := List.findSome?_eq_none_iff.mp hnone info hinfo
  simpa using hfind

theorem findLoop_destroyLoop (hI : I.FindsObjects)
    (h : destroyLoop I name' segments = some segments') (hne : name' ≠ name) :
    findLoop I name segments' = findLoop I name segments := by
  obtain ⟨pre, info, post, offset, smgr, rfl, hdestroy, rfl⟩ := destroyLoop_split h
  exact findLoop_same (hI.destroy_find hdestroy (Ne.symm hne))

end findLoop

theorem arena_findsObjects : arena.FindsObjects where
  toNamesLawful := arena_namesLawful
  constructed_at {h h' name bytes offset} hcons := by
    simp only [arena, Arena.construct] at hcons ⊢
    split at hcons
    · cases hcons
    · split at hcons
      · cases hcons
        exact Arena.find_name rfl
      · cases hcons
  allocate_find _ h := Arena.find_allocate h
  deallocate_find _ _ _ := Arena.find_deallocate
  construct_find {h h' name name' bytes offset} hcons hne := by
    simp only [arena, Arena.construct] at hcons ⊢
    split at hcons
    · cases hcons
    · split at hcons
      · rename_i halloc
        cases hcons
        exact (Arena.find_other_name (Ne.symm hne)).trans (Arena.find_allocate halloc)
      · cases hcons
  destroy_find {h h' name name' offset} hd hne := by
    simp only [arena, Arena.destroy] at hd ⊢
    split at hd
    · cases hd
      exact Arena.find_deallocate.trans (Arena.find_erase hne)
    · cases hd
  accepts {h name bytes} hnone hrefused := by
    simp only [arena, Arena.construct] at hnone hrefused
    rw [hnone] at hrefused
    simp only [Option.isSome_none, Bool.false_eq_true, if_false] at hrefused
    split at hrefused <;> cases hrefused

end Memnon
