import Memnon.RegistrySolo
import Memnon.ManagerSessions

/-!
# The registry as the managers see it

To the managers the registry is a map from pages to sub-segments: a registration
overwrites the pages of the segment, and it is undone page by page. The trie implements
this map: after any calls of one thread that register segments apart from each other, a
search through trie and cache answers what the map has for the page.
-/

namespace Memnon.Trie

open Memnon.Lib Memnon.Lib.Prog

/-! ## 1. Calls of the managers -/

/-- A call for a sub-segment, with its fields, or a search for a pointer. -/
inductive RegistryCall where
  | register (seg baseVaddr size : Word)
  | unregister (seg baseVaddr size : Word)
  | find (ptr : Word)
deriving DecidableEq

namespace RegistryCall

/-- What the managers take the call to do. -/
def onMap (P : Platform) (registry : Word → Option Word) : RegistryCall → Word → Option Word
  | register seg baseVaddr size => Memnon.registerSegment P seg baseVaddr size registry
  | unregister _ baseVaddr size => Memnon.unregisterSegment P baseVaddr size registry
  | find _ => registry

/-- The call as the trie runs it; the fields of the segment are in its object. -/
def op (P : Platform) : RegistryCall → RegistryOp
  | register seg baseVaddr size => .registerSegment seg (P.ptrToVaddr baseVaddr) size
  | unregister seg _ _ => .unregisterSegment seg
  | find ptr => .find (P.ptrToVaddr ptr)

/-- The live segments after the call. Segments are registered apart from those that live,
    and unregistered with the fields they were registered with. -/
def liveAfter (cfg : Config) (l : List Segment) (c : RegistryCall) : Option (List Segment) :=
  match c with
  | register _ _ _ | find _ => Trie.liveAfter cfg l (c.op cfg.platform)
  | unregister seg baseVaddr size =>
      if ⟨seg, cfg.platform.ptrToVaddr baseVaddr, size⟩ ∈ l then
        Trie.liveAfter cfg l (c.op cfg.platform)
      else none

theorem liveAfter_op {cfg : Config} {l l' : List Segment} {c : RegistryCall}
    (h : c.liveAfter cfg l = some l') : Trie.liveAfter cfg l (c.op cfg.platform) = some l' := by
  cases c with
  | register seg baseVaddr size => exact h
  | find ptr => exact h
  | unregister seg baseVaddr size =>
    simp only [liveAfter] at h
    split at h
    · exact h
    · cases h

end RegistryCall

/-! ## 2. The map and the live segments -/

/-- The map has the owner of each page. -/
def Agrees (cfg : Config) (l : List Segment) (registry : Word → Option Word) : Prop :=
  ∀ p, p.toNat < keyBound cfg → owner cfg l p = (registry p).getD 0

section agrees

variable {T : Type} {cfg : Config} {t : T} {m m' : Memory T} {l l' : List Segment} {p : Word}
  {registry : Word → Option Word} {c : RegistryCall}

theorem owner_eq_zero (h : ∀ r ∈ l, ¬ r.Has cfg p) : owner cfg l p = 0 := by
  have hnone : (l.find? fun r => r.Has cfg p) = none :=
    List.find?_eq_none.mpr fun r hr => by simpa using h r hr
  rw [owner, hnone]
  rfl

/-- The owner of a page is the same where the same segments have it. -/
theorem Represents.owner_congr (h : Represents cfg t l m) (h' : Represents cfg t l' m')
    (hmem : ∀ r, r.Has cfg p → (r ∈ l' ↔ r ∈ l)) : owner cfg l' p = owner cfg l p := by
  by_cases hown : ∃ r ∈ l, r.Has cfg p
  · obtain ⟨r, hr, hrp⟩ := hown
    rw [h.owner_eq hr hrp, h'.owner_eq ((hmem r hrp).mpr hr) hrp]
  · have hnone : ∀ r ∈ l, ¬ r.Has cfg p := fun r hr hrp => hown ⟨r, hr, hrp⟩
    rw [owner_eq_zero hnone, owner_eq_zero fun r hr hrp => hnone r ((hmem r hrp).mp hr) hrp]

/-- One call keeps the agreement. -/
theorem agrees_call (h : Represents cfg t l m) (h' : Represents cfg t l' m')
    (hagrees : Agrees cfg l registry) (hc : c.liveAfter cfg l = some l') :
    Agrees cfg l' (c.onMap cfg.platform registry) := by
  intro p hp
  have hold := hagrees p hp
  cases c with
  | register seg baseVaddr size =>
    simp only [RegistryCall.liveAfter, RegistryCall.op, liveAfter, Option.ite_none_right_eq_some,
      Option.some.injEq] at hc
    obtain ⟨-, rfl⟩ := hc
    simp only [RegistryCall.onMap, Memnon.registerSegment]
    split
    · rename_i hpage
      exact h'.owner_eq List.mem_cons_self hpage
    · rename_i hpage
      rw [← hold]
      apply h.owner_congr h'
      intro r hrp
      rw [List.mem_cons, or_iff_right]
      rintro rfl
      exact hpage hrp
  | unregister seg baseVaddr size =>
    simp only [RegistryCall.liveAfter, RegistryCall.op, liveAfter, Option.ite_none_right_eq_some,
      Option.some.injEq] at hc
    obtain ⟨hr, -, rfl⟩ := hc
    simp only [RegistryCall.onMap, Memnon.unregisterSegment]
    split
    · rename_i hpage
      apply owner_eq_zero
      intro r' hr' hrp
      obtain ⟨hmem, hne⟩ := List.mem_filter.mp hr'
      obtain rfl := h.disjoint r' hmem _ hr p hrp hpage
      simp at hne
    · rename_i hpage
      rw [← hold]
      apply h.owner_congr h'
      intro r' hrp
      rw [List.mem_filter]
      refine ⟨And.left, fun hmem => ⟨hmem, ?_⟩⟩
      simp only [ne_eq, decide_not, Bool.not_eq_true', decide_eq_false_iff_not]
      intro hseg
      obtain rfl := h.eq_of_seg hmem hr hseg
      exact hpage hrp
  | find ptr =>
    simp only [RegistryCall.liveAfter, RegistryCall.op, liveAfter, Option.ite_none_right_eq_some,
      Option.some.injEq] at hc
    obtain ⟨-, rfl⟩ := hc
    exact hold

end agrees

/-! ## 3. Result -/

/-- The calls on the trie. -/
def callsOnTrie {T : Type} [DecidableEq T] (cfg : Config) (t : T) (pick : Memory T → Word)
    (m : Memory T) (calls : List RegistryCall) : Memory T :=
  runOps cfg t pick m (calls.map (RegistryCall.op cfg.platform))

/-- The calls on the map. -/
def callsOnMap (P : Platform) (registry : Word → Option Word) (calls : List RegistryCall) :
    Word → Option Word :=
  calls.foldl (RegistryCall.onMap P) registry

section results

variable {T : Type} [DecidableEq T] {cfg : Config} {t : T} {pick : Memory T → Word} {m : Memory T}
  {l l' : List Segment} {registry : Word → Option Word} {calls : List RegistryCall}

theorem agrees_calls (h : Represents cfg t l m) (hagrees : Agrees cfg l registry)
    (hcalls : calls.foldlM (RegistryCall.liveAfter cfg) l = some l')
    (ho : (callsOnTrie cfg t pick m calls).outOfMemory = false) :
    Represents cfg t l' (callsOnTrie cfg t pick m calls) ∧
      Agrees cfg l' (callsOnMap cfg.platform registry calls) := by
  induction calls generalizing l m registry with
  | nil =>
    obtain rfl : l = l' := Option.some.inj hcalls
    exact ⟨h, hagrees⟩
  | cons c calls ih =>
    rw [List.foldlM_cons] at hcalls
    obtain ⟨l₁, hc, hrest⟩ := Option.bind_eq_some_iff.mp hcalls
    have ho₁ : (runOp cfg t pick m (c.op cfg.platform)).outOfMemory = false :=
      runOps_allocated _ ho
    have h₁ := represents_runOp h (RegistryCall.liveAfter_op hc) ho₁
    exact ih h₁ (agrees_call h h₁ hagrees hc) hrest ho

/-- The trie refines the map of the managers: after any sequence of registrations,
    unregistrations and searches by one thread, `find` on the trie, through the cache of the
    thread, returns for every pointer what the map has for its page. So does each search
    within the sequence, which is one after a shorter sequence. -/
theorem trie_refines_registry
    (hcalls : calls.foldlM (RegistryCall.liveAfter cfg) [] = some l)
    (halloc : (callsOnTrie cfg t pick (initialMemory T cfg) calls).outOfMemory = false)
    (ptr : Word) (hptr : (pageOf cfg (cfg.platform.ptrToVaddr ptr)).toNat < keyBound cfg) :
    ((find cfg (cfg.platform.ptrToVaddr ptr)).eval (exec t) pick
      (callsOnTrie cfg t pick (initialMemory T cfg) calls)).1 =
    (callsOnMap cfg.platform (fun _ => none) calls
      (pageOf cfg (cfg.platform.ptrToVaddr ptr))).getD 0 := by
  have hempty : Agrees cfg [] fun _ => none := fun _ _ => rfl
  obtain ⟨h, hagrees⟩ := agrees_calls represents_initial hempty hcalls halloc
  exact ((h.find pick hptr).1).trans (hagrees _ hptr)

end results

/-- A segment is replaced by a smaller one at the same place, with the same object, while the
    cache has an entry for it. -/
def replacedSegment : List RegistryCall :=
  [.register 0x10 0x100000 0x1800, .find 0x101900, .register 0x20 0x200000 0x1000,
    .unregister 0x10 0x100000 0x1800, .register 0x10 0x100000 0x800]

theorem trie_refines_registry_replaced :
    ((find defaultConfig 0x100900).eval (exec ()) (firstFree [0x2000, 0x3000, 0x4000, 0x5000])
      (callsOnTrie defaultConfig () (firstFree [0x2000, 0x3000, 0x4000, 0x5000])
        (initialMemory Unit defaultConfig) replacedSegment)).1 = 0x10 := by
  have hcalls : replacedSegment.foldlM (RegistryCall.liveAfter defaultConfig) [] =
      some [⟨0x10, 0x100000, 0x800⟩, ⟨0x20, 0x200000, 0x1000⟩] := by decide +kernel
  have halloc : (callsOnTrie defaultConfig () (firstFree [0x2000, 0x3000, 0x4000, 0x5000])
    (initialMemory Unit defaultConfig) replacedSegment).outOfMemory = false := by decide +kernel
  have hfound := trie_refines_registry hcalls halloc 0x100900 (by decide +kernel)
  exact hfound.trans (by decide +kernel)

end Memnon.Trie
