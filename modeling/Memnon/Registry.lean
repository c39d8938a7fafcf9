import Memnon.TrieRules
import Memnon.TriePages
import Memnon.Lib.Pool

/-!
# The registry as a system of threads

Threads register, unregister and look for segments. A segment is live from the
call of `register_segment` to the return of `unregister_segment`; live segments
have their own objects and disjoint pages, but the object and the pages of a
segment that is no longer live may be used again by a segment of any size.

A cache entry may outlive the segment it was filled for. It is harmless as long
as it fits the segments that live at its object: if its leaf slot is that of a
page of the segment, then its bounds lie within the segment's pages.
-/

namespace Memnon.Trie

open Memnon.Lib

/-! ## 1. The system -/

inductive RegistryOp where
  | registerSegment (seg base size : Word)
  | unregisterSegment (seg : Word)
  | find (addr : Word)
deriving DecidableEq

/-- The thread that is registering or unregistering the segment. -/
def Phase.owner {T : Type} : Phase T → Option T
  | .registering t | .unregistering t => some t
  | .registered => none

section system

variable {T : Type} [DecidableEq T] (cfg : Config)

/-- Ranges without a common page. -/
def PagesDisjoint (base size base' size' : Word) : Prop :=
  pageEnd cfg base size ≤ pageOf cfg base' ∨ pageEnd cfg base' size' ≤ pageOf cfg base

instance (base size base' size' : Word) : Decidable (PagesDisjoint cfg base size base' size') :=
  inferInstanceAs (Decidable (_ ∨ _))

/-- A segment that may be registered: its object is in use by no live segment,
    nor are its pages. -/
def Registrable (m : Memory T) (seg base size : Word) : Prop :=
  ValidPtr seg ∧ size ≠ 0 ∧ ∀ r ∈ m.live, r.seg ≠ seg ∧ PagesDisjoint cfg base size r.base r.size

instance (m : Memory T) (seg base size : Word) : Decidable (Registrable cfg m seg base size) :=
  inferInstanceAs (Decidable (_ ∧ _))

/-- The object of a new segment, and the segment, being registered by `t`. -/
def Memory.addSegment (m : Memory T) (t : T) (seg base size : Word) : Memory T :=
  { m with
    object := Function.update m.object seg (base, size)
    live := ⟨seg, base, size, .registering t⟩ :: m.live }

def Live.startUnregister (t : T) (seg : Word) (r : Live T) : Live T :=
  if r.seg = seg ∧ r.phase = .registered then { r with phase := .unregistering t } else r

def Live.finishRegister (t : T) (r : Live T) : Live T :=
  if r.phase = .registering t then { r with phase := .registered } else r

/-- The registry as a system: the calls and returns keep the list of live
    segments. -/
def registrySystem : System T RegistryOp Act Word (Memory T) Word Resp where
  exec := exec
  body
    | .registerSegment seg _ _ => do
        Trie.registerSegment cfg seg
        return 0
    | .unregisterSegment seg => do
        Trie.unregisterSegment cfg seg
        return 0
    | .find addr => Trie.find cfg addr
  enter t op m :=
    match op with
    | .registerSegment seg base size =>
        if Registrable cfg m seg base size then some (m.addSegment t seg base size) else none
    | .unregisterSegment seg =>
        if ∃ r ∈ m.live, r.seg = seg ∧ r.phase = .registered then
          some { m with live := m.live.map (Live.startUnregister t seg) }
        else none
    | .find _ => some m
  leave t op _ m :=
    match op with
    | .registerSegment _ _ _ =>
        { m with live := m.live.map (Live.finishRegister t) }.setReading t none
    | .unregisterSegment _ =>
        { m with live := m.live.filter fun r =>
            decide (r.phase ≠ Phase.unregistering t) }.setReading t none
    | .find _ => m.setReading t none

end system

abbrev RegistryPool (T : Type) := Pool T RegistryOp Act (Memory T) Word Resp

/-! ## 2. Cache entries that outlive a segment -/

section fits

variable {T : Type} (cfg : Config) (m : Memory T)

/-- Bounds `[b, e)` checked against the slot `leaf` are right for `r`. -/
def Fits (r : Live T) (leaf : Option Slot) (b e : Word) : Prop :=
  ∀ s q, leaf = some s → leafSlot cfg m q = some s → HasPage cfg r.base r.size q →
    BoundsIn cfg b e r.base r.size

/-- The entries of `t` for the object of `r` fit `r`. -/
def CacheFits (t : T) (r : Live T) : Prop :=
  ∀ e ∈ m.cache t, e.seg = r.seg → Fits cfg m r e.leaf e.base e.end_

/-- So do the bounds that `t` has read from that object, or is reading, for its
    newest entry. -/
def ReadingFits (t : T) (r : Live T) : Prop :=
  ∀ b z, m.reading t = some (r.seg, b, z) → ∀ top ∈ (m.cache t).head?, top.seg = r.seg →
    Fits cfg m r top.leaf b (b + z.getD r.size)

/-- What the other threads remember fits the segment that `t` registers. -/
def NoConflict (t : T) (seg base size : Word) : Prop :=
  ∀ u, u ≠ t → CacheFits cfg m u ⟨seg, base, size, .registering t⟩ ∧
    ReadingFits cfg m u ⟨seg, base, size, .registering t⟩

/-- The condition on calls: addresses have keys of their own, and no thread
    remembers bounds that do not fit a new segment at the same object. -/
def FittingCall (m : Memory T) (t : T) : RegistryOp → Prop
  | .registerSegment seg base size => InKeySpace cfg base size ∧ NoConflict cfg m t seg base size
  | .unregisterSegment _ => True
  | .find addr => (pageOf cfg addr).toNat < keyBound cfg

/-- Everything `t` is registering has fitting entries in its own cache. -/
def Warm (t : T) : Prop := ∀ r ∈ m.live, r.phase.owner = some t → CacheFits cfg m t r

end fits

/-! ## 3. The invariant -/

variable {T : Type}

structure RegistryInv (cfg : Config) (m : Memory T) : Prop where
  heap : HeapInv cfg m
  leaf : ∀ p, p.toNat < keyBound cfg → leafValue cfg m p ≠ 0 →
    ∃ r ∈ m.live, HasPage cfg r.base r.size p ∧ leafValue cfg m p = r.seg ||| kLeafTag
  live : ∀ r ∈ m.live, ValidPtr r.seg ∧ InKeySpace cfg r.base r.size ∧
    m.object r.seg = (r.base, r.size)
  disjoint : ∀ r ∈ m.live, ∀ r' ∈ m.live, ∀ p, HasPage cfg r.base r.size p →
    HasPage cfg r'.base r'.size p → r = r'
  cache : ∀ t, ∀ e ∈ m.cache t, e.seg &&& kLeafTag = 0 ∧
    ∀ s, e.leaf = some s → ∃ q, q.toNat < keyBound cfg ∧ LeafAt cfg m q s
  fits : ∀ r ∈ m.live, ∀ t, r.phase ≠ .registering t → CacheFits cfg m t r
  reading : ∀ r ∈ m.live, ∀ t, ReadingFits cfg m t r

/-- What no other thread does to thread `t`. -/
structure RegistryRely (cfg : Config) (t : T) (m m' : Memory T) : Prop where
  linked : ∀ {n ws}, m.place n = .linked ws → m'.place n = .linked ws
  fresh : ∀ {n}, m.place n = .fresh t → m'.place n = .fresh t
  outOfMemory : m.outOfMemory = true → m'.outOfMemory = true
  cache : m'.cache t = m.cache t
  reading : m'.reading t = m.reading t
  own : ∀ r, r.phase.owner = some t → (r ∈ m'.live ↔ r ∈ m.live)
  pages : ∀ r ∈ m.live, r.phase.owner = some t → ∀ p, HasPage cfg r.base r.size p →
    leafValue cfg m' p = leafValue cfg m p
  warm : Warm cfg m t → Warm cfg m' t

theorem RegistryRely.refl (cfg : Config) (t : T) (m : Memory T) : RegistryRely cfg t m m :=
  ⟨id, id, id, rfl, rfl, fun _ _ => Iff.rfl, fun _ _ _ _ _ => rfl, id⟩

theorem RegistryRely.trans {cfg : Config} {t : T} {m₁ m₂ m₃ : Memory T}
    (h : RegistryRely cfg t m₁ m₂) (h' : RegistryRely cfg t m₂ m₃) : RegistryRely cfg t m₁ m₃ where
  linked hn := h'.linked (h.linked hn)
  fresh hn := h'.fresh (h.fresh hn)
  outOfMemory ho := h'.outOfMemory (h.outOfMemory ho)
  cache := h'.cache.trans h.cache
  reading := h'.reading.trans h.reading
  own r hr := (h'.own r hr).trans (h.own r hr)
  pages r hr ho p hp := (h'.pages r ((h.own r ho).mpr hr) ho p hp).trans (h.pages r hr ho p hp)
  warm hw := h'.warm (h.warm hw)

/-- Each thread guarantees to the others what they rely on. -/
def registryDiscipline (T : Type) (cfg : Config) : Discipline T RegistryOp (Memory T) where
  Inv := RegistryInv cfg
  Rely := RegistryRely cfg
  Guar t _ m m' := ∀ u, u ≠ t → RegistryRely cfg u m m'
  rely_refl := RegistryRely.refl cfg
  rely_trans := RegistryRely.trans

/-- A context of an operation of thread `t`. -/
structure RegistryContext (cfg : Config) (t : T) (Γ : Context (Memory T)) : Prop where
  inv : ∀ {m}, Γ.Inv m ↔ RegistryInv cfg m
  guar : ∀ {m m'}, (∀ u, u ≠ t → RegistryRely cfg u m m') → Γ.Guar m m'
  rely : ∀ {m m'}, Γ.Rely m m' → RegistryRely cfg t m m'

theorem registryContext_discipline (cfg : Config) (t : T) (op : RegistryOp) :
    RegistryContext cfg t ((registryDiscipline T cfg).context t op) :=
  ⟨Iff.rfl, fun h => h, fun h => h⟩

/-! ## 4. Steps on the nodes and on leaf slots -/

section steps

variable {cfg : Config} {t u : T} {m m' : Memory T} {p : Word} {s : Slot} {r : Live T}

/-- A slot that is known stays the slot of the same pages. -/
theorem fits_mono (h' : HeapInv cfg m') (h : HeapInv cfg m)
    (hlinked : ∀ {n ws}, m.place n = .linked ws → m'.place n = .linked ws)
    {leaf : Option Slot} (hleaf : ∀ s, leaf = some s → ∃ q, LeafAt cfg m q s) {b e : Word}
    (hf : Fits cfg m r leaf b e) : Fits cfg m' r leaf b e := by
  intro s q hs hslot hq
  obtain ⟨q', hq'⟩ := hleaf s hs
  have hkey : SameKey cfg q' q :=
    LeafAt.sameKey (m := m') ⟨hlinked hq'.1, hq'.2⟩ (h'.leafSlot_eq_some_iff.mp hslot)
  exact hf s q hs (h.leafSlot_eq_some_iff.mpr (hkey.leafAt hq')) hq

/-- Entries keep fitting when nodes are added. -/
theorem RegistryInv.cacheFits_mono (h : RegistryInv cfg m) (h' : HeapInv cfg m')
    (hlinked : ∀ {n ws}, m.place n = .linked ws → m'.place n = .linked ws)
    (hcache : m'.cache = m.cache) (hf : CacheFits cfg m t r) : CacheFits cfg m' t r := by
  intro e he hseg
  rw [hcache] at he
  refine fits_mono h' h.heap hlinked (fun s hs => ?_) (hf e he hseg)
  obtain ⟨q, -, hq⟩ := (h.cache t e he).2 s hs
  exact ⟨q, hq⟩

/-- The invariant after a change of nodes and leaf slots. -/
theorem RegistryInv.frame (h : RegistryInv cfg m) (h' : HeapInv cfg m')
    (hlinked : ∀ {n ws}, m.place n = .linked ws → m'.place n = .linked ws)
    (hcache : m'.cache = m.cache) (hobject : m'.object = m.object) (hlive : m'.live = m.live)
    (hreading : m'.reading = m.reading)
    (hleaf : ∀ p, p.toNat < keyBound cfg → leafValue cfg m' p ≠ 0 →
      ∃ r ∈ m.live, HasPage cfg r.base r.size p ∧ leafValue cfg m' p = r.seg ||| kLeafTag) :
    RegistryInv cfg m' where
  heap := h'
  leaf := by rw [hlive]; exact hleaf
  live := by rw [hlive, hobject]; exact h.live
  disjoint := by rw [hlive]; exact h.disjoint
  cache := by
    rw [hcache]
    intro t e he
    refine ⟨(h.cache t e he).1, fun s hs => ?_⟩
    obtain ⟨q, hlt, hq⟩ := (h.cache t e he).2 s hs
    exact ⟨q, hlt, hlinked hq.1, hq.2⟩
  fits := by
    rw [hlive]
    exact fun r hr t ht => h.cacheFits_mono h' hlinked hcache (h.fits r hr t ht)
  reading := by
    rw [hlive]
    intro r hr t b z hread top htop hseg
    rw [hreading] at hread
    rw [hcache] at htop
    refine fits_mono h' h.heap hlinked (fun s hs => ?_) (h.reading r hr t b z hread top htop hseg)
    obtain ⟨q, -, hq⟩ := (h.cache t top (List.mem_of_mem_head? htop)).2 s hs
    exact ⟨q, hq⟩

/-- What such a change is to a thread whose pages it leaves alone. -/
theorem RegistryInv.frame_rely (h : RegistryInv cfg m) (h' : HeapInv cfg m')
    (hlinked : ∀ {n ws}, m.place n = .linked ws → m'.place n = .linked ws)
    (hfresh : ∀ {n}, m.place n = .fresh u → m'.place n = .fresh u)
    (hoom : m.outOfMemory = true → m'.outOfMemory = true)
    (hcache : m'.cache = m.cache) (hlive : m'.live = m.live) (hreading : m'.reading = m.reading)
    (hpages : ∀ r ∈ m.live, r.phase.owner = some u → ∀ p, HasPage cfg r.base r.size p →
      leafValue cfg m' p = leafValue cfg m p) : RegistryRely cfg u m m' where
  linked := hlinked
  fresh := hfresh
  outOfMemory := hoom
  cache := by rw [hcache]
  reading := by rw [hreading]
  own _ _ := by rw [hlive]
  pages := hpages
  warm hw := by
    intro r hr ho
    rw [hlive] at hr
    exact h.cacheFits_mono h' hlinked hcache (hw r hr ho)

theorem RegistryInv.heapStep (h : RegistryInv cfg m) (hstep : HeapStep cfg t m m') :
    RegistryInv cfg m' ∧ ∀ u, u ≠ t → RegistryRely cfg u m m' := by
  refine ⟨h.frame hstep.inv hstep.linked hstep.cache hstep.object hstep.live hstep.reading
    fun p hp hne => ?_, fun u hut => h.frame_rely hstep.inv hstep.linked (hstep.fresh hut)
    hstep.outOfMemory hstep.cache hstep.live hstep.reading fun _ _ _ p _ => hstep.leaf p⟩
  rw [hstep.leaf] at hne ⊢
  exact h.leaf p hp hne

theorem RegistryContext.heapContext {Γ : Context (Memory T)} (hΓ : RegistryContext cfg t Γ) :
    HeapContext cfg t Γ where
  inv hi := (hΓ.inv.mp hi).heap
  guar_refl m := hΓ.guar fun u _ => RegistryRely.refl cfg u m
  step hi hstep :=
    have h := (hΓ.inv.mp hi).heapStep hstep
    ⟨hΓ.inv.mpr h.1, hΓ.guar h.2⟩
  linked hR := (hΓ.rely hR).linked
  fresh hR := (hΓ.rely hR).fresh
  outOfMemory hR := (hΓ.rely hR).outOfMemory
  cache hR := (hΓ.rely hR).cache

/-- A thread writes to the leaf slots of the segment it is registering or
    unregistering: the segment's pointer, or null. -/
theorem RegistryInv.write (h : RegistryInv cfg m) (hs : LeafAt cfg m p s) (hr : r ∈ m.live)
    (howner : r.phase.owner = some t) (hp : HasPage cfg r.base r.size p) {x : Word}
    (hx : x = 0 ∨ x = r.seg ||| kLeafTag) :
    RegistryInv cfg (m.write s.1 s.2 x) ∧
      ∀ u, u ≠ t → RegistryRely cfg u m (m.write s.1 s.2 x) := by
  have h' : HeapInv cfg (m.write s.1 s.2 x) := heapInv_write h.heap hs
  have hplt := (h.live r hr).2.1.lt hp
  refine ⟨h.frame h' id rfl rfl rfl rfl fun q hq hne => ?_,
    fun u hut => h.frame_rely h' id id id rfl rfl rfl fun r' hr' ho q hq => ?_⟩
  · rw [leafValue_write h.heap hs] at hne ⊢
    split
    · rename_i hkey
      obtain rfl := hkey.eq hplt hq
      rw [if_pos hkey] at hne
      exact ⟨r, hr, hp, hx.resolve_left hne⟩
    · rename_i hkey
      rw [if_neg hkey] at hne
      exact h.leaf q hq hne
  · -- the other thread's segment has other pages
    rw [leafValue_write h.heap hs, if_neg]
    intro hkey
    obtain rfl := hkey.eq hplt ((h.live r' hr').2.1.lt hq)
    obtain rfl := h.disjoint r hr r' hr' p hp hq
    exact hut (Option.some.inj (ho.symm.trans howner))

end steps

end Memnon.Trie
