import Memnon.OffsetPtrShared
import Memnon.LiveBlocks

/-!
# Linked structures in a shared file

Any number of processes attached to one file, each of which has mapped a part of it
where it likes. They store pointers in the file, copy them and follow them, and one of
them at a time grows it. To their users the file is a set of links from file offsets to
file offsets. In every run `get` follows these links: in every process it returns that
process's own address of the file offset that was stored last, by whichever process.
-/

namespace Memnon.OffsetPtr.SharedLinks

open Memnon.Lib
open Memnon.Trie (Config InKeySpace PagesDisjoint ValidPtr)
open Memnon.LiveBlocks (UserRange)

variable {J M : Type}

/-! ## 1. Links and processes -/

/-- The pointer objects of a file by their file offsets, each null or with the file
    offset of its target. -/
abbrev Links := Word → Option (Option Word)

/-- A pointer object is stored to at `x`; whatever object its eight bytes overlap is gone. -/
def Links.store (links : Links) (x : Word) (link : Option Word) : Links := fun y =>
  if y = x then some link
  else if y - x < 8 ∨ x - y < 8 then none
  else links y

theorem Links.of_store {links : Links} {x y : Word} {link link' : Option Word}
    (h : links.store x link y = some link') (hne : y ≠ x) : links y = some link' := by
  rw [Links.store, if_neg hne] at h
  split at h
  · cases h
  · exact h

/-- From `x` to `y` along `n` links. -/
inductive Links.Path (links : Links) : Nat → Word → Word → Prop
  | refl (x : Word) : Path links 0 x x
  | step {n : Nat} {x y z : Word} (hx : links x = some (some y)) (h : Path links n y z) :
      Path links (n + 1) x z

/-- The segments that a manager lists. -/
def listed (p : Process M) (mgr : M) : List (LiveSegment M) :=
  (p.segments mgr).map fun seg => ⟨p.object seg, seg⟩

/-- The file offset of the memory at an address. -/
def locate (p : Process M) (mgr : M) (addr : Word) : Option Word :=
  ((listed p mgr).find? fun s => s.Contains addr).map fun s => s.fileOffsetOf addr

/-- What a call finds around it: the system calls, and `operator new` for nodes of the
    trie. -/
structure System (M : Type) where
  openShmChunk : M → Word → Word → Option Mapping
  pick : Trie.Memory Unit → Word

/-- The segment table and the pointer objects in the file, and the processes, which have
    all attached. `links` is what the stores mean to their users; no call reads it. -/
structure World (J M : Type) where
  table : SegmentTable
  offset : Word → Word
  process : J → Process M
  links : Links

inductive Op where
  | assign (dst ptr : Word)
  | copy (dst src : Word)
  | get (self : Word)

inductive Label (J M : Type) where
  | op (j : J) (sys : System M) (op : Op)
  | grow (j : J) (sys : System M) (size : Word)

section step

variable [DecidableEq J] [DecidableEq M] (cfg : Config) (mgr : J → M) (w : World J M)

/-- A process with the table as it is in the file. -/
def World.view (j : J) : Process M :=
  { w.process j with table := Function.update (w.process j).table (mgr j) w.table }

/-- A pointer object of the file gets a new `m_offset`; an exception has no result. -/
def World.store (j : J) (dst : Word) (link : Option Word)
    (call : Run M (Except SetError Word)) : Option (World J M) :=
  match locate (w.process j) (mgr j) dst, call (w.view mgr j) with
  | some x, some (.ok mOffset, p) => some { w with
      offset := Function.update w.offset x mOffset
      process := Function.update w.process j p
      links := w.links.store x link }
  | _, _ => none

/-- `get` of the pointer object at the address `self`. -/
def World.get (j : J) (sys : System M) (self : Word) : Option (Word × World J M) :=
  match locate (w.process j) (mgr j) self with
  | none => none
  | some x =>
      (OffsetPtr.get cfg.platform (runtime cfg sys.pick sys.openShmChunk) self (w.offset x)
        (w.view mgr j)).map fun (addr, p) =>
          (addr, { w with process := Function.update w.process j p })

def World.run (j : J) (sys : System M) : Op → Option (World J M)
  | .assign dst ptr =>
      w.store mgr j dst (locate (w.process j) (mgr j) ptr)
        (set cfg.platform (runtime cfg sys.pick sys.openShmChunk) dst ptr)
  | .copy dst src =>
      match locate (w.process j) (mgr j) src with
      | none => none
      | some z =>
          match w.links z with
          | none => none
          | some link => w.store mgr j dst link
              (OffsetPtr.copy cfg.platform (runtime cfg sys.pick sys.openShmChunk) dst src
                (w.offset z))
  | .get self => (w.get cfg mgr j sys self).map Prod.snd

/-- The end of `grow` and of `grow_background`: the next chunk is mapped and published. -/
def World.grow (j : J) (sys : System M) (size : Word) : Option (World J M) :=
  let p := w.process j
  let segments := (p.segments (mgr j)).map fun seg => (p.object seg).toSegment
  let e : FileRange := ⟨getSizeUnlocked (rangesOf segments), size⟩
  match sys.openShmChunk (mgr j) e.size e.fileOffset,
      updateSegmentTable (segments ++ [⟨e, false⟩]) w.table with
  | some mapping, some table => some { w with
      table := table
      process := Function.update w.process j
        (p.addSegment cfg sys.pick mapping.seg (discovered (mgr j) e mapping)) }
  | _, _ => none

def step (w : World J M) : Label J M → Option (World J M)
  | .op j sys op => w.run cfg mgr j sys op
  | .grow j sys size => w.grow cfg mgr j sys size

end step

/-! ## 2. Fair runs -/

section fair

variable (cfg : Config) (mgr : J → M) (w : World J M)

/-- Objects and pages are not shared. -/
def Apart (s s' : LiveSegment M) : Prop :=
  s.seg ≠ s'.seg ∧ PagesDisjoint cfg s'.baseVaddr s'.size s.baseVaddr s.size

/-- What `mmap` and `operator new` return: a range of user addresses and an object, on
    pages that no segment of the process has. -/
structure FreshIn (p : Process M) (s : LiveSegment M) : Prop where
  valid : ValidPtr s.seg
  space : InKeySpace cfg s.baseVaddr s.size
  userRange : UserRange cfg.platform s.baseVaddr s.size
  apart : ∀ mgr, ∀ s' ∈ listed p mgr, Apart cfg s' s

/-- No node of a trie has failed to be allocated. -/
def World.Allocated : Prop := ∀ j, (w.process j).memory.outOfMemory = false

/-- A pointer object does not start one byte in front of its target. -/
def ClearOf (j : J) (dst : Word) (link : Option Word) : Prop :=
  ∀ x, locate (w.process j) (mgr j) dst = some x → link ≠ some (x + 1)

variable [DecidableEq M]

/-- What the table lists and the process has not mapped can be mapped. -/
def MapsMissing (sys : System M) (t : SegmentTable) (mgr : M) (p : Process M) : Prop :=
  ∃ new, (t.published.drop (p.segments mgr).length).mapM (mapEntry sys.openShmChunk mgr) =
      some new ∧
    (∀ s ∈ new, FreshIn cfg p s) ∧ new.Pairwise (Apart cfg)

/-- Pointers are stored to what is mapped, what is followed has been stored, and only a
    process that has mapped the whole table extends it. -/
def Fair (w : World J M) : Label J M → Prop
  | .op j _ (.assign dst ptr) =>
      (ptr ≠ 0 → (locate (w.process j) (mgr j) ptr).isSome = true) ∧
        ClearOf mgr w j dst (locate (w.process j) (mgr j) ptr)
  | .op j sys (.copy dst src) =>
      MapsMissing cfg sys w.table (mgr j) (w.process j) ∧
        ∀ z link, locate (w.process j) (mgr j) src = some z → w.links z = some link →
          ClearOf mgr w j dst link
  | .op j sys (.get self) =>
      MapsMissing cfg sys w.table (mgr j) (w.process j) ∧
        ∀ x, locate (w.process j) (mgr j) self = some x → (w.links x).isSome = true
  | .grow j sys size =>
      (listed (w.process j) (mgr j)).length = w.table.count ∧ size ≠ 0 ∧
        span (extents w.table.published) + size.toNat < 2 ^ 63 ∧
        ∀ offset mapping, sys.openShmChunk (mgr j) size offset = some mapping →
          FreshIn cfg (w.process j) ⟨discovered (mgr j) ⟨offset, size⟩ mapping, mapping.seg⟩

/-- The steps of a fair run. -/
def FairStep [DecidableEq J] (w : World J M) (l : Label J M) : Prop :=
  Fair cfg mgr w l ∧ ∀ w', step cfg mgr w l = some w' → w'.Allocated

end fair

/-! ## 3. A process and the file -/

/-- A process that has joined: it has mapped a prefix of the table, the primary segment
    first. -/
structure Joined [DecidableEq M] (cfg : Config) (t : SegmentTable) (mgr : M)
    (live : List (LiveSegment M)) (p : Process M) : Prop extends Attached cfg t mgr live p where
  distinct : (live.map LiveSegment.seg).Nodup
  userRange : ∀ s ∈ segmentsOf live mgr, UserRange cfg.platform s.baseVaddr s.size
  primary : (segmentsOf live mgr).head?.any (·.isPrimary) = true

/-- The table lists chunks one after the other. -/
structure WellLaid (t : SegmentTable) : Prop where
  laid : LaidOut 0 (extents t.published)
  size : span (extents t.published) < 2 ^ 63
  pos : ∀ e ∈ t.published, e.size ≠ 0

section joined

variable [DecidableEq M] {cfg : Config} {t : SegmentTable} {mgr : M}
  {live new : List (LiveSegment M)} {p p' : Process M} {s : LiveSegment M} {x y addr : Word}

theorem listed_eq (h : Lists live p) (mgr : M) : listed p mgr = segmentsOf live mgr := by
  rw [listed, h.segments, List.map_map]
  refine (List.map_congr_left fun s hs => ?_).trans (List.map_id _)
  have hobject := h.object s (mem_segmentsOf.mp hs).1
  cases s
  simp_all

theorem mem_listed (h : Lists live p) (hs : s ∈ live) : s ∈ listed p s.manager := by
  rw [listed_eq h]
  exact mem_segmentsOf.mpr ⟨hs, rfl⟩

theorem locate_eq_some_iff (h : Maps cfg live p) :
    locate p mgr addr = some x ↔
      ∃ s ∈ segmentsOf live mgr, s.Contains addr ∧ s.fileOffsetOf addr = x := by
  rw [locate, listed_eq h.toLists, Option.map_eq_some_iff]
  constructor
  · rintro ⟨s, hs, rfl⟩
    have hin : s.Contains addr := by simpa using List.find?_some hs
    exact ⟨s, List.mem_of_find?_eq_some hs, hin, rfl⟩
  · rintro ⟨s, hs, hin, rfl⟩
    refine ⟨s, ?_, rfl⟩
    cases hfind : (segmentsOf live mgr).find? fun s => s.Contains addr with
    | none => exact absurd (decide_eq_true hin) (List.find?_eq_none.mp hfind s hs)
    | some s' =>
      have hin' : s'.Contains addr := by simpa using List.find?_some hfind
      have hs' := List.mem_of_find?_eq_some hfind
      have hlive := (mem_segmentsOf.mp hs).1
      have hlive' := (mem_segmentsOf.mp hs').1
      rw [h.eq_of_has hlive' hlive (h.has_of_contains hlive' hin')
        (h.has_of_contains hlive hin)]

omit [DecidableEq M] in
theorem addrOf_fileOffsetOf (s : LiveSegment M) (addr : Word) :
    s.addrOf (s.fileOffsetOf addr) = addr := by
  show s.baseVaddr + (s.fileOffset + (addr - s.baseVaddr) - s.fileOffset) = addr
  rw [add_sub_left, add_sub_self]

/-- The segment behind a file offset of the process, and the address in it. -/
theorem Joined.located (h : Joined cfg t mgr live p) (ht : WellLaid t)
    (hx : locate p mgr addr = some x) :
    ∃ s ∈ segmentsOf live mgr, s.coversFileOffset x = true ∧ s.addrOf x = addr ∧ addr ≠ 0 ∧
      cfg.platform.ptrToVaddr addr = addr := by
  obtain ⟨s, hs, hin, rfl⟩ := (locate_eq_some_iff h.maps).mp hx
  obtain ⟨hlaid, hspan⟩ := h.toAttached.laid ht.laid
  have hsize := ht.size
  obtain ⟨hbase, huser⟩ := h.userRange s hs
  have hlow := hin.1
  have hoffset : addr - s.baseVaddr < s.size := by
    rw [BitVec.lt_def, BitVec.toNat_sub_of_le (BitVec.le_def.mpr hlow)]
    have hhigh := hin.2
    omega
  have hplain := huser _ hoffset
  rw [BitVec.add_comm, BitVec.sub_add_cancel] at hplain
  refine ⟨s, hs, covers_fileOffsetOf hlaid (by omega) hs hin, addrOf_fileOffsetOf s addr, ?_,
    hplain⟩
  rintro rfl
  exact hbase (BitVec.eq_of_toNat_eq (Nat.le_zero.mp hlow))

theorem Joined.locate_addrOf (h : Joined cfg t mgr live p) (hs : s ∈ segmentsOf live mgr)
    (hcovers : s.coversFileOffset x = true) : locate p mgr (s.addrOf x) = some x := by
  apply (locate_eq_some_iff h.maps).mpr
  exact ⟨s, hs, h.maps.contains_addrOf (mem_segmentsOf.mp hs).1 hcovers, fileOffsetOf_addrOf s x⟩

/-- There is nothing at address 0. -/
theorem Joined.locate_zero (h : Joined cfg t mgr live p) (ht : WellLaid t) :
    locate p mgr 0 = none := by
  cases hx : locate p mgr 0 with
  | none => rfl
  | some x =>
    obtain ⟨_, _, _, _, hne, _⟩ := h.located ht hx
    exact absurd rfl hne

/-! ## 4. Mapping what is missing -/

theorem addSegment_allocated {pick : Trie.Memory Unit → Word} {seg : Word} {o : SegmentObject M}
    (ho : (p.addSegment cfg pick seg o).memory.outOfMemory = false) :
    p.memory.outOfMemory = false :=
  Trie.runOps_allocated [.registerSegment seg (cfg.platform.ptrToVaddr o.baseVaddr) o.size] ho

theorem discoverLoop_allocated {pick : Trie.Memory Unit → Word}
    {openShmChunk : M → Word → Word → Option Mapping} {es : List FileRange}
    (hrun : discoverLoop cfg pick openShmChunk mgr es p = some ((), p'))
    (ho : p'.memory.outOfMemory = false) : p.memory.outOfMemory = false := by
  induction es generalizing p with
  | nil =>
    cases hrun
    exact ho
  | cons e es ih =>
    rw [OffsetPtr.discoverLoop] at hrun
    split at hrun
    · cases hrun
    · exact addSegment_allocated (ih hrun)

theorem FreshIn.segmentNew (hs : FreshIn cfg p s) (h : Lists live p) (hsize : s.size ≠ 0) :
    Trie.Segment.New cfg (live.map LiveSegment.range) s.range := by
  refine ⟨hs.valid, hsize, hs.space, fun r hr => ?_⟩
  obtain ⟨s', hs', rfl⟩ := List.mem_map.mp hr
  exact hs.apart s'.manager s' (mem_listed h hs')

omit [DecidableEq M] in
theorem FreshIn.base_eq (hs : FreshIn cfg p s) (hsize : s.size ≠ 0) :
    cfg.platform.ptrToVaddr s.baseVaddr = s.baseVaddr := by
  have hpos : (0 : Word) < s.size := by
    rw [BitVec.lt_def]
    exact Nat.pos_of_ne_zero fun hzero => hsize (BitVec.eq_of_toNat_eq hzero)
  simpa using hs.userRange.2 0 hpos

/-- What is fresh stays so while another fresh chunk is mapped. -/
theorem FreshIn.add {s' : LiveSegment M} (hs' : FreshIn cfg p s') (h : Lists live p)
    (hs : FreshIn cfg p s) (hapart : Apart cfg s s') (pick : Trie.Memory Unit → Word) :
    FreshIn cfg (p.addSegment cfg pick s.seg s.toSegmentObject) s' := by
  have hlists : Lists (live ++ [s]) (p.addSegment cfg pick s.seg s.toSegmentObject) :=
    h.add cfg pick fun x hx => (hs.apart x.manager x (mem_listed h hx)).1
  refine ⟨hs'.valid, hs'.space, hs'.userRange, fun mgr x hx => ?_⟩
  rw [listed_eq hlists] at hx
  rcases List.mem_append.mp (mem_segmentsOf.mp hx).1 with hold | hnew
  · exact hs'.apart x.manager x (mem_listed h hold)
  · rwa [List.mem_singleton.mp hnew]

/-- The next chunk of the file is mapped. -/
theorem Joined.append (h : Joined cfg t mgr live p) (hs : FreshIn cfg p s) (hsize : s.size ≠ 0)
    (hanon : s.isAnon = false) (hmgr : s.manager = mgr)
    (hlisted : fileRangesOf live mgr ++ [⟨s.fileOffset, s.size⟩] <+: t.published)
    {pick : Trie.Memory Unit → Word}
    (ho : (p.addSegment cfg pick s.seg s.toSegmentObject).memory.outOfMemory = false) :
    Joined cfg t mgr (live ++ [s]) (p.addSegment cfg pick s.seg s.toSegmentObject) := by
  have hsegs : segmentsOf (live ++ [s]) mgr = segmentsOf live mgr ++ [s] := by
    rw [segmentsOf_append, if_pos hmgr]
  have hboth : ∀ {Q : LiveSegment M → Prop}, (∀ x ∈ segmentsOf live mgr, Q x) → Q s →
      ∀ x ∈ segmentsOf (live ++ [s]) mgr, Q x := by
    intro Q hold hnew x hx
    rw [hsegs] at hx
    rcases List.mem_append.mp hx with hx | hx
    · exact hold x hx
    · rwa [List.mem_singleton.mp hx]
  constructor
  · constructor
    · exact h.maps.append (hs.segmentNew h.maps.toLists hsize) (hs.base_eq hsize) ho
    · exact h.shm
    · exact hboth h.kind hanon
    · rw [fileRangesOf_append, if_pos hmgr]
      exact hlisted
  · rw [List.map_append, List.nodup_append]
    refine ⟨h.distinct, List.nodup_singleton _, fun a ha b hb => ?_⟩
    obtain ⟨x, hx, rfl⟩ := List.mem_map.mp ha
    rw [List.mem_singleton.mp hb]
    exact (hs.apart x.manager x (mem_listed h.maps.toLists hx)).1
  · exact hboth h.userRange hs.userRange
  · rw [hsegs]
    have hprimary := h.primary
    cases hold : segmentsOf live mgr with
    | nil =>
      rw [hold] at hprimary
      cases hprimary
    | cons s' rest =>
      rw [hold] at hprimary
      exact hprimary

/-- The loop of `lazy_discover_growth`. -/
theorem Joined.discoverLoop (h : Joined cfg t mgr live p) (ht : WellLaid t)
    {pick : Trie.Memory Unit → Word} {openShmChunk : M → Word → Word → Option Mapping}
    {es : List FileRange} (hes : fileRangesOf live mgr ++ es = t.published)
    (hmapped : es.mapM (mapEntry openShmChunk mgr) = some new)
    (hfresh : ∀ s ∈ new, FreshIn cfg p s) (hapart : new.Pairwise (Apart cfg))
    (hrun : OffsetPtr.discoverLoop cfg pick openShmChunk mgr es p = some ((), p'))
    (ho : p'.memory.outOfMemory = false) : Joined cfg t mgr (live ++ new) p' := by
  induction es generalizing live new p with
  | nil =>
    obtain rfl : [] = new := Option.some.inj hmapped
    cases hrun
    rwa [List.append_nil]
  | cons e es ih =>
    rw [List.mapM_cons] at hmapped
    obtain ⟨s, hs, hrest⟩ := Option.bind_eq_some_iff.mp hmapped
    obtain ⟨rest, hmappedRest, hnew⟩ := Option.bind_eq_some_iff.mp hrest
    obtain rfl : s :: rest = new := Option.some.inj hnew
    obtain ⟨mapping, hmap, rfl⟩ := Option.map_eq_some_iff.mp hs
    rw [OffsetPtr.discoverLoop, hmap] at hrun
    obtain ⟨hfirst, hothers⟩ := List.forall_mem_cons.mp hfresh
    obtain ⟨hahead, hapart⟩ := List.pairwise_cons.mp hapart
    rw [List.append_cons] at hes ⊢
    have hsize : e.size ≠ 0 := ht.pos e (hes ▸ by simp)
    have hjoined := h.append hfirst hsize rfl rfl (hes ▸ List.prefix_append _ _)
      (discoverLoop_allocated hrun ho)
    refine ih hjoined ?_ hmappedRest (fun x hx => ?_) hapart hrun
    · rw [fileRangesOf_append]
      exact (congrArg (· ++ es) (if_pos rfl)).trans hes
    · exact (hothers x hx).add h.maps.toLists hfirst (hahead x hx) pick

/-- A process that has searched its registry is as it was. -/
theorem Joined.searched (h : Joined cfg t mgr live p) (hp' : Searched cfg live p p') :
    Joined cfg t mgr live p' :=
  ⟨⟨hp'.maps, (congrFun hp'.anon mgr).trans h.shm, h.kind, h.listed⟩, h.distinct, h.userRange,
    h.primary⟩

/-- Discovery maps all that is missing or nothing. -/
theorem Joined.discoverGrowth (h : Joined cfg t mgr live p) (ht : WellLaid t)
    (htable : p.table mgr = t) {pick : Trie.Memory Unit → Word}
    {openShmChunk : M → Word → Word → Option Mapping} {required : Word} {found : Bool}
    (hmapped : (t.published.drop (segmentsOf live mgr).length).mapM (mapEntry openShmChunk mgr) =
      some new)
    (hfresh : ∀ s ∈ new, FreshIn cfg p s) (hapart : new.Pairwise (Apart cfg))
    (hrun : OffsetPtr.discoverGrowth cfg pick openShmChunk mgr required p = some (found, p'))
    (ho : p'.memory.outOfMemory = false) :
    Joined cfg t mgr live p' ∨ Joined cfg t mgr (live ++ new) p' := by
  have hlength : (p.segments mgr).length = (segmentsOf live mgr).length := by
    rw [h.maps.segments, List.length_map]
  have hold : fileRangesOf live mgr ++ t.published.drop (segmentsOf live mgr).length =
      t.published := by
    have htake := List.prefix_iff_eq_take.mp h.listed
    rw [fileRangesOf, List.length_map] at htake
    exact (congrArg (· ++ _) htake).trans (List.take_append_drop _ _)
  unfold OffsetPtr.discoverGrowth at hrun
  rw [h.shm, htable] at hrun
  have hentries := discovered_entries t
    ((p.segments mgr).map fun seg => (p.object seg).toSegment) required
  rw [List.length_map, hlength] at hentries
  simp only [Bool.false_eq_true, if_false, hlength, hentries] at hrun
  split at hrun
  · cases hrun
  · rename_i p₁ hloop
    cases hrun
    split at hloop
    · left
      cases hloop
      exact h
    · exact .inr (h.discoverLoop ht hold hmapped hfresh hapart hloop ho)

/-! ## 5. Pointer objects in the file -/

/-- What the object at the file offset `x` stores for a target. -/
def Holds (t : SegmentTable) (x mOffset : Word) : Option Word → Prop
  | none => mOffset = kNull
  | some y => mOffset = y - x ∧ y ≠ x + 1 ∧ y.toNat < span (extents t.published)

variable {pick : Trie.Memory Unit → Word} {openShmChunk : M → Word → Word → Option Mapping}
  {self dst src ptr mOffset : Word} {link : Option Word}

theorem locate_keeps (h : Joined cfg t mgr live p) {live' : List (LiveSegment M)}
    (h' : Joined cfg t mgr live' p') (hlive : live <+: live') (hx : locate p mgr addr = some x) :
    locate p' mgr addr = some x := by
  obtain ⟨s, hs, hin, hoffset⟩ := (locate_eq_some_iff h.maps).mp hx
  obtain ⟨hmem, hmgr⟩ := mem_segmentsOf.mp hs
  apply (locate_eq_some_iff h'.maps).mpr
  exact ⟨s, mem_segmentsOf.mpr ⟨hlive.subset hmem, hmgr⟩, hin, hoffset⟩

theorem Joined.set (h : Joined cfg t mgr live p) (ht : WellLaid t) (hx : locate p mgr dst = some x)
    (hptr : ptr ≠ 0 → (locate p mgr ptr).isSome = true) (hclear : locate p mgr ptr ≠ some (x + 1))
    (pick : Trie.Memory Unit → Word) (openShmChunk : M → Word → Word → Option Mapping) :
    ∃ mOffset p', OffsetPtr.set cfg.platform (runtime cfg pick openShmChunk) dst ptr p =
        some (.ok mOffset, p') ∧
      Joined cfg t mgr live p' ∧ Holds t x mOffset (locate p mgr ptr) := by
  by_cases hnull : ptr = 0
  · subst hnull
    refine ⟨kNull, p, ?_, h, ?_⟩
    · rw [OffsetPtr.set, if_pos rfl]
      rfl
    · rw [h.locate_zero ht]
      rfl
  · obtain ⟨y, hy⟩ := Option.isSome_iff_exists.mp (hptr hnull)
    obtain ⟨sx, hsx, hcovers, rfl, -, hself⟩ := h.located ht hx
    obtain ⟨sy, hsy, hcovers', rfl, -, -⟩ := h.located ht hy
    obtain ⟨p', hset⟩ := h.toAttached.set pick openShmChunk hsx hcovers hsy hcovers' hself
    have hhas : ∀ {s : LiveSegment M} {z : Word}, s ∈ segmentsOf live mgr →
        s.coversFileOffset z = true →
        (Trie.pageOf cfg (s.addrOf z)).toNat < Trie.keyBound cfg := by
      intro s z hs hz
      have hlive := (mem_segmentsOf.mp hs).1
      exact h.maps.key_lt hlive (h.maps.has_of_contains hlive (h.maps.contains_addrOf hlive hz))
    obtain ⟨p₁, hrun, hsearched⟩ := h.maps.set pick openShmChunk hself (hhas hsx hcovers)
      fun _ _ _ _ => hhas hsy hcovers'
    obtain rfl : p' = p₁ := (Prod.mk.inj (Option.some.inj (hset.symm.trans hrun))).2
    rw [if_neg hnull] at hset
    refine ⟨_, p', hset, h.searched hsearched, ?_⟩
    rw [hy] at hclear ⊢
    exact ⟨rfl, fun hne => hclear (congrArg some hne),
      h.toAttached.lt_span ht.laid ht.size hsy hcovers'⟩

omit [DecidableEq M] in
/-- The sentinel is the distance of one byte. -/
theorem sub_ne_kNull (hne : y ≠ x + 1) : y - x ≠ kNull := by
  intro hnull
  apply hne
  rw [← add_sub_self x y, hnull]
  rfl

/-- What `get` does to the process. -/
theorem get_cases {r : SubSegment M} {p₁ : Process M} (hne : mOffset ≠ kNull)
    (hself : cfg.platform.ptrToVaddr self = self)
    (hfind : findSegment cfg pick self p = some (some r, p₁)) (hanon : r.isAnon = false)
    (hrun : OffsetPtr.get cfg.platform (runtime cfg pick openShmChunk) self mOffset p =
      some (addr, p')) :
    p' = p₁ ∨ ∃ found, OffsetPtr.discoverGrowth cfg pick openShmChunk r.manager
      (r.fileOffsetOf self + mOffset) p₁ = some (found, p') := by
  rw [OffsetPtr.get, if_neg hne, hself] at hrun
  simp only [run_bind (x := findSegment cfg pick self) hfind, runtime, hanon, Bool.false_eq_true,
    if_false] at hrun
  -- the search by file offset leaves the process as it is
  have hsearched : ∀ {y : Word} {found : Option (SubSegment M)} {q q' : Process M},
      findByFileOffset r.manager y q = some (found, q') → q' = q :=
    fun hsearch => (Prod.mk.inj (Option.some.inj hsearch)).2.symm
  obtain ⟨first, q, hfirst, hrun⟩ := run_bind_eq_some hrun
  obtain rfl := hsearched hfirst
  cases first with
  | some target =>
    left
    cases hrun
    rfl
  | none =>
    right
    obtain ⟨found, p₂, hdiscover, hrun⟩ := run_bind_eq_some hrun
    refine ⟨found, hdiscover.trans ?_⟩
    cases found with
    | true =>
      obtain ⟨second, q, hsecond, hrun⟩ := run_bind_eq_some hrun
      obtain rfl := hsearched hsecond
      cases second <;> cases hrun <;> rfl
    | false =>
      cases hrun
      rfl

/-- Freshness is about the segments that are listed. -/
theorem FreshIn.of_lists (hs : FreshIn cfg p s) (h : Lists live p) (h' : Lists live p') :
    FreshIn cfg p' s := by
  refine ⟨hs.valid, hs.space, hs.userRange, fun mgr => ?_⟩
  rw [listed_eq h', ← listed_eq h]
  exact hs.apart mgr

theorem MapsMissing.of_lists {sys : System M} (hsys : MapsMissing cfg sys t mgr p)
    (h : Lists live p) (h' : Lists live p') : MapsMissing cfg sys t mgr p' := by
  obtain ⟨new, hmapped, hfresh, hapart⟩ := hsys
  rw [h.segments, ← h'.segments] at hmapped
  exact ⟨new, hmapped, fun s hs => (hfresh s hs).of_lists h h', hapart⟩

omit [DecidableEq M] in
theorem mapsMissing_all {sys : System M} (hall : (p.segments mgr).length = t.published.length) :
    MapsMissing cfg sys t mgr p := by
  refine ⟨[], ?_, fun s hs => absurd hs List.not_mem_nil, List.Pairwise.nil⟩
  rw [hall, List.drop_length]
  rfl

theorem Joined.get (h : Joined cfg t mgr live p) (ht : WellLaid t) (htable : p.table mgr = t)
    {sys : System M} (hsys : MapsMissing cfg sys t mgr p) (hx : locate p mgr self = some x)
    (hholds : Holds t x mOffset link) :
    ∃ addr p', OffsetPtr.get cfg.platform (runtime cfg sys.pick sys.openShmChunk) self mOffset p =
        some (addr, p') ∧
      (p'.memory.outOfMemory = false →
        (link = none → addr = 0) ∧ MapsMissing cfg sys t mgr p' ∧
        ∃ live', live <+: live' ∧ Joined cfg t mgr live' p' ∧ locate p' mgr addr = link) := by
  cases link with
  | none =>
    obtain rfl : mOffset = kNull := hholds
    refine ⟨0, p, ?_, fun _ =>
      ⟨fun _ => rfl, hsys, live, List.prefix_refl _, h, h.locate_zero ht⟩⟩
    rw [OffsetPtr.get, if_pos rfl]
    rfl
  | some y =>
    obtain ⟨rfl, hclear, hy⟩ := hholds
    obtain ⟨rx, hrx, hcovers, rfl, -, hself⟩ := h.located ht hx
    have hmissing := hsys
    obtain ⟨new, hmapped, hfresh, hapart⟩ := hsys
    have hlength : (p.segments mgr).length = (segmentsOf live mgr).length := by
      rw [h.maps.segments, List.length_map]
    rw [hlength] at hmapped
    have hnodup : ((live ++ new).map LiveSegment.seg).Nodup := by
      rw [List.map_append, List.nodup_append]
      refine ⟨h.distinct, List.pairwise_map.mpr (hapart.imp And.left), ?_⟩
      intro a ha b hb
      obtain ⟨s, hs, rfl⟩ := List.mem_map.mp ha
      obtain ⟨s', hs', rfl⟩ := List.mem_map.mp hb
      exact ((hfresh s' hs').apart s.manager s (mem_listed h.maps.toLists hs)).1
    obtain ⟨s, hs, hcovers', -, p', hrun, hlists⟩ := @Attached.get _ _ _ sys.pick _ _ _ _ _ _
      h.toAttached htable ht.laid ht.size _ _ _ hrx hcovers hself hy hmapped hnodup
      (sub_ne_kNull hclear)
    refine ⟨_, p', hrun, fun ho => ⟨fun hnone => (Option.some_ne_none y hnone).elim, ?_⟩⟩
    obtain ⟨hlive, hmgr⟩ := mem_segmentsOf.mp hrx
    have hhas := h.maps.has_of_contains hlive (h.maps.contains_addrOf hlive hcovers)
    obtain ⟨p₁, hfind, hsearched⟩ := h.maps.find sys.pick (h.maps.key_lt hlive hhas)
    have hat : (liveRuntime cfg live).find (rx.addrOf x) = some rx.toSubSegment :=
      congrArg (Option.map fun r : LiveSegment M => r.toSubSegment)
        (h.maps.segmentAt_eq hlive hhas)
    have h₁ := h.searched hsearched
    have hjoined : MapsMissing cfg sys t mgr p' ∧
        ∃ live', live <+: live' ∧ Joined cfg t mgr live' p' := by
      rcases get_cases (sub_ne_kNull hclear) hself (hfind.trans (by rw [hat])) (h.kind rx hrx)
        hrun with rfl | ⟨found, hdiscover⟩
      · exact ⟨hmissing.of_lists h.maps.toLists h₁.maps.toLists, live, List.prefix_refl _, h₁⟩
      · have hsys₁ := hmissing.of_lists h.maps.toLists h₁.maps.toLists
        have hfresh₁ : ∀ s ∈ new, FreshIn cfg p₁ s :=
          fun s hs => (hfresh s hs).of_lists h.maps.toLists h₁.maps.toLists
        rw [hmgr] at hdiscover
        rcases h₁.discoverGrowth ht ((congrFun hsearched.table mgr).trans htable) hmapped hfresh₁
          hapart hdiscover ho with h' | h'
        · exact ⟨hsys₁.of_lists h₁.maps.toLists h'.maps.toLists, live, List.prefix_refl _, h'⟩
        · refine ⟨mapsMissing_all ?_, live ++ new, List.prefix_append _ _, h'⟩
          have hall := (fileRangesOf_discovered h.listed hmapped).2
          rw [h'.maps.segments, List.length_map, ← hall, fileRangesOf, List.length_map]
    obtain ⟨hsys', live', hpre, h'⟩ := hjoined
    refine ⟨hsys', live', hpre, h', ?_⟩
    have hmem : s ∈ segmentsOf live' mgr := by
      rw [← listed_eq h'.maps.toLists, listed_eq hlists]
      refine mem_segmentsOf.mpr ⟨?_, (mem_segmentsOf.mp hs).2⟩
      split
      · assumption
      · exact (mem_segmentsOf.mp hs).1
    exact h'.locate_addrOf hmem hcovers'

omit [DecidableEq M] in
theorem findSegment_allocated {found : Option (SubSegment M)}
    (hrun : findSegment cfg pick addr p = some (found, p'))
    (ho : p'.memory.outOfMemory = false) : p.memory.outOfMemory = false := by
  obtain rfl := (Prod.mk.inj (Option.some.inj hrun)).2
  exact Trie.eval_allocated ho

theorem set_allocated {r : Except SetError Word}
    (hrun : OffsetPtr.set cfg.platform (runtime cfg pick openShmChunk) dst ptr p = some (r, p'))
    (ho : p'.memory.outOfMemory = false) : p.memory.outOfMemory = false := by
  rw [OffsetPtr.set] at hrun
  split at hrun
  · cases hrun
    exact ho
  · obtain ⟨selfSeg, p₁, hself, hrun⟩ := run_bind_eq_some hrun
    obtain ⟨targetSeg, p₂, htarget, hrun⟩ := run_bind_eq_some hrun
    have hlast : p' = p₂ := by
      repeat' split at hrun
      all_goals
        cases hrun
        rfl
    rw [hlast] at ho
    exact findSegment_allocated hself (findSegment_allocated htarget ho)

theorem Joined.copy (h : Joined cfg t mgr live p) (ht : WellLaid t) (htable : p.table mgr = t)
    {sys : System M} {z mOffset' : Word} (hsys : MapsMissing cfg sys t mgr p)
    (hx : locate p mgr dst = some x) (hz : locate p mgr src = some z)
    (hholds : Holds t z mOffset link) (hclear : link ≠ some (x + 1))
    (hrun : OffsetPtr.copy cfg.platform (runtime cfg sys.pick sys.openShmChunk) dst src mOffset p =
      some (.ok mOffset', p'))
    (ho : p'.memory.outOfMemory = false) :
    (∃ live', Joined cfg t mgr live' p') ∧ Holds t x mOffset' link := by
  obtain ⟨addr, p₁, hget, hset⟩ := run_bind_eq_some hrun
  obtain ⟨addr', p₁', hget', hjoined⟩ := h.get ht htable hsys hz hholds
  rw [hget] at hget'
  cases hget'
  obtain ⟨hnull, -, live₁, hlive, h₁, htarget⟩ := hjoined (set_allocated hset ho)
  have hptr : addr ≠ 0 → (locate p₁ mgr addr).isSome = true := by
    intro hne
    rw [htarget]
    exact Option.isSome_iff_ne_none.mpr fun hnone => hne (hnull hnone)
  obtain ⟨mOffset₁, p₂, hset', h₂, hholds₂⟩ := h₁.set ht (locate_keeps h h₁ hlive hx) hptr
    (htarget ▸ hclear) sys.pick sys.openShmChunk
  rw [hset] at hset'
  cases hset'
  exact ⟨⟨live₁, h₂⟩, htarget ▸ hholds₂⟩

end joined

/-! ## 6. Runs -/

/-- What holds in every state of a fair run. -/
structure Inv [DecidableEq M] (cfg : Config) (mgr : J → M) (w : World J M) : Prop where
  table : WellLaid w.table
  joined : ∀ j, ∃ live, Joined cfg w.table (mgr j) live (w.process j)
  holds : ∀ x link, w.links x = some link → Holds w.table x (w.offset x) link

section runs

variable [DecidableEq M] {cfg : Config} {mgr : J → M} {w w' : World J M} {j : J}
  {sys : System M} {self dst src ptr x : Word} {link : Option Word} {size : Word}

theorem view_joined {live : List (LiveSegment M)}
    (h : Joined cfg w.table (mgr j) live (w.process j)) :
    Joined cfg w.table (mgr j) live (w.view mgr j) :=
  ⟨⟨⟨⟨h.maps.object, h.maps.segments⟩, h.maps.registry⟩, h.shm, h.kind, h.listed⟩, h.distinct,
    h.userRange, h.primary⟩

theorem view_mapsMissing (h : MapsMissing cfg sys w.table (mgr j) (w.process j)) :
    MapsMissing cfg sys w.table (mgr j) (w.view mgr j) := by
  obtain ⟨new, hmapped, hfresh, hapart⟩ := h
  refine ⟨new, hmapped, fun s hs => ?_, hapart⟩
  have hs' := hfresh s hs
  exact ⟨hs'.valid, hs'.space, hs'.userRange, hs'.apart⟩

theorem view_table : (w.view mgr j).table (mgr j) = w.table := Function.update_self ..

variable [DecidableEq J]

/-- One process goes on; what is stored stays. -/
theorem Inv.proceed (h : Inv cfg mgr w) {p : Process M}
    (hp : ∃ live, Joined cfg w.table (mgr j) live p) :
    Inv cfg mgr { w with process := Function.update w.process j p } := by
  refine ⟨h.table, fun i => ?_, h.holds⟩
  show ∃ live, Joined cfg w.table (mgr i) live (Function.update w.process j p i)
  by_cases hi : i = j
  · subst hi
    rw [Function.update_self]
    exact hp
  · rw [Function.update_of_ne hi]
    exact h.joined i

omit [DecidableEq J] in
/-- A pointer object gets a new target. -/
theorem Inv.write (h : Inv cfg mgr w) {mOffset : Word} (hholds : Holds w.table x mOffset link) :
    Inv cfg mgr { w with
      offset := Function.update w.offset x mOffset
      links := w.links.store x link } := by
  refine ⟨h.table, h.joined, fun y link' hy => ?_⟩
  have hy' : w.links.store x link y = some link' := hy
  show Holds w.table y (Function.update w.offset x mOffset y) link'
  by_cases hyx : y = x
  · subst hyx
    rw [Links.store, if_pos rfl] at hy'
    obtain rfl := Option.some.inj hy'
    rw [Function.update_self]
    exact hholds
  · rw [Function.update_of_ne hyx]
    exact h.holds y link' (Links.of_store hy' hyx)

theorem store_cases {call : Run M (Except SetError Word)}
    (hs : w.store mgr j dst link call = some w') :
    ∃ x mOffset p, locate (w.process j) (mgr j) dst = some x ∧
      call (w.view mgr j) = some (.ok mOffset, p) ∧
      w' = { w with
        offset := Function.update w.offset x mOffset
        process := Function.update w.process j p
        links := w.links.store x link } := by
  unfold World.store at hs
  split at hs
  · rename_i x mOffset p hx hcall
    exact ⟨x, mOffset, p, hx, hcall, (Option.some.inj hs).symm⟩
  · cases hs

omit [DecidableEq J] [DecidableEq M] in
theorem allocated_put (ho : w'.Allocated) {p : Process M} (hp : w'.process j = p) :
    p.memory.outOfMemory = false := hp ▸ ho j

theorem Inv.assign (h : Inv cfg mgr w)
    (hfair : Fair cfg mgr w (.op j sys (.assign dst ptr)))
    (hs : w.run cfg mgr j sys (.assign dst ptr) = some w') : Inv cfg mgr w' := by
  obtain ⟨x, mOffset, p, hx, hset, rfl⟩ := store_cases hs
  obtain ⟨live, hlive⟩ := h.joined j
  obtain ⟨mOffset', p', hset', hjoined, hholds⟩ := (view_joined hlive).set h.table hx hfair.1
    (hfair.2 x hx) sys.pick sys.openShmChunk
  rw [hset] at hset'
  cases hset'
  exact (h.write hholds).proceed ⟨live, hjoined⟩

theorem Inv.copy (h : Inv cfg mgr w) (hfair : Fair cfg mgr w (.op j sys (.copy dst src)))
    (hs : w.run cfg mgr j sys (.copy dst src) = some w') (ho : w'.Allocated) : Inv cfg mgr w' := by
  simp only [World.run] at hs
  split at hs
  · cases hs
  · rename_i z hz
    split at hs
    · cases hs
    · rename_i link hlink
      obtain ⟨x, mOffset, p, hx, hcopy, rfl⟩ := store_cases hs
      obtain ⟨live, hlive⟩ := h.joined j
      obtain ⟨hjoined, hholds⟩ := (view_joined hlive).copy h.table view_table
        (view_mapsMissing hfair.1) hx hz
        (h.holds z link hlink) (hfair.2 z link hz hlink x hx) hcopy
        (allocated_put ho (Function.update_self ..))
      exact (h.write hholds).proceed hjoined

/-- `get` of a pointer object that has been stored to. -/
theorem Inv.get (h : Inv cfg mgr w) (hsys : MapsMissing cfg sys w.table (mgr j) (w.process j))
    (hx : locate (w.process j) (mgr j) self = some x) (hlink : w.links x = some link) :
    ∃ addr w', w.get cfg mgr j sys self = some (addr, w') ∧
      (w'.Allocated → Inv cfg mgr w' ∧ w'.links = w.links ∧
        MapsMissing cfg sys w'.table (mgr j) (w'.process j) ∧
        (∀ a y, locate (w.process j) (mgr j) a = some y →
          locate (w'.process j) (mgr j) a = some y) ∧
        locate (w'.process j) (mgr j) addr = link ∧ (link = none → addr = 0)) := by
  obtain ⟨live, hlive⟩ := h.joined j
  obtain ⟨addr, p, hget, hafter⟩ := (view_joined hlive).get h.table view_table
    (view_mapsMissing hsys) hx
    (h.holds x link hlink)
  refine ⟨addr, { w with process := Function.update w.process j p }, ?_, fun ho => ?_⟩
  · simp only [World.get, hx, hget, Option.map_some]
  · obtain ⟨hnull, hsys', live', hpre, hjoined, htarget⟩ := hafter
      (allocated_put ho (Function.update_self ..))
    have hself : Function.update w.process j p j = p := Function.update_self ..
    refine ⟨h.proceed ⟨live', hjoined⟩, rfl, ?_, fun a y ha => ?_, ?_, hnull⟩
    · show MapsMissing cfg sys w.table (mgr j) (Function.update w.process j p j)
      rwa [hself]
    · exact (congrArg (fun p => locate p (mgr j) a) hself).trans
        (locate_keeps (view_joined hlive) hjoined hpre ha)
    · exact (congrArg (fun p => locate p (mgr j) addr) hself).trans htarget

/-- The table is extended. -/
theorem Joined.mono {t t' : SegmentTable} {m : M} {live : List (LiveSegment M)} {p : Process M}
    (h : Joined cfg t m live p) (ht : t.published <+: t'.published) : Joined cfg t' m live p :=
  ⟨⟨h.maps, h.shm, h.kind, h.listed.trans ht⟩, h.distinct, h.userRange, h.primary⟩

theorem Holds.mono {t t' : SegmentTable} {mOffset : Word} (h : Holds t x mOffset link)
    (ht : t.published <+: t'.published) : Holds t' x mOffset link := by
  cases link with
  | none => exact h
  | some y =>
    obtain ⟨more, hmore⟩ := ht
    refine ⟨h.1, h.2.1, Nat.lt_of_lt_of_le h.2.2 ?_⟩
    rw [← hmore, extents_append, span_append]
    exact Nat.le_add_right _ _

theorem Inv.grow (h : Inv cfg mgr w) (hfair : Fair cfg mgr w (.grow j sys size))
    (hs : w.grow cfg mgr j sys size = some w') (ho : w'.Allocated) : Inv cfg mgr w' := by
  obtain ⟨live, hlive⟩ := h.joined j
  obtain ⟨hcount, hsize, hfits, hfresh⟩ := hfair
  have hlists := hlive.maps.toLists
  rw [listed_eq hlists] at hcount
  have hsegs := hlists.map_object (mgr j) SegmentObject.toSegment
  have hranges : rangesOf ((segmentsOf live (mgr j)).map (·.toSegment)) = w.table.published := by
    have hlength : (fileRangesOf live (mgr j)).length = w.table.published.length := by
      rw [fileRangesOf, List.length_map, hcount, SegmentTable.published_length]
    rw [← hlive.listed.eq_of_length hlength, rangesOf, List.map_map]
    rfl
  have hspan : (getSizeUnlocked w.table.published).toNat = span (extents w.table.published) :=
    getSizeUnlocked_toNat (by omega)
  have hfront : ∃ s0 rest, (segmentsOf live (mgr j)).map (·.toSegment) = s0 :: rest ∧
      s0.isPrimary = true := by
    have hprimary := hlive.primary
    cases hsegments : segmentsOf live (mgr j) with
    | nil =>
      rw [hsegments] at hprimary
      cases hprimary
    | cons s0 rest =>
      rw [hsegments] at hprimary
      exact ⟨_, _, rfl, hprimary⟩
  simp only [World.grow, hsegs, hranges, updateSegmentTable_concat hfront, List.length_map,
    hcount] at hs
  split at hs
  · rename_i mapping t' hmap htable
    split at htable
    · cases htable
    · cases htable
      cases hs
      have hpublished := w.table.published_update ⟨getSizeUnlocked w.table.published, size⟩
      generalize { w.table with
        count := w.table.count + 1
        entries := Function.update w.table.entries w.table.count
          ⟨getSizeUnlocked w.table.published, size⟩ } = t' at hpublished ho ⊢
      have hpre : w.table.published <+: t'.published := ⟨_, hpublished.symm⟩
      have hfirst : Inv cfg mgr { w with table := t' } := by
        refine ⟨⟨?_, ?_, ?_⟩, fun i => ?_, fun x link hx => (h.holds x link hx).mono hpre⟩
        · show LaidOut 0 (extents t'.published)
          rw [hpublished, extents_append]
          refine laidOut_concat.mpr ⟨h.table.laid, ?_⟩
          rw [Nat.zero_add]
          exact hspan
        · show span (extents t'.published) < 2 ^ 63
          rw [hpublished, extents_append, span_append]
          exact hfits
        · intro e he
          have he' : e ∈ t'.published := he
          rw [hpublished] at he'
          rcases List.mem_append.mp he' with hold | hnew
          · exact h.table.pos e hold
          · rwa [List.mem_singleton.mp hnew]
        · obtain ⟨live', hlive'⟩ := h.joined i
          exact ⟨live', hlive'.mono hpre⟩
      apply hfirst.proceed
      refine ⟨_, (hlive.mono hpre).append (hfresh _ mapping hmap) hsize rfl rfl ?_
        (allocated_put ho (Function.update_self ..))⟩
      have hall : fileRangesOf live (mgr j) = w.table.published := by
        rw [← hranges, rangesOf, List.map_map]
        rfl
      rw [hall, hpublished]
      exact List.prefix_refl _
  · cases hs

theorem inv_step {l : Label J M} (h : Inv cfg mgr w) (hfair : FairStep cfg mgr w l)
    (hs : step cfg mgr w l = some w') : Inv cfg mgr w' := by
  have ho := hfair.2 w' hs
  cases l with
  | op j sys op =>
    cases op with
    | assign dst ptr => exact h.assign hfair.1 hs
    | copy dst src => exact h.copy hfair.1 hs ho
    | get self =>
      obtain ⟨⟨addr, w₁⟩, hget, rfl⟩ := Option.map_eq_some_iff.mp hs
      have hx : ∃ x, locate (w.process j) (mgr j) self = some x := by
        cases hx : locate (w.process j) (mgr j) self with
        | none =>
          simp only [World.get, hx, reduceCtorEq] at hget
        | some x => exact ⟨x, rfl⟩
      obtain ⟨x, hx⟩ := hx
      obtain ⟨link, hlink⟩ := Option.isSome_iff_exists.mp (hfair.1.2 x hx)
      obtain ⟨addr', w', hget', hafter⟩ := h.get hfair.1.1 hx hlink
      rw [hget] at hget'
      cases hget'
      exact (hafter ho).1
  | grow j sys size => exact h.grow hfair.1 hs ho

/-! ## 7. Results -/

/-- A file that processes have joined, without any pointer object yet. -/
structure Started (cfg : Config) (mgr : J → M) (w : World J M) : Prop where
  table : WellLaid w.table
  joined : ∀ j, ∃ live, Joined cfg w.table (mgr j) live (w.process j)
  links : w.links = fun _ => none

variable {w₀ : World J M}

theorem inv_of_run (h₀ : Started cfg mgr w₀)
    (hrun : Steps (step cfg mgr) (FairStep cfg mgr) w₀ w) : Inv cfg mgr w := by
  refine hrun.invariant (Inv cfg mgr) ⟨h₀.table, h₀.joined, fun x link hx => ?_⟩
    fun _ _ _ h hfair hs => inv_step h hfair hs
  rw [h₀.links] at hx
  cases hx

/-- In every fair run of any number of processes, a pointer object in the file that has
    been stored to can be followed in each process that has it mapped. It leads to that
    process's address of the file offset that was stored last, whichever process has
    stored it, or to null. -/
theorem links_followed (h₀ : Started cfg mgr w₀)
    (hrun : Steps (step cfg mgr) (FairStep cfg mgr) w₀ w)
    (hsys : MapsMissing cfg sys w.table (mgr j) (w.process j))
    (hx : locate (w.process j) (mgr j) self = some x) (hlink : w.links x = some link) :
    ∃ addr w', w.get cfg mgr j sys self = some (addr, w') ∧
      (w'.Allocated → locate (w'.process j) (mgr j) addr = link ∧ (link = none → addr = 0)) := by
  obtain ⟨addr, w', hget, hafter⟩ := (inv_of_run h₀ hrun).get hsys hx hlink
  exact ⟨addr, w', hget, fun ho => (hafter ho).2.2.2.2⟩

/-- `n` pointers are followed, each at the address that the one before has given. -/
def World.follow (cfg : Config) (mgr : J → M) (j : J) (sys : System M) :
    Nat → Word → World J M → Option (Word × World J M)
  | 0, self, w => some (self, w)
  | n + 1, self, w =>
      match w.get cfg mgr j sys self with
      | none => none
      | some (addr, w) => World.follow cfg mgr j sys n addr w

theorem Inv.follow {n : Nat} {y : Word} (h : Inv cfg mgr w)
    (hsys : MapsMissing cfg sys w.table (mgr j) (w.process j)) (hpath : w.links.Path n x y)
    (hx : locate (w.process j) (mgr j) self = some x)
    (ho : ∀ k addr w', k ≤ n → World.follow cfg mgr j sys k self w = some (addr, w') →
      w'.Allocated) :
    ∃ addr w', World.follow cfg mgr j sys n self w = some (addr, w') ∧
      locate (w'.process j) (mgr j) addr = some y := by
  induction n generalizing w self x with
  | zero =>
    cases hpath
    exact ⟨self, w, rfl, hx⟩
  | succ n ih =>
    cases hpath with
    | @step _ _ z _ hlink hpath =>
      obtain ⟨addr, w₁, hget, hafter⟩ := h.get hsys hx hlink
      have hfollow : ∀ k, World.follow cfg mgr j sys (k + 1) self w =
          World.follow cfg mgr j sys k addr w₁ := by
        intro k
        rw [World.follow, hget]
      have ho₁ : w₁.Allocated := ho 1 addr w₁ (Nat.succ_le_succ (Nat.zero_le n)) (hfollow 0)
      obtain ⟨h₁, hlinks, hsys₁, -, htarget, -⟩ := hafter ho₁
      rw [hfollow]
      refine ih h₁ hsys₁ (hlinks ▸ hpath) htarget fun k addr' w' hk hrun => ?_
      exact ho (k + 1) addr' w' (Nat.succ_le_succ hk) ((hfollow k).trans hrun)

/-- A linked structure that several processes have built is walked alike in all of them:
    along every path of links, however long, and into chunks that the process has not
    mapped yet. -/
theorem path_followed {n : Nat} {y : Word} (h₀ : Started cfg mgr w₀)
    (hrun : Steps (step cfg mgr) (FairStep cfg mgr) w₀ w)
    (hsys : MapsMissing cfg sys w.table (mgr j) (w.process j)) (hpath : w.links.Path n x y)
    (hx : locate (w.process j) (mgr j) self = some x)
    (ho : ∀ k addr w', k ≤ n → World.follow cfg mgr j sys k self w = some (addr, w') →
      w'.Allocated) :
    ∃ addr w', World.follow cfg mgr j sys n self w = some (addr, w') ∧
      locate (w'.process j) (mgr j) addr = some y :=
  (inv_of_run h₀ hrun).follow hsys hpath hx ho

end runs

/-- One process has mapped both chunks and another one the first, elsewhere. -/
def sharedFile : World Bool Bool where
  table := sharedTable
  offset := fun _ => 0
  process := fun j => if j then bothChunks else oneChunk
  links := fun _ => none

def sharedSystem : System Bool := ⟨mapSecond, heap⟩

/-- A link from the first chunk into the second, and one back. -/
def oneLink : World Bool Bool :=
  (sharedFile.run Trie.defaultConfig (fun _ => false) true sharedSystem
    (.assign 0x10001000 0x8000010)).getD sharedFile

def twoLinks : World Bool Bool :=
  (oneLink.run Trie.defaultConfig (fun _ => false) true sharedSystem
    (.assign 0x8000010 0x10001800)).getD oneLink

theorem sharedFile_started : Started Trie.defaultConfig (fun _ => false) sharedFile := by
  have huser : ∀ s ∈ [firstChunk, secondChunk, firstElsewhere],
      UserRange fourKiBPages s.baseVaddr s.size := by
    intro s hs
    exact ⟨by revert s; decide, fun _ _ => rfl⟩
  have hfirst : Pointers.CanAdd Trie.defaultConfig id ⟨[], []⟩ firstChunk := by decide
  have hsecond : Pointers.CanAdd Trie.defaultConfig id ⟨[firstChunk], []⟩ secondChunk := by decide
  have helsewhere : Pointers.CanAdd Trie.defaultConfig id ⟨[], []⟩ firstElsewhere := by decide
  have hboth : Maps Trie.defaultConfig [firstChunk, secondChunk] bothChunks :=
    Maps.add (Maps.add (maps_nil rfl fun _ => rfl) hfirst (by decide +kernel)) hsecond
      (by decide +kernel)
  have hone : Maps Trie.defaultConfig [firstElsewhere] oneChunk :=
    Maps.add (maps_nil rfl fun _ => rfl) helsewhere (by decide +kernel)
  refine ⟨⟨⟨rfl, rfl, trivial⟩, by decide, by decide⟩, fun j => ?_, rfl⟩
  cases j with
  | true =>
    refine ⟨[firstChunk, secondChunk], ⟨hboth, rfl, by decide, by decide⟩, by decide, ?_, rfl⟩
    intro s hs
    apply huser
    revert s
    decide
  | false =>
    refine ⟨[firstElsewhere], ⟨hone, rfl, by decide, by decide⟩, by decide, ?_, rfl⟩
    intro s hs
    apply huser
    revert s
    decide

theorem fairStep_assign {w w' : World Bool Bool} {dst ptr x y : Word}
    (hx : locate (w.process true) false dst = some x)
    (hy : locate (w.process true) false ptr = some y) (hne : y ≠ x + 1)
    (hs : step Trie.defaultConfig (fun _ => false) w
      (.op true sharedSystem (.assign dst ptr)) = some w') (ho : w'.Allocated) :
    FairStep Trie.defaultConfig (fun _ => false) w
      (.op true sharedSystem (.assign dst ptr)) := by
  refine ⟨⟨fun _ => by rw [hy]; rfl, fun x' hx' => ?_⟩, fun w₁ hw₁ => ?_⟩
  · rw [hx] at hx'
    rw [hy]
    exact fun heq => hne ((Option.some.inj heq).trans (by rw [Option.some.inj hx']))
  · rw [hs] at hw₁
    exact Option.some.inj hw₁ ▸ ho

theorem twoLinks_run : Steps (step Trie.defaultConfig fun _ => false)
    (FairStep Trie.defaultConfig fun _ => false) sharedFile twoLinks := by
  have hs₁ : step Trie.defaultConfig (fun _ => false) sharedFile
      (.op true sharedSystem (.assign 0x10001000 0x8000010)) = some oneLink :=
    eq_some_getD (by decide +kernel) sharedFile
  have hs₂ : step Trie.defaultConfig (fun _ => false) oneLink
      (.op true sharedSystem (.assign 0x8000010 0x10001800)) = some twoLinks :=
    eq_some_getD (by decide +kernel) oneLink
  have ho₁ : oneLink.Allocated := by
    unfold World.Allocated
    decide +kernel
  have ho₂ : twoLinks.Allocated := by
    unfold World.Allocated
    decide +kernel
  have hfair₁ := fairStep_assign (x := 0x1000) (y := 0x2010) (by decide +kernel)
    (by decide +kernel) (by decide) hs₁ ho₁
  have hfair₂ := fairStep_assign (x := 0x2010) (y := 0x1800) (by decide +kernel)
    (by decide +kernel) (by decide) hs₂ ho₂
  exact .head hfair₁ hs₁ (.single hfair₂ hs₂)

instance (cfg : Config) (s s' : LiveSegment Bool) : Decidable (Apart cfg s s') :=
  inferInstanceAs (Decidable (_ ∧ _))

instance (w : World Bool Bool) : Decidable w.Allocated :=
  inferInstanceAs (Decidable (∀ j, (w.process j).memory.outOfMemory = false))

/-- The process that has mapped one chunk discovers the other one on its way. -/
theorem twoLinks_mapsMissing : MapsMissing Trie.defaultConfig sharedSystem twoLinks.table false
    (twoLinks.process false) := by
  have hlisted : ∀ mgr, ∀ s ∈ listed (twoLinks.process false) mgr,
      Apart Trie.defaultConfig s secondElsewhere := by decide +kernel
  refine ⟨[secondElsewhere], by decide +kernel, fun s hs => ?_, List.pairwise_singleton _ _⟩
  obtain rfl := List.mem_singleton.mp hs
  exact ⟨by decide, by decide, ⟨by decide, fun _ _ => rfl⟩, hlisted⟩

theorem links_followed_elsewhere : ∃ (addr : Word) (w' : World Bool Bool),
    twoLinks.get Trie.defaultConfig (fun _ => false) false sharedSystem 0x30001000 =
      some (addr, w') ∧ locate (w'.process false) false addr = some 0x2010 := by
  have hx : locate (twoLinks.process false) false 0x30001000 = some 0x1000 := by decide +kernel
  have hlink : twoLinks.links 0x1000 = some (some 0x2010) := by decide +kernel
  have hafter : (twoLinks.get Trie.defaultConfig (fun _ => false) false sharedSystem
      0x30001000).all (fun r => decide r.2.Allocated) =
        true := by decide +kernel
  obtain ⟨addr, w', hget, htarget⟩ := links_followed sharedFile_started twoLinks_run
    twoLinks_mapsMissing hx hlink
  rw [hget] at hafter
  exact ⟨addr, w', hget, (htarget (of_decide_eq_true hafter)).1⟩

theorem path_followed_elsewhere : ∃ (addr : Word) (w' : World Bool Bool),
    World.follow Trie.defaultConfig (fun _ => false) false sharedSystem 2 0x30001000 twoLinks =
      some (addr, w') ∧ locate (w'.process false) false addr = some 0x1800 := by
  have hx : locate (twoLinks.process false) false 0x30001000 = some 0x1000 := by decide +kernel
  have hfirst : twoLinks.links 0x1000 = some (some 0x2010) := by decide +kernel
  have hsecond : twoLinks.links 0x2010 = some (some 0x1800) := by decide +kernel
  have hall : ∀ k ∈ List.range 3, (World.follow Trie.defaultConfig (fun _ => false) false
      sharedSystem k 0x30001000 twoLinks).all (fun r => decide r.2.Allocated) = true := by
    decide +kernel
  refine path_followed sharedFile_started twoLinks_run twoLinks_mapsMissing
    (.step hfirst (.step hsecond (.refl _))) hx fun k addr w' hk hget => ?_
  have hafter := hall k (List.mem_range.mpr (Nat.lt_succ_of_le hk))
  rw [hget] at hafter
  exact of_decide_eq_true hafter

end Memnon.OffsetPtr.SharedLinks
