import Memnon.OffsetPtrShared

/-!
# Corrupt offsets in shared memory

Any process attached to the file may write any `m_offset` and any table entry. A
pointer object in a SHM segment still resolves to null or into a segment of its
own manager: the file offset is reduced modulo `2 ^ 64` before it is searched,
and no range that wraps around covers anything.
-/

namespace Memnon.OffsetPtr

open Memnon.Lib
open Memnon.Trie (Config)

variable {M : Type} [DecidableEq M]

/-- The address is in `[base, base + size)` of a segment that the manager lists. -/
def Process.HasAddress (p : Process M) (mgr : M) (addr : Word) : Prop :=
  ∃ seg ∈ p.segments mgr, (p.object seg).manager = mgr ∧
    (p.object seg).baseVaddr.toNat ≤ addr.toNat ∧
    addr.toNat < (p.object seg).baseVaddr.toNat + (p.object seg).size.toNat

variable {cfg : Config} {pick : Trie.Memory Unit → Word}
  {openShmChunk : M → Word → Word → Option Mapping} {live new : List (LiveSegment M)}
  {p : Process M} {mgr : M} {s : LiveSegment M} {self fileOffset addr : Word}

theorem Lists.hasAddress (h : Lists live p) (hs : s ∈ segmentsOf live mgr)
    (haddr : s.Contains addr) : p.HasAddress mgr addr := by
  obtain ⟨hlive, hmgr⟩ := mem_segmentsOf.mp hs
  refine ⟨s.seg, ?_, ?_⟩
  · rw [h.segments]
    exact List.mem_map_of_mem hs
  · rw [h.object s hlive]
    exact ⟨hmgr, haddr⟩

omit [DecidableEq M] in
theorem lazyDiscoverGrowth_cases (t : SegmentTable) (segments : List Memnon.Segment)
    (required : Word) : ∃ found, lazyDiscoverGrowth t segments required = (segments, found) ∨
      lazyDiscoverGrowth t segments required =
        (segments ++ (t.published.drop segments.length).map fun e => ⟨e, false⟩, found) := by
  by_cases hknown : required < getSizeUnlocked (segments.map Memnon.Segment.toFileRange)
  · exact ⟨true, .inl (if_pos hknown)⟩
  · exact ⟨_, .inr (if_neg hknown)⟩

/-- Discovery maps all that is missing from the list, or nothing. -/
theorem Lists.discoverGrowth_lists (cfg : Config) (pick : Trie.Memory Unit → Word)
    (h : Lists live p) (fileOffset : Word)
    (hmapped : ((p.table mgr).published.drop (segmentsOf live mgr).length).mapM
      (mapEntry openShmChunk mgr) = some new)
    (hfresh : ((live ++ new).map LiveSegment.seg).Nodup) :
    ∃ found p', discoverGrowth cfg pick openShmChunk mgr fileOffset p = some (found, p') ∧
      (Lists live p' ∨ Lists (live ++ new) p') := by
  have hsegs := h.map_object mgr SegmentObject.toSegment
  have hlength : (p.segments mgr).length = (segmentsOf live mgr).length := by
    rw [h.segments, List.length_map]
  unfold discoverGrowth
  split
  · exact ⟨false, p, rfl, .inl h⟩
  · rw [hsegs, hlength]
    obtain ⟨found, hlazy | hlazy⟩ := lazyDiscoverGrowth_cases (p.table mgr)
      ((segmentsOf live mgr).map (·.toSegment)) fileOffset
    · have hnone : ((segmentsOf live mgr).map (·.toSegment)).drop (segmentsOf live mgr).length =
          [] := List.drop_eq_nil_of_le (Nat.le_of_eq (List.length_map _))
      refine ⟨found, p, ?_, .inl h⟩
      rw [hlazy]
      simp only [hnone, List.map_nil, discoverLoop]
    · obtain ⟨p', hrun, hp'⟩ := discoverLoop_lists cfg pick h hmapped hfresh
      have hmissing : ((((segmentsOf live mgr).map (·.toSegment) ++
          ((p.table mgr).published.drop (segmentsOf live mgr).length).map
            fun e => (⟨e, false⟩ : Memnon.Segment))).drop (segmentsOf live mgr).length).map
              Memnon.Segment.toFileRange =
          (p.table mgr).published.drop (segmentsOf live mgr).length := by
        rw [List.drop_left' (List.length_map _), List.map_map]
        exact List.map_id _
      refine ⟨found, p', ?_, .inr hp'⟩
      rw [List.length_map] at hlazy
      rw [hlazy]
      simp only [hmissing, hrun]

/-- The object lies in a SHM segment, and each table entry that is not mapped yet
    can be mapped, wherever it is. Then `get` returns null or an address in a
    segment of the same manager, for every stored offset. -/
theorem shm_resolution_contained (pick : Trie.Memory Unit → Word) (h : Maps cfg live p)
    (hs : s ∈ live) (hshm : s.isAnon = false) (hself : s.Contains self)
    (hcanonical : cfg.platform.ptrToVaddr self = self)
    (hmapped : ((p.table s.manager).published.drop (segmentsOf live s.manager).length).mapM
      (mapEntry openShmChunk s.manager) = some new)
    (hfresh : ((live ++ new).map LiveSegment.seg).Nodup)
    (hspace : ∀ s' ∈ new, s'.baseVaddr.toNat + s'.size.toNat ≤ 2 ^ 64) (mOffset : Word) :
    ∃ addr p', get cfg.platform (runtime cfg pick openShmChunk) self mOffset p =
        some (addr, p') ∧ (addr = 0 ∨ p'.HasAddress s.manager addr) := by
  have hstop : ∀ s' ∈ live ++ new, s'.baseVaddr.toNat + s'.size.toNat ≤ 2 ^ 64 := by
    intro s' hs'
    rcases List.mem_append.mp hs' with hs' | hs'
    · exact Nat.le_trans (Nat.le_add_right _ _) (h.stop_le hs')
    · exact hspace s' hs'
  -- what a search in such a list finds has the address that `get` makes of it
  have hcontained : ∀ {l : List (LiveSegment M)} {q : Process M} {fileOffset : Word}
      {s' : LiveSegment M}, Lists l q → l ⊆ live ++ new →
      (segmentsOf l s.manager).find? (·.coversFileOffset fileOffset) = some s' →
      q.HasAddress s.manager (s'.addrOf fileOffset) := by
    intro l q fileOffset s' hl hsub hfind
    have hmem := List.mem_of_find?_eq_some hfind
    have hcovers : s'.coversFileOffset fileOffset = true := by simpa using List.find?_some hfind
    exact hl.hasAddress hmem
      (contains_addrOf (hstop s' (hsub (mem_segmentsOf.mp hmem).1)) hcovers)
  by_cases hnull : mOffset = kNull
  · refine ⟨0, p, ?_, .inl rfl⟩
    rw [get, if_pos hnull]
    rfl
  · have hhas := h.has_of_contains hs hself
    obtain ⟨p₁, hfind, hp₁⟩ := h.find pick (h.key_lt hs hhas)
    have hat : (liveRuntime cfg live).find self = some s.toSubSegment :=
      congrArg (Option.map fun r : LiveSegment M => r.toSubSegment) (h.segmentAt_eq hs hhas)
    have hanon : ¬ s.isAnon = true := by simp [hshm]
    rw [get, if_neg hnull, hcanonical]
    simp only [run_bind (x := findSegment cfg pick self) hfind, runtime, hat, if_neg hanon]
    generalize s.fileOffsetOf self + mOffset = fileOffset
    have hsearch := hp₁.maps.toLists.findByFileOffset s.manager fileOffset
    cases hfirst : (segmentsOf live s.manager).find? (·.coversFileOffset fileOffset) with
    | some s' =>
      rw [hfirst] at hsearch
      refine ⟨_, p₁, run_bind hsearch, .inr ?_⟩
      exact hcontained hp₁.maps.toLists (List.subset_append_left _ _) hfirst
    | none =>
      rw [hfirst] at hsearch
      have htable : p₁.table s.manager = p.table s.manager := congrFun hp₁.table s.manager
      obtain ⟨found, p₂, hdiscover, hp₂⟩ := hp₁.maps.toLists.discoverGrowth_lists cfg pick
        fileOffset (htable ▸ hmapped) hfresh
      cases found with
      | false => exact ⟨0, p₂, (run_bind hsearch).trans (run_bind hdiscover), .inl rfl⟩
      | true =>
        obtain ⟨l, hl, hsub⟩ : ∃ l, Lists l p₂ ∧ l ⊆ live ++ new := by
          rcases hp₂ with hp₂ | hp₂
          · exact ⟨live, hp₂, List.subset_append_left _ _⟩
          · exact ⟨live ++ new, hp₂, List.Subset.refl _⟩
        have hagain := hl.findByFileOffset s.manager fileOffset
        cases hsecond : (segmentsOf l s.manager).find? (·.coversFileOffset fileOffset) with
        | some s' =>
          rw [hsecond] at hagain
          refine ⟨_, p₂, ?_, .inr (hcontained hl hsub hsecond)⟩
          exact (run_bind hsearch).trans ((run_bind hdiscover).trans (run_bind hagain))
        | none =>
          rw [hsecond] at hagain
          refine ⟨0, p₂, ?_, .inl rfl⟩
          exact (run_bind hsearch).trans ((run_bind hdiscover).trans (run_bind hagain))

/-- Entry 1 overlaps nothing, but does not follow entry 0 either. -/
def corruptTable : SegmentTable :=
  { sharedTable with entries := fun i => if i = 0 then ⟨0, 0x2000⟩ else ⟨0x3000, 0x4000⟩ }

def corruptChunk : Process Bool :=
  { twoManagers with table := fun _ => corruptTable }.addSegment Trie.defaultConfig heap
    firstElsewhere.seg firstElsewhere.toSegmentObject

theorem shm_resolution_contained_corrupt : ∃ (addr : Word) (p' : Process Bool),
    get fourKiBPages (runtime Trie.defaultConfig heap mapSecond) 0x30001000 0x2010 corruptChunk =
      some (addr, p') ∧ (addr = 0 ∨ p'.HasAddress false addr) := by
  have hadd : Pointers.CanAdd Trie.defaultConfig id ⟨[], []⟩ firstElsewhere := by decide
  have hmaps : Maps Trie.defaultConfig [firstElsewhere] corruptChunk :=
    Maps.add (maps_nil rfl fun _ => rfl) hadd (by decide +kernel)
  have hself : firstElsewhere.Contains 0x30001000 := by decide
  have hmapped : (corruptTable.published.drop 1).mapM (mapEntry mapSecond false) =
      some [⟨⟨⟨0x20000000, 0x4000, 0x3000, false, false⟩, false⟩, 0x70110⟩] := rfl
  exact shm_resolution_contained heap hmaps List.mem_cons_self rfl hself (by decide) hmapped
    (by decide) (by decide) 0x2010

end Memnon.OffsetPtr
