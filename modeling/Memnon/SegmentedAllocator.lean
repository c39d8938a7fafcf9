import Memnon.ManagerReentry

/-!
# segmented_allocator

`allocate(n)` asks the manager for `n * sizeof(T)` bytes, computed with the
wrap-around of `size_t`. Beyond `max_size()` the product wraps, and a manager that
has room for the small remainder hands out a block that is too short.
-/

namespace Memnon.SegmentedAllocator

open Memnon.Lib Memnon.OffsetPtr

variable {H N : Type}

/-! ## 1. The allocator -/

/-- `max_size()`. -/
def maxSize (sizeofT : Word) : Word := BitVec.allOnes 64 / sizeofT

/-- `allocate(n)`: the block, and the pointer to it that is made at `self`. -/
def allocate (P : Platform) (I : InnerManager H N) (env : Env H) (W : Surroundings)
    (sizeofT n self : Word) : Op H (Word × Word) := do
  let raw ← Memnon.allocate P I env (n * sizeofT)
  match ← OffsetPtr.set P (managerRuntime P I env W) self raw with
  | .ok mOffset => return (raw, mOffset)
  | .error _ => .raise .runtimeError

/-- The sizes of the blocks of an inner manager: a block is as large as was asked
    for, and fits into memory. -/
structure BlockSizes (I : InnerManager H N) (size : H → Word → Nat) : Prop where
  allocated : ∀ {smgr smgr' : H} {bytes offset : Word},
    I.allocate smgr bytes = some (offset, smgr') → bytes.toNat ≤ size smgr' offset
  fits : ∀ smgr offset, size smgr offset < 2 ^ 64

/-- The block at `raw`, which the manager has just allocated for `bytes` bytes. -/
def Issued (I : InnerManager H N) (m : Manager H) (bytes raw : Word) (info : SegInfo H)
    (offset : Word) : Prop :=
  info ∈ m.segments ∧ raw = info.blockAddr I offset ∧
    ∃ smgr, I.allocate smgr bytes = some (offset, info.smgr)

/-! ## 2. What it returns -/

section allocate

variable {P : Platform} {I : InnerManager H N} {env : Env H} {W : Surroundings}
  {m m' : Manager H} {bytes raw sizeofT n self mOffset : Word}

/-- A product of sizes wraps exactly beyond `max_size()`. -/
theorem mul_le_iff (hsize : 1 ≤ sizeofT.toNat) :
    n.toNat * sizeofT.toNat < 2 ^ 64 ↔ n ≤ maxSize sizeofT := by
  rw [maxSize, BitVec.le_def, BitVec.toNat_udiv, Nat.le_div_iff_mul_le hsize,
    BitVec.toNat_allOnes]
  omega

theorem toNat_mul_eq (h : n.toNat * sizeofT.toNat < 2 ^ 64) :
    (n * sizeofT).toNat = n.toNat * sizeofT.toNat := by
  rw [BitVec.toNat_mul, Nat.mod_eq_of_lt h]

/-- A served request. -/
theorem tryAllocate_issued
    (h : (Call.guarded (listMtx H) (tryAllocateLocked I bytes)).run m = .value (some raw) m') :
    ∃ info offset, Issued I m' bytes raw info offset := by
  obtain ⟨pre, info, post, offset, smgr, -, halloc, hs, hp, -⟩ :=
    allocateLoop_split (allocateLoop_of_run h)
  refine ⟨{ info with smgr := smgr }, offset, ?_, hp, info.smgr, halloc⟩
  rw [hs]
  exact List.mem_append_right _ List.mem_cons_self

theorem allocate_issued (h : (Memnon.allocate P I env bytes).run m = .value raw m') :
    ∃ info offset, Issued I m' bytes raw info offset := by
  obtain ⟨p, m₁, hfirst, h⟩ := Call.run_bind_eq_value h
  cases p with
  | some p =>
    cases h
    exact tryAllocate_issued hfirst
  | none =>
    obtain ⟨u, m₂, -, h⟩ := Call.run_bind_eq_value h
    obtain ⟨q, m₃, hsecond, h⟩ := Call.run_bind_eq_value h
    cases q with
    | some q =>
      cases h
      exact tryAllocate_issued hsecond
    | none => cases h

/-- Making the pointer to the block changes nothing. -/
theorem run_set (P : Platform) (I : InnerManager H N) (env : Env H) (W : Surroundings)
    (self ptr : Word) (m : Manager H) :
    ∃ encoded, (OffsetPtr.set P (managerRuntime P I env W) self ptr).run m = .value encoded m := by
  have hfind : ∀ addr, ((managerRuntime P I env W).find addr).run m =
      .value (registrySegment P W m addr) m := fun _ => rfl
  rw [OffsetPtr.set]
  split
  · exact ⟨_, rfl⟩
  · rw [Call.run_bind_value (hfind _), Call.run_bind_value (hfind _)]
    cases registrySegment P W m (P.ptrToVaddr self) with
    | none => exact ⟨_, rfl⟩
    | some selfSeg =>
      simp only
      split
      · exact ⟨_, rfl⟩
      · cases registrySegment P W m ptr with
        | none => exact ⟨_, rfl⟩
        | some targetSeg =>
          simp only
          split <;> exact ⟨_, rfl⟩

theorem tryAllocate_not_stuck (hlist : m.listHeld = false) :
    (Call.guarded (listMtx H) (tryAllocateLocked I bytes)).run m ≠ .stuck := by
  cases hloop : allocateLoop I m.segments bytes with
  | none =>
    rw [run_tryAllocate_none hlist hloop]
    nofun
  | some served =>
    obtain ⟨m₁, hrun⟩ := run_tryAllocate_some hlist hloop
    rw [hrun]
    nofun

theorem allocate_not_stuck (hm : Ready m) : (Memnon.allocate P I env bytes).run m ≠ .stuck := by
  have hready : ∀ {A : Type} {c : Op H A} {a : A} {m m₁ : Manager H},
      KeepsSegments FrontPrimary c → Ready m → c.run m = .value a m₁ → Ready m₁ :=
    fun hc hm h => hc _ _ _ hm _ (congrArg Outcome.state h)
  have hQ := stable_frontPrimary I
  apply Call.bind_not_stuck (tryAllocate_not_stuck hm.list)
  intro p m₁ hfirst
  have hm₁ : Ready m₁ := hready (.list hQ.tryAllocateLocked) hm hfirst
  cases p with
  | some p => exact Call.pure_not_stuck
  | none =>
    apply Call.bind_not_stuck (grow_not_stuck hm₁)
    intro u m₂ hgrow
    have hm₂ : Ready m₂ := hready hQ.grow hm₁ hgrow
    apply Call.bind_not_stuck (tryAllocate_not_stuck hm₂.list)
    intro q m₃ _
    cases q with
    | some q => exact Call.pure_not_stuck
    | none => nofun

/-- Between operations of the manager `allocate(n)` returns or throws. Whatever it
    returns has `n * sizeof(T)` bytes, in exact integers, if and only if `n` is at
    most `max_size()`. -/
theorem block_fits_iff {size : H → Word → Nat} (hsizes : BlockSizes I size)
    (hsizeof : 1 ≤ sizeofT.toNat) :
    (Ready m → (allocate P I env W sizeofT n self).run m ≠ .stuck) ∧
    ((allocate P I env W sizeofT n self).run m = .value (raw, mOffset) m' →
      ∃ info offset, Issued I m' (n * sizeofT) raw info offset ∧
        (n.toNat * sizeofT.toNat ≤ size info.smgr offset ↔ n ≤ maxSize sizeofT)) := by
  constructor
  · intro hm
    apply Call.bind_not_stuck (allocate_not_stuck hm)
    intro raw m₁ _
    obtain ⟨encoded, hset⟩ := run_set P I env W self raw m₁
    rw [Call.run_bind_value hset]
    cases encoded <;> nofun
  · intro h
    obtain ⟨block, m₁, hraw, h⟩ := Call.run_bind_eq_value h
    obtain ⟨encoded, hset⟩ := run_set P I env W self block m₁
    rw [Call.run_bind_value hset] at h
    cases encoded with
    | error e => cases h
    | ok mOffset' =>
      cases h
      obtain ⟨info, offset, hissued⟩ := allocate_issued hraw
      refine ⟨info, offset, hissued, ?_⟩
      obtain ⟨-, -, smgr, halloc⟩ := hissued
      rw [← mul_le_iff hsizeof]
      constructor
      · intro hlong
        exact Nat.lt_of_le_of_lt hlong (hsizes.fits _ _)
      · intro hfits
        rw [← toNat_mul_eq hfits]
        exact hsizes.allocated halloc

end allocate

/-! ## 3. Blocks of a stack -/

/-- The size of the block at an offset. -/
def arenaBlockSize (a : Arena) (offset : Word) : Nat :=
  match a.blocks.find? fun block => block.1 == offset with
  | some block => block.2.toNat
  | none => 0

theorem arena_blockSizes : BlockSizes arena arenaBlockSize where
  allocated := by
    intro smgr smgr' bytes offset h
    simp only [arena, Arena.allocate] at h
    split at h
    · cases h
      simp [arenaBlockSize]
    · cases h
  fits := by
    intro smgr offset
    unfold arenaBlockSize
    split
    · exact BitVec.isLt _
    · decide

/-- Sixteen elements of 24 bytes. -/
theorem block_fits_small : ∃ raw mOffset m',
    (allocate fourKiBPages arena roomyEnv alone 24 16 0).run (arenaManager 0x1000000) =
      .value (raw, mOffset) m' ∧ ∃ info offset, Issued arena m' (16 * 24) raw info offset ∧
        16 * 24 ≤ arenaBlockSize info.smgr offset := by
  have hrun : ∃ raw mOffset m',
      (allocate fourKiBPages arena roomyEnv alone 24 16 0).run (arenaManager 0x1000000) =
        .value (raw, mOffset) m' := ⟨_, _, _, rfl⟩
  obtain ⟨raw, mOffset, m', hrun⟩ := hrun
  obtain ⟨info, offset, hissued, hfits⟩ := (block_fits_iff arena_blockSizes (by decide)).2 hrun
  exact ⟨raw, mOffset, m', hrun, info, offset, hissued, hfits.mpr (by decide)⟩

/-- `2 ^ 60 + 1` elements of 16 bytes are allocated as 16 bytes. -/
theorem wrapped_product_allocated :
    ¬ ∀ (m m' : Manager Arena) (sizeofT n self raw mOffset : Word), Ready m →
      1 ≤ sizeofT.toNat →
      (allocate fourKiBPages arena roomyEnv alone sizeofT n self).run m =
        .value (raw, mOffset) m' →
      ∃ info offset, Issued arena m' (n * sizeofT) raw info offset ∧
        n.toNat * sizeofT.toNat ≤ arenaBlockSize info.smgr offset := by
  intro hall
  have hready : Ready (arenaManager 0x1000000) := ready_started (.created arenaManager_created)
  have hrun : ∃ raw mOffset m',
      (allocate fourKiBPages arena roomyEnv alone 16 0x1000000000000001 0).run
        (arenaManager 0x1000000) = .value (raw, mOffset) m' := ⟨_, _, _, rfl⟩
  obtain ⟨raw, mOffset, m', hrun⟩ := hrun
  obtain ⟨info, offset, -, hlong⟩ := hall _ m' 16 _ 0 raw mOffset hready (by decide) hrun
  have hshort := arena_blockSizes.fits info.smgr offset
  have hproduct : (0x1000000000000001 : Word).toNat * (16 : Word).toNat = 2 ^ 64 + 16 := rfl
  omega

end Memnon.SegmentedAllocator
