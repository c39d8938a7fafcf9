import Memnon.Platform
import Mathlib.Tactic.Common

/-!
# segmented_offset_ptr

`set` encodes a raw pointer in one of three ways, chosen by where the pointer
object lies; `get` decodes it by the same case. Both ask the process's registry
for segments, and `get` calls back into the manager of its own segment. These
calls are the pointer's runtime: its effects are those of the monad they run in.
-/

namespace Memnon.OffsetPtr

/-- `m_offset` of a null pointer. -/
def kNull : Word := 1#64

/-- The fields of a `sub_segment` that pointers read; `M` names managers. -/
structure SubSegment (M : Type) where
  baseVaddr : Word
  size : Word
  fileOffset : Word
  isAnon : Bool
  manager : M
deriving DecidableEq

/-- `segment_registry::find`, and the two callbacks of a `sub_segment`. -/
structure Runtime (M : Type) (F : Type → Type) where
  find : Word → F (Option (SubSegment M))
  findByFileOffset : M → Word → F (Option (SubSegment M))
  discoverGrowth : M → Word → F Bool

/-- The exceptions of `set`. -/
inductive SetError where
  | unmanaged
  | acrossManagers
deriving DecidableEq

variable {M : Type} {F : Type → Type} [Monad F] (P : Platform) (R : Runtime M F)

/-- The address of a file offset in a mapped segment. -/
def SubSegment.addrOf (s : SubSegment M) (fileOffset : Word) : Word :=
  s.baseVaddr + (fileOffset - s.fileOffset)

/-- The file offset of an address in a mapped segment. -/
def SubSegment.fileOffsetOf (s : SubSegment M) (addr : Word) : Word :=
  s.fileOffset + (addr - s.baseVaddr)

/-- `get()` of the pointer object at `self` that stores `mOffset`. -/
def get (self mOffset : Word) : F Word := do
  if mOffset = kNull then return 0
  else
    let selfAddr := P.ptrToVaddr self
    match ← R.find selfAddr with
    | none => return selfAddr + mOffset
    | some selfSeg =>
        if selfSeg.isAnon then return selfSeg.baseVaddr + mOffset
        else
          let targetFileOffset := selfSeg.fileOffsetOf selfAddr + mOffset
          match ← R.findByFileOffset selfSeg.manager targetFileOffset with
          | some targetSeg => return targetSeg.addrOf targetFileOffset
          | none =>
              if ← R.discoverGrowth selfSeg.manager targetFileOffset then
                match ← R.findByFileOffset selfSeg.manager targetFileOffset with
                | some targetSeg => return targetSeg.addrOf targetFileOffset
                | none => return 0
              else return 0

/-- `set(ptr)` on the pointer object at `self`: the new `m_offset`. -/
def set [DecidableEq M] (self ptr : Word) : F (Except SetError Word) := do
  if ptr = 0 then return .ok kNull
  else
    let selfAddr := P.ptrToVaddr self
    let selfSeg ← R.find selfAddr
    let targetSeg ← R.find ptr
    match selfSeg with
    | none => return .ok (ptr - selfAddr)
    | some selfSeg =>
        if selfSeg.isAnon then return .ok (ptr - selfSeg.baseVaddr)
        else
          match targetSeg with
          | none => return .error .unmanaged
          | some targetSeg =>
              if targetSeg.manager ≠ selfSeg.manager then return .error .acrossManagers
              else return .ok (targetSeg.fileOffsetOf ptr - selfSeg.fileOffsetOf selfAddr)

/-- Copy construction and assignment: the object at `dst` from the one at
    `src`. -/
def copy [DecidableEq M] (dst src srcOffset : Word) : F (Except SetError Word) := do
  let ptr ← get P R src srcOffset
  set P R dst ptr

end Memnon.OffsetPtr
