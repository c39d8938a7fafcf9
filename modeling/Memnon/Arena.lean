import Memnon.Manager

/-!
# A stack of blocks as inner manager

The simplest inner manager: blocks are stacked from the bottom of the chunk,
only the top one can be given back, and a name refuses a second object. Runs on
concrete managers use it.
-/

namespace Memnon

/-- Blocks as offset and size, the top first; names with their offsets. -/
structure Arena where
  size : Word
  blocks : List (Word × Word)
  names : List (Nat × Word)
deriving DecidableEq, Inhabited

namespace Arena

def top (a : Arena) : Word :=
  match a.blocks with
  | [] => 0
  | (offset, size) :: _ => offset + size

def allocate (a : Arena) (bytes : Word) : Option (Word × Arena) :=
  if bytes ≤ a.size - a.top then
    some (a.top, { a with blocks := (a.top, bytes) :: a.blocks })
  else none

def deallocate (a : Arena) (offset : Word) : Arena :=
  match a.blocks with
  | [] => a
  | (o, _) :: rest => if o = offset then { a with blocks := rest } else a

def find (a : Arena) (name : Nat) : Option Word :=
  (a.names.find? fun e => e.1 == name).map Prod.snd

def construct (a : Arena) (name : Nat) (bytes : Word) : NameAnswer Arena :=
  if (a.find name).isSome then .refused
  else
    match a.allocate bytes with
    | some (offset, a') => .constructed offset { a' with names := (name, offset) :: a'.names }
    | none => .badAlloc

def destroy (a : Arena) (name : Nat) : Option (Word × Arena) :=
  match a.find name with
  | some offset =>
      some (offset, { a with names := a.names.filter fun e => e.1 != name }.deallocate offset)
  | none => none

end Arena

def arena : InnerManager Arena Nat where
  tableSpace := 0x2900#64
  create size := ⟨size, [], []⟩
  getFreeMemory a := a.size - a.top
  allocate := Arena.allocate
  deallocate := Arena.deallocate
  construct := Arena.construct
  find := Arena.find
  destroy := Arena.destroy

/-- Every system call succeeds, but for mappings of length 0; chunks of
    different sizes are mapped at different places. -/
def roomyEnv : Env Arena where
  createAnon size := if size = 0 then none else some ⟨size <<< 8, size⟩
  createShm size := if size = 0 then none else some ⟨size <<< 8, size⟩
  shmGrow _ := true
  openShmChunk size _ := if size = 0 then none else some ⟨size <<< 8, size⟩
  inPlace r := ⟨r.size, [], []⟩

/-- As `roomyEnv`, for files and chunks below `2 ^ 47` bytes. -/
def boundedEnv : Env Arena :=
  { roomyEnv with
    createShm := fun size => if size < 0x800000000000 then roomyEnv.createShm size else none
    shmGrow := fun size => decide (size < 0x800000000000)
    openShmChunk := fun size offset =>
      if size < 0x800000000000 then roomyEnv.openShmChunk size offset else none }

/-- An anonymous manager with one segment, fresh from its constructor. -/
def arenaManager (size : Word) : Manager Arena where
  anon := true
  segments := [⟨⟨⟨0, size⟩, true⟩, size, size <<< 8, ⟨size - 0x2900#64, [], []⟩⟩]
  table := .blank
  listHeld := false
  growHeld := false
  hints := 0
  registry := registerSegment fourKiBPages size (size <<< 8) size fun _ => none

end Memnon
