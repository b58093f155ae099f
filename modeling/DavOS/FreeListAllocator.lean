import DavOS.ByteMemory
import DavOS.Kernel

/-! `FreeListAllocator.cpp`: a first-fit allocator whose headers lie in the
memory that it manages. A free block begins with its size, next and previous
pointer; a used block with its size and a magic word, in the same two places
as the first two fields of a free block. -/
namespace DavOS
open MachineWord ByteMemory

/-- Virtual memory as the allocator sees it. -/
abbrev VirtualMemory := Nat → BitVec 8

namespace UsedBlockHeader

/-- `sizeof(UsedBlockHeader)`. -/
abbrev bytes : Nat := 16

def magicConstant : Nat := 0x11223344aabbccdd

def size (m : VirtualMemory) (block : Nat) : Nat := load64 m block

def magic (m : VirtualMemory) (block : Nat) : Nat := load64 m (block + 8)

def construct (m : VirtualMemory) (block size : Nat) : VirtualMemory :=
  store64 (store64 m block size) (block + 8) magicConstant

end UsedBlockHeader

namespace FreeBlockHeader

/-- `sizeof(FreeBlockHeader)`. -/
abbrev bytes : Nat := 24

def size (m : VirtualMemory) (block : Nat) : Nat := load64 m block

def next (m : VirtualMemory) (block : Nat) : Nat := load64 m (block + 8)

def prev (m : VirtualMemory) (block : Nat) : Nat := load64 m (block + 16)

def setSize (m : VirtualMemory) (block value : Nat) : VirtualMemory := store64 m block value

def setNext (m : VirtualMemory) (block value : Nat) : VirtualMemory := store64 m (block + 8) value

def setPrev (m : VirtualMemory) (block value : Nat) : VirtualMemory := store64 m (block + 16) value

def construct (m : VirtualMemory) (block size next prev : Nat) : VirtualMemory :=
  setPrev (setNext (setSize m block size) block next) block prev

def canFit (m : VirtualMemory) (block request : Nat) : Bool :=
  decide (wrap (request + UsedBlockHeader.bytes) ≤ size m block)

def perfectFit (m : VirtualMemory) (block request : Nat) : Bool :=
  decide (wrap (request + UsedBlockHeader.bytes) = size m block)

def realSize (m : VirtualMemory) (block : Nat) : Nat := wrap (size m block + bytes)

/-- The second test reads the fields again, after the first write. -/
def unlink (m : VirtualMemory) (block : Nat) : VirtualMemory :=
  let m := if prev m block ≠ 0 then setNext m (prev m block) (next m block) else m
  if next m block ≠ 0 then setPrev m (next m block) (prev m block) else m

def reserveEnd (m : VirtualMemory) (block request : Nat) : Nat × VirtualMemory :=
  let allocationSize := wrap (request + UsedBlockHeader.bytes)
  let freeBlockEnd := wrap (block + bytes + size m block)
  let allocationAddress := wrapSub freeBlockEnd allocationSize
  let m := UsedBlockHeader.construct m allocationAddress request
  (allocationAddress, setSize m block (wrapSub (size m block) allocationSize))

def reserveEntire (m : VirtualMemory) (block request : Nat) : Nat × VirtualMemory :=
  (block, UsedBlockHeader.construct (unlink m block) block request)

/-- The block after the absorbed one keeps its previous pointer. -/
def coalesceNext (m : VirtualMemory) (block : Nat) : VirtualMemory :=
  if next m block ≠ 0 ∧ next m block = wrap (block + realSize m block) then
    let m := setSize m block (wrap (size m block + realSize m (next m block)))
    setNext m block (next m (next m block))
  else m

/-- Here too the next block's previous pointer stays as it is. -/
def coalescePrev (m : VirtualMemory) (block : Nat) : VirtualMemory :=
  if prev m block ≠ 0 ∧ block = wrap (prev m block + realSize m (prev m block)) then
    let m := setSize m (prev m block) (wrap (size m (prev m block) + realSize m block))
    setNext m (prev m block) (next m block)
  else m

/-- First fit: the loop of `allocate`, which ends at a block that can fit the
request or at the null pointer. -/
def findFit (m : VirtualMemory) (request : Nat) : Nat → Nat → Option Nat
  | 0, _ => none
  | fuel + 1, curr =>
      if curr ≠ 0 ∧ ¬ canFit m curr request then findFit m request fuel (next m curr) else some curr

/-- The loop of `deallocate`: the last block below the address and the one after it. -/
def findSpot (m : VirtualMemory) (usedBlock : Nat) : Nat → Nat → Nat → Option (Nat × Nat)
  | 0, _, _ => none
  | fuel + 1, prev, curr =>
      if curr ≠ 0 ∧ curr < usedBlock then findSpot m usedBlock fuel curr (next m curr) else some (prev, curr)

end FreeBlockHeader

structure FreeListAllocator where
  mem : VirtualMemory
  head : Nat := 0

namespace FreeListAllocator
open FreeBlockHeader

def allocate (s : FreeListAllocator) (request : Nat) : Except Stop (Nat × FreeListAllocator) := do
  let curr ← orHang (findFit s.mem request loopFuel s.head)
  if curr = 0 then
    .error (.panic "ran out of virtual memory!\n")
  else if perfectFit s.mem curr request then
    let (allocated, m) := reserveEntire s.mem curr request
    -- `curr->next` is read after the used header has been written over it
    let head := if curr = s.head then next m curr else s.head
    return (wrap (allocated + UsedBlockHeader.bytes), ⟨m, head⟩)
  else
    let (allocated, m) := reserveEnd s.mem curr request
    return (wrap (allocated + UsedBlockHeader.bytes), ⟨m, s.head⟩)

def deallocate (s : FreeListAllocator) (base : Nat) : Except Stop FreeListAllocator := do
  let usedBlock := wrapSub base UsedBlockHeader.bytes
  if UsedBlockHeader.magic s.mem usedBlock ≠ UsedBlockHeader.magicConstant then
    .error (.panic "invalid memory free\n")
  else
    let (prev, curr) ← orHang (findSpot s.mem usedBlock loopFuel 0 s.head)
    let size := wrapSub (wrap (UsedBlockHeader.size s.mem usedBlock + UsedBlockHeader.bytes)) FreeBlockHeader.bytes
    let m := construct s.mem usedBlock size curr prev
    let head := if prev = 0 then usedBlock else s.head
    let m := if prev = 0 then m else setNext m prev usedBlock
    let m := if curr ≠ 0 then setPrev m curr usedBlock else m
    return ⟨coalescePrev (coalesceNext m usedBlock) usedBlock, head⟩

/-- The region is dressed up as a used block of its own size and given back. -/
def addMemory (s : FreeListAllocator) (base size : Nat) : Except Stop FreeListAllocator :=
  deallocate { s with mem := UsedBlockHeader.construct s.mem base size } (wrap (base + UsedBlockHeader.bytes))

def getSize (s : FreeListAllocator) (base : Nat) : Nat :=
  UsedBlockHeader.size s.mem (wrapSub base UsedBlockHeader.bytes)

end FreeListAllocator

end DavOS
