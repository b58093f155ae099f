import DavOS.FrameStack
import DavOS.PageEntry

/-! `PageTree.cpp`: the four-level page tree as the kernel writes and walks it,
and beside it the IA-32e walk that the processor makes of the same memory. -/
namespace DavOS
open MachineWord

/-- The two stores the page tree works on: memory and the stack of free frames. -/
structure PagingState where
  mem : Memory
  free : FreeStack

structure PageTranslation where
  physicalAddress : Nat
  flags : PageFlags
  deriving DecidableEq

/-- How `limine::hhdm_address->offset` reads in a given memory. The response
structure is itself in memory, so the offset is a function of it. -/
abbrev HhdmOffset := Memory → Nat

def kernelPhysicalToVirtual (hhdm : HhdmOffset) (m : Memory) (physicalAddress : Nat) : Nat :=
  wrap (physicalAddress + hhdm m)

/-- The index of `virtualAddress` in the table at `depth`. -/
def getTableIndex (virtualAddress depth : Nat) : Except Stop Nat :=
  match depth with
  | 0 => .ok ((virtualAddress >>> 39) &&& 0x1ff)
  | 1 => .ok ((virtualAddress >>> 30) &&& 0x1ff)
  | 2 => .ok ((virtualAddress >>> 21) &&& 0x1ff)
  | 3 => .ok ((virtualAddress >>> 12) &&& 0x1ff)
  | _ => .error (.panic "unrecognized page tree depth\n")

namespace PageTree
open PageTreeNode

/-- One round of the loop in `map_page_to_frame`: from the node `curr` at
`depth` to the next node, which is allocated if the entry has no address. -/
def mapStep (hhdm : HhdmOffset) (page : Nat) (flags : PageFlags) (at_ : Nat × PagingState)
    (depth : Nat) : Except Stop (Nat × PagingState) := do
  let curr := at_.1
  let s := at_.2
  let childIndex ← getTableIndex page depth
  let childAddress := getChildAddress s.mem curr childIndex
  if childAddress = 0 then
    let (newNodeFrame, free) ← s.free.allocateFrame
    let newNodeFrameVirtual := kernelPhysicalToVirtual hhdm s.mem newNodeFrame
    let m := construct s.mem newNodeFrameVirtual
    let m := setChildAddress m curr childIndex newNodeFrame
    let m := setChildFlags m curr childIndex flags
    -- the flags are set once more after the branch, for new and old nodes alike
    let m := setChildFlags m curr childIndex flags
    return (newNodeFrameVirtual, ⟨m, free⟩)
  else
    let next := kernelPhysicalToVirtual hhdm s.mem childAddress
    return (next, ⟨setChildFlags s.mem curr childIndex flags, s.free⟩)

def maxDepth : Nat := 3

def mapPageToFrame (hhdm : HhdmOffset) (root : Nat) (s : PagingState) (page frame : Nat)
    (flags : PageFlags) : Except Stop PagingState := do
  let (curr, s) ← (List.range maxDepth).foldlM (mapStep hhdm page flags) (root, s)
  let childIndex ← getTableIndex page maxDepth
  let m := setChildAddress s.mem curr childIndex frame
  return ⟨setChildFlags m curr childIndex flags, s.free⟩

/-- The loop of `get_translation` over the remaining depths. -/
def translateFrom (hhdm : HhdmOffset) (m : Memory) (virtualAddress : Nat) :
    List Nat → Nat → Except Stop PageTranslation
  | [], curr => do
      let childIndex ← getTableIndex virtualAddress maxDepth
      return ⟨getChildAddress m curr childIndex, getChildFlags m curr childIndex⟩
  | depth :: rest, curr => do
      let childIndex ← getTableIndex virtualAddress depth
      let childAddress := getChildAddress m curr childIndex
      if childAddress = 0 then
        return ⟨0, PageFlags.none⟩
      else
        translateFrom hhdm m virtualAddress rest (kernelPhysicalToVirtual hhdm m childAddress)

def getTranslation (hhdm : HhdmOffset) (root : Nat) (m : Memory) (virtualAddress : Nat) :
    Except Stop PageTranslation :=
  translateFrom hhdm m virtualAddress (List.range maxDepth) root

end PageTree

namespace Ia32e

/-- The entries a walk reads from `table` on, one for each index shift; `none`
as soon as an entry is not present. `phys` reads physical memory. -/
def walkFrom (phys : Nat → BitVec 64) (virtualAddress : Nat) :
    List Nat → Nat → Option (List (BitVec 64))
  | [], _ => some []
  | shift :: rest, table =>
      let entry := phys (table + 8 * ((virtualAddress >>> shift) % 512))
      if isPresent entry then
        (walkFrom phys virtualAddress rest (addressField entry)).map (entry :: ·)
      else none

/-- The four-level walk from the table that `cr3` points to. -/
def walk (phys : Nat → BitVec 64) (cr3 virtualAddress : Nat) : Option (List (BitVec 64)) :=
  walkFrom phys virtualAddress [39, 30, 21, 12] cr3

/-- The entry a walk ends in, when every level is present. -/
def leaf (phys : Nat → BitVec 64) (cr3 virtualAddress : Nat) : Option (BitVec 64) :=
  (walk phys cr3 virtualAddress).bind List.getLast?

end Ia32e

/-- Physical memory behind the kernel's view: the direct map shows physical
address `p` at `p + offset`. -/
def physical (offset : Nat) (m : Memory) (p : Nat) : BitVec 64 := m (wrap (p + offset))

end DavOS
