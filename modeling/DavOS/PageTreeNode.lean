import Mathlib.Data.BitVec
import Mathlib.Tactic.IntervalCases
import DavOS.Kernel

/-! `PageTreeNode.cpp`: one 4096-byte paging structure of 512 entries, and the
flags of `paging.h`. Entries are 64-bit words; the masks keep the widths that
the C++ literals have. -/
namespace DavOS
open MachineWord

/-- Memory as the kernel sees it through its pointers: the 64-bit word at each
address. Every access of the paging code is to an aligned word. -/
abbrev Memory := Nat → BitVec 64

/-- `enum class PageFlags : uint64_t`. -/
abbrev PageFlags := BitVec 64

namespace PageFlags

def none : PageFlags := 0#64
def present : PageFlags := 1#64
def write : PageFlags := 1#64 <<< 1
def user : PageFlags := 1#64 <<< 2
def writeThrough : PageFlags := 1#64 <<< 3
def cacheDisable : PageFlags := 1#64 <<< 4
def executeDisable : PageFlags := 1#64 <<< 63

def all : PageFlags := present ||| write ||| user ||| writeThrough ||| cacheDisable ||| executeDisable

end PageFlags

/-- A combination of the enumerators: the values that the kernel passes as flags. -/
structure FlagSet where
  bits : PageFlags
  combination : bits &&& ~~~PageFlags.all = 0#64
  deriving DecidableEq

def FlagSet.none : FlagSet := ⟨PageFlags.none, by decide⟩

def FlagSet.write : FlagSet := ⟨PageFlags.write, by decide⟩

namespace PageTreeNode

/-- `0xffffffff << 12`: the literal is a 32-bit `unsigned int`, so the shift
drops the upper bits before the value is widened to the entry's 64 bits. -/
def childAddressMask : BitVec 64 := ((0xffffffff#32) <<< 12).setWidth 64

/-- `(~0xffffffff) << 12`, likewise computed in 32 bits. -/
def clearAddressMask : BitVec 64 := ((~~~0xffffffff#32) <<< 12).setWidth 64

/-- `~(0xff)`: a negative `int`, sign-extended when it meets the entry. -/
def clearFlagsMask : BitVec 64 := (~~~0xff#32).signExtend 64

/-- Address of `entries_[index]`. -/
def entryAddress (node index : Nat) : Nat := wrap (node + 8 * index)

def getChildAddress (m : Memory) (node index : Nat) : Nat :=
  (m (entryAddress node index) &&& childAddressMask).toNat

def setChildAddress (m : Memory) (node index address : Nat) : Memory :=
  let entry := m (entryAddress node index) &&& clearAddressMask
  Function.update m (entryAddress node index) (entry ||| BitVec.ofNat 64 address)

def addChildFlags (m : Memory) (node index : Nat) (flags : PageFlags) : Memory :=
  let entry := m (entryAddress node index)
  Function.update m (entryAddress node index) (entry ||| (flags ||| PageFlags.present))

def setChildFlags (m : Memory) (node index : Nat) (flags : PageFlags) : Memory :=
  let entry := m (entryAddress node index) &&& clearFlagsMask
  addChildFlags (Function.update m (entryAddress node index) entry) node index flags

def getChildFlags (m : Memory) (node index : Nat) : PageFlags :=
  m (entryAddress node index) &&& 0xff#64

/-- `new(node) PageTreeNode`: the default initialiser clears all 512 entries. -/
def construct (m : Memory) (node : Nat) : Memory :=
  (List.range 512).foldl (fun m index => Function.update m (entryAddress node index) 0#64) m

end PageTreeNode

/-! ### What the masks select -/

theorem childAddressMask_bit (i : Nat) :
    PageTreeNode.childAddressMask.getLsbD i = decide (12 ≤ i ∧ i < 32) := by
  by_cases hi : i < 64
  · exact (by decide : ∀ i : Fin 64, PageTreeNode.childAddressMask.getLsbD i =
      decide (12 ≤ i.val ∧ i.val < 32)) ⟨i, hi⟩
  · rw [BitVec.getLsbD_of_ge _ _ (by omega)]
    simp only [Bool.false_eq, decide_eq_false_iff_not]
    omega

theorem clearFlagsMask_bit (i : Nat) :
    PageTreeNode.clearFlagsMask.getLsbD i = decide (8 ≤ i ∧ i < 64) := by
  by_cases hi : i < 64
  · exact (by decide : ∀ i : Fin 64, PageTreeNode.clearFlagsMask.getLsbD i =
      decide (8 ≤ i.val ∧ i.val < 64)) ⟨i, hi⟩
  · rw [BitVec.getLsbD_of_ge _ _ (by omega)]
    simp only [Bool.false_eq, decide_eq_false_iff_not]
    omega

theorem clearAddressMask_eq : PageTreeNode.clearAddressMask = 0#64 := by decide

theorem present_bit (i : Nat) : PageFlags.present.getLsbD i = decide (i = 0) := by
  by_cases hi : i < 64
  · exact (by decide : ∀ i : Fin 64, PageFlags.present.getLsbD i = decide (i.val = 0)) ⟨i, hi⟩
  · rw [BitVec.getLsbD_of_ge _ _ (by omega)]
    simp only [Bool.false_eq, decide_eq_false_iff_not]
    omega

theorem executeDisable_bit (i : Nat) : PageFlags.executeDisable.getLsbD i = decide (i = 63) := by
  by_cases hi : i < 64
  · exact (by decide : ∀ i : Fin 64, PageFlags.executeDisable.getLsbD i = decide (i.val = 63)) ⟨i, hi⟩
  · rw [BitVec.getLsbD_of_ge _ _ (by omega)]
    simp only [Bool.false_eq, decide_eq_false_iff_not]
    omega

theorem FlagSet.bit (flags : FlagSet) {i : Nat} (h : flags.bits.getLsbD i = true) :
    i < 5 ∨ i = 63 := by
  have hi : i < 64 := BitVec.lt_of_getLsbD h
  have hall : PageFlags.all.getLsbD i = true := by
    have hz := congrArg (fun b => BitVec.getLsbD b i) flags.combination
    simpa [h, hi] using hz
  exact (by decide : ∀ i : Fin 64, PageFlags.all.getLsbD i = true → i.val < 5 ∨ i.val = 63) ⟨i, hi⟩ hall

theorem FlagSet.bit_clear (flags : FlagSet) {i : Nat} (h5 : 5 ≤ i) (h63 : i ≠ 63) :
    flags.bits.getLsbD i = false := by
  cases hf : flags.bits.getLsbD i with
  | false => rfl
  | true => rcases flags.bit hf with h | h <;> omega

end DavOS
