import DavOS.ByteMemory
import DavOS.IDTStructure

/-! `gdt.cpp` and `TableDescriptor.cpp`: segment descriptors, the global descriptor
table and the operand of `lgdt` and `lidt`, against the layouts of the processor. -/
namespace DavOS
open IDTStructure

def makeSegmentDescriptor (base limit : BitVec 64) (access flags : Byte) : BitVec 64 :=
  limit &&& (0xffff : BitVec 64)
    ||| (base &&& 0xffffff) <<< 16
    ||| access.setWidth 64 <<< 40
    ||| (limit >>> 16) <<< 48
    ||| (flags &&& 0xf).setWidth 64 <<< 52
    ||| (base >>> 24) <<< 56

/-- What the processor reads in a descriptor. -/
structure SegmentDescriptor where
  base : BitVec 32
  limit : BitVec 20
  access : Byte
  flags : BitVec 4
  deriving DecidableEq

def decodeSegment (d : BitVec 64) : SegmentDescriptor where
  base := d.extractLsb' 56 8 ++ d.extractLsb' 16 24
  limit := d.extractLsb' 48 4 ++ d.extractLsb' 0 16
  access := d.extractLsb' 40 8
  flags := d.extractLsb' 52 4

namespace SegmentDescriptor

def present (s : SegmentDescriptor) : Bool := s.access.getLsbD 7

def dpl (s : SegmentDescriptor) : BitVec 2 := s.access.extractLsb' 5 2

/-- A code segment: neither a system segment nor one for data. -/
def isCode (s : SegmentDescriptor) : Bool := s.access.getLsbD 4 && s.access.getLsbD 3

/-- A 64-bit code segment. -/
def isLong (s : SegmentDescriptor) : Bool := s.flags.getLsbD 1 && !s.flags.getLsbD 2

end SegmentDescriptor

section

variable {base limit : BitVec 64} {access flags : Byte}

theorem getLsbD_and_ones {w : Nat} (x : BitVec w) (n i : Nat) :
    (x &&& BitVec.ofNat w (2 ^ n - 1)).getLsbD i = (decide (i < n) && x.getLsbD i) := by
  rw [BitVec.getLsbD_and, BitVec.getLsbD_ofNat, Nat.testBit_two_pow_sub_one]
  by_cases hi : i < w
  · rw [decide_eq_true hi, Bool.true_and, Bool.and_comm]
  · rw [BitVec.getLsbD_of_ge x i (Nat.le_of_not_lt hi), Bool.false_and, Bool.and_false]

theorem getLsbD_makeSegmentDescriptor (base limit : BitVec 64) (access flags : Byte) {i : Nat} (hi : i < 64) :
    (makeSegmentDescriptor base limit access flags).getLsbD i =
      if i < 16 then limit.getLsbD i
      else if i < 40 then base.getLsbD (i - 16)
      else if i < 48 then access.getLsbD (i - 40)
      else if i < 52 then limit.getLsbD (i - 32)
      else if i < 56 then limit.getLsbD (i - 32) || flags.getLsbD (i - 52)
      else limit.getLsbD (i - 32) || base.getLsbD (i - 32) := by
  have haccess : 48 ≤ i → access.getLsbD (i - 40) = false := fun h => BitVec.getLsbD_of_ge _ _ (by omega)
  have hlimit : 16 + (i - 48) = if i < 48 then 16 else i - 32 := by split <;> omega
  have hbase : 24 + (i - 56) = if i < 56 then 24 else i - 32 := by split <;> omega
  simp only [makeSegmentDescriptor, BitVec.getLsbD_or, BitVec.getLsbD_shiftLeft, BitVec.getLsbD_ushiftRight,
    BitVec.getLsbD_setWidth, show (0xffff : BitVec 64) = BitVec.ofNat 64 (2 ^ 16 - 1) from rfl,
    show (0xffffff : BitVec 64) = BitVec.ofNat 64 (2 ^ 24 - 1) from rfl,
    show (0xf : BitVec 8) = BitVec.ofNat 8 (2 ^ 4 - 1) from rfl, getLsbD_and_ones, hlimit, hbase]
  by_cases h16 : i < 16
  · simp [h16, show i < 40 by omega, show i < 48 by omega, show i < 52 by omega, show i < 56 by omega]
  by_cases h40 : i < 40
  · simp [h16, h40, hi, show i < 48 by omega, show i < 52 by omega, show i < 56 by omega, show i - 16 < 24 by omega]
  have hmasked : ¬ i - 16 < 24 := by omega
  by_cases h48 : i < 48
  · simp [h16, h40, h48, hi, hmasked, show i < 52 by omega, show i < 56 by omega, show i - 40 < 64 by omega]
  by_cases h52 : i < 52
  · simp [h16, h40, h48, h52, hi, hmasked, show i < 56 by omega, haccess (by omega)]
  by_cases h56 : i < 56
  · simp [h16, h40, h48, h52, h56, hi, hmasked, haccess (by omega), show i - 52 < 64 by omega, show i - 52 < 4 by omega]
  · simp [h16, h40, h48, h52, h56, hi, hmasked, haccess (by omega), show ¬ i - 52 < 4 by omega]

theorem decodeSegment_limit (base limit : BitVec 64) (access flags : Byte) :
    (decodeSegment (makeSegmentDescriptor base limit access flags)).limit = limit.setWidth 20 := by
  apply BitVec.eq_of_getLsbD_eq
  intro i hi
  simp only [decodeSegment, BitVec.getLsbD_append, BitVec.getLsbD_extractLsb', BitVec.getLsbD_setWidth]
  by_cases hlow : i < 16
  · simp [hlow, hi, getLsbD_makeSegmentDescriptor base limit access flags (show i < 64 by omega)]
  · have hindex : 48 + (i - 16) - 32 = i := by omega
    simp [hlow, hi, getLsbD_makeSegmentDescriptor base limit access flags (show 48 + (i - 16) < 64 by omega), hindex,
      show i - 16 < 4 by omega, show ¬ 48 + (i - 16) < 16 by omega, show ¬ 48 + (i - 16) < 40 by omega,
      show ¬ 48 + (i - 16) < 48 by omega, show 48 + (i - 16) < 52 by omega]

theorem decodeSegment_access (base limit : BitVec 64) (access flags : Byte) :
    (decodeSegment (makeSegmentDescriptor base limit access flags)).access = access := by
  apply BitVec.eq_of_getLsbD_eq
  intro i hi
  simp [decodeSegment, hi, getLsbD_makeSegmentDescriptor base limit access flags (show 40 + i < 64 by omega),
    show ¬ 40 + i < 16 by omega, show ¬ 40 + i < 40 by omega, show 40 + i < 48 by omega]

/-- The limit is shifted without a mask, so that its bits from 20 on run into the flags. -/
theorem decodeSegment_flags (base limit : BitVec 64) (access flags : Byte) :
    (decodeSegment (makeSegmentDescriptor base limit access flags)).flags =
      limit.extractLsb' 20 4 ||| flags.setWidth 4 := by
  apply BitVec.eq_of_getLsbD_eq
  intro i hi
  have hindex : 52 + i - 32 = 20 + i := by omega
  simp [decodeSegment, hi, getLsbD_makeSegmentDescriptor base limit access flags (show 52 + i < 64 by omega), hindex,
    show ¬ 52 + i < 16 by omega, show ¬ 52 + i < 40 by omega, show ¬ 52 + i < 48 by omega, show 52 + i < 56 by omega]

/-- From bit 24 on they run into the base. -/
theorem decodeSegment_base (base limit : BitVec 64) (access flags : Byte) :
    (decodeSegment (makeSegmentDescriptor base limit access flags)).base =
      (limit.extractLsb' 24 8 ||| base.extractLsb' 24 8) ++ base.setWidth 24 := by
  apply BitVec.eq_of_getLsbD_eq
  intro i hi
  simp only [decodeSegment, BitVec.getLsbD_append, BitVec.getLsbD_or, BitVec.getLsbD_extractLsb',
    BitVec.getLsbD_setWidth]
  by_cases hlow : i < 24
  · simp [hlow, getLsbD_makeSegmentDescriptor base limit access flags (show 16 + i < 64 by omega),
      show 16 + i < 40 by omega]
  · have hindex : 56 + (i - 24) - 32 = 24 + (i - 24) := by omega
    simp [hlow, getLsbD_makeSegmentDescriptor base limit access flags (show 56 + (i - 24) < 64 by omega), hindex,
      show i - 24 < 8 by omega, show ¬ 56 + (i - 24) < 16 by omega, show ¬ 56 + (i - 24) < 40 by omega,
      show ¬ 56 + (i - 24) < 48 by omega, show ¬ 56 + (i - 24) < 52 by omega, show ¬ 56 + (i - 24) < 56 by omega]

theorem extractLsb'_eq_zero {x : BitVec 64} {n : Nat} (h : x.toNat < 2 ^ n) (len : Nat) {start : Nat} (hs : n ≤ start) :
    x.extractLsb' start len = BitVec.ofNat len 0 := by
  apply BitVec.eq_of_getLsbD_eq
  intro i hi
  have hbit : x.getLsbD (start + i) = false := by
    rw [BitVec.getLsbD]
    apply Nat.testBit_lt_two_pow
    exact Nat.lt_of_lt_of_le h (Nat.pow_le_pow_right (by decide) (by omega))
  simp [hi, hbit]

/-- The processor reads the arguments back exactly when the base has 32 and the limit 20 bits. -/
theorem segment_descriptor_round_trip_iff (base limit : BitVec 64) (access flags : Byte) :
    ((decodeSegment (makeSegmentDescriptor base limit access flags)).base.toNat = base.toNat ∧
      (decodeSegment (makeSegmentDescriptor base limit access flags)).limit.toNat = limit.toNat ∧
      (decodeSegment (makeSegmentDescriptor base limit access flags)).access = access ∧
      (decodeSegment (makeSegmentDescriptor base limit access flags)).flags = flags.setWidth 4) ↔
    base.toNat < 2 ^ 32 ∧ limit.toNat < 2 ^ 20 := by
  constructor
  · rintro ⟨hbase, hlimit, -, -⟩
    rw [← hbase, ← hlimit]
    exact ⟨BitVec.isLt _, BitVec.isLt _⟩
  · rintro ⟨hbase, hlimit⟩
    rw [decodeSegment_base, decodeSegment_limit, decodeSegment_access, decodeSegment_flags,
      extractLsb'_eq_zero hlimit 4 (by decide), extractLsb'_eq_zero hlimit 8 (by decide), BitVec.zero_or,
      BitVec.zero_or]
    refine ⟨?_, ?_, rfl, rfl⟩
    · have hjoin : base.extractLsb' 24 8 ++ base.setWidth 24 = base.setWidth 32 := by
        apply BitVec.eq_of_getLsbD_eq
        intro i hi
        simp only [BitVec.getLsbD_append, BitVec.getLsbD_extractLsb', BitVec.getLsbD_setWidth]
        by_cases hlow : i < 24
        · simp [hlow, hi]
        · simp [hlow, hi, show i - 24 < 8 by omega, show 24 + (i - 24) = i by omega]
      rw [hjoin, BitVec.toNat_setWidth, Nat.mod_eq_of_lt hbase]
    · rw [BitVec.toNat_setWidth, Nat.mod_eq_of_lt hlimit]

end

/-! ### The table and its register -/

/-- Present, of the kernel, for code, of exactly its privilege, readable and accessed. -/
def kernelCodeAccess : Byte := 1 <<< 7 ||| 0 <<< 5 ||| 1 <<< 4 ||| 1 <<< 3 ||| 0 <<< 2 ||| 1 <<< 1 ||| 1

def kernelDataAccess : Byte := 1 <<< 7 ||| 0 <<< 5 ||| 1 <<< 4 ||| 0 <<< 3 ||| 0 <<< 2 ||| 1 <<< 1 ||| 1

def userCodeAccess : Byte := 1 <<< 7 ||| 3 <<< 5 ||| 1 <<< 4 ||| 1 <<< 3 ||| 0 <<< 2 ||| 1 <<< 1 ||| 1

def userDataAccess : Byte := 1 <<< 7 ||| 3 <<< 5 ||| 1 <<< 4 ||| 0 <<< 3 ||| 0 <<< 2 ||| 1 <<< 1 ||| 1

/-- Limits in pages, and 64-bit code. -/
def longModeCodePaging : Byte := 1 <<< 3 ||| 1 <<< 1

def protected32Paging : Byte := 1 <<< 3 ||| 1 <<< 2

def globalDescriptorTable : List (BitVec 64) :=
  [0,
    makeSegmentDescriptor 0 0x000fffff kernelCodeAccess longModeCodePaging,
    makeSegmentDescriptor 0 0x000fffff kernelDataAccess protected32Paging,
    makeSegmentDescriptor 0 0x000fffff userCodeAccess longModeCodePaging,
    makeSegmentDescriptor 0 0x000fffff userDataAccess protected32Paging]

/-- `TableDescriptor`: the operand of `lgdt` and `lidt` holds one less than the size. -/
def tableDescriptorBytes (size : BitVec 16) (address : BitVec 64) : List Byte :=
  let adjustedSize := size - 1
  [adjustedSize.setWidth 8, (adjustedSize >>> 8).setWidth 8,
    address.setWidth 8, (address >>> 8).setWidth 8, (address >>> 16).setWidth 8, (address >>> 24).setWidth 8,
    (address >>> 32).setWidth 8, (address >>> 40).setWidth 8, (address >>> 48).setWidth 8, (address >>> 56).setWidth 8]

/-- What the processor keeps about a table. -/
structure TableRegister where
  limit : BitVec 16
  base : BitVec 64
  deriving DecidableEq

/-- `lgdt` and `lidt`. -/
def loadTableRegister (operand : List Byte) : TableRegister :=
  let b (i : Nat) := operand.getD i 0
  { limit := b 1 ++ b 0
    base := b 9 ++ b 8 ++ b 7 ++ b 6 ++ b 5 ++ b 4 ++ b 3 ++ b 2 }

theorem loadTableRegister_tableDescriptor (size : BitVec 16) (address : BitVec 64) :
    loadTableRegister (tableDescriptorBytes size address) = ⟨size - 1, address⟩ := by
  have hlimit : ((size - 1) >>> 8).setWidth 8 ++ (size - 1).setWidth 8 = size - 1 := by
    rw [join_last_byte]
    exact BitVec.setWidth_eq _
  simp only [loadTableRegister, tableDescriptorBytes, List.getD_cons_succ, List.getD_cons_zero]
  rw [hlimit, join_address]

end DavOS
