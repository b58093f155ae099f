import Mathlib.Tactic.Ring
import Mathlib.Data.BitVec
import DavOS.RootSDT

/-! `RootSystemDescriptionPointer.h` and the checksum of `ACPISDTHeader.h`: which of the
bytes that the firmware has left are checked before the kernel follows them. -/
namespace DavOS
open ByteMemory

def byteSum (m : Nat → Byte) (a : Nat) : Nat → Byte
  | 0 => 0
  | n + 1 => byteSum m a n + m (a + n)

/-- `byteSum += reinterpret_cast<const char *>(this)[i]`: a `char` is signed, and the sum has 64 bits. -/
def ACPISDTHeader.charSum (m : Nat → Byte) (a : Nat) : Nat → BitVec 64
  | 0 => 0
  | n + 1 => ACPISDTHeader.charSum m a n + (m (a + n)).signExtend 64

def ACPISDTHeader.verifyChecksum (m : Nat → Byte) (table : Nat) : Bool :=
  (ACPISDTHeader.charSum m table (RootSDT.length m table)).toNat % 0x100 = 0

/-- The structure at the address `a`: the offsets of its fields, which are packed. -/
structure RootSystemDescriptionPointer where
  memory : Nat → Byte
  address : Nat

namespace RootSystemDescriptionPointer

def acpiRevision (r : RootSystemDescriptionPointer) : Byte := r.memory (r.address + 15)

def rsdtPhysicalAddress (r : RootSystemDescriptionPointer) : Nat := loadBytes r.memory (r.address + 16) 4

def rsdpSize (r : RootSystemDescriptionPointer) : Nat := loadBytes r.memory (r.address + 20) 4

def xsdtPhysicalAddress (r : RootSystemDescriptionPointer) : Nat := loadBytes r.memory (r.address + 24) 8

/-- The bytes before the field `rsdpSize`. -/
def verifyPartialChecksum (r : RootSystemDescriptionPointer) : Bool := byteSum r.memory r.address 20 = 0

def verifyFullChecksum (r : RootSystemDescriptionPointer) : Bool := byteSum r.memory r.address r.rsdpSize = 0

def validate (r : RootSystemDescriptionPointer) : Bool :=
  if r.acpiRevision = 0 then r.verifyPartialChecksum else r.verifyFullChecksum

/-- `none` is the panic on an invalid table. -/
def rootSDTPhysicalAddress (r : RootSystemDescriptionPointer) : Option Nat :=
  if r.validate then some (if r.acpiRevision = 0 then r.rsdtPhysicalAddress else r.xsdtPhysicalAddress) else none

/-- How many bytes the checksum covers. -/
def covered (r : RootSystemDescriptionPointer) : Nat := if r.acpiRevision = 0 then 20 else r.rsdpSize

def corrupt (r : RootSystemDescriptionPointer) (i : Nat) (b : Byte) : RootSystemDescriptionPointer :=
  { r with memory := Function.update r.memory (r.address + i) b }

end RootSystemDescriptionPointer

section

variable {m : Nat → Byte} {a i n : Nat} {b : Byte}

theorem byteSum_congr {m' : Nat → Byte} (h : ∀ j < n, m' (a + j) = m (a + j)) : byteSum m' a n = byteSum m a n := by
  induction n with
  | zero => rfl
  | succ n ih => rw [byteSum, byteSum, ih fun j hj => h j (by omega), h n (Nat.lt_succ_self n)]

theorem byteSum_update_of_le (h : n ≤ i) : byteSum (Function.update m (a + i) b) a n = byteSum m a n :=
  byteSum_congr fun j hj => Function.update_of_ne (by omega) _ _

theorem byteSum_update (h : i < n) : byteSum (Function.update m (a + i) b) a n = byteSum m a n + (b - m (a + i)) := by
  induction n with
  | zero => cases h
  | succ n ih =>
      rw [byteSum, byteSum]
      rcases Nat.lt_succ_iff_lt_or_eq.mp h with hlt | rfl
      · rw [ih hlt, Function.update_of_ne (by omega)]
        ring
      · rw [byteSum_update_of_le (Nat.le_refl i), Function.update_self]
        ring

theorem charSum_setWidth (m : Nat → Byte) (a n : Nat) : (ACPISDTHeader.charSum m a n).setWidth 8 = byteSum m a n := by
  induction n with
  | zero => rfl
  | succ n ih =>
      rw [ACPISDTHeader.charSum, byteSum, BitVec.setWidth_add _ _ (by decide), ih]
      congr 1
      apply BitVec.eq_of_getLsbD_eq
      intro j hj
      have hwide : j < 64 := by omega
      rw [BitVec.getLsbD_setWidth, BitVec.getLsbD_signExtend]
      simp [hj, hwide]

/-- Although it adds signed characters, the check is that of the bytes. -/
theorem ACPISDTHeader.verifyChecksum_iff (m : Nat → Byte) (table : Nat) :
    ACPISDTHeader.verifyChecksum m table = true ↔ byteSum m table (RootSDT.length m table) = 0 := by
  have hlow : (byteSum m table (RootSDT.length m table)).toNat =
      (ACPISDTHeader.charSum m table (RootSDT.length m table)).toNat % 0x100 := by
    rw [← charSum_setWidth, BitVec.toNat_setWidth]
  rw [ACPISDTHeader.verifyChecksum, decide_eq_true_eq, ← hlow, ← BitVec.toNat_inj]
  rfl

namespace RootSystemDescriptionPointer

variable {r : RootSystemDescriptionPointer}

theorem validate_iff (r : RootSystemDescriptionPointer) :
    r.validate = true ↔ byteSum r.memory r.address r.covered = 0 := by
  unfold validate covered
  split
  · exact decide_eq_true_iff
  · exact decide_eq_true_iff

/-- A byte that neither tells the revision nor the size, and a new value for it. -/
structure Corruption (r : RootSystemDescriptionPointer) (i : Nat) (b : Byte) : Prop where
  changed : b ≠ r.memory (r.address + i)
  not_revision : i ≠ 15
  not_size : i < 20 ∨ 24 ≤ i

theorem Corruption.acpiRevision_eq (h : r.Corruption i b) : (r.corrupt i b).acpiRevision = r.acpiRevision := by
  change Function.update r.memory (r.address + i) b (r.address + 15) = r.memory (r.address + 15)
  have hi := h.not_revision
  exact Function.update_of_ne (by omega) _ _

theorem corrupt_loadBytes {k w : Nat} (h : i < k ∨ k + w ≤ i) :
    loadBytes (r.corrupt i b).memory (r.address + k) w = loadBytes r.memory (r.address + k) w :=
  loadBytes_congr fun x hx hx' => Function.update_of_ne (by omega) _ _

theorem Corruption.covered_eq (h : r.Corruption i b) : (r.corrupt i b).covered = r.covered := by
  have hsize : (r.corrupt i b).rsdpSize = r.rsdpSize := corrupt_loadBytes (by have := h.not_size; omega)
  rw [covered, covered, h.acpiRevision_eq, hsize]

theorem Corruption.validate_iff (h : r.Corruption i b) (hvalid : r.validate = true) :
    (r.corrupt i b).validate = true ↔ r.covered ≤ i := by
  rw [RootSystemDescriptionPointer.validate_iff] at hvalid ⊢
  rw [h.covered_eq]
  change byteSum (Function.update r.memory (r.address + i) b) r.address r.covered = 0 ↔ _
  by_cases hi : i < r.covered
  · rw [byteSum_update hi, hvalid, zero_add, sub_eq_zero]
    exact iff_of_false h.changed (Nat.not_le_of_lt hi)
  · rw [byteSum_update_of_le (Nat.le_of_not_lt hi)]
    exact iff_of_true hvalid (Nat.le_of_not_lt hi)

theorem rootSDTPhysicalAddress_eq_none : r.rootSDTPhysicalAddress = none ↔ ¬ r.validate = true := by
  unfold rootSDTPhysicalAddress
  split
  · rename_i hvalid
    simp [hvalid]
  · rename_i hinvalid
    simp [hinvalid]

/-- The pointer of the revision lies in the bytes that are covered. -/
def PointerCovered (r : RootSystemDescriptionPointer) : Prop := r.acpiRevision = 0 ∨ 32 ≤ r.rsdpSize

theorem Corruption.address_eq (h : r.Corruption i b) (hvalid : r.validate = true) (hpointer : r.PointerCovered)
    (hi : r.covered ≤ i) : (r.corrupt i b).rootSDTPhysicalAddress = r.rootSDTPhysicalAddress := by
  have hvalid' := (h.validate_iff hvalid).mpr hi
  have hrevision := h.acpiRevision_eq
  unfold rootSDTPhysicalAddress
  rw [if_pos hvalid, if_pos hvalid', hrevision]
  unfold covered at hi
  by_cases hold : r.acpiRevision = 0
  · rw [if_pos hold] at hi
    rw [if_pos hold, if_pos hold]
    exact congrArg some (corrupt_loadBytes (Or.inr (by omega)))
  · rw [if_neg hold] at hi
    rw [if_neg hold, if_neg hold]
    have hsize := hpointer.resolve_left hold
    exact congrArg some (corrupt_loadBytes (Or.inr (by omega)))

/-- Outside of the covered bytes, the highest byte of the pointer can be changed. -/
theorem exists_corruption (hvalid : r.validate = true) (hpointer : ¬ r.PointerCovered) :
    ∃ i b, r.Corruption i b ∧ (r.corrupt i b).rootSDTPhysicalAddress ≠ none ∧
      (r.corrupt i b).rootSDTPhysicalAddress ≠ r.rootSDTPhysicalAddress := by
  obtain ⟨hrevision, hsize⟩ := not_or.mp hpointer
  have hcorruption : r.Corruption 31 (r.memory (r.address + 31) + 1) := by
    refine ⟨fun hsame => ?_, by decide, Or.inr (by decide)⟩
    have hone : (1 : Byte) = 0 := add_eq_left.mp hsame
    exact absurd hone (by decide)
  have hcovered : r.covered ≤ 31 := by
    rw [covered, if_neg hrevision]
    omega
  have hvalid' := (hcorruption.validate_iff hvalid).mpr hcovered
  refine ⟨31, _, hcorruption, fun hnone => rootSDTPhysicalAddress_eq_none.mp hnone hvalid', ?_⟩
  unfold rootSDTPhysicalAddress
  rw [if_pos hvalid, if_pos hvalid', hcorruption.acpiRevision_eq, if_neg hrevision, if_neg hrevision]
  intro hsame
  have hload : loadBytes (Function.update r.memory (r.address + 31) (r.memory (r.address + 31) + 1)) (r.address + 24) 8 =
      loadBytes r.memory (r.address + 24) 8 := Option.some.inj hsame
  have hbyte := loadBytes_inj hload (x := r.address + 31) (by omega) (by omega)
  rw [Function.update_self] at hbyte
  exact hcorruption.changed hbyte

end RootSystemDescriptionPointer

end

/-- Of a table that passes the check, a change of one byte, other than those that tell the
revision and the size, stops the kernel exactly where the checksum covers the byte. So
each such change is found or harmless exactly for tables of revision 0 and for those
whose size reaches beyond the pointer that is followed. -/
theorem rsdp_corruption_found_or_harmless_iff (r : RootSystemDescriptionPointer) (hvalid : r.validate = true) :
    (∀ i b, r.Corruption i b → ((r.corrupt i b).rootSDTPhysicalAddress = none ↔ i < r.covered)) ∧
    ((∀ i b, r.Corruption i b → (r.corrupt i b).rootSDTPhysicalAddress = none ∨
      (r.corrupt i b).rootSDTPhysicalAddress = r.rootSDTPhysicalAddress) ↔
        r.acpiRevision = 0 ∨ 32 ≤ r.rsdpSize) := by
  have hfound : ∀ i b, r.Corruption i b → ((r.corrupt i b).rootSDTPhysicalAddress = none ↔ i < r.covered) := by
    intro i b h
    rw [RootSystemDescriptionPointer.rootSDTPhysicalAddress_eq_none, h.validate_iff hvalid, Nat.not_le]
  refine ⟨hfound, fun hall => ?_, fun hpointer i b h => ?_⟩
  · by_contra hpointer
    obtain ⟨i, b, h, hreturns, hother⟩ := RootSystemDescriptionPointer.exists_corruption hvalid hpointer
    rcases hall i b h with hnone | hsame
    · exact hreturns hnone
    · exact hother hsame
  · by_cases hi : i < r.covered
    · exact Or.inl ((hfound i b h).mpr hi)
    · exact Or.inr (h.address_eq hvalid hpointer (Nat.le_of_not_lt hi))

/-- A pointer of revision 2 whose size ends before the field of the long pointer. -/
def shortRsdp : RootSystemDescriptionPointer where
  memory := fun x => if x = 15 then 2 else if x = 20 then 24 else if x = 8 then 0xe6 else 0
  address := 0

theorem rsdp_corruption_unnoticed_in_short_table :
    shortRsdp.validate = true ∧ ¬ ∀ i b, shortRsdp.Corruption i b →
      (shortRsdp.corrupt i b).rootSDTPhysicalAddress = none ∨
        (shortRsdp.corrupt i b).rootSDTPhysicalAddress = shortRsdp.rootSDTPhysicalAddress := by
  have hvalid : shortRsdp.validate = true := by decide +kernel
  refine ⟨hvalid, fun hall => ?_⟩
  exact absurd ((rsdp_corruption_found_or_harmless_iff shortRsdp hvalid).2.mp hall) (by decide +kernel)

end DavOS
