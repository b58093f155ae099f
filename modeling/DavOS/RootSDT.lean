import DavOS.ByteMemory
import DavOS.CString
import DavOS.MachineWord

/-! `RootSDT.h`: the search of the ACPI root table. ACPI packs the pointers to
the other tables right behind the header of 36 bytes; the struct declares them
as a `void*` member, which the compiler aligns to 8. -/
namespace DavOS
open MachineWord ByteMemory

/-- `sizeof(ACPISDTHeader)`: four characters, a length, two bytes, six and eight
characters and three words, with an alignment of 4. -/
def ACPISDTHeader.bytes : Nat := 4 + 4 + 1 + 1 + 6 + 8 + 4 + 4 + 4

def alignUp (offset alignment : Nat) : Nat := (offset + alignment - 1) / alignment * alignment

namespace RootSDT

/-- The offset of the member `pointersToOtherSDTs` under the SysV layout. -/
def pointersOffset : Nat := alignUp ACPISDTHeader.bytes 8

def length (m : Nat → Byte) (table : Nat) : Nat := loadBytes m (table + 4) 4

def bytesPerPointer (acpiRevisionNumber : Int) : Nat := if acpiRevisionNumber = 0 then 4 else 8

def numPointersToOtherSDTs (m : Nat → Byte) (table : Nat) (acpiRevisionNumber : Int) : Nat :=
  wrapSub (length m table) ACPISDTHeader.bytes / bytesPerPointer acpiRevisionNumber

/-- What a search returns, the null pointer if nothing, and the addresses of the
pointers that it reads. -/
structure Search where
  found : Nat
  reads : List Nat
  deriving DecidableEq

/-- The loop over the pointers at the given addresses, `w` bytes each. -/
def searchAt (m : Nat → Byte) (signature : Nat → Byte) (w : Nat) : List Nat → Search
  | [] => ⟨0, []⟩
  | slot :: rest =>
      let sdt := loadBytes m slot w
      if strncmp (fun i => m (sdt + i)) signature 4 = 0 then ⟨sdt, [slot]⟩
      else
        let later := searchAt m signature w rest
        ⟨later.found, slot :: later.reads⟩

def packed (base w k : Nat) : List Nat := (List.range k).map fun i => base + i * w

def findSDTWithSignature (m : Nat → Byte) (table : Nat) (signature : Nat → Byte) (acpiRevisionNumber : Int) : Search :=
  let w := bytesPerPointer acpiRevisionNumber
  searchAt m signature w (packed (table + pointersOffset) w (numPointersToOtherSDTs m table acpiRevisionNumber))

/-- The table that the pointer at `slot` leads to has this signature. -/
def SignatureAt (m : Nat → Byte) (signature : Nat → Byte) (w slot : Nat) : Prop :=
  ∀ i < 4, m (loadBytes m slot w + i) = signature i

instance (m signature : Nat → Byte) (w slot : Nat) : Decidable (SignatureAt m signature w slot) :=
  inferInstanceAs (Decidable (∀ i < 4, _))

/-- The pointers at `own` are read in order, up to the first one whose table has
the signature, and that one is returned. -/
structure Examines (m : Nat → Byte) (signature : Nat → Byte) (w : Nat) (own : List Nat) (s : Search) : Prop where
  reads : s.reads = own.take (own.findIdx (fun slot => decide (SignatureAt m signature w slot)) + 1)
  found : s.found = ((own.find? fun slot => decide (SignatureAt m signature w slot)).map (loadBytes m · w)).getD 0

section

variable {m signature : Nat → Byte} {w : Nat}

theorem searchAt_examines (m signature : Nat → Byte) (w : Nat) (slots : List Nat) :
    Examines m signature w slots (searchAt m signature w slots) := by
  induction slots with
  | nil => exact ⟨rfl, rfl⟩
  | cons slot rest ih =>
      have htest : strncmp (fun i => m (loadBytes m slot w + i)) signature 4 = 0 ↔ SignatureAt m signature w slot :=
        strncmp_eq_zero _ _ 4
      by_cases hsig : SignatureAt m signature w slot
      · have hsearch : searchAt m signature w (slot :: rest) = ⟨loadBytes m slot w, [slot]⟩ := if_pos (htest.mpr hsig)
        rw [hsearch]
        exact ⟨by simp [List.findIdx_cons, hsig], by simp [hsig]⟩
      · have hsearch : searchAt m signature w (slot :: rest) =
            ⟨(searchAt m signature w rest).found, slot :: (searchAt m signature w rest).reads⟩ :=
          if_neg fun h => hsig (htest.mp h)
        rw [hsearch]
        refine ⟨?_, ?_⟩
        · rw [ih.reads]
          simp [List.findIdx_cons, hsig]
        · rw [ih.found]
          simp [hsig]

theorem numPointers_eq {table k : Nat} {revision : Int}
    (hlength : length m table = 36 + k * bytesPerPointer revision) :
    numPointersToOtherSDTs m table revision = k := by
  have hlt : length m table < 2 ^ 64 := Nat.lt_of_lt_of_le (loadBytes_lt m _ 4) (by decide)
  have hpos : 0 < bytesPerPointer revision := by
    unfold bytesPerPointer
    split <;> decide
  have hsub : wrapSub (length m table) ACPISDTHeader.bytes = k * bytesPerPointer revision := by
    rw [wrapSub_of_le hlt (by rw [hlength]; exact Nat.le_add_right _ _), hlength]
    exact Nat.add_sub_cancel_left 36 _
  rw [numPointersToOtherSDTs, hsub, Nat.mul_div_cancel _ hpos]

end

/-- The search examines the pointers of the table itself exactly when the table
has none: the member lies 4 bytes behind the first of them. -/
theorem search_examines_own_iff (m signature : Nat → Byte) (table k : Nat) (revision : Int)
    (hlength : length m table = 36 + k * bytesPerPointer revision) :
    Examines m signature (bytesPerPointer revision) (packed (table + 36) (bytesPerPointer revision) k)
      (findSDTWithSignature m table signature revision) ↔ k = 0 := by
  unfold findSDTWithSignature
  rw [numPointers_eq hlength]
  constructor
  · intro h
    have hreads := (searchAt_examines m signature (bytesPerPointer revision)
      (packed (table + pointersOffset) (bytesPerPointer revision) k)).reads
    dsimp only at h
    rw [h.reads] at hreads
    by_contra hk
    obtain ⟨k, rfl⟩ := Nat.exists_eq_succ_of_ne_zero hk
    have hfirst := congrArg List.head? hreads
    simp [packed, List.range_succ_eq_map, pointersOffset, alignUp, ACPISDTHeader.bytes] at hfirst
  · rintro rfl
    exact searchAt_examines m signature (bytesPerPointer revision) []

/-- The characters of a literal, followed by NULs. -/
def apic : Nat → Byte := fun i => BitVec.ofNat 8 ((['A', 'P', 'I', 'C'].getD i '\x00').toNat)

def emptyTable : Nat → Byte := fun x => if x = 0x1004 then 36 else 0

/-- A root table at 0x1000 with one pointer, to a table at 0x2000 with the signature. -/
def oneTable : Nat → Byte := fun x =>
  if x = 0x1004 then 44 else if x = 0x1025 then 0x20
  else if 0x2000 ≤ x ∧ x < 0x2004 then apic (x - 0x2000) else 0

/-- The empty table is searched as it should be, the other one is not. -/
theorem search_examines_own_two_tables :
    Examines emptyTable apic (bytesPerPointer 2) (packed (0x1000 + 36) (bytesPerPointer 2) 0)
      (findSDTWithSignature emptyTable 0x1000 apic 2) ∧
    ¬ Examines oneTable apic (bytesPerPointer 2) (packed (0x1000 + 36) (bytesPerPointer 2) 1)
      (findSDTWithSignature oneTable 0x1000 apic 2) := by
  have hempty := search_examines_own_iff emptyTable apic 0x1000 0 2 (by decide)
  have hone := search_examines_own_iff oneTable apic 0x1000 1 2 (by decide)
  exact ⟨hempty.mpr rfl, fun h => absurd (hone.mp h) (by decide)⟩

/-- The search misses the table. -/
theorem search_misses_table : length oneTable 0x1000 = 36 + 1 * bytesPerPointer 2 ∧
    SignatureAt oneTable apic (bytesPerPointer 2) (0x1000 + 36) ∧
    findSDTWithSignature oneTable 0x1000 apic 2 = ⟨0, [0x1028]⟩ ∧
    ¬ Examines oneTable apic (bytesPerPointer 2) (packed (0x1000 + 36) (bytesPerPointer 2) 1)
      (findSDTWithSignature oneTable 0x1000 apic 2) := by
  have hsearch : findSDTWithSignature oneTable 0x1000 apic 2 = ⟨0, [0x1028]⟩ := by decide +kernel
  refine ⟨by decide, by decide +kernel, hsearch, fun h => ?_⟩
  have hfound := h.found
  rw [hsearch] at hfound
  revert hfound
  decide +kernel

end RootSDT

end DavOS
