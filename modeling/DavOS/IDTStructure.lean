import Mathlib.Data.List.Induction
import DavOS.CString

/-! `IDTStructure.cpp`: the bytes of the interrupt descriptor table, against the
layout in which an x86-64 processor reads them. -/
namespace DavOS

inductive PrivilegeLevel where
  | kernel
  | user
  deriving DecidableEq

def PrivilegeLevel.value : PrivilegeLevel → Nat
  | .kernel => 0
  | .user => 3

inductive DescriptorTable where
  | globalTable
  | localTable
  deriving DecidableEq

def DescriptorTable.value : DescriptorTable → Nat
  | .globalTable => 0
  | .localTable => 1

inductive GDTSegment where
  | null
  | kernelCode
  | kernelData
  | userCode
  | userData
  deriving DecidableEq

def GDTSegment.value : GDTSegment → Nat
  | .null => 0
  | .kernelCode => 1
  | .kernelData => 2
  | .userCode => 3
  | .userData => 4

structure SegmentSelector where
  requestedPrivilegeLevel : PrivilegeLevel
  tableType : DescriptorTable
  gdtSegment : GDTSegment
  deriving DecidableEq

def SegmentSelector.toUint16 (s : SegmentSelector) : BitVec 16 :=
  BitVec.ofNat 16 s.gdtSegment.value <<< 3 ||| BitVec.ofNat 16 s.tableType.value <<< 2 |||
    BitVec.ofNat 16 s.requestedPrivilegeLevel.value

namespace IDTStructure

abbrev numGates : Nat := 256

abbrev gateSize : Nat := 16

inductive GateType where
  | interrupt
  | trap
  deriving DecidableEq

def GateType.value : GateType → Nat
  | .interrupt => 0xe
  | .trap => 0xf

structure GateDescriptor where
  interruptServiceRoutine : BitVec 64
  selector : SegmentSelector
  interruptStackTableOffset : Byte
  gateType : GateType
  requiredPrivilege : PrivilegeLevel
  deriving DecidableEq

/-- The bytes of a gate in the order of the stores, which cut the values to eight bits. -/
def gateBytes (g : GateDescriptor) : List Byte :=
  let isrAddress := g.interruptServiceRoutine
  let selectorBytes := g.selector.toUint16
  [isrAddress.setWidth 8, (isrAddress >>> 8).setWidth 8,
    selectorBytes.setWidth 8, (selectorBytes >>> 8).setWidth 8,
    g.interruptStackTableOffset &&& 7,
    -- the present bit makes the gate valid
    BitVec.ofNat 8 g.gateType.value ||| BitVec.ofNat 8 g.requiredPrivilege.value <<< 5 ||| 1 <<< 7,
    (isrAddress >>> 16).setWidth 8, (isrAddress >>> 24).setWidth 8,
    (isrAddress >>> 32).setWidth 8, (isrAddress >>> 40).setWidth 8,
    (isrAddress >>> 48).setWidth 8, (isrAddress >>> 56).setWidth 8,
    0xca, 0xfe, 0xba, 0xbe]

/-- Store bytes one after the other from index `base` on. -/
def storeFrom (table : Nat → Byte) (base : Nat) : List Byte → Nat → Byte
  | [] => table
  | b :: bs => storeFrom (Function.update table base b) (base + 1) bs

/-- The index of the first byte has 16 bits. -/
def loadGateDescriptor (table : Nat → Byte) (index : Nat) (g : GateDescriptor) : Nat → Byte :=
  storeFrom table (index * gateSize % 2 ^ 16) (gateBytes g)

/-- The table before the first load: `byte_representation_ {}`. -/
def zeroed : Nat → Byte := fun _ => 0

def loadAll (loads : List (Nat × GateDescriptor)) : Nat → Byte :=
  loads.foldl (fun table load => loadGateDescriptor table load.1 load.2) zeroed

/-! ### The processor's layout -/

/-- What the processor reads in a gate of the table. -/
structure Gate where
  offset : BitVec 64
  selector : BitVec 16
  ist : Byte
  type : BitVec 4
  dpl : BitVec 2
  present : Bool
  deriving DecidableEq

def decodeGate (table : Nat → Byte) (k : Nat) : Gate :=
  let b (i : Nat) := table (16 * k + i)
  { offset := b 11 ++ b 10 ++ b 9 ++ b 8 ++ b 7 ++ b 6 ++ b 1 ++ b 0
    selector := b 3 ++ b 2
    ist := b 4 &&& 7
    type := (b 5).extractLsb' 0 4
    dpl := (b 5).extractLsb' 5 2
    present := (b 5).getLsbD 7 }

/-- A selector as the processor reads it: an index into the table, the table and the privilege level. -/
def SelectorLayout (s : SegmentSelector) : BitVec 16 :=
  BitVec.ofNat 13 s.gdtSegment.value ++ BitVec.ofNat 1 s.tableType.value ++
    BitVec.ofNat 2 s.requestedPrivilegeLevel.value

/-- What a descriptor asks for. -/
def GateDescriptor.gate (g : GateDescriptor) : Gate where
  offset := g.interruptServiceRoutine
  selector := SelectorLayout g.selector
  ist := g.interruptStackTableOffset
  type := BitVec.ofNat 4 g.gateType.value
  dpl := BitVec.ofNat 2 g.requiredPrivilege.value
  present := true

/-- The last gate that was loaded at `k`. -/
def lastGate (loads : List (Nat × GateDescriptor)) (k : Nat) : Option GateDescriptor :=
  (loads.reverse.find? fun load => load.1 = k).map (·.2)

section

variable {table : Nat → Byte} {g : GateDescriptor} {base k index x : Nat}

theorem storeFrom_of_lt (bs : List Byte) (h : x < base) : storeFrom table base bs x = table x := by
  induction bs generalizing table base with
  | nil => rfl
  | cons b bs ih =>
      rw [storeFrom, ih (Nat.lt_succ_of_lt h)]
      exact Function.update_of_ne (Nat.ne_of_lt h) _ _

theorem storeFrom_of_ge (bs : List Byte) (h : base + bs.length ≤ x) : storeFrom table base bs x = table x := by
  induction bs generalizing table base with
  | nil => rfl
  | cons b bs ih =>
      rw [List.length_cons] at h
      rw [storeFrom, ih (by omega)]
      exact Function.update_of_ne (by omega) _ _

theorem storeFrom_getElem? (bs : List Byte) {i : Nat} {b : Byte} (h : bs[i]? = some b) :
    storeFrom table base bs (base + i) = b := by
  induction bs generalizing table base i with
  | nil => cases h
  | cons c bs ih =>
      rw [storeFrom]
      cases i with
      | zero =>
          rw [storeFrom_of_lt bs (by omega), Nat.add_zero, Function.update_self]
          exact Option.some.inj h
      | succ i =>
          have hindex : base + (i + 1) = base + 1 + i := by omega
          rw [hindex]
          exact ih h

theorem join_byte {w n n' m : Nat} (a : BitVec w) (h : n' = n + 8) :
    (a >>> n').setWidth m ++ (a >>> n).setWidth 8 = (a >>> n).setWidth (m + 8) := by
  subst h
  apply BitVec.eq_of_getLsbD_eq
  intro i hi
  simp only [BitVec.getLsbD_append, BitVec.getLsbD_setWidth, BitVec.getLsbD_ushiftRight]
  by_cases hlow : i < 8
  · simp [hlow, hi]
  · have hhigh : i - 8 < m := by omega
    have hindex : n + 8 + (i - 8) = n + i := by omega
    simp [hlow, hi, hhigh, hindex]

theorem join_last_byte {w m : Nat} (a : BitVec w) :
    (a >>> 8).setWidth m ++ a.setWidth 8 = a.setWidth (m + 8) := by
  simpa using join_byte (m := m) a (Nat.zero_add 8).symm

theorem join_address (a : BitVec 64) :
    (a >>> 56).setWidth 8 ++ (a >>> 48).setWidth 8 ++ (a >>> 40).setWidth 8 ++ (a >>> 32).setWidth 8 ++
      (a >>> 24).setWidth 8 ++ (a >>> 16).setWidth 8 ++ (a >>> 8).setWidth 8 ++ a.setWidth 8 = a := by
  rw [join_byte a rfl, join_byte a rfl, join_byte a rfl, join_byte a rfl, join_byte a rfl, join_byte a rfl,
    join_last_byte]
  exact BitVec.setWidth_eq a

theorem join_selector (s : SegmentSelector) :
    (s.toUint16 >>> 8).setWidth 8 ++ s.toUint16.setWidth 8 = SelectorLayout s := by
  rw [join_last_byte]
  obtain ⟨privilege, tableType, segment⟩ := s
  cases privilege <;> cases tableType <;> cases segment <;> decide

theorem attribute_fields (gateType : GateType) (privilege : PrivilegeLevel) :
    let b := BitVec.ofNat 8 gateType.value ||| BitVec.ofNat 8 privilege.value <<< 5 ||| 1 <<< 7
    b.extractLsb' 0 4 = BitVec.ofNat 4 gateType.value ∧ b.extractLsb' 5 2 = BitVec.ofNat 2 privilege.value ∧
      b.getLsbD 7 = true := by
  cases gateType <;> cases privilege <;> decide

theorem ist_masked {b : Byte} (h : b < 8) : b &&& 7 &&& 7 = b := by
  revert b
  decide

/-- The index of the first byte is computed in 16 bits, which are enough for the 256 gates. -/
theorem loadGateDescriptor_eq (hindex : index < 256) :
    loadGateDescriptor table index g = storeFrom table (16 * index) (gateBytes g) := by
  have hbase : index * gateSize % 2 ^ 16 = 16 * index := by
    unfold gateSize
    omega
  rw [loadGateDescriptor, hbase]

theorem loadGateDescriptor_byte (hindex : index < 256) {i : Nat} {b : Byte} (h : (gateBytes g)[i]? = some b) :
    loadGateDescriptor table index g (16 * index + i) = b := by
  rw [loadGateDescriptor_eq hindex]
  exact storeFrom_getElem? (gateBytes g) h

theorem decodeGate_load (hindex : index < 256) (hist : g.interruptStackTableOffset < 8) :
    decodeGate (loadGateDescriptor table index g) index = g.gate := by
  obtain ⟨htype, hdpl, hpresent⟩ := attribute_fields g.gateType g.requiredPrivilege
  unfold decodeGate
  simp only [loadGateDescriptor_byte hindex (i := 0) rfl, loadGateDescriptor_byte hindex (i := 1) rfl,
    loadGateDescriptor_byte hindex (i := 2) rfl, loadGateDescriptor_byte hindex (i := 3) rfl,
    loadGateDescriptor_byte hindex (i := 4) rfl, loadGateDescriptor_byte hindex (i := 5) rfl,
    loadGateDescriptor_byte hindex (i := 6) rfl, loadGateDescriptor_byte hindex (i := 7) rfl,
    loadGateDescriptor_byte hindex (i := 8) rfl, loadGateDescriptor_byte hindex (i := 9) rfl,
    loadGateDescriptor_byte hindex (i := 10) rfl, loadGateDescriptor_byte hindex (i := 11) rfl]
  rw [join_address, join_selector, ist_masked hist, htype, hdpl, hpresent]
  rfl

theorem decodeGate_load_other (hindex : index < 256) (hk : k ≠ index) :
    decodeGate (loadGateDescriptor table index g) k = decodeGate table k := by
  have hlength : (gateBytes g).length = 16 := rfl
  have hbyte : ∀ i < 16, loadGateDescriptor table index g (16 * k + i) = table (16 * k + i) := by
    intro i hi
    rw [loadGateDescriptor_eq hindex]
    rcases Nat.lt_or_gt_of_ne hk with hlt | hgt
    · exact storeFrom_of_lt (gateBytes g) (by omega)
    · exact storeFrom_of_ge (gateBytes g) (by omega)
  unfold decodeGate
  simp only [hbyte 0 (by decide), hbyte 1 (by decide), hbyte 2 (by decide), hbyte 3 (by decide), hbyte 4 (by decide),
    hbyte 5 (by decide), hbyte 6 (by decide), hbyte 7 (by decide), hbyte 8 (by decide), hbyte 9 (by decide),
    hbyte 10 (by decide), hbyte 11 (by decide)]

theorem loadAll_snoc (loads : List (Nat × GateDescriptor)) (load : Nat × GateDescriptor) :
    loadAll (loads ++ [load]) = loadGateDescriptor (loadAll loads) load.1 load.2 := by
  simp [loadAll]

theorem lastGate_snoc (loads : List (Nat × GateDescriptor)) (load : Nat × GateDescriptor) (k : Nat) :
    lastGate (loads ++ [load]) k = if load.1 = k then some load.2 else lastGate loads k := by
  unfold lastGate
  rw [List.reverse_append, List.reverse_singleton, List.singleton_append, List.find?_cons]
  by_cases hk : load.1 = k
  · simp [hk]
  · simp [hk]

end

/-- After any loads, the processor reads at each index the gate that was loaded
there last, and a gate that is not present where none was. -/
theorem idt_reads_last_gate (loads : List (Nat × GateDescriptor))
    (hloads : ∀ load ∈ loads, load.1 < 256 ∧ load.2.interruptStackTableOffset < 8) (k : Nat) :
    match lastGate loads k with
    | some g => decodeGate (loadAll loads) k = g.gate
    | none => (decodeGate (loadAll loads) k).present = false := by
  induction loads using List.reverseRecOn with
  | nil =>
      change (decodeGate zeroed k).present = false
      simp [decodeGate, zeroed]
  | append_singleton loads load ih =>
      obtain ⟨hindex, hist⟩ := hloads load (List.mem_append_right _ (List.mem_singleton_self load))
      have hbefore := ih fun l hl => hloads l (List.mem_append_left _ hl)
      rw [lastGate_snoc, loadAll_snoc]
      by_cases hk : load.1 = k
      · subst hk
        rw [if_pos rfl]
        exact decodeGate_load hindex hist
      · rw [if_neg hk, decodeGate_load_other hindex (Ne.symm hk)]
        exact hbefore

/-- The breakpoint gate of user programs, loaded over another gate at the same index. -/
def breakpointLoads : List (Nat × GateDescriptor) :=
  [(3, ⟨0xffffffff80000000, ⟨.kernel, .globalTable, .kernelCode⟩, 0, .interrupt, .kernel⟩),
    (3, ⟨0xffffffff80001234, ⟨.user, .globalTable, .userCode⟩, 7, .trap, .user⟩)]

theorem idt_reads_last_gate_breakpoint :
    (∀ load ∈ breakpointLoads, load.1 < 256 ∧ load.2.interruptStackTableOffset < 8) ∧
    decodeGate (loadAll breakpointLoads) 3 = ⟨0xffffffff80001234, 0x1b, 7, 0xf, 3, true⟩ ∧
    (decodeGate (loadAll breakpointLoads) 4).present = false := by
  have hloads : ∀ load ∈ breakpointLoads, load.1 < 256 ∧ load.2.interruptStackTableOffset < 8 := by decide
  exact ⟨hloads, idt_reads_last_gate breakpointLoads hloads 3, idt_reads_last_gate breakpointLoads hloads 4⟩

end IDTStructure

end DavOS
