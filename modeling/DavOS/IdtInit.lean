import DavOS.Gdt

/-! `idt_init` and what it makes of an interrupt: the processor looks its vector up in
the table it was given, checks the gate and the code segment of its selector, and
enters a service routine. -/
namespace DavOS
open IDTStructure ByteMemory

/-- The interrupt service routines of `idt.cpp`. -/
inductive Isr where
  | divideError
  | debugException
  | nmiInterrupt
  | breakpoint
  | overflow
  | boundRangeExceeded
  | invalidOpcode
  | deviceNotAvailable
  | doubleFault
  | coprocessorSegmentOverrun
  | invalidTss
  | segmentNotPresent
  | stackSegmentFault
  | generalProtection
  | pageFault
  | mathFault
  | alignmentCheck
  | machineCheck
  | simdFloatingPointException
  | virtualizationException
  | interprocessorInterrupt
  | keyboard
  deriving DecidableEq

/-- The routines that are declared with an error code: they take it off the stack before they return. -/
def Isr.withErrorCode : Isr → Bool
  | .doubleFault => true
  | .coprocessorSegmentOverrun => true
  | .invalidTss => true
  | .segmentNotPresent => true
  | .stackSegmentFault => true
  | .generalProtection => true
  | .pageFault => true
  | .alignmentCheck => true
  | _ => false

/-- The format with which a routine calls `kernel_panic`; the others come to their end. -/
def Isr.panic : Isr → Option String
  | .divideError => some "divide error\n"
  | .debugException => some "debug exception\n"
  | .nmiInterrupt => some "nonmaskable external interrupt\n"
  | .breakpoint => some "breakpoint\n"
  | .overflow => some "overflow\n"
  | .boundRangeExceeded => some "bound range exceeded\n"
  | .invalidOpcode => some "invalid opcode\n"
  | .deviceNotAvailable => some "device not available\n"
  | .doubleFault => some "double fault\n"
  | .coprocessorSegmentOverrun => some "coprocessor segment overrun\n"
  | .invalidTss => some "invalid tss\n"
  | .segmentNotPresent => some "segment not present\n"
  | .stackSegmentFault => some "stack segment fault\n"
  | .generalProtection => some "general protection\nerror_code: %x"
  | .pageFault => none
  | .mathFault => some "math fault\n"
  | .alignmentCheck => some "alignment check\n"
  | .machineCheck => some "machine check\n"
  | .simdFloatingPointException => some "SIMD floating-point exception\n"
  | .virtualizationException => some "virtualization exception\n"
  | .interprocessorInterrupt => none
  | .keyboard => none

/-- `system_idt_descriptors`, in the order of its vectors. The processor has nothing at
vector 15, so that from there on each routine stands one before its exception. -/
def systemIdtDescriptors : List (Isr × GateType) :=
  [(.divideError, .interrupt), (.debugException, .interrupt), (.nmiInterrupt, .interrupt), (.breakpoint, .trap),
    (.overflow, .interrupt), (.boundRangeExceeded, .interrupt), (.invalidOpcode, .interrupt),
    (.deviceNotAvailable, .interrupt), (.doubleFault, .interrupt), (.coprocessorSegmentOverrun, .interrupt),
    (.invalidTss, .interrupt), (.segmentNotPresent, .interrupt), (.stackSegmentFault, .interrupt),
    (.generalProtection, .interrupt), (.pageFault, .interrupt), (.mathFault, .interrupt),
    (.alignmentCheck, .interrupt), (.machineCheck, .interrupt), (.simdFloatingPointException, .interrupt),
    (.virtualizationException, .interrupt)]

def userIdtDescriptors : List (Isr × GateType) := [(.keyboard, .interrupt)]

section

variable (address : Isr → BitVec 64)

def kernelGate (gate : Isr × GateType) : GateDescriptor where
  interruptServiceRoutine := address gate.1
  selector := ⟨.kernel, .globalTable, .kernelCode⟩
  interruptStackTableOffset := 0
  gateType := gate.2
  requiredPrivilege := .kernel

/-- Load the gates of a list from a vector on. -/
def loadGates (table : Nat → Byte) (first : Nat) : List (Isr × GateType) → Nat → Byte
  | [] => table
  | gate :: gates => loadGates (loadGateDescriptor table first (kernelGate address gate)) (first + 1) gates

/-- The bytes of the table that `idt_init` leaves; the routines are where the linker has put them. -/
def idtInit : Nat → Byte :=
  let system := loadGates address zeroed 0 systemIdtDescriptors
  let user := loadGates address system 0x30 userIdtDescriptors
  loadGateDescriptor user 0xff (kernelGate address (.interprocessorInterrupt, .interrupt))

/-! ### The table by vectors -/

/-- The gate that a vector has after `idt_init`. -/
def vectorGate (vector : Nat) : Option (Isr × GateType) :=
  if vector = 0xff then some (.interprocessorInterrupt, .interrupt)
  else if vector = 0x30 then some (.keyboard, .interrupt)
  else systemIdtDescriptors[vector]?

variable {address} {table : Nat → Byte} {first k : Nat}

theorem decodeGate_kernelGate (gate : Isr × GateType) (hfirst : first < 256) :
    decodeGate (loadGateDescriptor table first (kernelGate address gate)) k =
      if k = first then (kernelGate address gate).gate else decodeGate table k := by
  split
  · rename_i hk
    rw [hk]
    exact decodeGate_load hfirst (by decide : (0 : Byte) < 8)
  · rename_i hk
    exact decodeGate_load_other hfirst hk

theorem decodeGate_loadGates {gates : List (Isr × GateType)} (hfirst : first + gates.length ≤ 256) :
    decodeGate (loadGates address table first gates) k =
      if first ≤ k ∧ k < first + gates.length then
        ((gates[k - first]?).map fun gate => (kernelGate address gate).gate).getD (decodeGate table k)
      else decodeGate table k := by
  induction gates generalizing table first with
  | nil =>
      rw [loadGates, if_neg]
      rw [List.length_nil]
      omega
  | cons gate gates ih =>
      rw [List.length_cons] at hfirst
      have hload : decodeGate (loadGateDescriptor table first (kernelGate address gate)) k =
          if k = first then (kernelGate address gate).gate else decodeGate table k :=
        decodeGate_kernelGate gate (by omega)
      rw [loadGates, ih (by omega), List.length_cons]
      rcases Nat.lt_trichotomy k first with hlt | rfl | hgt
      · rw [if_neg (by omega), if_neg (by omega), hload, if_neg (by omega)]
      · rw [if_neg (by omega), if_pos (by omega), hload, if_pos rfl, Nat.sub_self]
        rfl
      · rw [if_neg (by omega)] at hload
        rw [hload, show k - first = k - (first + 1) + 1 by omega, List.getElem?_cons_succ]
        by_cases hend : k < first + (gates.length + 1)
        · rw [if_pos (by omega), if_pos (by omega)]
        · rw [if_neg (by omega), if_neg (by omega)]

theorem decodeGate_zeroed (k : Nat) : decodeGate zeroed k = ⟨0, 0, 0, 0, 0, false⟩ := by
  simp only [decodeGate, zeroed]
  decide

theorem decodeGate_idtInit (k : Nat) :
    decodeGate (idtInit address) k =
      match vectorGate k with
      | some gate => (kernelGate address gate).gate
      | none => ⟨0, 0, 0, 0, 0, false⟩ := by
  have hsystem : systemIdtDescriptors.length = 20 := rfl
  have huser : userIdtDescriptors.length = 1 := rfl
  unfold idtInit vectorGate
  dsimp only
  rw [decodeGate_kernelGate _ (by decide), decodeGate_loadGates (by rw [huser]; decide),
    decodeGate_loadGates (by rw [hsystem]; decide), decodeGate_zeroed, hsystem, huser]
  by_cases hipi : k = 0xff
  · rw [if_pos hipi, if_pos hipi]
  rw [if_neg hipi, if_neg hipi]
  by_cases hkeyboard : k = 0x30
  · rw [if_pos hkeyboard, if_pos (by omega), hkeyboard]
    rfl
  rw [if_neg hkeyboard, if_neg (by omega)]
  by_cases hexception : k < 20
  · rw [if_pos (by omega), Nat.sub_zero]
    cases hgate : systemIdtDescriptors[k]? with
    | none => rfl
    | some gate => rfl
  · rw [if_neg (by omega), List.getElem?_eq_none (by omega)]

end

/-! ### The processor -/

/-- Where an interrupt enters the kernel. -/
structure InterruptEntry where
  ip : BitVec 64
  cs : BitVec 16
  /-- Whether the flag for maskable interrupts is cleared. -/
  masked : Bool
  deriving DecidableEq

/-- The exceptions that the delivery of an interrupt can end in, with their error code. -/
inductive DeliveryFault where
  | generalProtection (errorCode : Nat)
  | segmentNotPresent (errorCode : Nat)
  deriving DecidableEq

def DeliveryFault.vector : DeliveryFault → Nat
  | .generalProtection _ => 13
  | .segmentNotPresent _ => 11

def DeliveryFault.errorCode : DeliveryFault → Nat
  | .generalProtection errorCode => errorCode
  | .segmentNotPresent errorCode => errorCode

/-- The descriptor of a selector in the global table. -/
def segmentAt (m : Nat → Byte) (gdtr : TableRegister) (selector : BitVec 16) : SegmentDescriptor :=
  decodeSegment (BitVec.ofNat 64 (load64 m (gdtr.base.toNat + 8 * (selector >>> 3).toNat)))

/-- Delivery of a hardware interrupt or an exception in 64-bit mode, for a processor that
runs with the privilege of the kernel. -/
def deliver (m : Nat → Byte) (idtr gdtr : TableRegister) (vector : Nat) : Except DeliveryFault InterruptEntry :=
  let gate := decodeGate (fun i => m (idtr.base.toNat + i)) vector
  let segment := segmentAt m gdtr gate.selector
  -- an error code names the vector or the selector; bit 1 says that it is a vector
  if idtr.limit.toNat < 16 * vector + 15 then .error (.generalProtection (8 * vector + 2))
  else if gate.type ≠ 0xe ∧ gate.type ≠ 0xf then .error (.generalProtection (8 * vector + 2))
  else if gate.present = false then .error (.segmentNotPresent (8 * vector + 2))
  else if gate.selector >>> 2 = 0 then .error (.generalProtection 0)
  else if gate.selector.getLsbD 2 ∨ gdtr.limit.toNat < 8 * (gate.selector >>> 3).toNat + 7 then
    .error (.generalProtection (gate.selector &&& 0xfffc).toNat)
  else if segment.isCode = false ∨ segment.dpl ≠ 0 then .error (.generalProtection (gate.selector &&& 0xfffc).toNat)
  else if segment.present = false then .error (.segmentNotPresent (gate.selector &&& 0xfffc).toNat)
  else if segment.isLong = false then .error (.generalProtection (gate.selector &&& 0xfffc).toNat)
  else .ok ⟨gate.offset, gate.selector, gate.type = 0xe⟩

/-- An exception in the delivery is delivered itself. -/
def interrupt (m : Nat → Byte) (idtr gdtr : TableRegister) (vector : Nat) : Except DeliveryFault InterruptEntry :=
  match deliver m idtr gdtr vector with
  | .ok entry => .ok entry
  | .error fault => deliver m idtr gdtr fault.vector

/-- The tables as they lie in memory, the interrupt table at `idt` and the segments at `gdt`. -/
structure HoldsTables (address : Isr → BitVec 64) (m : Nat → Byte) (idt gdt : BitVec 64) : Prop where
  idt_eq : ∀ i < 4096, m (idt.toNat + i) = idtInit address i
  gdt_eq : ∀ i < 5, (globalDescriptorTable[i]?).map BitVec.toNat = some (load64 m (gdt.toNat + 8 * i))

/-- `idt_descriptor`, as `lidt` loads it. -/
def idtRegister (idt : BitVec 64) : TableRegister := loadTableRegister (tableDescriptorBytes 4096 idt)

/-- `gdt_descriptor`, as `lgdt` loads it. -/
def gdtRegister (gdt : BitVec 64) : TableRegister := loadTableRegister (tableDescriptorBytes 40 gdt)

section

variable {address : Isr → BitVec 64} {m : Nat → Byte} {idt gdt : BitVec 64} {vector : Nat}

theorem HoldsTables.decodeGate_eq (h : HoldsTables address m idt gdt) (hvector : vector < 256) :
    decodeGate (fun i => m (idt.toNat + i)) vector = decodeGate (idtInit address) vector := by
  have hbyte : ∀ i < 16, m (idt.toNat + (16 * vector + i)) = idtInit address (16 * vector + i) :=
    fun i hi => h.idt_eq _ (by omega)
  unfold decodeGate
  simp only [hbyte 0 (by decide), hbyte 1 (by decide), hbyte 2 (by decide), hbyte 3 (by decide), hbyte 4 (by decide),
    hbyte 5 (by decide), hbyte 6 (by decide), hbyte 7 (by decide), hbyte 8 (by decide), hbyte 9 (by decide),
    hbyte 10 (by decide), hbyte 11 (by decide)]

theorem HoldsTables.segmentAt_kernelCode (h : HoldsTables address m idt gdt) :
    segmentAt m (gdtRegister gdt) 8 = decodeSegment
      (makeSegmentDescriptor 0 0x000fffff kernelCodeAccess longModeCodePaging) := by
  have hload : (makeSegmentDescriptor 0 0x000fffff kernelCodeAccess longModeCodePaging).toNat =
      load64 m (gdt.toNat + 8 * 1) := Option.some.inj (h.gdt_eq 1 (by decide))
  have hindex : ((8 : BitVec 16) >>> 3).toNat = 1 := by decide
  rw [segmentAt, gdtRegister, loadTableRegister_tableDescriptor, hindex, ← hload, BitVec.ofNat_toNat, BitVec.setWidth_eq]

theorem HoldsTables.deliver_some (h : HoldsTables address m idt gdt) (hvector : vector < 256) {gate : Isr × GateType}
    (hgate : vectorGate vector = some gate) :
    deliver m (idtRegister idt) (gdtRegister gdt) vector = .ok ⟨address gate.1, 8, gate.2 = .interrupt⟩ := by
  have hlimit : (idtRegister idt).limit.toNat = 4095 := by
    rw [idtRegister, loadTableRegister_tableDescriptor]
    rfl
  have hlimit' : (gdtRegister gdt).limit.toNat = 39 := by
    rw [gdtRegister, loadTableRegister_tableDescriptor]
    rfl
  have hbase : (idtRegister idt).base = idt := by rw [idtRegister, loadTableRegister_tableDescriptor]
  have hdecoded : decodeGate (fun i => m (idt.toNat + i)) vector = (kernelGate address gate).gate := by
    rw [h.decodeGate_eq hvector, decodeGate_idtInit, hgate]
  have hselector : (kernelGate address gate).gate.selector = 8 :=
    (by decide : SelectorLayout ⟨.kernel, .globalTable, .kernelCode⟩ = 8)
  have htype : ¬ ((kernelGate address gate).gate.type ≠ 0xe ∧ (kernelGate address gate).gate.type ≠ 0xf) ∧
      (kernelGate address gate).gate.present = true ∧
      ((kernelGate address gate).gate.type = 0xe ↔ gate.2 = .interrupt) := by
    obtain ⟨isr, gateType⟩ := gate
    cases gateType with
    | interrupt => exact ⟨fun h => h.1 rfl, rfl, iff_of_true rfl rfl⟩
    | trap =>
        exact ⟨fun h => h.2 rfl, rfl,
          iff_of_false (by decide : (0xf : BitVec 4) ≠ 0xe) (by decide : GateType.trap ≠ .interrupt)⟩
  unfold deliver
  dsimp only
  rw [hbase, hdecoded, hselector, h.segmentAt_kernelCode, hlimit, hlimit', if_neg (by omega), if_neg htype.1,
    if_neg (by simp [htype.2.1])]
  -- the selector and the segment are fixed from here on
  rw [if_neg (by decide), if_neg (by decide), if_neg (by decide), if_neg (by decide), if_neg (by decide)]
  simp only [htype.2.2]
  rfl

theorem HoldsTables.deliver_none (h : HoldsTables address m idt gdt) (hvector : vector < 256)
    (hgate : vectorGate vector = none) :
    deliver m (idtRegister idt) (gdtRegister gdt) vector = .error (.generalProtection (8 * vector + 2)) := by
  have hlimit : (idtRegister idt).limit.toNat = 4095 := by
    rw [idtRegister, loadTableRegister_tableDescriptor]
    rfl
  have hbase : (idtRegister idt).base = idt := by rw [idtRegister, loadTableRegister_tableDescriptor]
  have hdecoded : decodeGate (fun i => m (idt.toNat + i)) vector = ⟨0, 0, 0, 0, 0, false⟩ := by
    rw [h.decodeGate_eq hvector, decodeGate_idtInit, hgate]
  unfold deliver
  dsimp only
  rw [hbase, hdecoded, hlimit, if_neg (by omega), if_pos (by decide)]

end

/-! ### Entering and leaving -/

structure InterruptFrame where
  ip : BitVec 64
  cs : BitVec 64
  flags : BitVec 64
  sp : BitVec 64
  ss : BitVec 64
  deriving DecidableEq

/-- The exceptions for which the processor pushes an error code. -/
def pushesErrorCode (vector : Nat) : Bool := [8, 10, 11, 12, 13, 14, 17, 21, 29, 30].contains vector

/-- The stack of a service routine, its top first. -/
def enter (vector : Nat) (frame : InterruptFrame) (errorCode : BitVec 64) (stack : List (BitVec 64)) :
    List (BitVec 64) :=
  (if pushesErrorCode vector then [errorCode] else []) ++
    [frame.ip, frame.cs, frame.flags, frame.sp, frame.ss] ++ stack

/-- The end of a service routine: the error code is dropped if it is declared, and `iretq` pops the rest. -/
def Isr.leave (isr : Isr) (stack : List (BitVec 64)) : Option (InterruptFrame × List (BitVec 64)) :=
  match stack.drop (if isr.withErrorCode then 1 else 0) with
  | ip :: cs :: flags :: sp :: ss :: rest => some (⟨ip, cs, flags, sp, ss⟩, rest)
  | _ => none

/-- A routine that returns is declared with an error code exactly where one is pushed. -/
theorem vectorGate_errorCode {vector : Nat} {gate : Isr × GateType} (h : vectorGate vector = some gate)
    (hreturns : gate.1.panic = none) : pushesErrorCode vector = gate.1.withErrorCode := by
  have hsystem : ∀ i < 20, ∀ gate ∈ systemIdtDescriptors[i]?, gate.1.panic = none →
      pushesErrorCode i = gate.1.withErrorCode := by decide
  unfold vectorGate at h
  split at h
  · rename_i hipi
    cases h
    rw [hipi]
    rfl
  · split at h
    · rename_i hkeyboard
      cases h
      rw [hkeyboard]
      rfl
    · have hlt : vector < 20 := (List.getElem?_eq_some_iff.mp h).1
      exact hsystem vector hlt gate h hreturns

theorem vectorGate_masked {vector : Nat} {gate : Isr × GateType} (h : vectorGate vector = some gate) :
    gate.2 = .interrupt ↔ gate.1 ≠ .breakpoint := by
  have hsystem : ∀ gate ∈ systemIdtDescriptors, gate.2 = .interrupt ↔ gate.1 ≠ .breakpoint := by decide
  unfold vectorGate at h
  split at h
  · cases h
    decide
  · split at h
    · cases h
      decide
    · exact hsystem gate (List.mem_of_getElem? h)

theorem leave_enter {isr : Isr} {vector : Nat} (h : pushesErrorCode vector = isr.withErrorCode) (frame : InterruptFrame)
    (errorCode : BitVec 64) (stack : List (BitVec 64)) :
    isr.leave (enter vector frame errorCode stack) = some (frame, stack) := by
  unfold Isr.leave enter
  rw [h]
  cases isr.withErrorCode with
  | true => rfl
  | false => rfl

/-- The routine that serves a vector. A vector without a gate ends in a general protection
fault; among them are the sixteen that the interrupt controllers are mapped to. -/
def servingIsr (vector : Nat) : Isr := ((vectorGate vector).map Prod.fst).getD .generalProtection

/-- Wherever the tables and the routines lie, every vector enters the routine that serves
it, in the code segment of the kernel and, but for the breakpoint, with interrupts off;
and a routine that does not panic goes back to where the processor was. -/
theorem every_vector_is_served (address : Isr → BitVec 64) (m : Nat → Byte) (idt gdt : BitVec 64)
    (h : HoldsTables address m idt gdt) (vector : Nat) (hvector : vector < 256) :
    interrupt m (idtRegister idt) (gdtRegister gdt) vector =
      .ok ⟨address (servingIsr vector), 8, servingIsr vector ≠ .breakpoint⟩ ∧
    ((servingIsr vector).panic = none → ∀ frame errorCode stack,
      (servingIsr vector).leave (enter vector frame errorCode stack) = some (frame, stack)) := by
  unfold servingIsr interrupt
  cases hgate : vectorGate vector with
  | some gate =>
      rw [h.deliver_some hvector hgate]
      refine ⟨?_, fun hreturns => leave_enter (vectorGate_errorCode hgate hreturns)⟩
      simp only [vectorGate_masked hgate]
      rfl
  | none =>
      rw [h.deliver_none hvector hgate]
      exact ⟨h.deliver_some (by decide) (rfl : vectorGate 13 = some (.generalProtection, .interrupt)),
        fun hreturns => absurd hreturns (Option.some_ne_none _)⟩

/-- A memory with the interrupt table at 0x1000 and the segments at 0x2000. -/
def tablesImage (address : Isr → BitVec 64) (a : Nat) : Byte :=
  if a < 0x2000 then idtInit address (a - 0x1000)
  else (globalDescriptorTable.getD ((a - 0x2000) / 8) 0 >>> (8 * ((a - 0x2000) % 8))).setWidth 8

theorem every_vector_is_served_keyboard :
    interrupt (tablesImage fun _ => 0xffffffff80001000) (idtRegister 0x1000) (gdtRegister 0x2000) 0x30 =
      .ok ⟨0xffffffff80001000, 8, true⟩ := by
  have htables : HoldsTables (fun _ => 0xffffffff80001000) (tablesImage fun _ => 0xffffffff80001000) 0x1000 0x2000 := by
    refine ⟨fun i hi => ?_, by decide +kernel⟩
    have hlow : (0x1000 : BitVec 64).toNat + i < 0x2000 := by
      change 0x1000 + i < 0x2000
      omega
    rw [tablesImage, if_pos hlow]
    exact congrArg (idtInit _) (Nat.add_sub_cancel_left _ _)
  exact (every_vector_is_served _ _ _ _ htables 0x30 (by decide)).1

end DavOS
