import DavOS.AddMapping
import DavOS.PageFault
import DavOS.Pic

/-! `LocalAPIC::enableAPIC` and the registers of the local APIC. The kernel learns the
physical base of the registers from a model-specific register, maps it, and writes
it back; from then on every access through the mapping has to reach the registers. -/
namespace DavOS
open MachineWord PathGraph GuardedRun kernelConstants

/-! ### The code -/

/-- The bits of `CpuIdFeature` that are looked at. -/
structure CpuFeatures where
  msr : Bool
  apic : Bool
  pat : Bool
  deriving DecidableEq

/-- A store of the processor: the physical address and the flags that the walk gives
for it, if any, and the value. -/
abbrev ApicStore := Option (Nat × PageFlags) × BitVec 32

/-- The processor, what it has stored through the pointers to the local APIC, the
newest last, and the object `processor::localAPIC`. -/
structure ApicMachine where
  features : CpuFeatures
  /-- The register `IA32_APIC_BASE`. -/
  apicBase : BitVec 64
  interruptFlag : Bool
  pics : PicPair
  paging : PagingState
  baseAddress : Nat := 0
  stores : List ApicStore := []

namespace ApicMachine

/-- The low and the high half of `IA32_APIC_BASE`, the only register that is read. -/
def readMSR (s : ApicMachine) : Except Stop (BitVec 32 × BitVec 32) :=
  if s.features.msr then .ok (s.apicBase.setWidth 32, (s.apicBase >>> 32).setWidth 32)
  else .error (.panic "processor does not support MSR")

def writeMSR (s : ApicMachine) (low high : BitVec 32) : Except Stop ApicMachine :=
  if s.features.msr then .ok { s with apicBase := high ++ low }
  else .error (.panic "processor does not support MSR")

/-- `__PHYSICAL_MEMORY_EXTENSION__` is not defined, so the high half is dropped. -/
def localAPICBaseAddress (s : ApicMachine) : Except Stop Nat :=
  if s.features.apic then do
    let (low, _) ← s.readMSR
    return (low &&& 0xfffff000#32).toNat
  else .error (.panic "processor does not support local APIC")

def hardwareEnableLocalAPICAndSetBaseAddress (s : ApicMachine) (physicalBaseAddress : Nat) :
    Except Stop ApicMachine :=
  if s.features.apic then
    s.writeMSR ((BitVec.ofNat 32 physicalBaseAddress &&& 0xfffff000#32) ||| (1#32 <<< 11)) 0#32
  else .error (.panic "processor does not support local APIC")

/-- A store through a pointer; the processor finds the physical address. -/
def store (offset root : Nat) (s : ApicMachine) (address : Nat) (value : BitVec 32) : ApicMachine :=
  { s with stores := s.stores ++ [(Ia32e.translate (physical offset s.paging.mem) root address, value)] }

def write (offset root : Nat) (s : ApicMachine) (regOffset : Nat) (value : BitVec 32) : ApicMachine :=
  s.store offset root (wrap (s.baseAddress + regOffset)) value

theorem mappingFlags_combination : (PageFlags.write ||| PageFlags.cacheDisable) &&& ~~~PageFlags.all = 0#64 := by decide

def mappingFlags : FlagSet := ⟨PageFlags.write ||| PageFlags.cacheDisable, mappingFlags_combination⟩

def enableAPIC (offset root : Nat) (s : ApicMachine) : Except Stop ApicMachine := do
  let physicalAPICAddress ← s.localAPICBaseAddress
  let virtualAPICAddress := wrap (physicalAPICAddress + offset)
  if s.features.pat then
    let paging ← pagingAddMapping (fun _ => offset) (wrap (root + offset)) s.paging virtualAPICAddress
      physicalAPICAddress pageSize mappingFlags.bits
    let s := { s with paging := paging, baseAddress := virtualAPICAddress }
    let s ← s.hardwareEnableLocalAPICAndSetBaseAddress physicalAPICAddress
    let s := { s with pics := remapPIC (disablePIC s.pics) 0x20 0x28, interruptFlag := true }
    return (s.write offset root 0xF0 0x1FF#32).write offset root 0x80 0#32
  else .error (.panic "Processor does not support PAT")

def sendEndOfInterrupt (offset root : Nat) (s : ApicMachine) : ApicMachine := s.write offset root 0xB0 0#32

/-- `APICManager::sendInterprocessorInterrupt` does not use the object, but finds the
registers by the model-specific register again. -/
def sendInterprocessorInterrupt (offset root : Nat) (s : ApicMachine) (destination vector : Byte) :
    Except Stop ApicMachine := do
  let low := 0x4000#32 ||| vector.setWidth 32
  let high := destination.setWidth 32 <<< 24
  let localAPICAddress := wrap ((← s.localAPICBaseAddress) + offset)
  return (s.store offset root (wrap (localAPICAddress + 0x310)) high).store offset root
    (wrap (localAPICAddress + 0x300)) low

/-! ### The registers -/

/-- The physical base of the registers: bits 12 to 51 of `IA32_APIC_BASE`. -/
def registersBase (s : ApicMachine) : Nat := Ia32e.addressField s.apicBase

section

variable {offset root : Nat} {s : ApicMachine}

/-- The base that the kernel uses. -/
def usedBase (apicBase : BitVec 64) : Nat := (apicBase.setWidth 32 &&& 0xfffff000#32).toNat

theorem baseMask_bit (i : Nat) : (0xfffff000#32).getLsbD i = decide (12 ≤ i ∧ i < 32) := by
  by_cases hi : i < 32
  · exact (by decide : ∀ i : Fin 32, (0xfffff000#32).getLsbD i = decide (12 ≤ i.val ∧ i.val < 32)) ⟨i, hi⟩
  · rw [BitVec.getLsbD_of_ge _ _ (Nat.le_of_not_lt hi), decide_eq_false (fun h => hi h.2)]

theorem usedBase_bit (apicBase : BitVec 64) (i : Nat) :
    (usedBase apicBase).testBit i = (apicBase.getLsbD i && decide (12 ≤ i ∧ i < 32)) := by
  rw [usedBase, BitVec.testBit_toNat, BitVec.getLsbD_and, BitVec.getLsbD_setWidth, baseMask_bit]
  by_cases hi : i < 32 <;> simp [hi]

theorem usedBase_lt (apicBase : BitVec 64) : usedBase apicBase < 2 ^ 32 := BitVec.isLt _

theorem usedBase_aligned (apicBase : BitVec 64) : usedBase apicBase % 4096 = 0 := by
  change usedBase apicBase % 2 ^ 12 = 0
  apply Nat.eq_of_testBit_eq
  intro i
  rw [Nat.testBit_mod_two_pow, usedBase_bit, Nat.zero_testBit]
  by_cases hi : i < 12
  · rw [decide_eq_false (fun h : 12 ≤ i ∧ i < 32 => absurd h.1 (by omega)), Bool.and_false, Bool.and_false]
  · rw [decide_eq_false hi, Bool.false_and]

/-- The base loses what is above 4 GiB. -/
theorem usedBase_eq (s : ApicMachine) : usedBase s.apicBase = s.registersBase % 2 ^ 32 := by
  apply Nat.eq_of_testBit_eq
  intro i
  rw [usedBase_bit, Nat.testBit_mod_two_pow, registersBase, Ia32e.addressField, BitVec.testBit_toNat,
    BitVec.getLsbD_and, addressMask_bit]
  by_cases hi : i < 32
  · have hiff : (12 ≤ i ∧ i < 52) ↔ (12 ≤ i ∧ i < 32) := by omega
    simp [hi, hiff]
  · simp [hi]

/-- What `hardwareEnableLocalAPICAndSetBaseAddress` writes. -/
def enabledAt (base : Nat) : BitVec 64 := 0#32 ++ ((BitVec.ofNat 32 base &&& 0xfffff000#32) ||| (1#32 <<< 11))

theorem enabledAt_bit (base i : Nat) :
    (enabledAt base).getLsbD i = (decide (i < 32) && (base.testBit i && decide (12 ≤ i) || decide (i = 11))) := by
  have heleven : (1#32 <<< 11).getLsbD i = decide (i = 11) := by
    by_cases hi : i < 32
    · exact (by decide : ∀ i : Fin 32, (1#32 <<< 11).getLsbD i = decide (i.val = 11)) ⟨i, hi⟩
    · rw [BitVec.getLsbD_of_ge _ _ (Nat.le_of_not_lt hi), decide_eq_false (by omega)]
  rw [enabledAt, BitVec.getLsbD_append]
  by_cases hi : i < 32
  · rw [if_pos hi, BitVec.getLsbD_or, BitVec.getLsbD_and, baseMask_bit, heleven, BitVec.getLsbD_ofNat]
    simp [hi]
  · simp [hi]

theorem addressField_enabledAt (apicBase : BitVec 64) :
    Ia32e.addressField (enabledAt (usedBase apicBase)) = usedBase apicBase := by
  apply Nat.eq_of_testBit_eq
  intro i
  rw [Ia32e.addressField, BitVec.testBit_toNat, BitVec.getLsbD_and, addressMask_bit, enabledAt_bit, usedBase_bit]
  by_cases h12 : 12 ≤ i
  · by_cases h32 : i < 32
    · have h52 : i < 52 := by omega
      have h11 : ¬ i = 11 := by omega
      simp [h12, h32, h52, h11]
    · simp [h32]
  · simp [h12]

theorem register_address {base reg : Nat} (hbase : base < 2 ^ 32) (haligned : base % 4096 = 0)
    (hoffset : offset % 4096 = 0) (hhigh : offset + 2 ^ 32 ≤ 0xfffffffffffff000) (hreg : reg < 4096) :
    SamePage (wrap (wrap (base + offset) + reg)) (base + offset) ∧ wrap (wrap (base + offset) + reg) % 4096 = reg := by
  have hlow : wrap (base + offset) = base + offset := wrap_of_lt (by omega)
  have hall : wrap (base + offset + reg) = base + offset + reg := wrap_of_lt (by omega)
  rw [hlow, hall]
  unfold SamePage
  omega

theorem readMSR_ok (h : s.features.msr = true) :
    s.readMSR = .ok (s.apicBase.setWidth 32, (s.apicBase >>> 32).setWidth 32) := by
  rw [readMSR, if_pos h]

theorem localAPICBaseAddress_eq (hmsr : s.features.msr = true) (hapic : s.features.apic = true) :
    s.localAPICBaseAddress = .ok (usedBase s.apicBase) := by
  rw [localAPICBaseAddress, if_pos hapic, readMSR_ok hmsr]
  rfl

theorem hardwareEnable_eq (hmsr : s.features.msr = true) (hapic : s.features.apic = true) (base : Nat) :
    s.hardwareEnableLocalAPICAndSetBaseAddress base = .ok { s with apicBase := enabledAt base } := by
  rw [hardwareEnableLocalAPICAndSetBaseAddress, if_pos hapic, writeMSR, if_pos hmsr]
  rfl

/-- The APIC registers at `base` are mapped, and both ways to them lead there. -/
structure Ready (offset root base : Nat) (s : ApicMachine) : Prop where
  msr : s.features.msr = true
  apic : s.features.apic = true
  object : s.baseAddress = wrap (base + offset)
  register : usedBase s.apicBase = base
  intact : Intact offset root s.paging
  leaf : leafEntry offset root s.paging.mem (base + offset) = entryWord base mappingFlags.bits

def registerStore (base reg : Nat) (value : BitVec 32) : ApicStore :=
  (some (base + reg, mappingFlags.bits ||| PageFlags.present), value)

def recorded (s : ApicMachine) (entry : ApicStore) : ApicMachine := { s with stores := s.stores ++ [entry] }

theorem Ready.after_store {base : Nat} (h : Ready offset root base s) (entry : ApicStore) :
    Ready offset root base (s.recorded entry) := ⟨h.msr, h.apic, h.object, h.register, h.intact, h.leaf⟩

theorem Ready.store_eq {base : Nat} (h : Ready offset root base s) (hoffset : offset % 4096 = 0)
    (hhigh : offset + 2 ^ 32 ≤ 0xfffffffffffff000) {reg : Nat} (hreg : reg < 4096) (value : BitVec 32) :
    s.store offset root (wrap (wrap (base + offset) + reg)) value = s.recorded (registerStore base reg value) := by
  have hbase : base < 2 ^ 32 := h.register ▸ usedBase_lt s.apicBase
  have haligned : base % 4096 = 0 := h.register ▸ usedBase_aligned s.apicBase
  obtain ⟨hpage, hrest⟩ := register_address hbase haligned hoffset hhigh hreg
  have htranslate := translate_of_entryWord (v := wrap (wrap (base + offset) + reg)) ⟨haligned, by omega⟩
    ((leafEntry_congr hpage).trans h.leaf)
  unfold store recorded registerStore
  rw [htranslate, hrest]

theorem Ready.write_eq {base : Nat} (h : Ready offset root base s) (hoffset : offset % 4096 = 0)
    (hhigh : offset + 2 ^ 32 ≤ 0xfffffffffffff000) {reg : Nat} (hreg : reg < 4096) (value : BitVec 32) :
    s.write offset root reg value = s.recorded (registerStore base reg value) := by
  rw [write, h.object]
  exact h.store_eq hoffset hhigh hreg value

/-- An interrupt for another processor: the destination first, since the write of the
vector sends it. -/
theorem Ready.sendInterprocessorInterrupt_eq {base : Nat} (h : Ready offset root base s) (hoffset : offset % 4096 = 0)
    (hhigh : offset + 2 ^ 32 ≤ 0xfffffffffffff000) (destination vector : Byte) :
    s.sendInterprocessorInterrupt offset root destination vector =
      .ok ((s.recorded (registerStore base 0x310 (destination.setWidth 32 <<< 24))).recorded
        (registerStore base 0x300 (0x4000#32 ||| vector.setWidth 32))) := by
  unfold sendInterprocessorInterrupt
  rw [localAPICBaseAddress_eq h.msr h.apic, h.register]
  change Except.ok _ = Except.ok _
  rw [h.store_eq hoffset hhigh (by decide), (h.after_store _).store_eq hoffset hhigh (by decide)]

/-- The state in which `enableAPIC` makes its stores. -/
def mapped (s : ApicMachine) (offset : Nat) (paging : PagingState) : ApicMachine where
  features := s.features
  apicBase := enabledAt (usedBase s.apicBase)
  interruptFlag := true
  pics := remapPIC (disablePIC s.pics) 0x20 0x28
  paging := paging
  baseAddress := wrap (usedBase s.apicBase + offset)
  stores := s.stores

theorem enableAPIC_eq (h : Intact offset root s.paging) (hhigh : offset + 2 ^ 32 ≤ 0xfffffffffffff000)
    (hoffset : offset % 4096 = 0) (hmsr : s.features.msr = true) (hapic : s.features.apic = true)
    (hpat : s.features.pat = true) (hroom : 3 ≤ s.paging.free.frames.length) :
    ∃ paging, enableAPIC offset root s =
        .ok (((s.mapped offset paging).write offset root 0xF0 0x1FF#32).write offset root 0x80 0#32) ∧
      MapsPage offset root s.paging paging (usedBase s.apicBase + offset) (usedBase s.apicBase) mappingFlags := by
  have hbase := usedBase_lt s.apicBase
  have haligned := usedBase_aligned s.apicBase
  have hvirtual : wrap (usedBase s.apicBase + offset) = usedBase s.apicBase + offset := wrap_of_lt (by omega)
  have hlack : missing (edge offset s.paging.mem) root (path (usedBase s.apicBase + offset)) ≤ 3 := missing_le _ _ _
  obtain ⟨paging, hpaging⟩ := mapPageToFrame_isOk h (usedBase s.apicBase + offset) (usedBase s.apicBase) mappingFlags
    (hlack.trans hroom)
  have hmapping : pagingAddMapping (fun _ => offset) (wrap (root + offset)) s.paging
      (wrap (usedBase s.apicBase + offset)) (usedBase s.apicBase) pageSize mappingFlags.bits = .ok paging := by
    rw [hvirtual, pagingAddMapping_page _ _ _ (by omega) (by omega) haligned]
    exact hpaging
  refine ⟨paging, ?_, mapPageToFrame_spec h ⟨haligned, by omega⟩ hpaging⟩
  unfold enableAPIC
  rw [localAPICBaseAddress_eq hmsr hapic]
  change (if s.features.pat = true then _ else _) = _
  rw [if_pos hpat, hmapping]
  change (hardwareEnableLocalAPICAndSetBaseAddress _ _ >>= _) = _
  rw [hardwareEnable_eq (s := { s with paging := paging, baseAddress := wrap (usedBase s.apicBase + offset) })
    hmsr hapic]
  rfl

theorem usedBase_enabledAt (apicBase : BitVec 64) : usedBase (enabledAt (usedBase apicBase)) = usedBase apicBase := by
  apply Nat.eq_of_testBit_eq
  intro i
  rw [usedBase_bit, enabledAt_bit, usedBase_bit]
  by_cases h12 : 12 ≤ i
  · have h11 : ¬ i = 11 := by omega
    by_cases h32 : i < 32 <;> simp [h12, h32, h11]
  · simp [h12]

theorem mapped_ready {paging : PagingState} (hmsr : s.features.msr = true) (hapic : s.features.apic = true)
    (hmaps : MapsPage offset root s.paging paging (usedBase s.apicBase + offset) (usedBase s.apicBase) mappingFlags) :
    Ready offset root (usedBase s.apicBase) (s.mapped offset paging) := by
  have hsame : SamePage (usedBase s.apicBase + offset) (usedBase s.apicBase + offset) := rfl
  refine ⟨hmsr, hapic, rfl, usedBase_enabledAt _, hmaps.intact, ?_⟩
  rw [mapped, hmaps.leaves, if_pos hsame]

/-! ### Runs -/

/-- What the kernel does with the APIC from then on, and with the page tree in between. -/
inductive ApicOp where
  | endOfInterrupt
  | interprocessor (destination vector : Byte)
  | paging (op : PagingOp)

def apicStep (offset root : Nat) (s : ApicMachine) : ApicOp → Except Stop ApicMachine
  | .endOfInterrupt => .ok (s.sendEndOfInterrupt offset root)
  | .interprocessor destination vector => s.sendInterprocessorInterrupt offset root destination vector
  | .paging op => do return { s with paging := ← pagingStep offset root s.paging op }

/-- The mapping of the registers is not replaced: by a call of the kernel, or by the
page-fault handler, which maps the next page too. -/
def ApicOp.Allowed (offset root : Nat) (s : ApicMachine) : ApicOp → Prop
  | .paging (.map call) => ¬ SamePage call.page s.baseAddress
  | .paging (.fault address) => FaultAllowed offset root s.paging address ∧ FaultSafe offset root s.paging address
  | .paging op => op.Allowed offset root s.paging
  | _ => True

/-- What an operation stores in the registers at `base`. -/
def ApicOp.stores (base : Nat) : ApicOp → List ApicStore
  | .endOfInterrupt => [registerStore base 0xB0 0#32]
  | .interprocessor destination vector =>
      [registerStore base 0x310 (destination.setWidth 32 <<< 24),
        registerStore base 0x300 (0x4000#32 ||| vector.setWidth 32)]
  | .paging _ => []

theorem Ready.pagingStep {base : Nat} (h : Ready offset root base s) (hoffset : offset + 2 ^ 32 ≤ 0xfffffffffffff000)
    {op : PagingOp} {paging : PagingState} (hop : (ApicOp.paging op).Allowed offset root s)
    (hs : DavOS.pagingStep offset root s.paging op = .ok paging) :
    Ready offset root base { s with paging := paging } := by
  have hbase : base < 2 ^ 32 := h.register ▸ usedBase_lt s.apicBase
  have hpresent : Mapped offset root s.paging (base + offset) := by
    rw [mapped_iff h.intact, h.leaf]
    exact entryWord_isPresent _ _
  have hobject : s.baseAddress = base + offset := h.object.trans (wrap_of_lt (by omega))
  have hkept : Intact offset root paging ∧
      leafEntry offset root paging.mem (base + offset) = leafEntry offset root s.paging.mem (base + offset) := by
    cases op with
    | map call =>
        have hmaps := mapPageToFrame_spec h.intact call.aligned hs
        have hother : ¬ SamePage (base + offset) call.page := by
          intro hsame
          apply hop
          rw [hobject]
          exact Eq.symm hsame
        exact ⟨hmaps.intact, by rw [hmaps.leaves, if_neg hother]⟩
    | fault address =>
        exact ⟨(isrPageFault_leaves h.intact hop.1.1 hs).1, fault_keeps_leaf h.intact hop.1 hop.2 hs hpresent⟩
    | allocate =>
        have hintact := pagingStep_intact _ .allocate _ h.intact hop hs
        obtain ⟨⟨frame, free⟩, _, hs⟩ := bind_ok hs
        cases hs
        exact ⟨hintact, rfl⟩
    | deallocate frame =>
        have hintact := pagingStep_intact _ (.deallocate frame) _ h.intact hop hs
        cases hs
        exact ⟨hintact, rfl⟩
  exact ⟨h.msr, h.apic, h.object, h.register, hkept.1, hkept.2.trans h.leaf⟩

theorem Ready.step {base : Nat} {t : ApicMachine} {op : ApicOp} (h : Ready offset root base s)
    (hoffset : offset % 4096 = 0) (hhigh : offset + 2 ^ 32 ≤ 0xfffffffffffff000) (hop : op.Allowed offset root s)
    (hs : apicStep offset root s op = .ok t) : Ready offset root base t ∧ t.stores = s.stores ++ op.stores base := by
  cases op with
  | endOfInterrupt =>
      cases hs
      rw [sendEndOfInterrupt, h.write_eq hoffset hhigh (by decide)]
      exact ⟨h.after_store _, rfl⟩
  | interprocessor destination vector =>
      rw [apicStep, h.sendInterprocessorInterrupt_eq hoffset hhigh] at hs
      cases hs
      refine ⟨(h.after_store _).after_store _, ?_⟩
      simp only [recorded, ApicOp.stores, List.append_assoc, List.cons_append, List.nil_append]
  | paging op =>
      obtain ⟨paging, hpaging, hs⟩ := bind_ok hs
      cases hs
      exact ⟨h.pagingStep hhigh hop hpaging, (List.append_nil _).symm⟩

theorem Ready.run {base : Nat} {t : ApicMachine} {ops : List ApicOp} (h : Ready offset root base s)
    (hoffset : offset % 4096 = 0) (hhigh : offset + 2 ^ 32 ≤ 0xfffffffffffff000)
    (hrun : Run (apicStep offset root) (ApicOp.Allowed offset root) s ops t) :
    Ready offset root base t ∧ t.stores = s.stores ++ ops.flatMap (ApicOp.stores base) := by
  induction hrun with
  | nil s => exact ⟨h, (List.append_nil _).symm⟩
  | cons hop hs _ ih =>
      obtain ⟨hnext, hstores⟩ := h.step hoffset hhigh hop hs
      obtain ⟨hend, hrest⟩ := ih hnext
      refine ⟨hend, ?_⟩
      rw [hrest, hstores, List.flatMap_cons, List.append_assoc]

/-- A machine whose firmware has put the registers above 4 GiB. -/
def movedApic : ApicMachine where
  features := ⟨true, true, true⟩
  apicBase := 0x00000001fee00100#64
  interruptFlag := false
  pics := ⟨⟨0, 0, 0, 0, false, .mask⟩, ⟨0, 0, 0, 0, false, .mask⟩⟩
  paging := sixFrames

end

end ApicMachine

end DavOS
