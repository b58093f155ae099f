import DavOS.Paging
import DavOS.RootSDT
import DavOS.WhileLoop

/-! `APICManager.cpp`: the IO APICs, found in the MADT that the firmware leaves and
programmed through their memory-mapped registers. The machine behind the
registers is a parameter. -/
namespace DavOS
open MachineWord ByteMemory kernelConstants

/-- What the 32-bit accesses to memory-mapped registers do, on a machine with states `β`. -/
structure RegisterBus (β : Type) where
  write : β → Nat → BitVec 32 → β
  read : β → Nat → BitVec 32

structure IOAPIC where
  address : BitVec 32
  globalSystemInterruptBase : BitVec 32
  id : Byte
  numRedirectionEntries : Byte
  deriving DecidableEq

namespace IOAPIC

/-- What the defaulted constructor leaves: an element of a new `m_ioApics`. -/
def unused : IOAPIC := ⟨0#32, 0#32, 0#8, 0#8⟩

/-- The address that the number of a register is written to. -/
def selectAddress (ioApic : IOAPIC) : Nat := ioApic.address.toNat

/-- The address of the selected register. The sum is made in 32 bits, before the cast to a pointer. -/
def windowAddress (ioApic : IOAPIC) : Nat := (ioApic.address + 0x10#32).toNat

def handlesIRQ (ioApic : IOAPIC) (irq : Byte) : Bool :=
  decide (ioApic.globalSystemInterruptBase ≤ irq.setWidth 32) &&
    decide (irq.setWidth 32 < ioApic.globalSystemInterruptBase + ioApic.numRedirectionEntries.setWidth 32)

/-- `0x10 + 2 * (irq - m_globalSystemInterruptBase)` in 32 bits, cut to the `uint8_t` that the
register number is. -/
def redirectionEntryLow (ioApic : IOAPIC) (irq : Byte) : Byte :=
  (0x10#32 + 2#32 * (irq.setWidth 32 - ioApic.globalSystemInterruptBase)).setWidth 8

def redirectionEntryHigh (ioApic : IOAPIC) (irq : Byte) : Byte :=
  (0x10#32 + 2#32 * (irq.setWidth 32 - ioApic.globalSystemInterruptBase) + 1#32).setWidth 8

section

variable {β : Type} (bus : RegisterBus β)

def writeRegister (ioApic : IOAPIC) (b : β) (registerNum : Byte) (value : BitVec 32) : β :=
  let b := bus.write b ioApic.selectAddress (registerNum.setWidth 32)
  bus.write b ioApic.windowAddress value

def readRegister (ioApic : IOAPIC) (b : β) (registerNum : Byte) : BitVec 32 × β :=
  let b := bus.write b ioApic.selectAddress (registerNum.setWidth 32)
  (bus.read b ioApic.windowAddress, b)

/-- The constructor with arguments. -/
def construct (b : β) (address globalSystemInterruptBase : BitVec 32) (id : Byte) : IOAPIC × β :=
  let ioApic : IOAPIC := ⟨address, globalSystemInterruptBase, id, 0#8⟩
  let (version, b) := ioApic.readRegister bus b 1#8
  ({ ioApic with numRedirectionEntries := ((version >>> 16) &&& 0xff#32).setWidth 8 }, b)

def readRedirectionEntryLow (ioApic : IOAPIC) (b : β) (irq : Byte) : BitVec 32 × β :=
  ioApic.readRegister bus b (ioApic.redirectionEntryLow irq)

def readRedirectionEntryHigh (ioApic : IOAPIC) (b : β) (irq : Byte) : BitVec 32 × β :=
  ioApic.readRegister bus b (ioApic.redirectionEntryHigh irq)

def writeRedirectionEntryLow (ioApic : IOAPIC) (b : β) (irq : Byte) (value : BitVec 32) : β :=
  ioApic.writeRegister bus b (ioApic.redirectionEntryLow irq) value

def writeRedirectionEntryHigh (ioApic : IOAPIC) (b : β) (irq : Byte) (value : BitVec 32) : β :=
  ioApic.writeRegister bus b (ioApic.redirectionEntryHigh irq) value

end

end IOAPIC

/-- `kpp::Array<IOAPIC, 16>` and how much of it is in use. -/
structure APICManager where
  ioApics : Fin 16 → IOAPIC
  numIoApics : Nat

namespace APICManager

def new : APICManager := ⟨fun _ => IOAPIC.unused, 0⟩

/-- `m_ioApics[m_numIoApics++] = ioApic` -/
def push (m : APICManager) (ioApic : IOAPIC) (h : m.numIoApics < 16) : APICManager :=
  ⟨Function.update m.ioApics ⟨m.numIoApics, h⟩ ioApic, m.numIoApics + 1⟩

section

variable {β : Type} (bus : RegisterBus β)

/-- What the loop of `redirectIrq` does for the IO APIC that handles the IRQ. -/
def redirectEntry (ioApic : IOAPIC) (b : β) (irq vector : Byte) : β :=
  let (low, b) := ioApic.readRedirectionEntryLow bus b irq
  let (high, b) := ioApic.readRedirectionEntryHigh bus b irq
  let low := low &&& ~~~0xff#32
  let low := low ||| vector.setWidth 32
  let low := low &&& ~~~(1#32 <<< 16)
  let high := (high &&& 0x00ffffff#32) ||| (ioApic.id.setWidth 32 <<< 24)
  let b := ioApic.writeRedirectionEntryHigh bus b irq high
  ioApic.writeRedirectionEntryLow bus b irq low

/-- The loop of `redirectIrq` over the remaining elements. -/
def redirectAmong (b : β) (irq vector : Byte) : List IOAPIC → β
  | [] => b
  | ioApic :: rest =>
      if ioApic.handlesIRQ irq then redirectEntry bus ioApic b irq vector
      else redirectAmong b irq vector rest

/-- The loop is over the whole array, unused elements included. -/
def redirectIrq (m : APICManager) (b : β) (irq vector : Byte) : β :=
  redirectAmong bus b irq vector (List.ofFn m.ioApics)

end

end APICManager

/-! ### The MADT -/

namespace MADT

/-- The offset of the member `apicStructures`: the struct is packed. -/
def apicStructuresOffset : Nat := ACPISDTHeader.bytes + 4 + 4

/-- `header.length`, for a table whose bytes are `image`. -/
def length (image : Nat → Byte) : Nat := loadBytes image 4 4

end MADT

/-- `APICManager::IOAPICInfo`, packed: what follows the type and the length of an entry of type 1. -/
structure IOAPICInfo where
  ioApicId : Byte
  reserved : Byte
  ioApicAddress : BitVec 32
  globalSystemInterruptBase : BitVec 32
  deriving DecidableEq

def IOAPICInfo.load (image : Nat → Byte) (p : Nat) : IOAPICInfo where
  ioApicId := image p
  reserved := image (p + 1)
  ioApicAddress := BitVec.ofNat 32 (loadBytes image (p + 2) 4)
  globalSystemInterruptBase := BitVec.ofNat 32 (loadBytes image (p + 6) 4)

/-- What `initialize` works on besides the table. -/
structure ApicState (β : Type) where
  manager : APICManager
  paging : PagingState
  bus : β

namespace APICManager

section

variable {β : Type} (bus : RegisterBus β) (hhdm : HhdmOffset) (root : Nat)

/-- The mapping that makes the registers of an IO APIC accessible. -/
def mapRegisters (s : PagingState) (info : IOAPICInfo) : Except Stop PagingState :=
  pagingAddMapping hhdm root s (kernelPhysicalToVirtual hhdm s.mem info.ioApicAddress.toNat) info.ioApicAddress.toNat
    pageSize (PageFlags.write ||| PageFlags.cacheDisable)

/-- `case 1` of the switch. -/
def addIoApic (s : ApicState β) (info : IOAPICInfo) : Except Stop (ApicState β) := do
  let paging ← mapRegisters hhdm root s.paging info
  if h : s.manager.numIoApics < 16 then
    -- the constructor takes the address as a `uint32_t`
    let address := BitVec.ofNat 32 (kernelPhysicalToVirtual hhdm paging.mem info.ioApicAddress.toNat)
    let (ioApic, b) := IOAPIC.construct bus s.bus address info.globalSystemInterruptBase info.ioApicId
    return ⟨s.manager.push ioApic h, paging, b⟩
  else
    .error (.panic "Too many IO APICs\n")

/-- The body of the loop. The cursor `apicStructures` is an offset into the table; it is moved past
the two bytes that every entry has, and then by `length - 2`, which is an `int`. -/
def entryStep (image : Nat → Byte) (at_ : Nat × ApicState β) : Except Stop (Nat × ApicState β) := do
  let type := image at_.1
  let length := image (at_.1 + 1)
  let cursor := at_.1 + 2
  -- the cases 0 and 2 only name a pointer, and every other type is passed over as well
  let s ← if type = 1#8 then addIoApic bus hhdm root at_.2 (IOAPICInfo.load image cursor) else pure at_.2
  return (((cursor : Int) + ((length.toNat : Int) - 2)).toNat, s)

def entryTest (image : Nat → Byte) (at_ : Nat × ApicState β) : Bool := decide (at_.1 < MADT.length image)

/-- The part of `initialize` that parses the table. -/
def parseMadt (image : Nat → Byte) (s : ApicState β) : Except Stop (Nat × ApicState β) :=
  (WhileLoop.run (entryTest image) (entryStep bus hhdm root image) loopFuel (MADT.apicStructuresOffset, s)).getD
    (.error .hang)

end

end APICManager

end DavOS
