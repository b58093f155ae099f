import DavOS.IdtInit

/-! `disablePIC` and `remapPIC` of `processor.cpp`, on two 8259 controllers. After the
first command word of an initialisation a controller takes the writes to its data port
as the next ones, and only then as its mask again. -/
namespace DavOS

/-- What the next write to the data port is. -/
inductive PicPhase where
  | mask
  | vectorOffset
  | cascade (icw4 : Bool)
  | mode
  deriving DecidableEq

/-- An 8259 controller: its mask, the four words of its initialisation as far as the
processor sees them, and where in an initialisation it is. -/
structure Pic where
  imr : Byte
  offset : Byte
  cascade : Byte
  mode : Byte
  icw4 : Bool
  phase : PicPhase
  deriving DecidableEq

namespace Pic

/-- A write to the command port. Bit 4 starts an initialisation, which clears the mask;
the other commands concern neither the mask nor the offset. -/
def writeCommand (p : Pic) (value : Byte) : Pic :=
  if value.getLsbD 4 then { p with imr := 0, icw4 := value.getLsbD 0, phase := .vectorOffset } else p

def writeData (p : Pic) (value : Byte) : Pic :=
  match p.phase with
  | .mask => { p with imr := value }
  | .vectorOffset => { p with offset := value, phase := .cascade p.icw4 }
  | .cascade true => { p with cascade := value, phase := .mode }
  | .cascade false => { p with cascade := value, phase := .mask }
  | .mode => { p with mode := value, phase := .mask }

def vector (p : Pic) (line : Nat) : Nat := (p.offset &&& 0xf8 ||| BitVec.ofNat 8 (line % 8)).toNat

end Pic

/-- The two controllers behind the ports 0x20, 0x21 and 0xA0, 0xA1. -/
structure PicPair where
  first : Pic
  second : Pic
  deriving DecidableEq

namespace PicPair

def outb (p : PicPair) (port : Nat) (value : Byte) : PicPair :=
  if port = 0x20 then { p with first := p.first.writeCommand value }
  else if port = 0x21 then { p with first := p.first.writeData value }
  else if port = 0xA0 then { p with second := p.second.writeCommand value }
  else if port = 0xA1 then { p with second := p.second.writeData value }
  else p

/-- A read of a data port gives the mask, in whatever phase. -/
def inb (p : PicPair) (port : Nat) : Byte :=
  if port = 0x21 then p.first.imr else if port = 0xA1 then p.second.imr else 0

def ioWait (p : PicPair) : PicPair := p.outb 0x80 0

end PicPair

def disablePIC (p : PicPair) : PicPair := (p.outb 0x21 0xff).outb 0xA1 0xff

def remapPIC (p : PicPair) (offset1 offset2 : Byte) : PicPair :=
  let a1 := p.inb 0x21
  let a2 := p.inb 0xA1
  let p := (p.outb 0x20 (0x10 ||| 0x01)).ioWait
  let p := (p.outb 0xA0 (0x10 ||| 0x01)).ioWait
  let p := (p.outb 0x21 offset1).ioWait
  let p := (p.outb 0xA1 offset2).ioWait
  -- a controller hangs at line 2 of the first one
  let p := (p.outb 0x21 4).ioWait
  let p := (p.outb 0xA1 2).ioWait
  let p := (p.outb 0x21 0x01).ioWait
  let p := (p.outb 0xA1 0x01).ioWait
  (p.outb 0x21 a1).outb 0xA1 a2

/-- The vector of one of the sixteen lines. -/
def PicPair.vector (p : PicPair) (line : Nat) : Nat := if line < 8 then p.first.vector line else p.second.vector line

theorem remapPIC_eq (p : PicPair) (offset1 offset2 : Byte) :
    remapPIC p offset1 offset2 =
      ⟨⟨p.first.imr, offset1, 4, 1, true, .mask⟩, ⟨p.second.imr, offset2, 2, 1, true, .mask⟩⟩ :=
  rfl

/-- A write to the data port sets the mask only outside of an initialisation. -/
theorem Pic.writeData_imr (p : Pic) : (p.writeData 0xff).imr = 0xff ↔ p.phase = .mask ∨ p.imr = 0xff := by
  unfold Pic.writeData
  cases hphase : p.phase with
  | mask => simp
  | vectorOffset => simp
  | cascade icw4 => cases icw4 <;> simp
  | mode => simp

theorem disablePIC_eq (p : PicPair) : disablePIC p = ⟨p.first.writeData 0xff, p.second.writeData 0xff⟩ := rfl

theorem vector_of_remapped (p : PicPair) (line : Nat) (hline : line < 16) :
    (remapPIC p 0x20 0x28).vector line = 0x20 + line := by
  have hlines : ∀ line < 16, (if line < 8 then ((0x20 : Byte) &&& 0xf8 ||| BitVec.ofNat 8 (line % 8)).toNat
      else ((0x28 : Byte) &&& 0xf8 ||| BitVec.ofNat 8 (line % 8)).toNat) = 0x20 + line := by decide
  rw [remapPIC_eq]
  exact hlines line hline

/-- In whatever phase `enableAPIC` finds the controllers, it leaves them initialised and
their lines at the vectors from 0x20 on; it leaves them masked exactly when each was
outside of an initialisation or masked before. No gate stands at these vectors: a
spurious interrupt of a controller is a general protection fault. -/
theorem pics_remapped_and_masked_iff (p : PicPair) :
    (remapPIC (disablePIC p) 0x20 0x28).first.phase = .mask ∧
    (remapPIC (disablePIC p) 0x20 0x28).second.phase = .mask ∧
    (∀ line < 16, (remapPIC (disablePIC p) 0x20 0x28).vector line = 0x20 + line ∧
      servingIsr ((remapPIC (disablePIC p) 0x20 0x28).vector line) = .generalProtection) ∧
    ((remapPIC (disablePIC p) 0x20 0x28).first.imr = 0xff ∧ (remapPIC (disablePIC p) 0x20 0x28).second.imr = 0xff ↔
      (p.first.phase = .mask ∨ p.first.imr = 0xff) ∧ (p.second.phase = .mask ∨ p.second.imr = 0xff)) := by
  have hnoGate : ∀ line < 16, servingIsr (0x20 + line) = .generalProtection := by decide
  refine ⟨rfl, rfl, fun line hline => ?_, ?_⟩
  · rw [vector_of_remapped _ line hline]
    exact ⟨rfl, hnoGate line hline⟩
  · rw [remapPIC_eq, disablePIC_eq, ← Pic.writeData_imr, ← Pic.writeData_imr]

end DavOS
