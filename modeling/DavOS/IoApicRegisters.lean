import DavOS.MadtEntries

/-! Where the registers of a stored IO APIC are accessed. `initialize` maps them at a
64-bit address; the constructor takes that address as a `uint32_t`. -/
namespace DavOS
open MachineWord kernelConstants

def IOAPIC.AccessedAt (ioApic : IOAPIC) (v : Nat) : Prop :=
  ioApic.selectAddress = v ∧ ioApic.windowAddress = wrap (v + 0x10)

/-- The 32 bits that are kept of an address of the direct map are all of it only where the sum has
wrapped around. -/
theorem accessedAt_iff {offset a : Nat} {ioApic : IOAPIC} (haligned : offset % 4096 = 0) (hhigher : 2 ^ 63 ≤ offset)
    (hoffset : offset < 2 ^ 64) (ha : a < 2 ^ 32) (haddress : ioApic.address = BitVec.ofNat 32 (wrap (a + offset))) :
    ioApic.AccessedAt (wrap (a + offset)) ↔ 2 ^ 64 ≤ a + offset := by
  have hselect : ioApic.selectAddress = (a + offset) % 2 ^ 64 % 2 ^ 32 := by
    rw [IOAPIC.selectAddress, haddress, BitVec.toNat_ofNat, wrap]
  have hwindow : ioApic.windowAddress = ((a + offset) % 2 ^ 64 % 2 ^ 32 + 16) % 2 ^ 32 := by
    rw [IOAPIC.windowAddress, BitVec.toNat_add, haddress, BitVec.toNat_ofNat, wrap]
    rfl
  unfold IOAPIC.AccessedAt wrap
  rw [hselect, hwindow]
  omega

namespace APICManager

section

variable {β : Type} {bus : RegisterBus β} {hhdm : HhdmOffset} {root : Nat} {image : Nat → Byte}

theorem stored_stays {at_ later : Nat × ApicState β} {i : Fin 16} {ioApic : IOAPIC}
    (h : WhileLoop.Visits (entryTest image) (entryStep bus hhdm root image) at_ later)
    (hi : i.val < at_.2.manager.numIoApics) (hstored : at_.2.manager.ioApics i = ioApic) :
    later.2.manager.ioApics i = ioApic := by
  refine (WhileLoop.Visits.invariant (I := fun at_ : Nat × ApicState β =>
    i.val < at_.2.manager.numIoApics ∧ at_.2.manager.ioApics i = ioApic) ?_ h ⟨hi, hstored⟩).2
  rintro at_ next ⟨hi, hstored⟩ - hstep
  obtain ⟨-, ⟨-, hsame⟩ | ⟨-, hadd⟩⟩ := entryStep_cases hstep
  · rw [hsame]
    exact ⟨hi, hstored⟩
  · obtain ⟨paging, -, hroom, hpushed⟩ := addIoApic_ok.mp hadd
    have hne : i ≠ ⟨at_.2.manager.numIoApics, hroom⟩ := fun h => Nat.ne_of_lt hi (congrArg Fin.val h)
    rw [hpushed]
    exact ⟨Nat.lt_succ_of_lt hi, (Function.update_of_ne hne _ _).trans hstored⟩

theorem entryStep_stores {at_ next : Nat × ApicState β} (htype : image at_.1 = 1#8)
    (hstep : entryStep bus hhdm root image at_ = .ok next) :
    ∃ hroom : at_.2.manager.numIoApics < 16,
      mapRegisters hhdm root at_.2.paging (IOAPICInfo.load image (at_.1 + 2)) = .ok next.2.paging ∧
      next.2.manager.numIoApics = at_.2.manager.numIoApics + 1 ∧
      (next.2.manager.ioApics ⟨at_.2.manager.numIoApics, hroom⟩).address = BitVec.ofNat 32
        (kernelPhysicalToVirtual hhdm next.2.paging.mem (IOAPICInfo.load image (at_.1 + 2)).ioApicAddress.toNat) := by
  obtain ⟨-, ⟨hother, -⟩ | ⟨-, hadd⟩⟩ := entryStep_cases hstep
  · exact absurd htype hother
  · obtain ⟨paging, hmap, hroom, hpushed⟩ := addIoApic_ok.mp hadd
    rw [hpushed]
    refine ⟨hroom, hmap, rfl, ?_⟩
    change (Function.update at_.2.manager.ioApics ⟨at_.2.manager.numIoApics, hroom⟩ _ _).address = _
    rw [Function.update_self]
    rfl

end

/-- For every entry of type 1 that the loop handles, at the physical address `a`, and every later state
of the loop: the registers of the IO APIC stored for it are accessed through the mapping made for
them exactly when `a` plus the offset wraps around. -/
theorem registers_through_mapping_iff (offset : Nat) (haligned : offset % 4096 = 0) (hhigher : 2 ^ 63 ≤ offset)
    (hoffset : offset < 2 ^ 64) {β : Type} (bus : RegisterBus β) (root : Nat) (image : Nat → Byte)
    (at_ next later : Nat × ApicState β) (htype : image at_.1 = 1#8)
    (hstep : entryStep bus (fun _ => offset) root image at_ = .ok next)
    (hlater : WhileLoop.Visits (entryTest image) (entryStep bus (fun _ => offset) root image) next later) :
    let a := (IOAPICInfo.load image (at_.1 + 2)).ioApicAddress.toNat
    let v := kernelPhysicalToVirtual (fun _ => offset) at_.2.paging.mem a
    ∃ i : Fin 16, i.val = at_.2.manager.numIoApics ∧
      pagingAddMapping (fun _ => offset) root at_.2.paging v a pageSize
        (PageFlags.write ||| PageFlags.cacheDisable) = .ok next.2.paging ∧
      ((later.2.manager.ioApics i).AccessedAt v ↔ 2 ^ 64 ≤ a + offset) := by
  intro a v
  obtain ⟨hroom, hmap, hnum, haddress⟩ := entryStep_stores htype hstep
  have hslot : at_.2.manager.numIoApics < next.2.manager.numIoApics := by
    rw [hnum]
    exact Nat.lt_succ_self _
  have hstays := stored_stays (i := ⟨at_.2.manager.numIoApics, hroom⟩) hlater hslot rfl
  refine ⟨⟨at_.2.manager.numIoApics, hroom⟩, rfl, hmap, ?_⟩
  rw [hstays]
  exact accessedAt_iff haligned hhigher hoffset (BitVec.isLt _) haddress

def ioApicTable : Nat → Byte := fun i =>
  if i = 4 then 56#8 else if i < 44 then 0#8
  else [1#8, 12#8, 2#8, 0#8, 0x00#8, 0x00#8, 0xc0#8, 0xfe#8, 0#8, 0#8, 0#8, 0#8].getD (i - 44) 0#8

theorem ioApicTable_step (offset : Nat) : ∃ t,
    entryStep quietBus (fun _ => offset) (wrap (0x1000 + offset)) ioApicTable (44, ⟨new, roomyPaging offset, ()⟩) =
      .ok (56, t) := by
  obtain ⟨t, hstep, -⟩ := entryStep_roomy quietBus (roomy_start offset) (fun _ => by decide)
  exact ⟨t, hstep⟩

/-- With the direct map 2 GiB below the end of the address space, the registers end up below 4 GiB. -/
theorem registers_through_mapping_wrapped : ∃ next,
    entryStep quietBus (fun _ => 0xffffffff80000000) (wrap (0x1000 + 0xffffffff80000000)) ioApicTable
      (44, ⟨new, roomyPaging 0xffffffff80000000, ()⟩) = .ok next ∧
    (next.2.manager.ioApics 0).AccessedAt 0x7ec00000 := by
  obtain ⟨t, hstep⟩ := ioApicTable_step 0xffffffff80000000
  obtain ⟨i, hi, -, haccessed⟩ := registers_through_mapping_iff 0xffffffff80000000 (by decide) (by decide) (by decide)
    quietBus (wrap (0x1000 + 0xffffffff80000000)) ioApicTable _ _ _ (by decide) hstep .start
  obtain rfl : i = 0 := Fin.eq_of_val_eq hi
  exact ⟨_, hstep, haccessed.mpr (by decide)⟩

/-- With the direct map where the bootloader puts it, the registers are accessed at their physical
address, which is not where they are mapped. -/
theorem registers_accessed_unmapped : ∃ next,
    entryStep quietBus (fun _ => 0xffff800000000000) (wrap (0x1000 + 0xffff800000000000)) ioApicTable
      (44, ⟨new, roomyPaging 0xffff800000000000, ()⟩) = .ok next ∧
    (IOAPICInfo.load ioApicTable 46).ioApicAddress = 0xfec00000#32 ∧
    kernelPhysicalToVirtual (fun _ => 0xffff800000000000) next.2.paging.mem 0xfec00000 = 0xffff8000fec00000 ∧
    (next.2.manager.ioApics 0).selectAddress = 0xfec00000 ∧
    ¬ (next.2.manager.ioApics 0).AccessedAt 0xffff8000fec00000 := by
  obtain ⟨t, hstep⟩ := ioApicTable_step 0xffff800000000000
  obtain ⟨hroom, -, -, haddress⟩ := entryStep_stores (by decide) hstep
  have hinfo : (IOAPICInfo.load ioApicTable 46).ioApicAddress = 0xfec00000#32 := by decide
  have hvirtual : ∀ m, kernelPhysicalToVirtual (fun _ => 0xffff800000000000) m 0xfec00000 = 0xffff8000fec00000 := by
    intro m
    change wrap (0xfec00000 + 0xffff800000000000) = _
    decide
  have hselect : (t.manager.ioApics 0).selectAddress = 0xfec00000 := by
    change (t.manager.ioApics 0).address = BitVec.ofNat 32 (kernelPhysicalToVirtual _ _
      (IOAPICInfo.load ioApicTable 46).ioApicAddress.toNat) at haddress
    rw [hinfo, BitVec.toNat_ofNat, Nat.mod_eq_of_lt (by decide), hvirtual] at haddress
    rw [IOAPIC.selectAddress, haddress]
    decide
  refine ⟨_, hstep, hinfo, hvirtual _, hselect, fun h => ?_⟩
  rw [IOAPIC.AccessedAt, hselect] at h
  exact absurd h.1 (by decide)

end APICManager

end DavOS
