import DavOS.MadtEntries

/-! The loop over the MADT as a decoder: on a table that is an encoding of entries it
stops at the end and has stored the IO APICs among them, in their order. -/
namespace DavOS
open MachineWord ByteMemory kernelConstants

/-- A well-formed entry. Entries of another type than an IO APIC have any contents
that the length byte can count. -/
inductive MadtEntry where
  | ioApic (info : IOAPICInfo)
  | other (type : Byte) (contents : List Byte) (isOther : type ≠ 1#8) (fits : contents.length + 2 < 256)

namespace MadtEntry

/-- An entry as the firmware writes it. The length counts the type and itself. -/
def bytes : MadtEntry → List Byte
  | .ioApic info => [1#8, 12#8, info.ioApicId, info.reserved] ++ wordBytes 4 info.ioApicAddress.toNat ++
      wordBytes 4 info.globalSystemInterruptBase.toNat
  | .other type contents _ _ => type :: BitVec.ofNat 8 (contents.length + 2) :: contents

theorem bytes_length_pos (entry : MadtEntry) : 0 < entry.bytes.length := by
  cases entry with
  | ioApic info => exact Nat.succ_pos _
  | other type contents isOther fits => exact Nat.succ_pos _

def ioApic? : MadtEntry → Option IOAPICInfo
  | .ioApic info => some info
  | .other _ _ _ _ => none

end MadtEntry

/-- The entries fill the table from the end of the packed prefix to `header.length`. -/
structure Encodes (image : Nat → Byte) (entries : List MadtEntry) : Prop where
  spelled : Spells image MADT.apicStructuresOffset (entries.flatMap MadtEntry.bytes)
  filled : MADT.length image = MADT.apicStructuresOffset + (entries.flatMap MadtEntry.bytes).length

theorem Encodes.length_lt {image : Nat → Byte} {entries : List MadtEntry} (h : Encodes image entries) :
    entries.length < loopFuel := by
  have hle : ∀ entries : List MadtEntry, entries.length ≤ (entries.flatMap MadtEntry.bytes).length := by
    intro entries
    induction entries with
    | nil => exact Nat.le_refl 0
    | cons entry entries ih =>
        have hpos := entry.bytes_length_pos
        rw [List.flatMap_cons, List.length_append, List.length_cons]
        omega
  have hbound : MADT.length image < 256 ^ 4 := loadBytes_lt image 4 4
  have hfilled := h.filled
  have hcount := hle entries
  unfold loopFuel
  omega

/-- What is stored of an entry of type 1, apart from the address. -/
def IOAPICInfo.fields (info : IOAPICInfo) : Byte × BitVec 32 := (info.ioApicId, info.globalSystemInterruptBase)

def IOAPIC.fields (ioApic : IOAPIC) : Byte × BitVec 32 := (ioApic.id, ioApic.globalSystemInterruptBase)

/-- `m_ioApics[0..m_numIoApics)` -/
def APICManager.stored (m : APICManager) : List IOAPIC := (List.ofFn m.ioApics).take m.numIoApics

theorem IOAPICInfo.load_of_spells {image : Nat → Byte} {p : Nat} {info : IOAPICInfo}
    (h : Spells image p (MadtEntry.ioApic info).bytes) : IOAPICInfo.load image (p + 2) = info := by
  obtain ⟨hhead, hbase⟩ := (spells_append _ _ _ _).mp h
  obtain ⟨⟨-, -, hid, hreserved, -⟩, haddress⟩ := (spells_append _ _ _ _).mp hhead
  have hwidth : ∀ v : BitVec 32, BitVec.ofNat 32 (v.toNat % 256 ^ 4) = v := by
    intro v
    have hlt : v.toNat < 256 ^ 4 := v.isLt
    rw [Nat.mod_eq_of_lt hlt, BitVec.ofNat_toNat, BitVec.setWidth_eq]
  have haddress' : loadBytes image (p + 2 + 2) 4 = info.ioApicAddress.toNat % 256 ^ 4 := loadBytes_of_spells haddress
  have hbase' : loadBytes image (p + 2 + 6) 4 = info.globalSystemInterruptBase.toNat % 256 ^ 4 :=
    loadBytes_of_spells hbase
  unfold IOAPICInfo.load
  rw [haddress', hbase', hwidth, hwidth, hid, hreserved]

namespace APICManager

theorem take_ofFn_succ {n : Nat} (f : Fin 16 → IOAPIC) (h : n < 16) :
    (List.ofFn f).take (n + 1) = (List.ofFn f).take n ++ [f ⟨n, h⟩] := by
  rw [List.take_add_one, List.getElem?_ofFn, dif_pos h]
  rfl

theorem stored_push (m : APICManager) (ioApic : IOAPIC) (h : m.numIoApics < 16) :
    (m.push ioApic h).stored = m.stored ++ [ioApic] := by
  have hbelow : (List.ofFn (Function.update m.ioApics ⟨m.numIoApics, h⟩ ioApic)).take m.numIoApics = m.stored := by
    apply List.ext_getElem
    · simp only [stored, List.length_take, List.length_ofFn]
    · intro i hi hi'
      have hne : i ≠ m.numIoApics := by
        rw [List.length_take] at hi
        omega
      simp only [stored, List.getElem_take, List.getElem_ofFn]
      exact Function.update_of_ne (fun h => hne (congrArg Fin.val h)) _ _
  change (List.ofFn (Function.update m.ioApics ⟨m.numIoApics, h⟩ ioApic)).take (m.numIoApics + 1) = _
  rw [take_ofFn_succ _ h, hbelow, Function.update_self]

section

variable {β : Type} {bus : RegisterBus β} {hhdm : HhdmOffset} {root : Nat} {image : Nat → Byte}

theorem entryStep_entry {p : Nat} {entry : MadtEntry} (h : Spells image p entry.bytes) (s : ApicState β) :
    entryStep bus hhdm root image (p, s) =
      (entry.ioApic?.toList.foldlM (addIoApic bus hhdm root) s).map fun t => (p + entry.bytes.length, t) := by
  cases entry with
  | ioApic info =>
      have hlength : image (p + 1) = 12#8 := h.2.1
      rw [entryStep_ioApic h.1, IOAPICInfo.load_of_spells h, hlength]
      simp [MadtEntry.ioApic?, MadtEntry.bytes]
  | other type contents isOther fits =>
      obtain ⟨htype, hlength, -⟩ := h
      have hother : image (p, s).1 ≠ 1#8 := htype ▸ isOther
      rw [entryStep_other hother, hlength, BitVec.toNat_ofNat, Nat.mod_eq_of_lt fits]
      rfl

/-- The loop over an encoding handles the IO APICs in it one by one. -/
theorem run_entries {entries : List MadtEntry} {p fuel : Nat} {s : ApicState β}
    (hspelled : Spells image p (entries.flatMap MadtEntry.bytes))
    (hfilled : MADT.length image = p + (entries.flatMap MadtEntry.bytes).length) (hfuel : entries.length < fuel) :
    WhileLoop.run (entryTest image) (entryStep bus hhdm root image) fuel (p, s) =
      some (((entries.filterMap MadtEntry.ioApic?).foldlM (addIoApic bus hhdm root) s).map
        fun t => (MADT.length image, t)) := by
  induction entries generalizing p fuel s with
  | nil =>
      obtain ⟨fuel, rfl⟩ := Nat.exists_eq_succ_of_ne_zero (Nat.ne_of_gt hfuel)
      have hstop : entryTest image (p, s) = false := decide_eq_false (by rw [hfilled]; exact Nat.lt_irrefl p)
      rw [WhileLoop.run_stop hstop, hfilled]
      rfl
  | cons entry entries ih =>
      obtain ⟨fuel, rfl⟩ := Nat.exists_eq_succ_of_ne_zero (Nat.ne_of_gt (Nat.zero_lt_of_lt hfuel))
      rw [List.flatMap_cons, spells_append] at hspelled
      rw [List.flatMap_cons, List.length_append] at hfilled
      have hgo : entryTest image (p, s) = true := by
        rw [entryTest_iff, hfilled]
        exact Nat.lt_add_of_pos_right (Nat.add_pos_left entry.bytes_length_pos _)
      have hstep : entryStep bus hhdm root image (p, s) = _ := entryStep_entry hspelled.1 s
      have hfound : (entry :: entries).filterMap MadtEntry.ioApic? =
          entry.ioApic?.toList ++ entries.filterMap MadtEntry.ioApic? := by cases entry <;> rfl
      rw [hfound, List.foldlM_append]
      cases hadd : entry.ioApic?.toList.foldlM (addIoApic bus hhdm root) s with
      | error e =>
          rw [hadd] at hstep
          rw [WhileLoop.run_error hgo hstep]
          rfl
      | ok t =>
          rw [hadd] at hstep
          rw [WhileLoop.run_round hgo hstep]
          exact ih hspelled.2 (by omega) (Nat.lt_of_succ_lt_succ hfuel)

/-- What the IO APICs in `infos` make of `s`, when `maps` is what the mappings of their registers come
to: they are stored in their order, unless there is no room for one of them. -/
structure AddsAll (s : ApicState β) (infos : List IOAPICInfo) (maps : Except Stop PagingState)
    (result : Except Stop (ApicState β)) : Prop where
  fails : ∀ e, maps = .error e → result = .error e
  fits : ∀ paging, maps = .ok paging → s.manager.numIoApics + infos.length ≤ 16 →
    ∃ manager b, result = .ok ⟨manager, paging, b⟩ ∧ manager.numIoApics = s.manager.numIoApics + infos.length ∧
      manager.stored.map IOAPIC.fields = s.manager.stored.map IOAPIC.fields ++ infos.map IOAPICInfo.fields
  tooMany : ∀ paging, maps = .ok paging → 16 < s.manager.numIoApics + infos.length →
    result = .error (.panic "Too many IO APICs\n")

theorem AddsAll.error (s : ApicState β) (infos : List IOAPICInfo) (e : Stop) :
    AddsAll s infos (.error e) (.error e) where
  fails _ h := by
    cases h
    rfl
  fits _ h := nomatch h
  tooMany _ h := nomatch h

theorem AddsAll.full {s : ApicState β} {infos : List IOAPICInfo} (h : 16 < s.manager.numIoApics + infos.length)
    (paging : PagingState) : AddsAll s infos (.ok paging) (.error (.panic "Too many IO APICs\n")) where
  fails _ h := nomatch h
  fits _ _ hfits := absurd h (Nat.not_lt_of_le hfits)
  tooMany _ _ _ := rfl

theorem AddsAll.cons {s t : ApicState β} {info : IOAPICInfo} {infos : List IOAPICInfo}
    {maps : Except Stop PagingState} {result : Except Stop (ApicState β)} (h : AddsAll t infos maps result)
    (hnum : t.manager.numIoApics = s.manager.numIoApics + 1)
    (hstored : t.manager.stored.map IOAPIC.fields = s.manager.stored.map IOAPIC.fields ++ [info.fields]) :
    AddsAll s (info :: infos) maps result := by
  have hlength : s.manager.numIoApics + (info :: infos).length = t.manager.numIoApics + infos.length := by
    rw [hnum, List.length_cons]
    omega
  refine ⟨h.fails, ?_, ?_⟩
  · intro paging hmaps hfits
    obtain ⟨manager, b, hresult, hcount, hall⟩ := h.fits paging hmaps (hlength ▸ hfits)
    refine ⟨manager, b, hresult, hcount.trans hlength.symm, ?_⟩
    rw [hall, hstored, List.map_cons, List.append_assoc, List.singleton_append]
  · intro paging hmaps hmany
    exact h.tooMany paging hmaps (hlength ▸ hmany)

theorem addIoApics_spec (infos : List IOAPICInfo) (s : ApicState β) (hnum : s.manager.numIoApics ≤ 16) :
    AddsAll s infos ((infos.take (17 - s.manager.numIoApics)).foldlM (mapRegisters hhdm root) s.paging)
      (infos.foldlM (addIoApic bus hhdm root) s) := by
  induction infos generalizing s with
  | nil =>
      rw [List.take_nil]
      refine ⟨fun e h => ?_, fun paging h _ => ?_, fun _ _ h => absurd hnum (Nat.not_le_of_lt h)⟩
      · cases h
      · cases h
        exact ⟨s.manager, s.bus, rfl, rfl, (List.append_nil _).symm⟩
  | cons info infos ih =>
      have htake : (info :: infos).take (17 - s.manager.numIoApics) =
          info :: infos.take (16 - s.manager.numIoApics) := by
        rw [show 17 - s.manager.numIoApics = 16 - s.manager.numIoApics + 1 by omega, List.take_succ_cons]
      rw [htake, List.foldlM_cons, List.foldlM_cons]
      cases hmap : mapRegisters hhdm root s.paging info with
      | error e =>
          rw [addIoApic_unmapped hmap]
          exact AddsAll.error s _ e
      | ok paging =>
          by_cases hroom : s.manager.numIoApics < 16
          · obtain ⟨t, hadd, ht⟩ : ∃ t, addIoApic bus hhdm root s info = .ok t ∧ t.paging = paging ∧
                ∃ ioApic, t.manager = s.manager.push ioApic hroom ∧ ioApic.fields = info.fields :=
              ⟨_, addIoApic_ok.mpr ⟨paging, hmap, hroom, rfl⟩, rfl, _, rfl, rfl⟩
            obtain ⟨hpaging, ioApic, hmanager, hfields⟩ := ht
            have hnum' : t.manager.numIoApics = s.manager.numIoApics + 1 := by rw [hmanager, push]
            have hstored : t.manager.stored.map IOAPIC.fields =
                s.manager.stored.map IOAPIC.fields ++ [info.fields] := by
              rw [hmanager, stored_push, List.map_append, List.map_singleton, hfields]
            have hrest := ih t (by omega)
            rw [hpaging, show 17 - t.manager.numIoApics = 16 - s.manager.numIoApics by omega] at hrest
            rw [hadd]
            exact hrest.cons hnum' hstored
          · rw [addIoApic_full hmap hroom, show 16 - s.manager.numIoApics = 0 by omega]
            apply AddsAll.full
            rw [List.length_cons]
            omega

end

theorem mapAll_isOk {offset root : Nat} {s : PagingState} (infos : List IOAPICInfo) (h : Intact offset root s)
    (hroom : 6 * infos.length ≤ s.free.frames.length) :
    ∃ t, infos.foldlM (mapRegisters (fun _ => offset) (wrap (root + offset))) s = .ok t := by
  induction infos generalizing s with
  | nil => exact ⟨s, rfl⟩
  | cons info infos ih =>
      rw [List.length_cons] at hroom
      obtain ⟨t, ht, hintact, hleft⟩ := mapRegisters_isOk h (by omega) info
      rw [List.foldlM_cons, ht]
      exact ih hintact (by omega)

/-- On an encoding of entries the loop maps the registers of the IO APICs, one after the other. If no
mapping fails, it stops at the end of the table with all of them stored, in the order of the table,
and panics exactly when there are more than sixteen. A page tree with six free frames for each
IO APIC is always enough for the mappings. -/
theorem madt_parsing_finds_io_apics {β : Type} (bus : RegisterBus β) (offset root : Nat) (image : Nat → Byte)
    (entries : List MadtEntry) (h : Encodes image entries) (paging : PagingState) (b : β) :
    let found := entries.filterMap MadtEntry.ioApic?
    let maps := (found.take 17).foldlM (mapRegisters (fun _ => offset) (wrap (root + offset))) paging
    let parse := parseMadt bus (fun _ => offset) (wrap (root + offset)) image ⟨new, paging, b⟩
    (∀ e, maps = .error e → parse = .error e) ∧
    (∀ paging', maps = .ok paging' →
      (found.length ≤ 16 → ∃ manager b', parse = .ok (MADT.length image, ⟨manager, paging', b'⟩) ∧
        manager.numIoApics = found.length ∧
        manager.stored.map IOAPIC.fields = found.map IOAPICInfo.fields) ∧
      (16 < found.length → parse = .error (.panic "Too many IO APICs\n"))) ∧
    (ReachableTree offset root paging.mem → Spare offset root paging.mem paging.free →
      6 * (found.take 17).length ≤ paging.free.frames.length → ∃ paging', maps = .ok paging') := by
  intro found maps parse
  have hadds : AddsAll ⟨new, paging, b⟩ found maps
      (found.foldlM (addIoApic bus (fun _ => offset) (wrap (root + offset))) ⟨new, paging, b⟩) :=
    addIoApics_spec found ⟨new, paging, b⟩ (Nat.zero_le 16)
  have hparse : parse = (found.foldlM (addIoApic bus (fun _ => offset) (wrap (root + offset))) ⟨new, paging, b⟩).map
      fun t => (MADT.length image, t) := by
    change (WhileLoop.run _ _ _ _).getD _ = _
    rw [run_entries h.spelled h.filled h.length_lt]
    rfl
  have hnone : (⟨new, paging, b⟩ : ApicState β).manager.numIoApics + found.length = found.length := Nat.zero_add _
  refine ⟨fun e hmaps => ?_, fun paging' hmaps => ⟨fun hfits => ?_, fun hmany => ?_⟩, fun htree hspare hroom => ?_⟩
  · rw [hparse, hadds.fails e hmaps]
    rfl
  · obtain ⟨manager, b', hresult, hcount, hall⟩ := hadds.fits paging' hmaps (hnone.trans_le hfits)
    rw [hparse, hresult]
    exact ⟨manager, b', rfl, hcount.trans hnone, hall⟩
  · rw [hparse, hadds.tooMany paging' hmaps (hmany.trans_eq hnone.symm)]
    rfl
  · exact mapAll_isOk _ (htree.intact hspare) hroom

/-- A local APIC and an IO APIC with id 2 for the interrupts from 24 on. -/
def twoEntries : List MadtEntry :=
  [.other 0#8 [1#8, 1#8, 1#8, 0#8, 0#8, 0#8] (by decide) (by decide), .ioApic ⟨2#8, 0#8, 0xfec00000#32, 24#32⟩]

/-- The table of these two, 64 bytes long. -/
def twoEntryTable : Nat → Byte := fun i =>
  if i = 4 then 64#8 else (twoEntries.flatMap MadtEntry.bytes).getD (i - 44) 0#8

theorem madt_parsing_finds_second_entry : ∃ manager paging,
    parseMadt quietBus (fun _ => 0) (wrap (0x1000 + 0)) twoEntryTable ⟨new, sixFrames, ()⟩ =
      .ok (64, ⟨manager, paging, ()⟩) ∧
    manager.numIoApics = 1 ∧ manager.stored.map IOAPIC.fields = [(2#8, 24#32)] := by
  have hencodes : Encodes twoEntryTable twoEntries := ⟨by decide, by decide⟩
  obtain ⟨-, hmapped, hroom⟩ := madt_parsing_finds_io_apics quietBus 0 0x1000 twoEntryTable twoEntries hencodes
    sixFrames ()
  obtain ⟨paging, hmaps⟩ := hroom sixFrames_reachable sixFrames_spare (by decide)
  obtain ⟨manager, b, hparse, hcount, hall⟩ := (hmapped paging hmaps).1 (by decide)
  exact ⟨manager, paging, hparse, hcount, hall⟩

end APICManager

end DavOS
