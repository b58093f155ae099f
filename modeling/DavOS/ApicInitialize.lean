import DavOS.Rsdp
import DavOS.MadtDecode

/-! `APICManager::initialize` as a whole: from the structure that the bootloader hands
over to the root table, from there to the MADT, and to the IO APICs in it. -/
namespace DavOS
open MachineWord ByteMemory

namespace APICManager

/-- `APICManager::initialize`. -/
def initializeManager {β : Type} (bus : RegisterBus β) (offset root : Nat) (rsdp : RootSystemDescriptionPointer)
    (s : ApicState β) : Except Stop (ApicState β) :=
  if rsdp.address = 0 then .error (.panic "Could not find RSDP. Maybe ACPI is not supported?\n")
  else
    match rsdp.rootSDTPhysicalAddress with
    | none => .error (.panic "invalid RSDP table\n")
    | some physicalRsdt =>
        let rsdt := wrap (physicalRsdt + offset)
        -- the tables that the pointers lead to are read through the identity map
        let physicalMadt :=
          (RootSDT.findSDTWithSignature rsdp.memory rsdt RootSDT.apic rsdp.acpiRevision.toNat).found
        if physicalMadt = 0 then .error (.panic "MADT not found\n")
        else
          let madt := wrap (physicalMadt + offset)
          (parseMadt bus (fun _ => offset) (wrap (root + offset)) (fun i => rsdp.memory (madt + i)) s).map Prod.snd

end APICManager

/-! ### What the firmware has left -/

def HasSignature (m : Nat → Byte) (table : Nat) : Prop := ∀ i < 4, m (table + i) = RootSDT.apic i

instance (m : Nat → Byte) (table : Nat) : Decidable (HasSignature m table) := inferInstanceAs (Decidable (∀ i < 4, _))

/-- The tables of ACPI in the first 4 GiB, which the kernel sees as they are and from `offset`
on. The root table has pointers to other tables, and one of these is the MADT. -/
structure AcpiTables (offset : Nat) (rsdp : RootSystemDescriptionPointer) (rsdt : Nat) (pointers : List Nat)
    (madt : Nat) (entries : List MadtEntry) : Prop where
  found : rsdp.address ≠ 0
  root : rsdp.rootSDTPhysicalAddress = some rsdt
  offset_le : offset + 2 ^ 32 ≤ 2 ^ 64
  windows : ∀ x, 0x1000 ≤ x → x < 2 ^ 32 → rsdp.memory (x + offset) = rsdp.memory x
  rootStart : 0x1000 ≤ rsdt
  rootEnd : rsdt + 36 + pointers.length * RootSDT.bytesPerPointer rsdp.acpiRevision.toNat ≤ 2 ^ 32
  length : RootSDT.length rsdp.memory rsdt = 36 + pointers.length * RootSDT.bytesPerPointer rsdp.acpiRevision.toNat
  spelled : Spells rsdp.memory (rsdt + 36)
    (pointers.flatMap (wordBytes (RootSDT.bytesPerPointer rsdp.acpiRevision.toNat)))
  low : ∀ p ∈ pointers, p < 2 ^ 32
  madtStart : 0x1000 ≤ madt
  madtEnd : madt + MADT.length (fun i => rsdp.memory (madt + i)) ≤ 2 ^ 32
  mem : madt ∈ pointers
  signature : HasSignature rsdp.memory madt
  unique : ∀ p ∈ pointers, HasSignature rsdp.memory p → p = madt
  encodes : Encodes (fun i => rsdp.memory (madt + i)) entries

namespace RootSDT

section

variable {m : Nat → Byte} {a w k : Nat}

theorem packed_succ (a w k : Nat) : packed a w (k + 1) = a :: packed (a + w) w k := by
  have hnext : ∀ i, a + (i + 1) * w = a + w + i * w := by
    intro i
    rw [Nat.succ_mul]
    omega
  simp only [packed, List.range_succ_eq_map, List.map_cons, List.map_map, Nat.zero_mul, Nat.add_zero, List.cons.injEq,
    true_and]
  exact List.map_congr_left fun i _ => hnext i

theorem packed_snoc (a w k : Nat) : packed a w (k + 1) = packed a w k ++ [a + k * w] := by
  simp only [packed, List.range_succ, List.map_append, List.map_singleton]

theorem packed_values {pointers : List Nat} (h : Spells m a (pointers.flatMap (wordBytes w)))
    (hfits : ∀ p ∈ pointers, p < 256 ^ w) : (packed a w pointers.length).map (loadBytes m · w) = pointers := by
  induction pointers generalizing a with
  | nil => rfl
  | cons p pointers ih =>
      rw [List.flatMap_cons, spells_append, wordBytes_length] at h
      have hvalue : loadBytes m a w = p := by
        rw [loadBytes_of_spells h.1, Nat.mod_eq_of_lt (hfits p List.mem_cons_self)]
      rw [List.length_cons, packed_succ, List.map_cons, hvalue,
        ih h.2 fun q hq => hfits q (List.mem_cons_of_mem p hq)]

theorem searchAt_found (m : Nat → Byte) (w : Nat) (slots : List Nat) :
    (searchAt m apic w slots).found =
      ((slots.map (loadBytes m · w)).find? fun p => decide (HasSignature m p)).getD 0 := by
  rw [(searchAt_examines m apic w slots).found, List.find?_map]
  rfl

theorem found_none {values : List Nat} (h : ∀ p ∈ values, ¬ HasSignature m p) :
    (values.find? fun p => decide (HasSignature m p)).getD 0 = 0 := by
  have hnone : (values.find? fun p => decide (HasSignature m p)) = none :=
    List.find?_eq_none.mpr fun p hp => by simpa using h p hp
  rw [hnone]
  rfl

theorem found_only {values : List Nat} {table : Nat} (hmem : table ∈ values) (hsig : HasSignature m table)
    (honly : ∀ p ∈ values, HasSignature m p → p = table) :
    (values.find? fun p => decide (HasSignature m p)).getD 0 = table := by
  cases hfind : values.find? fun p => decide (HasSignature m p) with
  | none => exact absurd hsig (by simpa using List.find?_eq_none.mp hfind table hmem)
  | some p => exact honly p (List.mem_of_find?_eq_some hfind) (by simpa using List.find?_some hfind)

end

end RootSDT

section

variable {offset rsdt madt : Nat} {rsdp : RootSystemDescriptionPointer} {pointers : List Nat} {entries : List MadtEntry}

/-- The four bytes behind the root table, which the search of a table of 32-bit pointers reads too. -/
def behind (offset : Nat) (rsdp : RootSystemDescriptionPointer) (rsdt : Nat) (pointers : List Nat) : Nat :=
  loadBytes rsdp.memory (rsdt + offset + 36 + pointers.length * 4) 4

namespace AcpiTables

theorem values (h : AcpiTables offset rsdp rsdt pointers madt entries) :
    (RootSDT.packed (rsdt + offset + 36) (RootSDT.bytesPerPointer rsdp.acpiRevision.toNat) pointers.length).map
      (loadBytes rsdp.memory · (RootSDT.bytesPerPointer rsdp.acpiRevision.toNat)) = pointers := by
  have hend := h.rootEnd
  have hstart := h.rootStart
  have hlength : (pointers.flatMap (wordBytes (RootSDT.bytesPerPointer rsdp.acpiRevision.toNat))).length =
      pointers.length * RootSDT.bytesPerPointer rsdp.acpiRevision.toNat := by
    simp [List.length_flatMap]
  have hwidth : 4 ≤ RootSDT.bytesPerPointer rsdp.acpiRevision.toNat := by
    unfold RootSDT.bytesPerPointer
    split <;> decide
  have hspelled : Spells rsdp.memory (rsdt + offset + 36) _ := h.spelled.moved fun i hi => by
    rw [show rsdt + offset + 36 + i = rsdt + 36 + i + offset by omega]
    exact h.windows _ (by omega) (by omega)
  have hfits : 2 ^ 32 ≤ 256 ^ RootSDT.bytesPerPointer rsdp.acpiRevision.toNat :=
    calc 2 ^ 32 = 256 ^ 4 := by decide
      _ ≤ 256 ^ RootSDT.bytesPerPointer rsdp.acpiRevision.toNat := Nat.pow_le_pow_right (by decide) hwidth
  exact RootSDT.packed_values hspelled fun p hp => Nat.lt_of_lt_of_le (h.low p hp) hfits

theorem find_eq (h : AcpiTables offset rsdp rsdt pointers madt entries) :
    (RootSDT.findSDTWithSignature rsdp.memory (wrap (rsdt + offset)) RootSDT.apic rsdp.acpiRevision.toNat).found =
      (((RootSDT.packed (rsdt + offset + 36 + 4) (RootSDT.bytesPerPointer rsdp.acpiRevision.toNat)
        pointers.length).map (loadBytes rsdp.memory · (RootSDT.bytesPerPointer rsdp.acpiRevision.toNat))).find?
          fun p => decide (HasSignature rsdp.memory p)).getD 0 := by
  have hoffset := h.offset_le
  have hend := h.rootEnd
  have hwrap : wrap (rsdt + offset) = rsdt + offset := wrap_of_lt (by omega)
  have hlength : RootSDT.length rsdp.memory (rsdt + offset) =
      36 + pointers.length * RootSDT.bytesPerPointer rsdp.acpiRevision.toNat := by
    have hstart := h.rootStart
    rw [← h.length]
    apply loadBytes_moved
    intro i hi
    rw [show rsdt + offset + 4 + i = rsdt + 4 + i + offset by omega]
    exact h.windows _ (by omega) (by omega)
  rw [hwrap, ← RootSDT.searchAt_found, RootSDT.findSDTWithSignature, RootSDT.numPointers_eq hlength]
  rfl

/-- With 32-bit pointers the first one is passed over, and the word behind the last one is taken for a pointer. -/
theorem find_old (h : AcpiTables offset rsdp rsdt pointers madt entries) (hold : rsdp.acpiRevision = 0#8)
    (hbehind : ¬ HasSignature rsdp.memory (behind offset rsdp rsdt pointers)) :
    (RootSDT.findSDTWithSignature rsdp.memory (wrap (rsdt + offset)) RootSDT.apic rsdp.acpiRevision.toNat).found =
      if madt ∈ pointers.tail then madt else 0 := by
  have hwidth : RootSDT.bytesPerPointer rsdp.acpiRevision.toNat = 4 := by
    rw [hold]
    rfl
  have hvalues := h.values
  rw [h.find_eq]
  rw [hwidth] at hvalues ⊢
  have hread : (RootSDT.packed (rsdt + offset + 36 + 4) 4 pointers.length).map (loadBytes rsdp.memory · 4) =
      (pointers ++ [behind offset rsdp rsdt pointers]).tail := by
    have hall := congrArg (List.map (loadBytes rsdp.memory · 4))
      (RootSDT.packed_snoc (rsdt + offset + 36) 4 pointers.length)
    rw [RootSDT.packed_succ, List.map_append, hvalues, List.map_cons] at hall
    exact congrArg List.tail hall
  have hpointers : pointers ≠ [] := List.ne_nil_of_mem h.mem
  rw [hread, List.tail_append_of_ne_nil hpointers]
  have honly : ∀ p ∈ pointers.tail ++ [behind offset rsdp rsdt pointers], HasSignature rsdp.memory p →
      p ∈ pointers.tail ∧ p = madt := by
    intro p hp hsig
    rcases List.mem_append.mp hp with htail | hlast
    · exact ⟨htail, h.unique p (List.mem_of_mem_tail htail) hsig⟩
    · rw [List.mem_singleton.mp hlast] at hsig
      exact absurd hsig hbehind
  by_cases hmem : madt ∈ pointers.tail
  · rw [if_pos hmem]
    exact RootSDT.found_only (List.mem_append_left _ hmem) h.signature fun p hp hsig => (honly p hp hsig).2
  · rw [if_neg hmem]
    refine RootSDT.found_none fun p hp hsig => hmem ?_
    obtain ⟨htail, rfl⟩ := honly p hp hsig
    exact htail

/-- With 64-bit pointers below 4 GiB every pointer that is read is a multiple of 4 GiB: the upper half
of one and the lower half of the next. -/
theorem find_new (h : AcpiTables offset rsdp rsdt pointers madt entries) (hnew : rsdp.acpiRevision ≠ 0#8)
    (hclear : ∀ q, ¬ HasSignature rsdp.memory (q * 2 ^ 32)) :
    (RootSDT.findSDTWithSignature rsdp.memory (wrap (rsdt + offset)) RootSDT.apic rsdp.acpiRevision.toNat).found = 0 := by
  have hwidth : RootSDT.bytesPerPointer rsdp.acpiRevision.toNat = 8 := by
    have hne : ((rsdp.acpiRevision.toNat : Nat) : Int) ≠ 0 := fun hzero =>
      hnew (BitVec.eq_of_toNat_eq (Int.ofNat_eq_zero.mp hzero))
    exact if_neg hne
  have hvalues := h.values
  rw [h.find_eq]
  rw [hwidth] at hvalues ⊢
  apply RootSDT.found_none
  intro p hp
  obtain ⟨slot, hslot, rfl⟩ := List.mem_map.mp hp
  obtain ⟨i, hi, rfl⟩ := List.mem_map.mp hslot
  -- the pointer that starts 4 bytes earlier has nothing in its upper half
  have hpointer : loadBytes rsdp.memory (rsdt + offset + 36 + i * 8) 8 ∈ pointers := by
    rw [← hvalues]
    exact List.mem_map.mpr ⟨_, List.mem_map.mpr ⟨i, hi, rfl⟩, rfl⟩
  have hlow := h.low _ hpointer
  have hsplit : loadBytes rsdp.memory (rsdt + offset + 36 + i * 8) 8 = _ :=
    loadBytes_add rsdp.memory (rsdt + offset + 36 + i * 8) 4 4
  have hread : loadBytes rsdp.memory (rsdt + offset + 36 + 4 + i * 8) 8 = _ :=
    loadBytes_add rsdp.memory (rsdt + offset + 36 + 4 + i * 8) 4 4
  rw [Nat.add_right_comm _ (i * 8) 4] at hsplit
  have hupper : loadBytes rsdp.memory (rsdt + offset + 36 + 4 + i * 8) 4 = 0 := by omega
  rw [hread, hupper, Nat.zero_add, Nat.mul_comm]
  exact hclear _

theorem encodes_window (h : AcpiTables offset rsdp rsdt pointers madt entries) :
    Encodes (fun i => rsdp.memory (wrap (madt + offset) + i)) entries := by
  have hoffset := h.offset_le
  have hstart := h.madtStart
  have hend := h.madtEnd
  have hfilled := h.encodes.filled
  have hprefix : 8 ≤ MADT.apicStructuresOffset := by decide
  have hwrap : wrap (madt + offset) = madt + offset := wrap_of_lt (by omega)
  have hsame : ∀ i, i < MADT.length (fun i => rsdp.memory (madt + i)) →
      rsdp.memory (wrap (madt + offset) + i) = rsdp.memory (madt + i) := by
    intro i hi
    rw [hwrap, Nat.add_right_comm]
    exact h.windows _ (by omega) (by omega)
  have hlength : MADT.length (fun i => rsdp.memory (wrap (madt + offset) + i)) =
      MADT.length (fun i => rsdp.memory (madt + i)) := loadBytes_moved fun i hi => hsame (4 + i) (by omega)
  refine ⟨h.encodes.spelled.moved fun i hi => hsame _ (by omega), ?_⟩
  rw [hlength]
  exact hfilled

end AcpiTables

end

namespace APICManager

theorem parseMadt_ok {β : Type} (bus : RegisterBus β) {offset root : Nat} {image : Nat → Byte}
    {entries : List MadtEntry} (h : Encodes image entries) {paging : PagingState} (hintact : Intact offset root paging)
    (b : β) (hfew : (entries.filterMap MadtEntry.ioApic?).length ≤ 16)
    (hroom : 6 * (entries.filterMap MadtEntry.ioApic?).length ≤ paging.free.frames.length) :
    ∃ t, parseMadt bus (fun _ => offset) (wrap (root + offset)) image ⟨new, paging, b⟩ = .ok (MADT.length image, t) ∧
      t.manager.numIoApics = (entries.filterMap MadtEntry.ioApic?).length ∧
      t.manager.stored.map IOAPIC.fields = (entries.filterMap MadtEntry.ioApic?).map IOAPICInfo.fields := by
  have hadds : AddsAll ⟨new, paging, b⟩ (entries.filterMap MadtEntry.ioApic?)
      (((entries.filterMap MadtEntry.ioApic?).take 17).foldlM (mapRegisters (fun _ => offset) (wrap (root + offset))) paging)
      ((entries.filterMap MadtEntry.ioApic?).foldlM (addIoApic bus (fun _ => offset) (wrap (root + offset)))
        ⟨new, paging, b⟩) := addIoApics_spec _ _ (Nat.zero_le 16)
  obtain ⟨paging', hmaps⟩ := mapAll_isOk (entries.filterMap MadtEntry.ioApic?) hintact hroom
  rw [List.take_of_length_le (by omega)] at hadds
  obtain ⟨manager, b', hresult, hcount, hstored⟩ := hadds.fits paging' hmaps ((Nat.zero_add _).trans_le hfew)
  refine ⟨⟨manager, paging', b'⟩, ?_, hcount.trans (Nat.zero_add _), hstored⟩
  unfold parseMadt
  rw [run_entries h.spelled h.filled h.length_lt, hresult]
  rfl

/-- From tables of 32-bit pointers, unless the first pointer is the only one to the MADT, `initialize` comes
back with the IO APICs in it; in every other case it panics. The tables are below 4 GiB, and nothing that
happens to lie at a multiple of 4 GiB or behind the root table passes for a MADT. -/
theorem initialization_finds_io_apics {β : Type} (bus : RegisterBus β) (offset root rsdt madt : Nat)
    (rsdp : RootSystemDescriptionPointer) (pointers : List Nat) (entries : List MadtEntry)
    (h : AcpiTables offset rsdp rsdt pointers madt entries)
    (hbehind : ¬ HasSignature rsdp.memory (behind offset rsdp rsdt pointers))
    (hclear : ∀ q, ¬ HasSignature rsdp.memory (q * 2 ^ 32))
    (paging : PagingState) (b : β) (hreach : ReachableTree offset root paging.mem)
    (hspare : Spare offset root paging.mem paging.free)
    (hfew : (entries.filterMap MadtEntry.ioApic?).length ≤ 16)
    (hroom : 6 * (entries.filterMap MadtEntry.ioApic?).length ≤ paging.free.frames.length) :
    if rsdp.acpiRevision = 0#8 ∧ madt ∈ pointers.tail then
      ∃ t, initializeManager bus offset root rsdp ⟨new, paging, b⟩ = .ok t ∧
        t.manager.numIoApics = (entries.filterMap MadtEntry.ioApic?).length ∧
        t.manager.stored.map IOAPIC.fields = (entries.filterMap MadtEntry.ioApic?).map IOAPICInfo.fields
    else initializeManager bus offset root rsdp ⟨new, paging, b⟩ = .error (.panic "MADT not found\n") := by
  have hfound : (RootSDT.findSDTWithSignature rsdp.memory (wrap (rsdt + offset)) RootSDT.apic
      rsdp.acpiRevision.toNat).found = if rsdp.acpiRevision = 0#8 ∧ madt ∈ pointers.tail then madt else 0 := by
    by_cases hold : rsdp.acpiRevision = 0#8
    · rw [h.find_old hold hbehind]
      simp [hold]
    · rw [h.find_new hold hclear, if_neg fun hboth => hold hboth.1]
  unfold initializeManager
  rw [if_neg h.found, h.root]
  dsimp only
  rw [hfound]
  split
  · have hmadt : ¬ madt = 0 := by
      have hstart := h.madtStart
      omega
    obtain ⟨t, hparse, hcount, hstored⟩ := parseMadt_ok bus h.encodes_window (hreach.intact hspare) b hfew hroom
    rw [if_neg hmadt, hparse]
    exact ⟨t, rfl, hcount, hstored⟩
  · exact if_pos rfl

/-- A machine with an RSDP at 0x1000, the root table at 0x2000 and the MADT of two entries at 0x4000, to
which the second pointer leads. -/
def secondPointer : RootSystemDescriptionPointer where
  address := 0x1000
  memory x :=
    if x = 0x1008 then 0xe0 else if x = 0x1011 then 0x20
    else if x = 0x2004 then 44 else if x = 0x2025 then 0x30 else if x = 0x2029 then 0x40
    else if 0x4000 ≤ x ∧ x < 0x4004 then RootSDT.apic (x - 0x4000)
    else if 0x4004 ≤ x ∧ x < 0x4040 then twoEntryTable (x - 0x4000)
    else 0

theorem initialization_finds_second_pointer :
    ∃ t, initializeManager quietBus 0 0x1000 secondPointer ⟨new, sixFrames, ()⟩ = .ok t ∧
      t.manager.numIoApics = 1 ∧ t.manager.stored.map IOAPIC.fields = [(2#8, 24#32)] := by
  have htables : AcpiTables 0 secondPointer 0x2000 [0x3000, 0x4000] 0x4000 twoEntries := by
    refine ⟨by decide, by decide +kernel, by decide, fun x _ _ => rfl, by decide, by decide +kernel, by decide +kernel,
      by decide +kernel, by decide, by decide, by decide +kernel, by decide, by decide +kernel, by decide +kernel,
      ⟨by decide +kernel, by decide +kernel⟩⟩
  have hclear : ∀ q, ¬ HasSignature secondPointer.memory (q * 2 ^ 32) := by
    intro q hsig
    have hfirst := hsig 0 (by decide)
    rw [Nat.add_zero] at hfirst
    have hzero : secondPointer.memory (q * 2 ^ 32) = 0#8 := by
      rcases Nat.eq_zero_or_pos q with rfl | hq
      · decide +kernel
      · dsimp only [secondPointer]
        repeat rw [if_neg (by omega)]
        rfl
    exact absurd (hzero.symm.trans hfirst) (by decide)
  exact initialization_finds_io_apics quietBus 0 0x1000 0x2000 0x4000 secondPointer [0x3000, 0x4000] twoEntries htables
    (by decide +kernel) hclear sixFrames () sixFrames_reachable sixFrames_spare (by decide) (by decide)

end APICManager

end DavOS
