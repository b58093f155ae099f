import DavOS.APICManager

/-! `redirectIrq` against the IO APICs that it programs. An Intel IO APIC has an index
register and a window onto the register that the index selects. Bits 16 to 23 of
register 1 hold the index of its last redirection entry, which is one less than the number of
entries. -/
namespace DavOS
open MachineWord

/-- The hardware: the selected index, and the registers. -/
structure IoApicDevice where
  select : Byte
  registers : Byte → BitVec 32

namespace IoApicDevice

/-- The index of the last redirection entry. -/
def maximumEntry (d : IoApicDevice) : Nat := ((d.registers 1#8) >>> 16 &&& 0xff#32).toNat

/-- The low half of a redirection entry. -/
def low (d : IoApicDevice) (entry : Nat) : BitVec 32 := d.registers (BitVec.ofNat 8 (0x10 + 2 * entry))

def high (d : IoApicDevice) (entry : Nat) : BitVec 32 := d.registers (BitVec.ofNat 8 (0x10 + 2 * entry + 1))

end IoApicDevice

/-- Up to sixteen IO APICs, each with 32 bytes of the address space below 4 GiB for its registers. -/
structure IoApicSet (n : Nat) where
  address : Fin n → BitVec 32
  base : Fin n → BitVec 32
  id : Fin n → Byte
  room : n ≤ 16
  below : ∀ i, (address i).toNat + 0x20 ≤ 2 ^ 32
  apart : ∀ i j, i ≠ j →
    (address i).toNat + 0x20 ≤ (address j).toNat ∨ (address j).toNat + 0x20 ≤ (address i).toNat

namespace IoApicSet

variable {n : Nat} (set : IoApicSet n)

def window (i : Fin n) : Nat := (set.address i).toNat + 0x10

/-- Every IO APIC answers at its own addresses, and nothing else does. -/
def bus : RegisterBus (Fin n → IoApicDevice) where
  write b a value i :=
    if a = (set.address i).toNat then { b i with select := value.setWidth 8 }
    else if a = set.window i then { b i with registers := Function.update (b i).registers (b i).select value }
    else b i
  read b a :=
    match (List.finRange n).find? fun i => a = set.window i with
    | some i => (b i).registers (b i).select
    | none => 0#32

/-- The object that the constructor makes for an IO APIC. -/
def built (b : Fin n → IoApicDevice) (i : Fin n) : IOAPIC :=
  (IOAPIC.construct set.bus b (set.address i) (set.base i) (set.id i)).1

/-- The manager that has stored the objects of all of them. The rest of its array is unused. -/
def manager (b : Fin n → IoApicDevice) : APICManager where
  ioApics k := if h : k.val < n then set.built b ⟨k, h⟩ else IOAPIC.unused
  numIoApics := n

/-- The interrupts of an IO APIC. -/
def Owns (b : Fin n → IoApicDevice) (i : Fin n) (irq : Nat) : Prop :=
  (set.base i).toNat ≤ irq ∧ irq ≤ (set.base i).toNat + (b i).maximumEntry

instance (b : Fin n → IoApicDevice) (i : Fin n) (irq : Nat) : Decidable (set.Owns b i irq) :=
  inferInstanceAs (Decidable (_ ∧ _))

end IoApicSet

/-- The entry has this vector and destination and is not masked. -/
structure Programmed (low high : BitVec 32) (vector destination : Byte) : Prop where
  vector : ∀ k < 8, low.getLsbD k = vector.getLsbD k
  unmasked : low.getLsbD 16 = false
  destination : ∀ k < 8, high.getLsbD (24 + k) = destination.getLsbD k

/-- One entry of one IO APIC is programmed, with its other bits as they were, and all other entries
are as they were. -/
structure Redirected {n : Nat} (before after : Fin n → IoApicDevice) (i : Fin n) (entry : Nat)
    (vector destination : Byte) : Prop where
  programmed : Programmed ((after i).low entry) ((after i).high entry) vector destination
  low : ∀ k, 8 ≤ k → k ≠ 16 → ((after i).low entry).getLsbD k = ((before i).low entry).getLsbD k
  high : ∀ k < 24, ((after i).high entry).getLsbD k = ((before i).high entry).getLsbD k
  others : ∀ j other, (j, other) ≠ (i, entry) → other ≤ (before j).maximumEntry →
    (after j).low other = (before j).low other ∧ (after j).high other = (before j).high other

/-! ### Accesses -/

namespace IoApicSet

section

variable {n : Nat} {set : IoApicSet n} {b : Fin n → IoApicDevice} {i : Fin n} {ioApic : IOAPIC}

theorem answers_iff (set : IoApicSet n) (i j : Fin n) :
    ((set.address i).toNat = (set.address j).toNat ↔ i = j) ∧ (set.window i = set.window j ↔ i = j) ∧
      (set.address i).toNat ≠ set.window j := by
  unfold window
  by_cases h : i = j
  · subst h
    simp
  · have hapart := set.apart i j h
    omega

theorem write_select (value : BitVec 32) :
    set.bus.write b (set.address i).toNat value = Function.update b i ⟨value.setWidth 8, (b i).registers⟩ := by
  funext j
  obtain ⟨haddress, -, hwindow⟩ := set.answers_iff i j
  by_cases h : i = j
  · subst h
    rw [Function.update_self]
    exact if_pos rfl
  · rw [Function.update_of_ne (Ne.symm h)]
    exact (if_neg (mt haddress.mp h)).trans (if_neg hwindow)

theorem write_window (value : BitVec 32) :
    set.bus.write b (set.window i) value =
      Function.update b i ⟨(b i).select, Function.update (b i).registers (b i).select value⟩ := by
  funext j
  obtain ⟨-, hwindow, -⟩ := set.answers_iff i j
  have hselect : set.window i ≠ (set.address j).toNat := (set.answers_iff j i).2.2.symm
  by_cases h : i = j
  · subst h
    rw [Function.update_self]
    exact (if_neg hselect).trans (if_pos rfl)
  · rw [Function.update_of_ne (Ne.symm h)]
    exact (if_neg hselect).trans (if_neg (mt hwindow.mp h))

theorem read_window : set.bus.read b (set.window i) = (b i).registers (b i).select := by
  have hfound : (List.finRange n).find? (fun j => set.window i = set.window j) = some i := by
    cases hfind : (List.finRange n).find? (fun j => set.window i = set.window j) with
    | none => exact absurd (List.find?_eq_none.mp hfind i (List.mem_finRange i)) (by simp)
    | some j =>
        have hj : set.window i = set.window j := by simpa using List.find?_some hfind
        rw [(set.answers_iff i j).2.1.mp hj]
  change (match (List.finRange n).find? (fun j => set.window i = set.window j) with
    | some i => (b i).registers (b i).select
    | none => 0#32) = _
  rw [hfound]

theorem windowAddress_eq (h : ioApic.address = set.address i) : ioApic.windowAddress = set.window i := by
  have hbelow := set.below i
  rw [IOAPIC.windowAddress, BitVec.toNat_add, h]
  exact Nat.mod_eq_of_lt (by change (set.address i).toNat + 0x10 < 2 ^ 32; omega)

theorem setWidth_narrow (num : Byte) : (num.setWidth 32).setWidth 8 = num := by
  rw [BitVec.setWidth_setWidth_of_le num (by decide), BitVec.setWidth_eq]

theorem readRegister_eq (h : ioApic.address = set.address i) (num : Byte) :
    ioApic.readRegister set.bus b num = ((b i).registers num, Function.update b i ⟨num, (b i).registers⟩) := by
  unfold IOAPIC.readRegister
  dsimp only
  rw [windowAddress_eq h, IOAPIC.selectAddress, h, write_select, read_window, setWidth_narrow, Function.update_self]

theorem writeRegister_eq (h : ioApic.address = set.address i) (num : Byte) (value : BitVec 32) :
    ioApic.writeRegister set.bus b num value =
      Function.update b i ⟨num, Function.update (b i).registers num value⟩ := by
  unfold IOAPIC.writeRegister
  dsimp only
  rw [windowAddress_eq h, IOAPIC.selectAddress, h, write_select, write_window, setWidth_narrow, Function.update_self,
    Function.update_idem]

theorem built_eq : set.built b i =
    ⟨set.address i, set.base i, set.id i, (((b i).registers 1#8) >>> 16 &&& 0xff#32).setWidth 8⟩ := by
  have hread : (⟨set.address i, set.base i, set.id i, 0#8⟩ : IOAPIC).readRegister set.bus b 1#8 = _ :=
    readRegister_eq rfl 1#8
  unfold built IOAPIC.construct
  dsimp only
  rw [hread]

theorem built_entries : (set.built b i).numRedirectionEntries.toNat = (b i).maximumEntry := by
  have hle : (((b i).registers 1#8) >>> 16 &&& 0xff#32).toNat ≤ 0xff := by
    rw [BitVec.toNat_and]
    exact Nat.and_le_right
  rw [built_eq, BitVec.toNat_setWidth]
  exact Nat.mod_eq_of_lt (Nat.lt_succ_of_le hle)

/-- The object takes the last index for the number of entries. -/
theorem handlesIRQ_iff (irq : Byte) : (set.built b i).handlesIRQ irq = true ↔
    (set.base i).toNat ≤ irq.toNat ∧ irq.toNat < (set.base i).toNat + (b i).maximumEntry := by
  have hbase : (set.built b i).globalSystemInterruptBase = set.base i := by rw [built_eq]
  have hirq := irq.isLt
  have hentries := (set.built b i).numRedirectionEntries.isLt
  rw [built_entries] at hentries
  rw [IOAPIC.handlesIRQ, Bool.and_eq_true, decide_eq_true_iff, decide_eq_true_iff, hbase, BitVec.le_def, BitVec.lt_def,
    BitVec.toNat_add, BitVec.toNat_setWidth, BitVec.toNat_setWidth, built_entries]
  omega

theorem unused_handles_none (irq : Byte) : IOAPIC.unused.handlesIRQ irq = false := by
  simp [IOAPIC.unused, IOAPIC.handlesIRQ]

theorem redirectionEntry_eq {irq : Byte} (h : (set.base i).toNat ≤ irq.toNat) :
    (set.built b i).redirectionEntryLow irq = BitVec.ofNat 8 (0x10 + 2 * (irq.toNat - (set.base i).toNat)) ∧
    (set.built b i).redirectionEntryHigh irq = BitVec.ofNat 8 (0x10 + 2 * (irq.toNat - (set.base i).toNat) + 1) := by
  have hirq := irq.isLt
  rw [IOAPIC.redirectionEntryLow, IOAPIC.redirectionEntryHigh, built_eq]
  constructor <;> apply BitVec.eq_of_toNat_eq <;>
    simp only [BitVec.toNat_setWidth, BitVec.toNat_add, BitVec.toNat_mul, BitVec.toNat_sub, BitVec.toNat_ofNat] <;> omega

/-- The two halves of the entry that `redirectIrq` makes of the two it has read. -/
def newLow (low : BitVec 32) (vector : Byte) : BitVec 32 :=
  ((low &&& ~~~0xff#32) ||| vector.setWidth 32) &&& ~~~(1#32 <<< 16)

def newHigh (high : BitVec 32) (id : Byte) : BitVec 32 := (high &&& 0x00ffffff#32) ||| (id.setWidth 32 <<< 24)

theorem redirectEntry_eq (h : ioApic.address = set.address i) (irq vector : Byte) :
    APICManager.redirectEntry set.bus ioApic b irq vector =
      Function.update b i ⟨ioApic.redirectionEntryLow irq,
        Function.update (Function.update (b i).registers (ioApic.redirectionEntryHigh irq)
          (newHigh ((b i).registers (ioApic.redirectionEntryHigh irq)) ioApic.id)) (ioApic.redirectionEntryLow irq)
          (newLow ((b i).registers (ioApic.redirectionEntryLow irq)) vector)⟩ := by
  unfold APICManager.redirectEntry IOAPIC.readRedirectionEntryLow IOAPIC.readRedirectionEntryHigh
    IOAPIC.writeRedirectionEntryLow IOAPIC.writeRedirectionEntryHigh
  rw [readRegister_eq h]
  dsimp only
  rw [readRegister_eq h]
  dsimp only
  rw [writeRegister_eq h, writeRegister_eq h]
  simp only [Function.update_self, Function.update_idem]
  rfl

end

/-! ### Bits -/

theorem newLow_bit (low : BitVec 32) (vector : Byte) {k : Nat} (hk : k < 32) :
    (newLow low vector).getLsbD k =
      if k < 8 then vector.getLsbD k else if k = 16 then false else low.getLsbD k := by
  have hvector : (0xff#32).getLsbD k = decide (k < 8) :=
    (by decide : ∀ k : Fin 32, (0xff#32).getLsbD k = decide (k.val < 8)) ⟨k, hk⟩
  have hmask : (1#32 <<< 16).getLsbD k = decide (k = 16) :=
    (by decide : ∀ k : Fin 32, (1#32 <<< 16).getLsbD k = decide (k.val = 16)) ⟨k, hk⟩
  unfold newLow
  simp only [BitVec.getLsbD_and, BitVec.getLsbD_or, BitVec.getLsbD_not, BitVec.getLsbD_setWidth, hvector, hmask, hk,
    decide_true, Bool.true_and]
  by_cases hlow : k < 8
  · simp [hlow, show k ≠ 16 by omega]
  · simp [hlow, BitVec.getLsbD_of_ge vector k (by omega), Bool.and_comm]

theorem newHigh_bit (high : BitVec 32) (id : Byte) {k : Nat} (hk : k < 32) :
    (newHigh high id).getLsbD k = if k < 24 then high.getLsbD k else id.getLsbD (k - 24) := by
  have hmask : (0x00ffffff#32).getLsbD k = decide (k < 24) :=
    (by decide : ∀ k : Fin 32, (0x00ffffff#32).getLsbD k = decide (k.val < 24)) ⟨k, hk⟩
  unfold newHigh
  simp only [BitVec.getLsbD_and, BitVec.getLsbD_or, BitVec.getLsbD_shiftLeft, BitVec.getLsbD_setWidth, hmask, hk,
    decide_true, Bool.true_and]
  by_cases hlow : k < 24
  · simp [hlow]
  · simp [hlow, show k - 24 < 32 by omega]

theorem entryRegister_ne {entry other : Nat} (hentry : entry ≤ 119) (hother : other ≤ 119) :
    (entry ≠ other → BitVec.ofNat 8 (0x10 + 2 * entry) ≠ BitVec.ofNat 8 (0x10 + 2 * other) ∧
      BitVec.ofNat 8 (0x10 + 2 * entry + 1) ≠ BitVec.ofNat 8 (0x10 + 2 * other + 1)) ∧
    BitVec.ofNat 8 (0x10 + 2 * entry) ≠ BitVec.ofNat 8 (0x10 + 2 * other + 1) := by
  simp only [ne_eq, ← BitVec.toNat_inj, BitVec.toNat_ofNat]
  omega

theorem redirected_update {n : Nat} {b : Fin n → IoApicDevice} {i : Fin n} {entry : Nat}
    (hmaximum : ∀ j, (b j).maximumEntry ≤ 119) (hentry : entry ≤ 119) (select vector id : Byte) :
    Redirected b (Function.update b i ⟨select,
      Function.update (Function.update (b i).registers (BitVec.ofNat 8 (0x10 + 2 * entry + 1))
        (newHigh ((b i).high entry) id)) (BitVec.ofNat 8 (0x10 + 2 * entry)) (newLow ((b i).low entry) vector)⟩)
      i entry vector id := by
  generalize hafter : Function.update b i _ = after
  have hlow : (after i).low entry = newLow ((b i).low entry) vector := by
    rw [← hafter, Function.update_self]
    exact Function.update_self _ _ _
  have hhigh : (after i).high entry = newHigh ((b i).high entry) id := by
    rw [← hafter, Function.update_self]
    exact (Function.update_of_ne (entryRegister_ne hentry hentry).2.symm _ _).trans (Function.update_self _ _ _)
  refine ⟨⟨fun k hk => ?_, ?_, fun k hk => ?_⟩, fun k hk hne => ?_, fun k hk => ?_, fun j other hne hother => ?_⟩
  · rw [hlow, newLow_bit _ _ (by omega), if_pos hk]
  · rw [hlow, newLow_bit _ _ (by decide)]
    rfl
  · rw [hhigh, newHigh_bit _ _ (by omega), if_neg (by omega), Nat.add_sub_cancel_left]
  · rw [hlow]
    by_cases hwidth : k < 32
    · rw [newLow_bit _ _ hwidth, if_neg (by omega), if_neg hne]
    · rw [BitVec.getLsbD_of_ge _ _ (by omega), BitVec.getLsbD_of_ge _ _ (by omega)]
  · rw [hhigh, newHigh_bit _ _ (by omega), if_pos hk]
  · rw [← hafter]
    by_cases hj : j = i
    · subst hj
      have hentries : other ≠ entry := fun h => hne (by rw [h])
      have hbound := Nat.le_trans hother (hmaximum j)
      obtain ⟨hlows, hhighs⟩ := (entryRegister_ne hbound hentry).1 hentries
      rw [Function.update_self]
      exact ⟨(Function.update_of_ne hlows _ _).trans (Function.update_of_ne (entryRegister_ne hbound hentry).2 _ _),
        (Function.update_of_ne (entryRegister_ne hentry hbound).2.symm _ _).trans
          (Function.update_of_ne hhighs _ _)⟩
    · rw [Function.update_of_ne hj]
      exact ⟨rfl, rfl⟩

section

variable {n : Nat} {set : IoApicSet n} {b : Fin n → IoApicDevice} {i : Fin n} {irq : Byte}

theorem redirectAmong_none {ioApics : List IOAPIC} (h : ∀ ioApic ∈ ioApics, ioApic.handlesIRQ irq = false)
    (vector : Byte) : APICManager.redirectAmong set.bus b irq vector ioApics = b := by
  induction ioApics with
  | nil => rfl
  | cons ioApic ioApics ih =>
      rw [APICManager.redirectAmong, h ioApic List.mem_cons_self]
      exact ih fun other hother => h other (List.mem_cons_of_mem ioApic hother)

theorem redirectAmong_some {ioApics : List IOAPIC} {ioApic : IOAPIC} (hmem : ioApic ∈ ioApics)
    (hhandles : ioApic.handlesIRQ irq = true)
    (hunique : ∀ other ∈ ioApics, other.handlesIRQ irq = true → other = ioApic) (vector : Byte) :
    APICManager.redirectAmong set.bus b irq vector ioApics =
      APICManager.redirectEntry set.bus ioApic b irq vector := by
  induction ioApics with
  | nil => cases hmem
  | cons first ioApics ih =>
      rw [APICManager.redirectAmong]
      by_cases hfirst : first.handlesIRQ irq = true
      · rw [if_pos hfirst, hunique first List.mem_cons_self hfirst]
      · have hrest : ioApic ∈ ioApics := by
          rcases List.mem_cons.mp hmem with rfl | hrest
          · exact absurd hhandles hfirst
          · exact hrest
        rw [if_neg hfirst]
        exact ih hrest fun other hother => hunique other (List.mem_cons_of_mem first hother)

/-- An element that handles the IRQ is the object of an IO APIC that owns it, though not as its last one. -/
theorem manager_owner {ioApic : IOAPIC} (hmem : ioApic ∈ List.ofFn (set.manager b).ioApics)
    (hhandles : ioApic.handlesIRQ irq = true) : ∃ j, ioApic = set.built b j ∧ set.Owns b j irq.toNat ∧
      irq.toNat ≠ (set.base j).toNat + (b j).maximumEntry := by
  obtain ⟨k, rfl⟩ := List.mem_ofFn.mp hmem
  by_cases hlt : k.val < n
  · have hk : (set.manager b).ioApics k = set.built b ⟨k, hlt⟩ := dif_pos hlt
    rw [hk, handlesIRQ_iff] at hhandles
    exact ⟨⟨k, hlt⟩, hk, ⟨hhandles.1, Nat.le_of_lt hhandles.2⟩, Nat.ne_of_lt hhandles.2⟩
  · have hk : (set.manager b).ioApics k = IOAPIC.unused := dif_neg hlt
    rw [hk, unused_handles_none] at hhandles
    cases hhandles

theorem mem_manager (i : Fin n) : set.built b i ∈ List.ofFn (set.manager b).ioApics := by
  have hslot : (set.manager b).ioApics ⟨i, Nat.lt_of_lt_of_le i.isLt set.room⟩ = set.built b i := dif_pos i.isLt
  rw [← hslot]
  exact List.mem_ofFn.mpr ⟨_, rfl⟩

variable (hdisjoint : ∀ i j irq, set.Owns b i irq → set.Owns b j irq → i = j) (howns : set.Owns b i irq.toNat)
include hdisjoint howns

/-- Nobody handles the last interrupt of an IO APIC. -/
theorem redirectIrq_last (hlast : irq.toNat = (set.base i).toNat + (b i).maximumEntry) (vector : Byte) :
    APICManager.redirectIrq set.bus (set.manager b) b irq vector = b := by
  apply redirectAmong_none
  intro ioApic hmem
  cases hhandles : ioApic.handlesIRQ irq with
  | false => rfl
  | true =>
      obtain ⟨j, -, howns', hne⟩ := manager_owner hmem hhandles
      obtain rfl := hdisjoint i j _ howns howns'
      exact absurd hlast hne

theorem redirectIrq_owner (hne : irq.toNat ≠ (set.base i).toNat + (b i).maximumEntry) (vector : Byte) :
    APICManager.redirectIrq set.bus (set.manager b) b irq vector =
      APICManager.redirectEntry set.bus (set.built b i) b irq vector := by
  apply redirectAmong_some (mem_manager i)
  · rw [handlesIRQ_iff]
    exact ⟨howns.1, Nat.lt_of_le_of_ne howns.2 hne⟩
  · intro other hmem hhandles
    obtain ⟨j, rfl, howns', -⟩ := manager_owner hmem hhandles
    rw [hdisjoint i j _ howns howns']

omit hdisjoint

theorem redirected_entry (hmaximum : ∀ j, (b j).maximumEntry ≤ 119) (vector : Byte) :
    Redirected b (APICManager.redirectEntry set.bus (set.built b i) b irq vector) i
      (irq.toNat - (set.base i).toNat) vector (set.id i) := by
  have hentry : irq.toNat - (set.base i).toNat ≤ 119 := by
    have hle := howns.2
    have hi := hmaximum i
    omega
  have haddress : (set.built b i).address = set.address i := by rw [built_eq]
  have hid : (set.built b i).id = set.id i := by rw [built_eq]
  obtain ⟨hlow, hhigh⟩ := redirectionEntry_eq (b := b) howns.1
  rw [redirectEntry_eq haddress, hlow, hhigh, hid]
  exact redirected_update hmaximum hentry _ vector (set.id i)

end

/-- `redirectIrq` programs the entry of the IRQ, and no other, exactly when the IRQ is not the last one
of its IO APIC or the entry is programmed like that already. -/
theorem redirect_programs_entry_iff {n : Nat} (set : IoApicSet n) (b : Fin n → IoApicDevice)
    (hmaximum : ∀ i, (b i).maximumEntry ≤ 119)
    (hdisjoint : ∀ i j irq, set.Owns b i irq → set.Owns b j irq → i = j) (i : Fin n) (irq vector : Byte)
    (howns : set.Owns b i irq.toNat) :
    Redirected b (APICManager.redirectIrq set.bus (set.manager b) b irq vector) i
        (irq.toNat - (set.base i).toNat) vector (set.id i) ↔
      irq.toNat ≠ (set.base i).toNat + (b i).maximumEntry ∨
      Programmed ((b i).low (irq.toNat - (set.base i).toNat)) ((b i).high (irq.toNat - (set.base i).toNat)) vector
        (set.id i) := by
  by_cases hlast : irq.toNat = (set.base i).toNat + (b i).maximumEntry
  · rw [redirectIrq_last hdisjoint howns hlast]
    constructor
    · exact fun h => Or.inr h.programmed
    · rintro (hne | hprogrammed)
      · exact absurd hlast hne
      · exact ⟨hprogrammed, fun _ _ _ => rfl, fun _ _ => rfl, fun _ _ _ _ => ⟨rfl, rfl⟩⟩
  · rw [redirectIrq_owner hdisjoint howns hlast]
    exact iff_of_true (redirected_entry howns hmaximum vector) (Or.inl hlast)

/-- The IO APIC of a PC: 24 entries, all masked. -/
def pc : IoApicSet 1 where
  address _ := 0xfec00000#32
  base _ := 0#32
  id _ := 2#8
  room := by decide
  below := by decide
  apart := by decide

def pcDevice : Fin 1 → IoApicDevice := fun _ => ⟨0#8, fun r => if r = 1#8 then 0x00170020#32 else 0x00010000#32⟩

theorem redirect_programs_keyboard_entry : pc.Owns pcDevice 0 1 ∧
    Redirected pcDevice (APICManager.redirectIrq pc.bus (pc.manager pcDevice) pcDevice 1#8 0x30#8) 0 1 0x30#8 2#8 := by
  have howns : pc.Owns pcDevice 0 1 := by decide
  exact ⟨howns, (redirect_programs_entry_iff pc pcDevice (by decide) (fun i j _ _ _ => Subsingleton.elim i j) 0 1#8 0x30#8
    howns).mpr (Or.inl (by decide))⟩

/-- The last interrupt of the IO APIC is not redirected: its entry stays masked. -/
theorem last_irq_not_redirected : pc.Owns pcDevice 0 23 ∧
    (APICManager.redirectIrq pc.bus (pc.manager pcDevice) pcDevice 23#8 0x30#8 0).low 23 = 0x00010000#32 ∧
    ¬ Redirected pcDevice (APICManager.redirectIrq pc.bus (pc.manager pcDevice) pcDevice 23#8 0x30#8) 0 23 0x30#8 2#8 := by
  have howns : pc.Owns pcDevice 0 (23#8 : Byte).toNat := by decide
  have hsame : APICManager.redirectIrq pc.bus (pc.manager pcDevice) pcDevice 23#8 0x30#8 = pcDevice :=
    redirectIrq_last (fun i j _ _ _ => Subsingleton.elim i j) howns (by decide) _
  rw [hsame]
  refine ⟨howns, by decide, fun h => ?_⟩
  exact absurd h.programmed.unmasked (by decide)

end IoApicSet

end DavOS
