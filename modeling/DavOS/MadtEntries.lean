import DavOS.AddMapping
import DavOS.APICManager

/-! How far the loop over the MADT gets. Its cursor follows the length bytes of the
table, whatever they are: nothing in the code asks that an entry has a length or
that its two first bytes are still inside the table. -/
namespace DavOS
open MachineWord ByteMemory PathGraph kernelConstants

/-- The entries that the length bytes lead to: one starts at `p`, behind `k` entries of type 1. -/
inductive EntryStart (image : Nat → Byte) : Nat → Nat → Prop
  | first : EntryStart image MADT.apicStructuresOffset 0
  | next {p k : Nat} : EntryStart image p k → p < MADT.length image →
      EntryStart image (p + (image (p + 1)).toNat) (if image p = 1#8 then k + 1 else k)

/-- Up to the seventeenth IO APIC, every entry has its first two bytes in the table and a length
that is not zero. For the seventeenth itself the length does not matter. -/
def LengthsAdvance (image : Nat → Byte) : Prop :=
  ∀ p k, EntryStart image p k → p < MADT.length image → k ≤ 16 →
    p + 1 < MADT.length image ∧ (image (p + 1) ≠ 0#8 ∨ (image p = 1#8 ∧ k = 16))

namespace APICManager

section

variable {β : Type} {bus : RegisterBus β} {hhdm : HhdmOffset} {root : Nat} {image : Nat → Byte}

theorem cursor_advance (p : Nat) (length : Byte) :
    (((p + 2 : Nat) : Int) + ((length.toNat : Int) - 2)).toNat = p + length.toNat := by omega

theorem addIoApic_ok {s t : ApicState β} {info : IOAPICInfo} :
    addIoApic bus hhdm root s info = .ok t ↔
      ∃ paging, mapRegisters hhdm root s.paging info = .ok paging ∧ ∃ h : s.manager.numIoApics < 16,
        let built := IOAPIC.construct bus s.bus
          (BitVec.ofNat 32 (kernelPhysicalToVirtual hhdm paging.mem info.ioApicAddress.toNat))
          info.globalSystemInterruptBase info.ioApicId
        t = ⟨s.manager.push built.1 h, paging, built.2⟩ := by
  unfold addIoApic
  constructor
  · intro hs
    obtain ⟨paging, hpaging, hs⟩ := bind_ok hs
    refine ⟨paging, hpaging, ?_⟩
    by_cases h : s.manager.numIoApics < 16
    · rw [dif_pos h] at hs
      exact ⟨h, (Except.ok.inj hs).symm⟩
    · rw [dif_neg h] at hs
      cases hs
  · rintro ⟨paging, hpaging, h, rfl⟩
    rw [hpaging]
    exact dif_pos h

theorem addIoApic_unmapped {s : ApicState β} {info : IOAPICInfo} {e : Stop}
    (h : mapRegisters hhdm root s.paging info = .error e) : addIoApic bus hhdm root s info = .error e := by
  unfold addIoApic
  rw [h]
  rfl

theorem addIoApic_full {s : ApicState β} {info : IOAPICInfo} {paging : PagingState}
    (h : mapRegisters hhdm root s.paging info = .ok paging) (hfull : ¬ s.manager.numIoApics < 16) :
    addIoApic bus hhdm root s info = .error (.panic "Too many IO APICs\n") := by
  unfold addIoApic
  rw [h]
  exact dif_neg hfull

theorem entryStep_other {at_ : Nat × ApicState β} (h : image at_.1 ≠ 1#8) :
    entryStep bus hhdm root image at_ = .ok (at_.1 + (image (at_.1 + 1)).toNat, at_.2) := by
  unfold entryStep
  simp only [if_neg h, cursor_advance]
  rfl

theorem entryStep_ioApic {at_ : Nat × ApicState β} (h : image at_.1 = 1#8) :
    entryStep bus hhdm root image at_ =
      (addIoApic bus hhdm root at_.2 (IOAPICInfo.load image (at_.1 + 2))).map
        fun s => (at_.1 + (image (at_.1 + 1)).toNat, s) := by
  unfold entryStep
  simp only [if_pos h, cursor_advance]
  cases addIoApic bus hhdm root at_.2 (IOAPICInfo.load image (at_.1 + 2)) <;> rfl

theorem entryStep_cases {at_ next : Nat × ApicState β} (h : entryStep bus hhdm root image at_ = .ok next) :
    next.1 = at_.1 + (image (at_.1 + 1)).toNat ∧
    (image at_.1 ≠ 1#8 ∧ next.2 = at_.2 ∨
      image at_.1 = 1#8 ∧ addIoApic bus hhdm root at_.2 (IOAPICInfo.load image (at_.1 + 2)) = .ok next.2) := by
  by_cases htype : image at_.1 = 1#8
  · rw [entryStep_ioApic htype] at h
    cases hadd : addIoApic bus hhdm root at_.2 (IOAPICInfo.load image (at_.1 + 2)) with
    | error e =>
        rw [hadd] at h
        cases h
    | ok s =>
        rw [hadd] at h
        cases h
        exact ⟨rfl, Or.inr ⟨htype, rfl⟩⟩
  · rw [entryStep_other htype] at h
    cases h
    exact ⟨rfl, Or.inl ⟨htype, rfl⟩⟩

theorem entryTest_iff {at_ : Nat × ApicState β} : entryTest image at_ = true ↔ at_.1 < MADT.length image :=
  decide_eq_true_iff

end

section

variable {β : Type} (bus : RegisterBus β) (hhdm : HhdmOffset) (root : Nat) (image : Nat → Byte)

/-- The states in which the loop of `initialize` makes its test. -/
def Visited (s : ApicState β) (at_ : Nat × ApicState β) : Prop :=
  WhileLoop.Visits (entryTest image) (entryStep bus hhdm root image) (MADT.apicStructuresOffset, s) at_

/-- The loop reads the type and the length of an entry inside the table only, every round moves the
cursor forward, and the loop ends. -/
structure ParsesInside (s : ApicState β) : Prop where
  reads : ∀ at_, Visited bus hhdm root image s at_ → at_.1 < MADT.length image → at_.1 + 1 < MADT.length image
  advances : ∀ at_ next, Visited bus hhdm root image s at_ → at_.1 < MADT.length image →
    entryStep bus hhdm root image at_ = .ok next → at_.1 < next.1
  ends : ∃ fuel, (WhileLoop.run (entryTest image) (entryStep bus hhdm root image) fuel
    (MADT.apicStructuresOffset, s)).isSome

end

/-! ### A machine on which every mapping succeeds -/

/-- Registers that read as zero and keep nothing. -/
def quietBus : RegisterBus Unit := ⟨fun _ _ _ => (), fun _ _ => 0#32⟩

def registerFlags : FlagSet := ⟨PageFlags.write ||| PageFlags.cacheDisable, by decide⟩

/-- A tree that was just built, with six frames for each of sixteen IO APICs. -/
def roomyPaging (offset : Nat) : PagingState :=
  ⟨PageTreeNode.construct (fun _ => 0#64) (wrap (0x1000 + offset)), ⟨stride 0x1000 0x2000 96, 96, by decide⟩⟩

theorem roomyPaging_intact (offset : Nat) : Intact offset 0x1000 (roomyPaging offset) := by
  have hmember : ∀ f ∈ stride 0x1000 0x2000 96, IsFrame f ∧ f ≠ 0x1000 := by
    intro f hf
    obtain ⟨i, hi, rfl⟩ := mem_stride.mp hf
    unfold IsFrame
    omega
  apply (fresh_tree offset (fun _ => 0#64) (by decide) ?_ ?_).1
  · refine List.nodup_cons.mpr ⟨fun h => (hmember _ h).2 rfl, stride_nodup (by decide) _ _⟩
  · exact fun f hf => (hmember f hf).1

section

variable {offset root : Nat} {image : Nat → Byte}

/-- The registers of an IO APIC are on two pages at most, which take six frames at most. -/
theorem mapRegisters_isOk {s : PagingState} (h : Intact offset root s) (hroom : 6 ≤ s.free.frames.length)
    (info : IOAPICInfo) :
    ∃ t, mapRegisters (fun _ => offset) (wrap (root + offset)) s info = .ok t ∧ Intact offset root t ∧
      s.free.frames.length ≤ t.free.frames.length + 6 := by
  have haddress := info.ioApicAddress.isLt
  have hvirtual : wrap (info.ioApicAddress.toNat + offset) < 2 ^ 64 := Nat.mod_lt _ (by decide)
  obtain ⟨n, hn, hpages⟩ := addMappingPages_page hvirtual
  have hfloor : pageFloor info.ioApicAddress.toNat = info.ioApicAddress.toNat / 4096 * 4096 := by
    simp only [pageFloor, pageSize]
    omega
  obtain ⟨at_, hloop⟩ := addMappingSteps_isOk registerFlags n
    (x := wrap (info.ioApicAddress.toNat + offset) / 4096 * 4096)
    (y := info.ioApicAddress.toNat / 4096 * 4096) h (Nat.mul_mod_left _ _) (by omega) (by omega)
  obtain ⟨hintact, hleft⟩ := addMappingSteps_intact registerFlags n h (Nat.mul_mod_left _ _) (by omega) hloop
  refine ⟨at_.1, ?_, hintact, by omega⟩
  unfold mapRegisters kernelPhysicalToVirtual
  rw [pagingAddMapping_eq, hpages, hfloor, orHang_some]
  change (List.foldlM (addMappingStep (fun _ => offset) (wrap (root + offset)) registerFlags.bits) _ _ >>= _) = _
  rw [hloop]
  rfl

/-- A tree with frames for the IO APICs that still fit, behind `k` that are stored. -/
structure Roomy {β : Type} (offset root k : Nat) (s : ApicState β) : Prop where
  stored : s.manager.numIoApics = k
  intact : Intact offset root s.paging
  frames : 6 * (16 - k) ≤ s.paging.free.frames.length

theorem roomy_start (offset : Nat) : Roomy offset 0x1000 0 (⟨new, roomyPaging offset, ()⟩ : ApicState Unit) where
  stored := rfl
  intact := roomyPaging_intact offset
  frames := by
    change 6 * (16 - 0) ≤ (stride 0x1000 0x2000 96).length
    decide

theorem entryStep_roomy {β : Type} (bus : RegisterBus β) {s : ApicState β} {k : Nat} (h : Roomy offset root k s)
    {p : Nat} (hfits : image p = 1#8 → k < 16) :
    ∃ t, entryStep bus (fun _ => offset) (wrap (root + offset)) image (p, s) =
      .ok (p + (image (p + 1)).toNat, t) ∧ Roomy offset root (if image p = 1#8 then k + 1 else k) t := by
  obtain ⟨hstored, hintact, hframes⟩ := h
  by_cases htype : image p = 1#8
  · have hlt := hfits htype
    obtain ⟨paging, hmap, hintact', hleft⟩ := mapRegisters_isOk hintact (by omega) (IOAPICInfo.load image (p + 2))
    obtain ⟨t, ht, hadd⟩ : ∃ t, t.manager.numIoApics = k + 1 ∧ t.paging = paging ∧
        addIoApic bus (fun _ => offset) (wrap (root + offset)) s (IOAPICInfo.load image (p + 2)) = .ok t :=
      ⟨_, congrArg (· + 1) hstored, rfl, addIoApic_ok.mpr ⟨paging, hmap, by omega, rfl⟩⟩
    rw [entryStep_ioApic htype, hadd.2, if_pos htype]
    exact ⟨t, rfl, ht, hadd.1 ▸ hintact', by rw [hadd.1]; omega⟩
  · rw [entryStep_other htype, if_neg htype]
    exact ⟨s, rfl, hstored, hintact, hframes⟩

/-- Such a machine takes the loop to every entry up to the seventeenth IO APIC. -/
theorem visited_of_entryStart {p k : Nat} (h : EntryStart image p k) (hk : k ≤ 16) :
    ∃ s, Visited quietBus (fun _ => offset) (wrap (0x1000 + offset)) image ⟨new, roomyPaging offset, ()⟩ (p, s) ∧
      Roomy offset 0x1000 k s := by
  induction h with
  | first => exact ⟨_, .start, roomy_start offset⟩
  | @next p k _ hp ih =>
      have hbefore : k ≤ 16 ∧ (image p = 1#8 → k < 16) := by
        by_cases htype : image p = 1#8
        · rw [if_pos htype] at hk
          exact ⟨Nat.le_of_lt hk, fun _ => hk⟩
        · rw [if_neg htype] at hk
          exact ⟨hk, fun h => absurd h htype⟩
      obtain ⟨s, hvisited, hroomy⟩ := ih hbefore.1
      obtain ⟨t, hstep, ht⟩ := entryStep_roomy quietBus hroomy hbefore.2
      exact ⟨t, hvisited.round (entryTest_iff.mpr hp) hstep, ht⟩

/-- On any machine the cursor stands at an entry, behind as many IO APICs as were stored. -/
theorem entryStart_of_visited {β : Type} {bus : RegisterBus β} {hhdm : HhdmOffset} {s : ApicState β}
    {at_ : Nat × ApicState β} (hnew : s.manager.numIoApics = 0) (h : Visited bus hhdm root image s at_) :
    EntryStart image at_.1 at_.2.manager.numIoApics ∧ at_.2.manager.numIoApics ≤ 16 := by
  refine WhileLoop.Visits.invariant (I := fun at_ : Nat × ApicState β =>
    EntryStart image at_.1 at_.2.manager.numIoApics ∧ at_.2.manager.numIoApics ≤ 16) ?_ h ?_
  · rintro at_ next ⟨hstart, hnum⟩ htest hstep
    have hnext := hstart.next (entryTest_iff.mp htest)
    obtain ⟨hcursor, ⟨htype, hsame⟩ | ⟨htype, hadd⟩⟩ := entryStep_cases hstep
    · rw [if_neg htype] at hnext
      rw [hcursor, hsame]
      exact ⟨hnext, hnum⟩
    · obtain ⟨paging, -, hroom, hpushed⟩ := addIoApic_ok.mp hadd
      rw [if_pos htype] at hnext
      rw [hcursor, hpushed]
      exact ⟨hnext, hroom⟩
  · rw [hnew]
    exact ⟨.first, by decide⟩

theorem entryStep_advances {β : Type} {bus : RegisterBus β} {hhdm : HhdmOffset} {at_ next : Nat × ApicState β}
    (hlength : image (at_.1 + 1) ≠ 0#8 ∨ (image at_.1 = 1#8 ∧ at_.2.manager.numIoApics = 16))
    (hstep : entryStep bus hhdm root image at_ = .ok next) : at_.1 < next.1 := by
  obtain ⟨hnext, hcases⟩ := entryStep_cases hstep
  rcases hlength with hlength | ⟨htype, hfull⟩
  · have hpos : 0 < (image (at_.1 + 1)).toNat := Nat.pos_of_ne_zero fun h => hlength (BitVec.eq_of_toNat_eq h)
    omega
  · rcases hcases with ⟨hother, -⟩ | ⟨-, hadd⟩
    · exact absurd htype hother
    · obtain ⟨-, -, hroom, -⟩ := addIoApic_ok.mp hadd
      omega

end

/-- Parsing stays inside the table, moves forward and ends on every machine, exactly when the length
bytes of the table advance as far as the loop can get. -/
theorem madt_parsing_ends_iff (offset : Nat) (image : Nat → Byte) :
    (∀ (β : Type) (bus : RegisterBus β) (root : Nat) (paging : PagingState) (b : β),
      ParsesInside bus (fun _ => offset) root image ⟨new, paging, b⟩) ↔ LengthsAdvance image := by
  constructor
  · intro h p k hstart hp hk
    obtain ⟨hreads, hadvances, -⟩ := h Unit quietBus (wrap (0x1000 + offset)) (roomyPaging offset) ()
    obtain ⟨s, hvisited, hroomy⟩ := visited_of_entryStart hstart hk
    refine ⟨hreads _ hvisited hp, ?_⟩
    by_cases hfull : image p = 1#8 ∧ k = 16
    · exact Or.inr hfull
    · obtain ⟨t, hstep, -⟩ := entryStep_roomy quietBus hroomy (p := p) fun htype =>
        Nat.lt_of_le_of_ne hk fun hk => hfull ⟨htype, hk⟩
      have hforward := hadvances _ _ hvisited hp hstep
      refine Or.inl fun hzero => ?_
      rw [hzero] at hforward
      exact absurd hforward (Nat.lt_irrefl p)
  · intro h β bus root paging b
    have hentry : ∀ at_, Visited bus (fun _ => offset) root image ⟨new, paging, b⟩ at_ →
        at_.1 < MADT.length image → _ := fun at_ hvisited hp =>
      have ⟨hstart, hnum⟩ := entryStart_of_visited rfl hvisited
      h _ _ hstart hp hnum
    have hadvances : ∀ at_ next, Visited bus (fun _ => offset) root image ⟨new, paging, b⟩ at_ →
        at_.1 < MADT.length image → entryStep bus (fun _ => offset) root image at_ = .ok next → at_.1 < next.1 :=
      fun at_ next hvisited hp => entryStep_advances (hentry at_ hvisited hp).2
    refine ⟨fun at_ hvisited hp => (hentry at_ hvisited hp).1, hadvances, MADT.length image + 1, ?_⟩
    apply WhileLoop.run_isSome fun at_ : Nat × ApicState β => MADT.length image - at_.1
    · intro at_ next hvisited htest hstep
      have hp := entryTest_iff.mp htest
      have hforward := hadvances at_ next hvisited hp hstep
      omega
    · omega

/-- A table of 46 bytes whose one entry, for a local APIC, has length zero. -/
def zeroLengthTable : Nat → Byte := fun i => if i = 4 then 46#8 else 0#8

/-- The loop stays at the entry for ever. -/
theorem zero_length_entry_never_ends : 44 ≤ MADT.length zeroLengthTable ∧
    (∀ fuel, WhileLoop.run (entryTest zeroLengthTable) (entryStep quietBus (fun _ => 0) 0x1000 zeroLengthTable) fuel
      (MADT.apicStructuresOffset, ⟨new, sixFrames, ()⟩) = none) ∧
    ¬ ParsesInside quietBus (fun _ => 0) 0x1000 zeroLengthTable ⟨new, sixFrames, ()⟩ := by
  have hloop : ∀ fuel, WhileLoop.run (entryTest zeroLengthTable)
      (entryStep quietBus (fun _ => 0) 0x1000 zeroLengthTable) fuel
      (MADT.apicStructuresOffset, ⟨new, sixFrames, ()⟩) = none :=
    WhileLoop.run_stuck (entryTest_iff.mpr (by decide)) (entryStep_other (by decide))
  refine ⟨by decide, hloop, fun h => ?_⟩
  obtain ⟨fuel, hends⟩ := h.ends
  rw [hloop] at hends
  cases hends

end APICManager

end DavOS
