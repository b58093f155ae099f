import DavOS.PageTreeNode

/-! The entry format: what the accessors of `PageTreeNode` read back from an
entry that holds an address and flags, next to what the IA-32e format says. -/
namespace DavOS
open MachineWord

/-- The entry that stores address `a` with `flags` and the present bit. -/
def entryWord (a : Nat) (flags : PageFlags) : BitVec 64 :=
  BitVec.ofNat 64 a ||| (flags ||| PageFlags.present)

namespace Ia32e

/-- Bits 12 to 51 of an entry: the physical address field of the IA-32e format. -/
def addressMask : BitVec 64 := 0x000ffffffffff000#64

def addressField (entry : BitVec 64) : Nat := (entry &&& addressMask).toNat

/-- Everything of an entry but its address field. -/
def flagField (entry : BitVec 64) : PageFlags := entry &&& ~~~addressMask

def isPresent (entry : BitVec 64) : Bool := entry.getLsbD 0

end Ia32e

theorem addressMask_bit (i : Nat) :
    Ia32e.addressMask.getLsbD i = decide (12 ≤ i ∧ i < 52) := by
  by_cases hi : i < 64
  · exact (by decide : ∀ i : Fin 64, Ia32e.addressMask.getLsbD i =
      decide (12 ≤ i.val ∧ i.val < 52)) ⟨i, hi⟩
  · rw [BitVec.getLsbD_of_ge _ _ (by omega)]
    simp only [Bool.false_eq, decide_eq_false_iff_not]
    omega

theorem lowByte_bit (i : Nat) : (0xff#64).getLsbD i = decide (i < 8) := by
  by_cases hi : i < 64
  · exact (by decide : ∀ i : Fin 64, (0xff#64).getLsbD i = decide (i.val < 8)) ⟨i, hi⟩
  · rw [BitVec.getLsbD_of_ge _ _ (by omega)]
    simp only [Bool.false_eq, decide_eq_false_iff_not]
    omega

theorem aligned_bit {a i : Nat} (ha : a % 4096 = 0) (hi : i < 12) : a.testBit i = false := by
  have h : (a % 2 ^ 12).testBit i = a.testBit i := by
    simp only [Nat.testBit_mod_two_pow, hi, decide_true, Bool.true_and]
  rw [← h, show a % 2 ^ 12 = 0 from ha, Nat.zero_testBit]

theorem testBit_aligned {a i : Nat} (ha : a % 4096 = 0) (h : a.testBit i = true) : 12 ≤ i := by
  by_contra hi
  rw [aligned_bit ha (by omega)] at h
  cases h

theorem testBit_below {a w i : Nat} (ha : a < 2 ^ w) (h : a.testBit i = true) : i < w := by
  by_contra hi
  have hle : 2 ^ w ≤ 2 ^ i := Nat.pow_le_pow_right (by decide) (by omega)
  rw [Nat.testBit_lt_two_pow (lt_of_lt_of_le ha hle)] at h
  cases h

theorem entryWord_bit (a : Nat) (flags : PageFlags) {i : Nat} (hi : i < 64) :
    (entryWord a flags).getLsbD i = (a.testBit i || (flags.getLsbD i || decide (i = 0))) := by
  simp only [entryWord, BitVec.getLsbD_or, BitVec.getLsbD_ofNat, present_bit, hi, decide_true,
    Bool.true_and]

theorem entryWord_address_bit (a : Nat) (flags : FlagSet) {i : Nat} (hlow : 12 ≤ i) (hhigh : i < 52) :
    (entryWord a flags.bits).getLsbD i = a.testBit i := by
  have hflag := flags.bit_clear (show 5 ≤ i by omega) (show i ≠ 63 by omega)
  have h0 : ¬ i = 0 := by omega
  simp [entryWord_bit a flags.bits (i := i) (by omega), hflag, h0]

theorem entryWord_isPresent (a : Nat) (flags : PageFlags) :
    Ia32e.isPresent (entryWord a flags) = true := by
  simp [Ia32e.isPresent, entryWord_bit a flags (i := 0) (by decide)]

theorem entryWord_ne_zero (a : Nat) (flags : PageFlags) : entryWord a flags ≠ 0#64 := by
  intro h
  have hp := entryWord_isPresent a flags
  rw [h] at hp
  exact absurd hp (by decide)

/-- The getter keeps only address bits 12 to 31. -/
theorem entryWord_childAddress {a : Nat} (ha : a % 4096 = 0) (flags : FlagSet) :
    (entryWord a flags.bits &&& PageTreeNode.childAddressMask).toNat = a % 2 ^ 32 := by
  apply Nat.eq_of_testBit_eq
  intro i
  rw [BitVec.testBit_toNat, BitVec.getLsbD_and, childAddressMask_bit, Nat.testBit_mod_two_pow]
  by_cases hi : 12 ≤ i ∧ i < 32
  · simp [entryWord_address_bit a flags hi.1 (by omega), hi]
  · simp only [hi, decide_false, Bool.and_false]
    cases hb : a.testBit i with
    | false => simp
    | true =>
        have := testBit_aligned ha hb
        simp only [Bool.and_true, Bool.false_eq, decide_eq_false_iff_not]
        omega

theorem entryWord_addressField {a : Nat} (ha : a % 4096 = 0) (hlt : a < 2 ^ 52) (flags : FlagSet) :
    Ia32e.addressField (entryWord a flags.bits) = a := by
  apply Nat.eq_of_testBit_eq
  intro i
  rw [Ia32e.addressField, BitVec.testBit_toNat, BitVec.getLsbD_and, addressMask_bit]
  by_cases hi : 12 ≤ i ∧ i < 52
  · simp [entryWord_address_bit a flags hi.1 hi.2, hi]
  · simp only [hi, decide_false, Bool.and_false]
    cases hb : a.testBit i with
    | false => rfl
    | true => exact absurd ⟨testBit_aligned ha hb, testBit_below hlt hb⟩ hi

theorem entryWord_flagField {a : Nat} (ha : a % 4096 = 0) (hlt : a < 2 ^ 52) (flags : FlagSet) :
    Ia32e.flagField (entryWord a flags.bits) = flags.bits ||| PageFlags.present := by
  apply BitVec.eq_of_getLsbD_eq
  intro i hi
  simp only [Ia32e.flagField, BitVec.getLsbD_and, BitVec.getLsbD_not, BitVec.getLsbD_or,
    addressMask_bit, present_bit, entryWord_bit a flags.bits hi, hi, decide_true, Bool.true_and]
  by_cases hm : 12 ≤ i ∧ i < 52
  · have hflag := flags.bit_clear (show 5 ≤ i by omega) (show i ≠ 63 by omega)
    have h0 : ¬ i = 0 := by omega
    simp [hm, hflag, h0]
  · have hbit : a.testBit i = false := by
      cases hb : a.testBit i with
      | false => rfl
      | true => exact absurd ⟨testBit_aligned ha hb, testBit_below hlt hb⟩ hm
    simp [hm, hbit]

/-- The flag getter sees the lowest byte only: the execute-disable bit is lost. -/
theorem entryWord_lowByte {a : Nat} (ha : a % 4096 = 0) (flags : FlagSet) :
    entryWord a flags.bits &&& 0xff#64 =
      (flags.bits &&& ~~~PageFlags.executeDisable) ||| PageFlags.present := by
  apply BitVec.eq_of_getLsbD_eq
  intro i hi
  simp only [BitVec.getLsbD_and, BitVec.getLsbD_not, BitVec.getLsbD_or, lowByte_bit, present_bit,
    executeDisable_bit, entryWord_bit a flags.bits hi, hi, decide_true, Bool.true_and]
  by_cases hlow : i < 8
  · have h63 : ¬ i = 63 := by omega
    simp [hlow, h63, aligned_bit ha (show i < 12 by omega)]
  · have h0 : ¬ i = 0 := by omega
    cases hf : flags.bits.getLsbD i with
    | false => simp [hlow, h0]
    | true =>
        have h63 : i = 63 := by rcases flags.bit hf with h | h <;> omega
        simp [h63]

/-- The flags of an entry that is rewritten by `set_child_flags`: the low byte
is replaced, an execute-disable bit that was there stays. -/
def FlagSet.rewrite (old new : FlagSet) : FlagSet where
  bits := new.bits ||| (old.bits &&& PageFlags.executeDisable)
  combination := by
    have h := new.combination
    apply BitVec.eq_of_getLsbD_eq
    intro i hi
    have hn := congrArg (fun b => BitVec.getLsbD b i) h
    have ho := congrArg (fun b => BitVec.getLsbD b i) old.combination
    simp only [BitVec.getLsbD_and, BitVec.getLsbD_not, BitVec.getLsbD_or, BitVec.getLsbD_zero, hi,
      decide_true, Bool.true_and] at hn ho ⊢
    cases hb : PageFlags.all.getLsbD i with
    | true => simp
    | false =>
        simp only [hb, Bool.not_false, Bool.and_true] at hn ho ⊢
        simp only [hn, ho, Bool.false_and, Bool.or_false]

theorem entryWord_setFlags {a : Nat} (ha : a % 4096 = 0) (old new : FlagSet) :
    (entryWord a old.bits &&& PageTreeNode.clearFlagsMask) ||| (new.bits ||| PageFlags.present) =
      entryWord a (old.rewrite new).bits := by
  apply BitVec.eq_of_getLsbD_eq
  intro i hi
  simp only [FlagSet.rewrite, BitVec.getLsbD_and, BitVec.getLsbD_or, clearFlagsMask_bit, present_bit,
    executeDisable_bit, entryWord_bit _ _ hi]
  by_cases hlow : i < 8
  · have h8 : ¬ (8 ≤ i ∧ i < 64) := by omega
    have h63 : ¬ i = 63 := by omega
    simp [h8, h63, aligned_bit ha (show i < 12 by omega)]
  · have h8 : 8 ≤ i ∧ i < 64 := by omega
    have h0 : ¬ i = 0 := by omega
    have hold : old.bits.getLsbD i = (old.bits.getLsbD i && decide (i = 63)) := by
      cases hf : old.bits.getLsbD i with
      | false => rfl
      | true =>
          have h63 : i = 63 := by rcases old.bit hf with h | h <;> omega
          simp [h63]
    rw [hold]
    cases a.testBit i <;> cases new.bits.getLsbD i <;> cases old.bits.getLsbD i <;> simp [h8, h0]

/-- Storing an address and then flags leaves exactly the entry of both: the
address setter's mask clears the whole old entry. -/
theorem entryWord_of_setters (entry : BitVec 64) {a : Nat} (ha : a % 4096 = 0) (flags : FlagSet) :
    (((entry &&& PageTreeNode.clearAddressMask) ||| BitVec.ofNat 64 a) &&&
      PageTreeNode.clearFlagsMask) ||| (flags.bits ||| PageFlags.present) =
      entryWord a flags.bits := by
  apply BitVec.eq_of_getLsbD_eq
  intro i hi
  simp only [clearAddressMask_eq, BitVec.and_zero, BitVec.zero_or, BitVec.getLsbD_and,
    BitVec.getLsbD_or, BitVec.getLsbD_ofNat, clearFlagsMask_bit, present_bit,
    entryWord_bit _ _ hi, hi, decide_true, Bool.true_and]
  by_cases h8 : 8 ≤ i ∧ i < 64
  · simp [h8]
  · simp [aligned_bit ha (show i < 12 by omega)]

end DavOS
