import DavOS.PrintfFormat

/-! What the number conversions of `vprintf` print. Digits are pushed in front of
each other into an array of 128 characters; the loop that does it is not entered for
a number below zero, so `%d` prints nothing at all for it. -/
namespace DavOS
open NumberText

namespace NumberBuffer

variable {b : NumberBuffer} {c : Byte}

theorem text_push (h : b.start ≤ 127) : (b.push c).text = c :: b.text := by
  have hlength : (128 - (b.start - 1 + 1)).toNat = (128 - (b.start + 1)).toNat + 1 := by omega
  unfold text push store
  dsimp only
  rw [hlength, List.range_succ_eq_map, List.map_cons, List.map_map]
  congr 1
  · rw [Int.sub_add_cancel, Int.natCast_zero, Int.add_zero, Function.update_self]
  · apply List.map_congr_left
    intro i _
    have hindex : b.start - 1 + 1 + ((Nat.succ i : Nat) : Int) = b.start + 1 + i := by omega
    rw [Function.comp_apply, hindex]
    exact Function.update_of_ne (by omega) _ _

@[simp] theorem push_start (b : NumberBuffer) (c : Byte) : (b.push c).start = b.start - 1 := rfl

@[simp] theorem push_stored (b : NumberBuffer) (c : Byte) : (b.push c).stored = b.stored ++ [b.start] := rfl

/-- What a conversion makes of a buffer: a text in front of what is there, with one
store for each of its characters. -/
structure Extends (b r : NumberBuffer) (text : List Byte) : Prop where
  text_eq : r.text = text ++ b.text
  start_eq : r.start = b.start - text.length
  stored : ∀ i ∈ r.stored, i ∈ b.stored ∨ (r.start < i ∧ i ≤ b.start)

theorem extends_push (h : b.start ≤ 127) : b.Extends (b.push c) [c] := by
  refine ⟨text_push h, rfl, ?_⟩
  intro i hi
  rw [push_stored, List.mem_append, List.mem_singleton] at hi
  rcases hi with hi | rfl
  · exact Or.inl hi
  · exact Or.inr ⟨by simp, Int.le_refl _⟩

theorem Extends.trans {r t : NumberBuffer} {xs ys : List Byte} (h : b.Extends r xs) (h' : r.Extends t ys) :
    b.Extends t (ys ++ xs) := by
  have hr := h.start_eq
  have ht := h'.start_eq
  refine ⟨?_, ?_, ?_⟩
  · rw [h'.text_eq, h.text_eq, List.append_assoc]
  · rw [List.length_append]
    omega
  · intro i hi
    rcases h'.stored i hi with hi | hi
    · rcases h.stored i hi with hi | hi
      · exact Or.inl hi
      · exact Or.inr ⟨by omega, by omega⟩
    · exact Or.inr ⟨by omega, by omega⟩

theorem Extends.inBounds {r : NumberBuffer} {text : List Byte} (h : b.Extends r text) (hstart : b.start = 127)
    (hstored : ∀ i ∈ b.stored, i = 127) (hlength : text.length ≤ 128) : r.InBounds := by
  have hr := h.start_eq
  refine ⟨?_, by omega⟩
  intro i hi
  rcases h.stored i hi with hi | hi
  · rw [hstored i hi]
    decide
  · omega

end NumberBuffer

open NumberBuffer

section

variable {base : Nat} {digit : Nat → Byte}

theorem digitLoop_of_pos (hbase : 1 < base) {num : Int} (h : 0 < num) (b : NumberBuffer) :
    digitLoop base hbase digit num b = digitLoop base hbase digit (num / base) (b.push (digit (num % base).toNat)) := by
  rw [digitLoop, if_pos h]

theorem digitLoop_of_nonpos (hbase : 1 < base) {num : Int} (h : ¬ 0 < num) (b : NumberBuffer) :
    digitLoop base hbase digit num b = b := by
  rw [digitLoop, if_neg h]

/-- The loop prints the digits of a positive number, by induction on the number:
a round pushes the last digit and goes on with the others. -/
theorem digitLoop_extends (hbase : 1 < base) (hdigit : ∀ d < base, digit d = byteOf d.digitChar) (n : Nat) (hn : 0 < n)
    {b : NumberBuffer} (hb : b.start ≤ 127) : b.Extends (digitLoop base hbase digit n b) (digits base n) := by
  induction n using Nat.strong_induction_on generalizing b with
  | _ n ih =>
      have hmod : ((n : Int) % base).toNat = n % base := by omega
      have hdiv : (n : Int) / base = ((n / base : Nat) : Int) := by omega
      have hlast := hdigit (n % base) (Nat.mod_lt n (by omega))
      rw [digitLoop_of_pos hbase (by omega), hmod, hdiv, hlast]
      have hpush : b.Extends (b.push (byteOf (n % base).digitChar)) [byteOf (n % base).digitChar] := extends_push hb
      rcases Nat.lt_or_ge n base with hlt | hge
      · rw [Nat.div_eq_of_lt hlt, digitLoop_of_nonpos hbase (by simp), digits_of_lt hlt]
        rw [Nat.mod_eq_of_lt hlt] at hpush ⊢
        exact hpush
      · have hquot : 0 < n / base := Nat.div_pos hge (by omega)
        rw [digits_of_le hbase hge]
        exact hpush.trans (ih (n / base) (Nat.div_lt_self hn hbase) hquot (by rw [push_start]; omega))

end

theorem decimalDigit_eq : ∀ d < 10, decimalDigit d = byteOf d.digitChar := by
  decide

theorem hexDigit_eq : ∀ d < 16, hexDigit d = byteOf d.digitChar := by
  decide

theorem convertDecimal_of_nonneg {num : BitVec 32} (h : 0 ≤ num.toInt) :
    (convertDecimal num).text = digits 10 num.toInt.natAbs ∧ (convertDecimal num).InBounds := by
  have hlt : num.toInt < 2 ^ 31 := BitVec.toInt_lt
  have hlength : (digits 10 num.toInt.natAbs).length ≤ 128 := by
    refine Nat.le_trans (digits_length_le (k := 10) (by decide) (by decide) ?_) (by decide)
    omega
  have hextends : NumberBuffer.Extends {} (convertDecimal num) (digits 10 num.toInt.natAbs) := by
    unfold convertDecimal
    dsimp only
    by_cases hzero : num.toInt = 0
    · rw [if_pos hzero, hzero]
      exact extends_push (Int.le_refl 127)
    · rw [if_neg hzero]
      have hloop := digitLoop_extends (by decide) decimalDigit_eq num.toInt.natAbs (by omega) (b := {}) (Int.le_refl 127)
      rwa [Int.natAbs_of_nonneg h] at hloop
  refine ⟨?_, hextends.inBounds rfl (fun i hi => by cases hi) hlength⟩
  rw [hextends.text_eq]
  exact List.append_nil _

theorem convertDecimal_of_neg {num : BitVec 32} (h : num.toInt < 0) :
    (convertDecimal num).text = [] ∧ (convertDecimal num).InBounds := by
  have hloop : convertDecimal num = {} := by
    unfold convertDecimal
    dsimp only
    rw [if_neg (by omega), digitLoop_of_nonpos (by decide) (by omega)]
  rw [hloop]
  exact ⟨rfl, fun i hi => (List.not_mem_nil hi).elim, by decide⟩

theorem convertHex_text (num : BitVec 64) :
    (convertHex num).text = digits 16 num.toNat ∧ (convertHex num).InBounds := by
  have hlength : (digits 16 num.toNat).length ≤ 128 := by
    refine Nat.le_trans (digits_length_le (k := 16) (by decide) (by decide) ?_) (by decide)
    exact num.isLt
  have hextends : (NumberBuffer.store {} 127).Extends (convertHex num) (digits 16 num.toNat) := by
    unfold convertHex
    dsimp only
    by_cases hzero : num.toNat = 0
    · rw [if_pos hzero, hzero]
      exact extends_push (Int.le_refl 127)
    · rw [if_neg hzero]
      exact digitLoop_extends (by decide) hexDigit_eq num.toNat (Nat.pos_of_ne_zero hzero) (Int.le_refl 127)
  refine ⟨?_, hextends.inBounds rfl (fun i hi => List.mem_singleton.mp hi) hlength⟩
  -- the character that is set first is not printed: the digits start where it is
  rw [hextends.text_eq]
  exact List.append_nil _

/-! ### What `vprintf` emits for one number -/

/-- A call of `vprintf` returns and emits the text. -/
def Emits (fmt : Nat → Byte) (args : List PrintArg) (out : List Byte) : Prop :=
  ∃ result t, (∃ enough, ∀ fuel, enough ≤ fuel → vprintf fuel fmt args = some (result, t)) ∧ t.emitted = out

theorem Emits.unique {fmt : Nat → Byte} {args : List PrintArg} {out out' : List Byte} (h : Emits fmt args out)
    (h' : Emits fmt args out') : out = out' := by
  obtain ⟨result, t, ⟨enough, hfuel⟩, rfl⟩ := h
  obtain ⟨result', t', ⟨enough', hfuel'⟩, rfl⟩ := h'
  have hsame := (hfuel (max enough enough') (Nat.le_max_left _ _)).symm.trans
    (hfuel' (max enough enough') (Nat.le_max_right _ _))
  rw [Option.some.injEq, Prod.mk.injEq] at hsame
  rw [hsame.2]

theorem emits_directive {c : Char} {k : Conversion} {arg : PrintArg} {data : List Byte}
    (hfmt : HoldsText (cLiteral ['%', c]) 0 [percent, byteOf c])
    (hpieces : parseFormat [percent, byteOf c] = [.conversion k]) (hdata : Converts k arg data) :
    Emits (cLiteral ['%', c]) [arg] data := by
  have hout : Renders (parseFormat [percent, byteOf c]) [arg] (data ++ []) := by
    rw [hpieces]
    exact .conversion hdata .nil
  obtain ⟨result, t, hprinted⟩ := vprintf_printed [] hfmt hout
  exact ⟨result, t, hprinted.returns, by rw [hprinted.emitted, List.append_nil]⟩

theorem emits_decimal (n : BitVec 32) : Emits (cLiteral ['%', 'd']) [.int n] (convertDecimal n).text :=
  emits_directive ⟨rfl, by decide, rfl, by decide, rfl⟩ (by decide) (.decimal n)

theorem emits_hex (m : BitVec 64) : ∀ c ∈ ['x', 'p'], Emits (cLiteral ['%', c]) [.word m] (convertHex m).text := by
  intro c hc
  rcases List.mem_cons.mp hc with rfl | hc
  · exact emits_directive ⟨rfl, by decide, rfl, by decide, rfl⟩ (by decide) (.hex m)
  · rw [List.mem_singleton.mp hc]
    exact emits_directive ⟨rfl, by decide, rfl, by decide, rfl⟩ (by decide) (.hex m)

/-- The number conversions are faithful at `n` and `m`: `%d` emits the decimal text of
`n`, `%x` and `%p` the hexadecimal text of `m`, without zeros in front; reading the
text gives the number, and the buffer is not left. -/
structure NumbersFaithful (n : BitVec 32) (m : BitVec 64) : Prop where
  decimal : Emits (cLiteral ['%', 'd']) [.int n] (decimal n.toInt)
  decimal_digits : NoLeadingZero (digits 10 n.toInt.natAbs)
  decimal_read : ∀ text, Emits (cLiteral ['%', 'd']) [.int n] text → parseDecimal text = some n.toInt
  decimal_bounds : (convertDecimal n).InBounds
  hex : ∀ c ∈ ['x', 'p'], Emits (cLiteral ['%', c]) [.word m] (digits 16 m.toNat)
  hex_digits : NoLeadingZero (digits 16 m.toNat)
  hex_read : ∀ c ∈ ['x', 'p'], ∀ text, Emits (cLiteral ['%', c]) [.word m] text → parse 16 text = some m.toNat
  hex_bounds : (convertHex m).InBounds

/-- The conversions are faithful for every 64-bit number and exactly the integers that
are not negative. -/
theorem numbers_faithful_iff (n : BitVec 32) (m : BitVec 64) : NumbersFaithful n m ↔ 0 ≤ n.toInt := by
  constructor
  · intro h
    by_contra hneg
    have hnothing := emits_decimal n
    rw [(convertDecimal_of_neg (Int.not_le.mp hneg)).1] at hnothing
    have htext := h.decimal.unique hnothing
    rw [NumberText.decimal, if_pos (Int.not_le.mp hneg)] at htext
    cases htext
  · intro h
    obtain ⟨hdecimal, hdecimalBounds⟩ := convertDecimal_of_nonneg h
    obtain ⟨hhex, hhexBounds⟩ := convertHex_text m
    have hemits := emits_decimal n
    rw [hdecimal] at hemits
    have hemits' := emits_hex m
    rw [hhex] at hemits'
    refine ⟨?_, digits_noLeadingZero (by decide) (by decide) _, ?_, hdecimalBounds, hemits',
      digits_noLeadingZero (by decide) (by decide) _, ?_, hhexBounds⟩
    · rw [NumberText.decimal, if_neg (Int.not_lt.mpr h)]
      exact hemits
    · intro text htext
      rw [htext.unique hemits, parseDecimal_natural, Int.natAbs_of_nonneg h]
    · intro c hc text htext
      rw [htext.unique (hemits' c hc)]
      exact parse_digits (by decide) (by decide) _

/-- `%d` prints nothing for -5. -/
theorem negative_number_not_printed : Emits (cLiteral ['%', 'd']) [.int (-5)] [] ∧
    decimal ((-5 : BitVec 32).toInt) = [byteOf '-', byteOf '5'] ∧ ¬ NumbersFaithful (-5) 0 := by
  have hnothing := emits_decimal (-5)
  rw [(convertDecimal_of_neg (by decide)).1] at hnothing
  refine ⟨hnothing, by decide, fun h => ?_⟩
  have htext := h.decimal.unique hnothing
  revert htext
  decide

end DavOS
