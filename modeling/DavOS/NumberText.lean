import Mathlib.Data.BitVec
import Mathlib.Data.List.Basic

/-! Numbers as text in a base up to 16, and how the text is read. The digits are
those of `Nat.toDigits`, most significant first; here they are bytes. -/
namespace NumberText

/-- The byte of an ASCII character. -/
def byteOf (c : Char) : BitVec 8 := BitVec.ofNat 8 c.toNat

def digits (base n : Nat) : List (BitVec 8) := (Nat.toDigits base n).map byteOf

/-- The decimal text of an integer. -/
def decimal (n : Int) : List (BitVec 8) := if n < 0 then byteOf '-' :: digits 10 n.natAbs else digits 10 n.natAbs

def digitValue (c : BitVec 8) : Option Nat :=
  if 48 ≤ c.toNat ∧ c.toNat ≤ 57 then some (c.toNat - 48)
  else if 97 ≤ c.toNat ∧ c.toNat ≤ 102 then some (c.toNat - 87)
  else none

def readDigit (base : Nat) (v : Nat) (c : BitVec 8) : Option Nat :=
  (digitValue c).bind fun d => if d < base then some (base * v + d) else none

/-- Read a number: at least one digit, and nothing but digits. -/
def parse (base : Nat) (text : List (BitVec 8)) : Option Nat :=
  if text = [] then none else text.foldlM (readDigit base) 0

def parseDecimal : List (BitVec 8) → Option Int
  | [] => none
  | c :: text => if c = byteOf '-' then (parse 10 text).map fun n => -(n : Int) else (parse 10 (c :: text)).map Int.ofNat

/-- No zero in front, other than in the text of zero itself. -/
def NoLeadingZero (text : List (BitVec 8)) : Prop := text.head? = some (byteOf '0') → text = [byteOf '0']

variable {b n : Nat}

theorem digits_of_lt (h : n < b) : digits b n = [byteOf n.digitChar] := by
  rw [digits, Nat.toDigits_of_lt_base h, List.map_singleton]

theorem digits_of_le (hb : 1 < b) (h : b ≤ n) :
    digits b n = digits b (n / b) ++ [byteOf (n % b).digitChar] := by
  rw [digits, Nat.toDigits_of_base_le hb h, List.map_append, List.map_singleton]
  rfl

theorem digits_ne_nil (b n : Nat) : digits b n ≠ [] := by
  simp [digits]

theorem digits_length_le {k : Nat} (hb : 1 < b) (hk : 0 < k) (h : n < b ^ k) : (digits b n).length ≤ k := by
  rw [digits, List.length_map]
  exact (Nat.length_toDigits_le_iff hb hk).mpr h

theorem digitValue_digitChar : ∀ d < 16, digitValue (byteOf d.digitChar) = some d := by
  decide

theorem byteOf_digitChar_ne_zero : ∀ d < 16, byteOf d.digitChar = byteOf '0' → d = 0 := by
  decide

theorem byteOf_digitChar_ne_minus : ∀ d < 16, byteOf d.digitChar ≠ byteOf '-' := by
  decide

theorem readDigit_digitChar (hb : b ≤ 16) {d : Nat} (hd : d < b) (v : Nat) :
    readDigit b v (byteOf d.digitChar) = some (b * v + d) := by
  rw [readDigit, digitValue_digitChar d (Nat.lt_of_lt_of_le hd hb), Option.bind_some, if_pos hd]

theorem foldlM_digits (hb : 1 < b) (hle : b ≤ 16) (n : Nat) :
    (digits b n).foldlM (readDigit b) 0 = some n := by
  induction n using Nat.strong_induction_on with
  | _ n ih =>
      rcases Nat.lt_or_ge n b with hlt | hge
      · rw [digits_of_lt hlt, List.foldlM_cons, readDigit_digitChar hle hlt]
        simp
      · have hdiv : n / b < n := Nat.div_lt_self (by omega) hb
        have hmod : n % b < b := Nat.mod_lt n (by omega)
        rw [digits_of_le hb hge, List.foldlM_append, ih _ hdiv]
        simp [readDigit_digitChar hle hmod, Nat.div_add_mod]

theorem parse_digits (hb : 1 < b) (hle : b ≤ 16) (n : Nat) : parse b (digits b n) = some n := by
  rw [parse, if_neg (digits_ne_nil b n)]
  exact foldlM_digits hb hle n

theorem digits_head (hb : 1 < b) (hle : b ≤ 16) (n : Nat) :
    ∃ d < b, (digits b n).head? = some (byteOf d.digitChar) ∧ (d = 0 → n = 0) := by
  induction n using Nat.strong_induction_on with
  | _ n ih =>
      rcases Nat.lt_or_ge n b with hlt | hge
      · exact ⟨n, hlt, by rw [digits_of_lt hlt]; rfl, id⟩
      · have hdiv : n / b < n := Nat.div_lt_self (by omega) hb
        obtain ⟨d, hd, hhead, hzero⟩ := ih _ hdiv
        refine ⟨d, hd, ?_, ?_⟩
        · rw [digits_of_le hb hge, List.head?_append_of_ne_nil _ (digits_ne_nil _ _), hhead]
        · intro h
          have hquot : 0 < n / b := Nat.div_pos hge (by omega)
          exact absurd (hzero h) (Nat.ne_of_gt hquot)

theorem digits_noLeadingZero (hb : 1 < b) (hle : b ≤ 16) (n : Nat) : NoLeadingZero (digits b n) := by
  obtain ⟨d, hd, hhead, hzero⟩ := digits_head hb hle n
  intro h
  rw [hhead, Option.some.injEq] at h
  rw [hzero (byteOf_digitChar_ne_zero d (by omega) h)]
  exact digits_of_lt (by omega)

theorem parseDecimal_natural (n : Nat) : parseDecimal (digits 10 n) = some (n : Int) := by
  obtain ⟨d, hd, hhead, _⟩ := digits_head (b := 10) (by decide) (by decide) n
  have hparse := parse_digits (b := 10) (by decide) (by decide) n
  cases htext : digits 10 n with
  | nil => exact absurd htext (digits_ne_nil 10 n)
  | cons c text =>
      rw [htext] at hhead hparse
      have hsign : c ≠ byteOf '-' := by
        rw [Option.some.inj hhead]
        exact byteOf_digitChar_ne_minus d (by omega)
      rw [parseDecimal, if_neg hsign, hparse]
      rfl

end NumberText
