import DavOS.CString
import Mathlib.Data.List.Range
import Mathlib.Order.Compare

/-! `kpp::strncmp` against the function of the C standard that it is named after.
The standard compares unsigned characters and ends at the terminators; the loop
compares `char`s, which are signed, and ends at the first difference only. -/
namespace DavOS

/-- The indices that the loop reads, of both strings, with `n` characters left. -/
def strncmpReadsFrom (a b : Nat → Byte) (i : Nat) : Nat → List Nat
  | 0 => []
  | n + 1 => i :: if a i ≠ b i then [] else strncmpReadsFrom a b (i + 1) n

def strncmpReads (a b : Nat → Byte) (size : Nat) : List Nat := strncmpReadsFrom a b 0 size

/-- A string of the given length: its first NUL is the terminator. What follows is any memory. -/
structure Terminated (s : Nat → Byte) (length : Nat) : Prop where
  nul : s length = 0
  text : ∀ k < length, s k ≠ 0

/-- The characters that the standard lets `strncmp` compare, as unsigned bytes. -/
def compared (s : Nat → Byte) (length size : Nat) : List Nat :=
  (List.range (min size (length + 1))).map fun i => (s i).toNat

/-- The result has the sign of the lexicographic comparison, and nothing behind a
NUL that both strings have in the same place is read. -/
structure MeetsStandard (a b : Nat → Byte) (la lb size : Nat) : Prop where
  sign : compare (strncmp a b size) 0 = List.compareLex compare (compared a la size) (compared b lb size)
  reads : ∀ k ∈ strncmpReads a b size, ∀ j < k, ¬ (a j = 0 ∧ b j = 0)

/-- The two strings are one and the same text. -/
def SameText (a b : Nat → Byte) (la lb : Nat) : Prop := la = lb ∧ ∀ k < la, a k = b k

/-- The strings first differ in place `d`. -/
structure FirstDifference (a b : Nat → Byte) (d : Nat) : Prop where
  same : ∀ k < d, a k = b k
  differs : a d ≠ b d

/-- Equal strings are not compared beyond their terminator, and the characters
that decide lie in the same half of the character set. -/
structure Comparable (a b : Nat → Byte) (la lb size : Nat) : Prop where
  within : SameText a b la lb → size ≤ la + 1
  sameHalf : ∀ d < size, FirstDifference a b d → (a d).msb = (b d).msb

section

variable {a b a' b' : Nat → Byte} {la lb size i d n : Nat}

/-! ### What the loop computes and reads -/

theorem exists_firstDifference (h : ¬ ∀ j < size, a j = b j) : ∃ d < size, FirstDifference a b d := by
  classical
  have hsome : ∃ j, j < size ∧ a j ≠ b j := by
    by_contra hnone
    exact h fun j hj => Classical.not_not.mp fun hne => hnone ⟨j, hj, hne⟩
  obtain ⟨hlt, hne⟩ := Nat.find_spec hsome
  refine ⟨Nat.find hsome, hlt, ?_, hne⟩
  intro k hk
  exact Classical.not_not.mp fun hkne => Nat.find_min hsome hk ⟨Nat.lt_trans hk hlt, hkne⟩

theorem FirstDifference.unique (h : FirstDifference a b d) (h' : FirstDifference a b n) : d = n := by
  rcases Nat.lt_trichotomy d n with hlt | heq | hgt
  · exact absurd (h'.same d hlt) h.differs
  · exact heq
  · exact absurd (h.same n hgt) h'.differs

theorem strncmpFrom_skip (hsame : ∀ k < d, a (i + k) = b (i + k)) :
    strncmpFrom a b i (d + n) = strncmpFrom a b (i + d) n ∧
    strncmpReadsFrom a b i (d + n) = List.range' i d ++ strncmpReadsFrom a b (i + d) n := by
  induction d generalizing i with
  | zero => simp
  | succ d ih =>
      have hfirst : a i = b i := hsame 0 (Nat.succ_pos d)
      obtain ⟨hvalue, hreads⟩ := ih (i := i + 1) fun k hk => by
        rw [Nat.add_assoc, Nat.add_comm 1]
        exact hsame (k + 1) (Nat.succ_lt_succ hk)
      have hindex : i + 1 + d = i + (d + 1) := by omega
      have hcount : d + 1 + n = d + n + 1 := by omega
      rw [hcount, strncmpFrom, strncmpReadsFrom, if_neg (by simp [hfirst]), if_neg (by simp [hfirst]), hvalue, hreads,
        hindex, List.range'_succ, List.cons_append]
      exact ⟨rfl, rfl⟩

theorem strncmp_same (h : ∀ j < size, a j = b j) :
    strncmp a b size = 0 ∧ strncmpReads a b size = List.range size := by
  obtain ⟨hvalue, hreads⟩ := strncmpFrom_skip (i := 0) (n := 0) fun k hk => by simpa using h k hk
  rw [List.range_eq_range']
  simpa [strncmp, strncmpReads, strncmpFrom, strncmpReadsFrom] using And.intro hvalue hreads

theorem strncmp_differs (h : FirstDifference a b d) (hd : d < size) :
    strncmp a b size = (a d).toInt - (b d).toInt ∧ strncmpReads a b size = List.range (d + 1) := by
  obtain ⟨n, rfl⟩ : ∃ n, size = d + (n + 1) := ⟨size - d - 1, by omega⟩
  obtain ⟨hvalue, hreads⟩ := strncmpFrom_skip (i := 0) (n := n + 1) fun k hk => by simpa using h.same k hk
  rw [strncmpFrom, if_pos (by simpa using h.differs)] at hvalue
  rw [strncmpReadsFrom, if_pos (by simpa using h.differs)] at hreads
  rw [List.range_succ, List.range_eq_range']
  simpa [strncmp, strncmpReads] using And.intro hvalue hreads

theorem mem_strncmpReads {k : Nat} : k ∈ strncmpReads a b size ↔ k < size ∧ ∀ j < k, a j = b j := by
  by_cases hall : ∀ j < size, a j = b j
  · rw [(strncmp_same hall).2, List.mem_range]
    exact ⟨fun hk => ⟨hk, fun j hj => hall j (Nat.lt_trans hj hk)⟩, fun h => h.1⟩
  · obtain ⟨d, hd, hdiff⟩ := exists_firstDifference hall
    rw [(strncmp_differs hdiff hd).2, List.mem_range]
    constructor
    · intro hk
      exact ⟨by omega, fun j hj => hdiff.same j (by omega)⟩
    · intro h
      by_contra hpast
      exact hdiff.differs (h.2 d (by omega))

theorem strncmpFrom_congr (ha : ∀ k ∈ strncmpReadsFrom a b i n, a' k = a k)
    (hb : ∀ k ∈ strncmpReadsFrom a b i n, b' k = b k) :
    strncmpFrom a' b' i n = strncmpFrom a b i n ∧ strncmpReadsFrom a' b' i n = strncmpReadsFrom a b i n := by
  induction n generalizing i with
  | zero => exact ⟨rfl, rfl⟩
  | succ n ih =>
      rw [strncmpReadsFrom] at ha hb
      have hai := ha i List.mem_cons_self
      have hbi := hb i List.mem_cons_self
      rw [strncmpFrom, strncmpReadsFrom, strncmpFrom, strncmpReadsFrom, hai, hbi]
      by_cases hsame : a i = b i
      · rw [if_neg (by simp [hsame])] at ha hb
        obtain ⟨hvalue, hreads⟩ := ih (fun k hk => ha k (List.mem_cons_of_mem i hk))
          fun k hk => hb k (List.mem_cons_of_mem i hk)
        rw [hvalue, hreads]
        exact ⟨rfl, rfl⟩
      · rw [if_pos hsame, if_pos hsame, if_pos hsame, if_pos hsame]
        exact ⟨rfl, rfl⟩

/-! ### The lexicographic comparison -/

theorem compareLex_append {α : Type*} [LinearOrder α] (xs ys zs : List α) {x y : α} (h : x ≠ y) :
    List.compareLex compare (xs ++ x :: ys) (xs ++ y :: zs) = compare x y := by
  induction xs with
  | nil =>
      rw [List.nil_append, List.nil_append, List.compareLex_cons_cons]
      cases hxy : compare x y with
      | lt => rfl
      | gt => rfl
      | eq => exact absurd (compare_eq_iff_eq.mp hxy) h
  | cons z xs ih =>
      rw [List.cons_append, List.cons_append, List.compareLex_cons_cons, ih, compare_eq_iff_eq.mpr rfl]
      rfl

theorem compared_congr (h : ∀ j < size, a j = b j) (hla : size ≤ la + 1) (hlb : size ≤ lb + 1) :
    compared a la size = compared b lb size := by
  unfold compared
  rw [Nat.min_eq_left hla, Nat.min_eq_left hlb]
  apply List.map_congr_left
  intro j hj
  rw [h j (List.mem_range.mp hj)]

theorem compared_split (hd : d < size) (hla : d ≤ la) : ∃ rest,
    compared a la size = (List.range d).map (fun i => (a i).toNat) ++ (a d).toNat :: rest := by
  obtain ⟨n, hn⟩ : ∃ n, min size (la + 1) = d + 1 + n := ⟨min size (la + 1) - (d + 1), by omega⟩
  unfold compared
  rw [hn, List.range_add, List.range_succ, List.map_append, List.map_append, List.append_assoc]
  exact ⟨_, rfl⟩

theorem compareLex_compared (h : FirstDifference a b d) (hd : d < size) (hla : d ≤ la) (hlb : d ≤ lb) :
    List.compareLex compare (compared a la size) (compared b lb size) = compare (a d).toNat (b d).toNat := by
  obtain ⟨restA, hA⟩ := compared_split (a := a) hd hla
  obtain ⟨restB, hB⟩ := compared_split (a := b) hd hlb
  have hbefore : (List.range d).map (fun i => (a i).toNat) = (List.range d).map fun i => (b i).toNat := by
    apply List.map_congr_left
    intro j hj
    rw [h.same j (List.mem_range.mp hj)]
  rw [hA, hB, hbefore]
  exact compareLex_append _ _ _ fun heq => h.differs (BitVec.eq_of_toNat_eq heq)

/-- Signed and unsigned comparison of two different characters agree within a half. -/
theorem compare_signed_iff {x y : Byte} (h : x ≠ y) :
    compare (x.toInt - y.toInt) 0 = compare x.toNat y.toNat ↔ x.msb = y.msb := by
  have hne : x.toNat ≠ y.toNat := fun heq => h (BitVec.eq_of_toNat_eq heq)
  have hx := BitVec.toInt_eq_toNat_cond x
  have hy := BitVec.toInt_eq_toNat_cond y
  rw [BitVec.msb_eq_decide, BitVec.msb_eq_decide, decide_eq_decide]
  rcases Nat.lt_or_gt_of_ne hne with hlt | hgt
  · rw [compare_lt_iff_lt.mpr hlt, compare_lt_iff_lt]
    split at hx <;> split at hy <;> omega
  · rw [compare_gt_iff_gt.mpr hgt, compare_gt_iff_gt]
    split at hx <;> split at hy <;> omega

/-! ### Exactly when the standard is met -/

theorem sameText_of_agree (ha : Terminated a la) (hb : Terminated b lb) (h : ∀ k ≤ la, a k = b k) :
    SameText a b la lb := by
  have hle : lb ≤ la := by
    by_contra hlt
    exact hb.text la (Nat.lt_of_not_le hlt) (by rw [← h la (Nat.le_refl la), ha.nul])
  have hge : la ≤ lb := by
    by_contra hlt
    exact ha.text lb (Nat.lt_of_not_le hlt) (by rw [h lb hle, hb.nul])
  exact ⟨Nat.le_antisymm hge hle, fun k hk => h k (Nat.le_of_lt hk)⟩

theorem SameText.symm (h : SameText a b la lb) : SameText b a lb la :=
  ⟨h.1.symm, fun k hk => (h.2 k (by rw [h.1]; exact hk)).symm⟩

theorem le_lengths_of_agree (ha : Terminated a la) (hb : Terminated b lb) (hne : ¬ SameText a b la lb)
    (h : ∀ k < n, a k = b k) : n ≤ la ∧ n ≤ lb := by
  constructor
  · by_contra hlt
    exact hne (sameText_of_agree ha hb fun k hk => h k (by omega))
  · by_contra hlt
    exact hne (sameText_of_agree hb ha fun k hk => (h k (by omega)).symm).symm

theorem SameText.agree (ha : Terminated a la) (hb : Terminated b lb) (h : SameText a b la lb) {k : Nat} (hk : k ≤ la) :
    a k = b k := by
  rcases Nat.lt_or_eq_of_le hk with hlt | rfl
  · exact h.2 k hlt
  · rw [ha.nul, h.1, hb.nul]

theorem no_nul_before_read (ha : Terminated a la) (h : ∀ k ∈ strncmpReads a b size, k ≤ la) :
    ∀ k ∈ strncmpReads a b size, ∀ j < k, ¬ (a j = 0 ∧ b j = 0) := by
  intro k hk j hj hnul
  exact ha.text j (Nat.lt_of_lt_of_le hj (h k hk)) hnul.1

theorem meetsStandard_of_same (ha : Terminated a la) (h : ∀ j < size, a j = b j) (hla : size ≤ la + 1)
    (hlb : size ≤ lb + 1) : MeetsStandard a b la lb size := by
  constructor
  · rw [(strncmp_same h).1, compared_congr h hla hlb]
    exact Std.ReflCmp.compare_self.trans Std.ReflCmp.compare_self.symm
  · apply no_nul_before_read ha
    intro k hk
    have hk' := (mem_strncmpReads.mp hk).1
    omega

theorem meetsStandard_iff_of_differs (ha : Terminated a la) (h : FirstDifference a b d) (hd : d < size) (hla : d ≤ la)
    (hlb : d ≤ lb) : MeetsStandard a b la lb size ↔ (a d).msb = (b d).msb := by
  obtain ⟨hvalue, hreads⟩ := strncmp_differs h hd
  rw [← compare_signed_iff h.differs, ← hvalue, ← compareLex_compared h hd hla hlb]
  refine ⟨fun hmeets => hmeets.sign, fun hsign => ⟨hsign, no_nul_before_read ha ?_⟩⟩
  intro k hk
  rw [hreads, List.mem_range] at hk
  omega

/-- Equal strings: the terminators are no reason to stop. -/
theorem meetsStandard_iff_of_sameText (ha : Terminated a la) (hb : Terminated b lb) (h : SameText a b la lb) :
    MeetsStandard a b la lb size ↔ size ≤ la + 1 := by
  constructor
  · intro hmeets
    by_contra hlong
    have hread : la + 1 ∈ strncmpReads a b size :=
      mem_strncmpReads.mpr ⟨by omega, fun j hj => h.agree ha hb (Nat.le_of_lt_succ hj)⟩
    apply hmeets.reads (la + 1) hread la (Nat.lt_succ_self la)
    exact ⟨ha.nul, by rw [h.1, hb.nul]⟩
  · intro hle
    apply meetsStandard_of_same ha _ hle (by rw [← h.1]; exact hle)
    exact fun j hj => h.agree ha hb (by omega)

end

/-- `strncmp` does what the standard says exactly when it is not asked to compare
equal strings beyond their terminator and the first two characters that differ
lie in the same half of the character set. -/
theorem strncmp_meets_standard_iff {a b : Nat → Byte} {la lb : Nat} (ha : Terminated a la) (hb : Terminated b lb)
    (size : Nat) : MeetsStandard a b la lb size ↔ Comparable a b la lb size := by
  by_cases hsame : SameText a b la lb
  · rw [meetsStandard_iff_of_sameText ha hb hsame]
    refine ⟨fun hle => ⟨fun _ => hle, ?_⟩, fun h => h.within hsame⟩
    intro d hd hdiff
    exact absurd (hsame.agree ha hb (by omega)) hdiff.differs
  · by_cases hall : ∀ j < size, a j = b j
    · -- the comparison ends before either string does
      obtain ⟨hla, hlb⟩ := le_lengths_of_agree ha hb hsame hall
      refine iff_of_true (meetsStandard_of_same ha hall (by omega) (by omega)) ⟨fun h => absurd h hsame, ?_⟩
      exact fun d hd hdiff => absurd (hall d hd) hdiff.differs
    · obtain ⟨d, hd, hdiff⟩ := exists_firstDifference hall
      obtain ⟨hla, hlb⟩ := le_lengths_of_agree ha hb hsame hdiff.same
      rw [meetsStandard_iff_of_differs ha hdiff hd hla hlb]
      refine ⟨fun hmsb => ⟨fun h => absurd h hsame, ?_⟩, fun h => h.sameHalf d hd hdiff⟩
      intro d' _ hdiff'
      rw [hdiff'.unique hdiff]
      exact hmsb

/-- Memory that holds a text, its terminator, the bytes `rest` and NULs from there on. -/
def stringBefore (text rest : List Byte) : Nat → Byte := fun i => (text ++ 0 :: rest).getD i 0

theorem terminated_stringBefore {text : List Byte} (h : 0 ∉ text) (rest : List Byte) :
    Terminated (stringBefore text rest) text.length := by
  constructor
  · simp [stringBefore]
  · intro k hk
    have hchar : stringBefore text rest k = text[k] := by
      simp [stringBefore, List.getElem?_append_left hk, List.getElem?_eq_getElem hk]
    rw [hchar]
    exact fun hzero => h (hzero ▸ List.getElem_mem hk)

/-- `help` and `exit`, of which the dispatcher compares four characters. -/
theorem strncmp_meets_standard_commands :
    MeetsStandard (stringBefore [104, 101, 108, 112] []) (stringBefore [101, 120, 105, 116] []) 4 4 4 := by
  have hhelp : Terminated (stringBefore [104, 101, 108, 112] []) 4 := terminated_stringBefore (by decide) []
  have hexit : Terminated (stringBefore [101, 120, 105, 116] []) 4 := terminated_stringBefore (by decide) []
  have hascii : ∀ d < 4, (stringBefore [104, 101, 108, 112] [] d).msb = (stringBefore [101, 120, 105, 116] [] d).msb := by
    decide
  exact (strncmp_meets_standard_iff hhelp hexit 4).mpr ⟨fun _ => by decide, fun d hd _ => hascii d hd⟩

/-- The text `a` twice, in front of an `x` and of a `y`: the terminator is passed,
and what lies behind it decides. And the byte 0x80 compared with the letter `a`:
it is the greater one, and the result is negative. -/
theorem strncmp_passes_terminator :
    (Terminated (stringBefore [97] [120]) 1 ∧ Terminated (stringBefore [97] [121]) 1 ∧
      strncmp (stringBefore [97] [120]) (stringBefore [97] [121]) 3 = -1 ∧
      2 ∈ strncmpReads (stringBefore [97] [120]) (stringBefore [97] [121]) 3 ∧
      ¬ MeetsStandard (stringBefore [97] [120]) (stringBefore [97] [121]) 1 1 3) ∧
    (Terminated (stringBefore [0x80] []) 1 ∧ Terminated (stringBefore [97] []) 1 ∧
      strncmp (stringBefore [0x80] []) (stringBefore [97] []) 1 = -225 ∧
      ¬ MeetsStandard (stringBefore [0x80] []) (stringBefore [97] []) 1 1 1) := by
  refine ⟨⟨terminated_stringBefore (by decide) _, terminated_stringBefore (by decide) _, by decide, by decide, ?_⟩,
    ⟨terminated_stringBefore (by decide) _, terminated_stringBefore (by decide) _, by decide, ?_⟩⟩
  · intro h
    exact h.reads 2 (by decide) 1 (by decide) (by decide)
  · intro h
    exact absurd h.sign (by decide)

end DavOS
