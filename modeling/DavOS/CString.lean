import Mathlib.Data.BitVec

/-! The string functions of `kpp`. A `const char*` is the sequence of characters
from its address on; characters are signed, as on x86-64. -/
namespace DavOS

/-- A `char` of the source. -/
abbrev Byte := BitVec 8

/-- The loop of `kpp::strncmp` with `n` characters left: it does not stop at a NUL. -/
def strncmpFrom (a b : Nat → Byte) (i : Nat) : Nat → Int
  | 0 => 0
  | n + 1 => if a i ≠ b i then (a i).toInt - (b i).toInt else strncmpFrom a b (i + 1) n

def strncmp (a b : Nat → Byte) (size : Nat) : Int := strncmpFrom a b 0 size

theorem strncmpFrom_eq_zero (a b : Nat → Byte) (i n : Nat) :
    strncmpFrom a b i n = 0 ↔ ∀ j < n, a (i + j) = b (i + j) := by
  induction n generalizing i with
  | zero => simp [strncmpFrom]
  | succ n ih =>
      rw [strncmpFrom]
      by_cases hsame : a i = b i
      · rw [if_neg (by simp [hsame]), ih, Nat.forall_lt_succ_left]
        simp [hsame, Nat.add_assoc, Nat.add_comm 1]
      · rw [if_pos hsame]
        refine iff_of_false ?_ fun h => hsame (h 0 (Nat.succ_pos n))
        intro hzero
        exact hsame (BitVec.toInt_inj.mp (Int.sub_eq_zero.mp hzero))

theorem strncmp_eq_zero (a b : Nat → Byte) (size : Nat) : strncmp a b size = 0 ↔ ∀ j < size, a j = b j := by
  simpa [strncmp] using strncmpFrom_eq_zero a b 0 size

/-! ### NUL-terminated text in an array -/

/-- The characters from index `i` up to the first NUL, `n` at most. -/
def cstring (s : Nat → Byte) (i : Nat) : Nat → List Byte
  | 0 => []
  | n + 1 => if s i = 0 then [] else s i :: cstring s (i + 1) n

variable {s s' : Nat → Byte} {i j n : Nat} {c : Byte}

theorem cstring_eq_nil (s : Nat → Byte) (i n : Nat) : cstring s i n = [] ↔ n = 0 ∨ s i = 0 := by
  cases n with
  | zero => simp [cstring]
  | succ n =>
      rw [cstring]
      split
      · rename_i hzero
        exact iff_of_true rfl (Or.inr hzero)
      · rename_i hne
        exact iff_of_false (List.cons_ne_nil _ _) fun h => h.elim (Nat.succ_ne_zero n) hne

theorem cstring_length_le_of_zero (h : s (i + j) = 0) : (cstring s i n).length ≤ j := by
  induction n generalizing i j with
  | zero => exact Nat.zero_le j
  | succ n ih =>
      rw [cstring]
      split
      · exact Nat.zero_le j
      · rename_i hne
        cases j with
        | zero => exact absurd h hne
        | succ j =>
            refine Nat.succ_le_succ (ih ?_)
            rw [Nat.add_assoc, Nat.add_comm 1]
            exact h

theorem cstring_eq_text {text : List Byte} (htext : ∀ k < text.length, text[k]? = some (s (i + k))) (hzero : 0 ∉ text)
    (hn : text.length ≤ n) (hend : text.length < n → s (i + text.length) = 0) : cstring s i n = text := by
  induction text generalizing i n with
  | nil =>
      rw [cstring_eq_nil]
      rcases Nat.eq_zero_or_pos n with h | h
      · exact Or.inl h
      · exact Or.inr (hend h)
  | cons c text ih =>
      have hpos : 0 < n := Nat.lt_of_lt_of_le (Nat.succ_pos _) hn
      obtain ⟨n, rfl⟩ : ∃ m, n = m + 1 := ⟨n - 1, (Nat.succ_pred_eq_of_pos hpos).symm⟩
      have hfirst : c = s i := Option.some.inj (htext 0 (Nat.succ_pos _))
      have hne : s i ≠ 0 := fun h => hzero (by simp [hfirst, h])
      rw [cstring, if_neg hne, ← hfirst, ih]
      · intro k hk
        rw [Nat.add_assoc, Nat.add_comm 1]
        exact htext (k + 1) (Nat.succ_lt_succ hk)
      · exact fun h => hzero (List.mem_cons_of_mem c h)
      · exact Nat.le_of_succ_le_succ hn
      · intro hlt
        rw [Nat.add_assoc, Nat.add_comm 1]
        exact hend (Nat.succ_lt_succ hlt)

theorem mem_cstring_of_nonzero (h : ∀ k ≤ j, s (i + k) ≠ 0) (hn : j < n) : s (i + j) ∈ cstring s i n := by
  induction n generalizing i j with
  | zero => cases hn
  | succ n ih =>
      have hfirst : s i ≠ 0 := h 0 (Nat.zero_le j)
      rw [cstring, if_neg hfirst]
      cases j with
      | zero => exact List.mem_cons_self
      | succ j =>
          have hrest : s (i + 1 + j) ∈ cstring s (i + 1) n := by
            refine ih (fun k hk => ?_) (Nat.lt_of_succ_lt_succ hn)
            rw [Nat.add_assoc, Nat.add_comm 1]
            exact h (k + 1) (Nat.succ_le_succ hk)
          rw [Nat.add_assoc, Nat.add_comm 1] at hrest
          exact List.mem_cons_of_mem _ hrest

theorem cstring_congr (h : ∀ x, i ≤ x → x < i + n → s' x = s x) : cstring s' i n = cstring s i n := by
  induction n generalizing i with
  | zero => rfl
  | succ n ih =>
      rw [cstring, cstring, h i (Nat.le_refl i) (by omega), ih fun x hx hx' => h x (by omega) (by omega)]

theorem mem_cstring (hc : c ∈ cstring s i n) : c ≠ 0 ∧ ∃ x, i ≤ x ∧ x < i + n ∧ s x = c := by
  induction n generalizing i with
  | zero => cases hc
  | succ n ih =>
      rw [cstring] at hc
      split at hc
      · cases hc
      · rename_i hne
        rcases List.mem_cons.mp hc with rfl | hc
        · exact ⟨hne, i, Nat.le_refl i, by omega, rfl⟩
        · obtain ⟨hne', x, hlo, hhi, hx⟩ := ih hc
          exact ⟨hne', x, by omega, by omega, hx⟩

/-- A character stored at the end of the text brings what lies behind it into the text. -/
theorem cstring_update (hj : (cstring s i n).length = j) (hn : j < n) (hc : c ≠ 0) :
    cstring (Function.update s (i + j) c) i n = cstring s i n ++ c :: cstring s (i + j + 1) (n - j - 1) := by
  induction n generalizing i j with
  | zero => cases hn
  | succ n ih =>
      by_cases hzero : s i = 0
      · have hnil : cstring s i (n + 1) = [] := (cstring_eq_nil s i (n + 1)).mpr (Or.inr hzero)
        obtain rfl : j = 0 := by rw [← hj, hnil]; rfl
        rw [cstring, Nat.add_zero, Function.update_self, if_neg hc, hnil, List.nil_append]
        congr 1
        exact cstring_congr fun x hx _ => Function.update_of_ne (by omega) _ _
      · have hcons : cstring s i (n + 1) = s i :: cstring s (i + 1) n := by rw [cstring, if_neg hzero]
        obtain ⟨j, rfl⟩ : ∃ j', j = j' + 1 := ⟨j - 1, by rw [← hj, hcons]; rfl⟩
        have hlength : (cstring s (i + 1) n).length = j := by
          rw [hcons] at hj
          exact Nat.succ.inj hj
        have hrest := ih hlength (Nat.lt_of_succ_lt_succ hn)
        have hindex : i + (j + 1) = i + 1 + j := by omega
        rw [cstring, Function.update_of_ne (by omega), if_neg hzero, hindex, hrest, hcons, List.cons_append,
          Nat.add_sub_add_right]

theorem cstring_update_first (hc : c ≠ 0) :
    cstring (Function.update s i c) i (n + 1) = c :: cstring s (i + 1) n := by
  rw [cstring, Function.update_self, if_neg hc]
  congr 1
  exact cstring_congr fun x hx _ => Function.update_of_ne (by omega) _ _

end DavOS
