import Mathlib.Algebra.Ring.Nat
import Mathlib.Logic.Function.Basic

/-! Byte-addressed memory with little-endian words. A word is the natural number
that its bytes spell; storing cuts the value to the width of the word. -/
namespace ByteMemory

/-- The little-endian value of `n` bytes from `a` on. -/
def loadBytes (m : Nat → BitVec 8) (a : Nat) : Nat → Nat
  | 0 => 0
  | n + 1 => (m a).toNat + 256 * loadBytes m (a + 1) n

/-- Store the `n` low bytes of `v` from `a` on. -/
def storeBytes (m : Nat → BitVec 8) (a v : Nat) : Nat → Nat → BitVec 8
  | 0 => m
  | n + 1 => storeBytes (Function.update m a (BitVec.ofNat 8 v)) (a + 1) (v / 256) n

def load64 (m : Nat → BitVec 8) (a : Nat) : Nat := loadBytes m a 8

def store64 (m : Nat → BitVec 8) (a v : Nat) : Nat → BitVec 8 := storeBytes m a v 8

theorem loadBytes_lt (m : Nat → BitVec 8) (a n : Nat) : loadBytes m a n < 256 ^ n := by
  induction n generalizing a with
  | zero => simp [loadBytes]
  | succ n ih =>
      have hbyte := (m a).isLt
      have hrest := ih (a + 1)
      rw [loadBytes, Nat.pow_succ]
      omega

theorem loadBytes_congr {m m' : Nat → BitVec 8} {a n : Nat}
    (h : ∀ x, a ≤ x → x < a + n → m' x = m x) : loadBytes m' a n = loadBytes m a n := by
  induction n generalizing a with
  | zero => rfl
  | succ n ih =>
      rw [loadBytes, loadBytes, h a (Nat.le_refl a) (by omega), ih fun x hx hx' => h x (by omega) (by omega)]

theorem loadBytes_moved {m m' : Nat → BitVec 8} {a a' n : Nat} (h : ∀ i < n, m' (a' + i) = m (a + i)) :
    loadBytes m' a' n = loadBytes m a n := by
  induction n generalizing a a' with
  | zero => rfl
  | succ n ih =>
      have hrest : ∀ i < n, m' (a' + 1 + i) = m (a + 1 + i) := by
        intro i hi
        rw [Nat.add_assoc, Nat.add_assoc, Nat.add_comm 1 i]
        exact h (i + 1) (Nat.succ_lt_succ hi)
      have hfirst : m' a' = m a := h 0 (Nat.succ_pos n)
      rw [loadBytes, loadBytes, hfirst, ih hrest]

theorem loadBytes_add (m : Nat → BitVec 8) (a p q : Nat) :
    loadBytes m a (p + q) = loadBytes m a p + 256 ^ p * loadBytes m (a + p) q := by
  induction p generalizing a with
  | zero => simp [loadBytes]
  | succ p ih =>
      have hnext : a + 1 + p = a + (p + 1) := by omega
      rw [Nat.add_right_comm, loadBytes, loadBytes, ih, hnext, Nat.pow_succ', Nat.mul_add, Nat.mul_assoc,
        Nat.add_assoc]

theorem loadBytes_inj {m m' : Nat → BitVec 8} {a n : Nat} (h : loadBytes m' a n = loadBytes m a n) {x : Nat}
    (hx : a ≤ x) (hx' : x < a + n) : m' x = m x := by
  induction n generalizing a with
  | zero => omega
  | succ n ih =>
      have hbyte := (m a).isLt
      have hbyte' := (m' a).isLt
      rw [loadBytes, loadBytes] at h
      rcases Nat.eq_or_lt_of_le hx with rfl | hlt
      · exact BitVec.eq_of_toNat_eq (by omega)
      · have hrest : loadBytes m' (a + 1) n = loadBytes m (a + 1) n := by omega
        exact ih hrest hlt (by omega)

theorem storeBytes_other (m : Nat → BitVec 8) (a v n : Nat) {x : Nat} (h : x < a ∨ a + n ≤ x) :
    storeBytes m a v n x = m x := by
  induction n generalizing m a v with
  | zero => rfl
  | succ n ih =>
      rw [storeBytes, ih _ _ _ (by omega)]
      exact Function.update_of_ne (by omega) _ _

theorem loadBytes_storeBytes (m : Nat → BitVec 8) (a v n : Nat) :
    loadBytes (storeBytes m a v n) a n = v % 256 ^ n := by
  induction n generalizing m a v with
  | zero => simp [loadBytes, Nat.mod_one]
  | succ n ih =>
      have hbyte : storeBytes m a v (n + 1) a = BitVec.ofNat 8 v := by
        rw [storeBytes, storeBytes_other _ _ _ _ (by omega), Function.update_self]
      rw [loadBytes, hbyte, storeBytes, ih, BitVec.toNat_ofNat]
      have hpow : 256 ^ (n + 1) = 256 * 256 ^ n := Nat.pow_succ'
      rw [hpow, Nat.mod_mul]

/-- The bytes from `a` on are those of the list. -/
def Spells (m : Nat → BitVec 8) : Nat → List (BitVec 8) → Prop
  | _, [] => True
  | a, b :: bs => m a = b ∧ Spells m (a + 1) bs

instance decidableSpells (m : Nat → BitVec 8) : ∀ (a : Nat) (bs : List (BitVec 8)), Decidable (Spells m a bs)
  | _, [] => isTrue trivial
  | a, b :: bs =>
      have := decidableSpells m (a + 1) bs
      inferInstanceAs (Decidable (m a = b ∧ Spells m (a + 1) bs))

theorem spells_append (m : Nat → BitVec 8) (a : Nat) (bs cs : List (BitVec 8)) :
    Spells m a (bs ++ cs) ↔ Spells m a bs ∧ Spells m (a + bs.length) cs := by
  induction bs generalizing a with
  | nil => exact iff_of_eq (true_and _).symm
  | cons b bs ih =>
      have hnext : a + 1 + bs.length = a + (b :: bs).length := by
        rw [List.length_cons]
        omega
      rw [List.cons_append, Spells, Spells, ih, hnext, and_assoc]

theorem Spells.moved {m m' : Nat → BitVec 8} {a a' : Nat} {bs : List (BitVec 8)} (hspells : Spells m a bs)
    (h : ∀ i < bs.length, m' (a' + i) = m (a + i)) : Spells m' a' bs := by
  induction bs generalizing a a' with
  | nil => trivial
  | cons b bs ih =>
      have hrest : ∀ i < bs.length, m' (a' + 1 + i) = m (a + 1 + i) := by
        intro i hi
        rw [Nat.add_assoc, Nat.add_assoc, Nat.add_comm 1 i]
        exact h (i + 1) (Nat.succ_lt_succ hi)
      exact ⟨(h 0 (Nat.succ_pos _)).trans hspells.1, ih hspells.2 hrest⟩

/-- The `n` low bytes of `v`, lowest first. -/
def wordBytes : Nat → Nat → List (BitVec 8)
  | 0, _ => []
  | n + 1, v => BitVec.ofNat 8 v :: wordBytes n (v / 256)

@[simp] theorem wordBytes_length (n v : Nat) : (wordBytes n v).length = n := by
  induction n generalizing v with
  | zero => rfl
  | succ n ih => rw [wordBytes, List.length_cons, ih]

theorem loadBytes_of_spells {m : Nat → BitVec 8} {a n v : Nat} (h : Spells m a (wordBytes n v)) :
    loadBytes m a n = v % 256 ^ n := by
  induction n generalizing a v with
  | zero => simp [loadBytes, Nat.mod_one]
  | succ n ih =>
      obtain ⟨hbyte, hrest⟩ := h
      have hpow : 256 ^ (n + 1) = 256 * 256 ^ n := Nat.pow_succ'
      rw [loadBytes, hbyte, ih hrest, BitVec.toNat_ofNat, hpow, Nat.mod_mul]

theorem load64_lt (m : Nat → BitVec 8) (a : Nat) : load64 m a < 2 ^ 64 := loadBytes_lt m a 8

theorem load64_congr {m m' : Nat → BitVec 8} {a : Nat}
    (h : ∀ x, a ≤ x → x < a + 8 → m' x = m x) : load64 m' a = load64 m a := loadBytes_congr h

theorem store64_other (m : Nat → BitVec 8) {a v x : Nat} (h : x < a ∨ a + 8 ≤ x) :
    store64 m a v x = m x := storeBytes_other m a v 8 h

theorem load64_store64 (m : Nat → BitVec 8) {a v : Nat} (h : v < 2 ^ 64) :
    load64 (store64 m a v) a = v := by
  rw [load64, store64, loadBytes_storeBytes]
  exact Nat.mod_eq_of_lt h

theorem load64_store64_of_disjoint (m : Nat → BitVec 8) {a b v : Nat} (h : a + 8 ≤ b ∨ b + 8 ≤ a) :
    load64 (store64 m b v) a = load64 m a :=
  load64_congr fun x hx hx' => store64_other m (by omega)

end ByteMemory
