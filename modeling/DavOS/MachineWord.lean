import Mathlib.Algebra.Ring.Nat
import Mathlib.Data.List.Range
import Mathlib.Data.List.Nodup

/-! Unsigned 64-bit arithmetic on naturals, and the counted loops over it.
A value of a 64-bit variable is a natural below `2 ^ 64`; every operation that
can overflow is written with `wrap`. -/
namespace MachineWord

def wrap (n : Nat) : Nat := n % 2 ^ 64

/-- `a - b` as the hardware computes it. -/
def wrapSub (a b : Nat) : Nat := (a + (2 ^ 64 - b % 2 ^ 64)) % 2 ^ 64

theorem wrap_of_lt {n : Nat} (h : n < 2 ^ 64) : wrap n = n := Nat.mod_eq_of_lt h

theorem wrapSub_of_le {a b : Nat} (ha : a < 2 ^ 64) (hb : b ≤ a) : wrapSub a b = a - b := by
  unfold wrapSub
  omega

/-- The arithmetic progression `x, x + step, …` of `n` members. -/
def stride (step : Nat) : Nat → Nat → List Nat
  | _, 0 => []
  | x, n + 1 => x :: stride step (x + step) n

@[simp] theorem stride_length (step x n : Nat) : (stride step x n).length = n := by
  induction n generalizing x with
  | zero => rfl
  | succ n ih => simp only [stride, List.length_cons, ih]

theorem mem_stride {step x n y : Nat} : y ∈ stride step x n ↔ ∃ i < n, y = x + step * i := by
  induction n generalizing x with
  | zero => simp [stride]
  | succ n ih =>
      simp only [stride, List.mem_cons, ih]
      constructor
      · rintro (rfl | ⟨i, hi, rfl⟩)
        · exact ⟨0, Nat.succ_pos n, by simp⟩
        · exact ⟨i + 1, Nat.succ_lt_succ hi, by rw [Nat.mul_add]; omega⟩
      · rintro ⟨i, hi, rfl⟩
        cases i with
        | zero => exact Or.inl (by simp)
        | succ i => exact Or.inr ⟨i, Nat.lt_of_succ_lt_succ hi, by rw [Nat.mul_add]; omega⟩

theorem stride_nodup {step : Nat} (hstep : 0 < step) (x n : Nat) : (stride step x n).Nodup := by
  induction n generalizing x with
  | zero => exact List.nodup_nil
  | succ n ih =>
      refine List.nodup_cons.mpr ⟨?_, ih (x + step)⟩
      intro hx
      obtain ⟨i, _, hi⟩ := mem_stride.mp hx
      omega

theorem stride_sorted {step : Nat} (hstep : 0 < step) (x n : Nat) : (stride step x n).Pairwise (· < ·) := by
  induction n generalizing x with
  | zero => exact List.Pairwise.nil
  | succ n ih =>
      refine List.pairwise_cons.mpr ⟨fun y hy => ?_, ih (x + step)⟩
      obtain ⟨i, _, rfl⟩ := mem_stride.mp hy
      omega

theorem stride_one (x n : Nat) : stride 1 x n = List.range' x n := by
  induction n generalizing x with
  | zero => rfl
  | succ n ih => rw [stride, ih, List.range'_succ]

/-- The values a loop `for (y = x; go(y); y += step)` visits, in order. The
loop variable wraps; `none` means the fuel ran out before the test failed. -/
def strideWhile (go : Nat → Bool) (step : Nat) : Nat → Nat → Option (List Nat)
  | 0, _ => none
  | fuel + 1, x =>
      if go x then (strideWhile go step fuel (wrap (x + step))).map (x :: ·) else some []

theorem strideWhile_go {go : Nat → Bool} {step fuel x : Nat} {ys : List Nat}
    (h : strideWhile go step fuel x = some ys) : ∀ y ∈ ys, go y = true := by
  induction fuel generalizing x ys with
  | zero => cases h
  | succ fuel ih =>
      rw [strideWhile] at h
      split at h
      · rename_i hgo
        obtain ⟨zs, hzs, rfl⟩ := Option.map_eq_some_iff.mp h
        intro y hy
        rcases List.mem_cons.mp hy with rfl | hy
        · exact hgo
        · exact ih hzs y hy
      · cases h
        intro y hy
        cases hy

/-- The loop variable takes at most `2 ^ 64` values, so a loop that has not
ended after that many tests never ends. -/
def loopFuel : Nat := 2 ^ 64

theorem strideWhile_eq_stride {go : Nat → Bool} {step : Nat} (x n : Nat) {fuel : Nat}
    (hgo : ∀ i < n, go (x + step * i) = true) (hstop : go (x + step * n) = false)
    (hwrap : x + step * n < 2 ^ 64) (hfuel : n < fuel) :
    strideWhile go step fuel x = some (stride step x n) := by
  induction n generalizing x fuel with
  | zero =>
      obtain ⟨fuel, rfl⟩ := Nat.exists_eq_succ_of_ne_zero (Nat.ne_of_gt hfuel)
      simp only [Nat.mul_zero, Nat.add_zero] at hstop
      simp only [strideWhile, hstop, Bool.false_eq_true, if_false, stride]
  | succ n ih =>
      obtain ⟨fuel, rfl⟩ := Nat.exists_eq_succ_of_ne_zero (Nat.ne_of_gt (Nat.zero_lt_of_lt hfuel))
      have hx : ∀ i, x + step + step * i = x + step * (i + 1) := by
        intro i
        rw [Nat.mul_add]
        omega
      have hfirst : go x = true := by simpa using hgo 0 (Nat.succ_pos n)
      have hnext : wrap (x + step) = x + step := by
        apply wrap_of_lt
        have := hx n
        omega
      have hrest := ih (x + step)
        (fun i hi => by rw [hx]; exact hgo (i + 1) (Nat.succ_lt_succ hi))
        (by rw [hx]; exact hstop) (by rw [hx]; exact hwrap) (Nat.lt_of_succ_lt_succ hfuel)
      simp only [strideWhile, hfirst, if_true, hnext, hrest, Option.map_some, stride]

theorem strideWhile_lt {step x last n : Nat} (hstep : 0 < step) (hlast : last = x + step * n)
    (hwrap : last < 2 ^ 64) :
    strideWhile (fun y => decide (y < last)) step loopFuel x = some (stride step x n) := by
  have hn : n ≤ step * n := Nat.le_mul_of_pos_left n hstep
  apply strideWhile_eq_stride x n
  · intro i hi
    have : step * i < step * n := Nat.mul_lt_mul_of_pos_left hi hstep
    simp only [decide_eq_true_eq]
    omega
  · simp only [decide_eq_false_iff_not]
    omega
  · omega
  · unfold loopFuel
    omega

/-- The loop `for (y = x; y != last; y += step)` when `last` is reached exactly. -/
theorem strideWhile_ne {step x last n : Nat} (hstep : 0 < step) (hlast : last = x + step * n)
    (hwrap : last < 2 ^ 64) :
    strideWhile (fun y => decide (y ≠ last)) step loopFuel x = some (stride step x n) := by
  have hn : n ≤ step * n := Nat.le_mul_of_pos_left n hstep
  apply strideWhile_eq_stride x n
  · intro i hi
    have : step * i < step * n := Nat.mul_lt_mul_of_pos_left hi hstep
    simp only [decide_eq_true_eq, ne_eq]
    omega
  · simp only [decide_eq_false_iff_not, not_not]
    omega
  · omega
  · unfold loopFuel
    omega

end MachineWord
