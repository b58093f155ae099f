import Mathlib.Algebra.Ring.Nat
import Mathlib.Data.Nat.ModEq
import Mathlib.Logic.Function.Basic

/-! Part of an array read around its end: `window f cap front n` is what `n`
slots hold, from slot `front` on and with slot 0 after the last one. -/
namespace RingWindow

variable {α : Type*} {f : Nat → α} {cap front i j n : Nat}

def window (f : Nat → α) (cap front n : Nat) : List α :=
  (List.range n).map fun i => f ((front + i) % cap)

@[simp] theorem window_length (f : Nat → α) (cap front n : Nat) : (window f cap front n).length = n := by
  simp [window]

theorem window_succ (f : Nat → α) (cap front n : Nat) :
    window f cap front (n + 1) = window f cap front n ++ [f ((front + n) % cap)] := by
  simp [window, List.range_succ]

theorem window_getElem? (hi : i < n) : (window f cap front n)[i]? = some (f ((front + i) % cap)) := by
  simp [window, hi]

/-- Fewer than `cap` steps do not come round to a slot again. -/
theorem slot_inj (hi : i < cap) (hj : j < cap) (h : (front + i) % cap = (front + j) % cap) : i = j := by
  have hsame : i % cap = j % cap := Nat.ModEq.add_left_cancel' front h
  rwa [Nat.mod_eq_of_lt hi, Nat.mod_eq_of_lt hj] at hsame

theorem window_update (hi : i < cap) (hn : n ≤ cap) (x : α) :
    window (Function.update f ((front + i) % cap) x) cap front n = (window f cap front n).set i x := by
  apply List.ext_getElem?
  intro j
  by_cases hj : j < n
  · rw [window_getElem? hj, List.getElem?_set, window_getElem? hj, window_length]
    by_cases hij : i = j
    · subst hij
      simp [hj]
    · have hslot : (front + j) % cap ≠ (front + i) % cap := fun h => hij (slot_inj hi (Nat.lt_of_lt_of_le hj hn) h.symm)
      rw [Function.update_of_ne hslot, if_neg hij]
  · rw [List.getElem?_eq_none (by simpa using hj), List.getElem?_eq_none (by simpa using hj)]

theorem window_push (hn : n < cap) (x : α) :
    window (Function.update f ((front + n) % cap) x) cap front (n + 1) = window f cap front n ++ [x] := by
  rw [window_succ, window_update hn (Nat.le_of_lt hn), Function.update_self, List.set_eq_of_length_le (by simp)]

theorem window_pop (hfront : front < cap) :
    window f cap front (n + 1) = f front :: window f cap ((front + 1) % cap) n := by
  induction n with
  | zero => simp [window, Nat.mod_eq_of_lt hfront]
  | succ n ih =>
      rw [window_succ, ih, window_succ, List.cons_append, Nat.mod_add_mod, Nat.add_assoc, Nat.add_comm 1 n]

end RingWindow
