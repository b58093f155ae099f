import Mathlib.Data.List.Pairwise
import Mathlib.Logic.Function.Basic

/-! Values moved from cell to cell, one move after the other, and when the result
is that of moving them all at once. -/
namespace MoveSequence

variable {α β : Type*} [DecidableEq α]

/-- Each pair gives the cell written and the cell read. -/
def perform (m : α → β) (moves : List (α × α)) : α → β :=
  moves.foldl (fun m p => Function.update m p.1 (m p.2)) m

/-- What a move has written, no later move reads or writes. -/
def Serial (moves : List (α × α)) : Prop := moves.Pairwise fun p q => p.1 ≠ q.2 ∧ p.1 ≠ q.1

variable {m : α → β} {moves : List (α × α)} {p : α × α} {x : α}

theorem perform_cons (m : α → β) (p : α × α) (moves : List (α × α)) :
    perform m (p :: moves) = perform (Function.update m p.1 (m p.2)) moves := rfl

theorem perform_other (h : ∀ p ∈ moves, p.1 ≠ x) : perform m moves x = m x := by
  induction moves generalizing m with
  | nil => rfl
  | cons q moves ih =>
      have hq : x ≠ q.1 := (h q List.mem_cons_self).symm
      rw [perform_cons, ih fun p hp => h p (List.mem_cons_of_mem q hp)]
      exact Function.update_of_ne hq _ _

/-- In a serial sequence every cell gets what the other held at the beginning. -/
theorem perform_mem (h : Serial moves) (hp : p ∈ moves) : perform m moves p.1 = m p.2 := by
  induction moves generalizing m with
  | nil => cases hp
  | cons q moves ih =>
      obtain ⟨hq, hmoves⟩ := List.pairwise_cons.mp h
      rw [perform_cons]
      rcases List.mem_cons.mp hp with rfl | hp
      · rw [perform_other fun r hr => (hq r hr).2.symm]
        exact Function.update_self _ _ _
      · rw [ih hmoves hp]
        exact Function.update_of_ne (hq p hp).1.symm _ _

end MoveSequence
