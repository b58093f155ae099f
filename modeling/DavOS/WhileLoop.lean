import Mathlib.Data.Nat.Notation

/-! Loops with a test and a body that may stop. A run has fuel, and running out of
it is kept apart from stopping, so that a loop ends when some fuel is enough. -/
namespace WhileLoop

variable {σ ε : Type*} {test : σ → Bool} {body : σ → Except ε σ} {s t u : σ}

/-- `while (test(s)) s = body(s)`; `none` means that the fuel ran out. -/
def run (test : σ → Bool) (body : σ → Except ε σ) : Nat → σ → Option (Except ε σ)
  | 0, _ => none
  | fuel + 1, s =>
      if test s then
        match body s with
        | .ok t => run test body fuel t
        | .error e => some (.error e)
      else some (.ok s)

/-- The states in which a loop from `s` on makes its test. -/
inductive Visits (test : σ → Bool) (body : σ → Except ε σ) (s : σ) : σ → Prop
  | start : Visits test body s s
  | round {t u : σ} : Visits test body s t → test t = true → body t = .ok u → Visits test body s u

theorem run_stop (h : test s = false) (fuel : Nat) : run test body (fuel + 1) s = some (.ok s) := by
  rw [run, h]
  rfl

theorem run_round (h : test s = true) (hs : body s = .ok t) (fuel : Nat) :
    run test body (fuel + 1) s = run test body fuel t := by
  rw [run, if_pos h, hs]

theorem run_error {e : ε} (h : test s = true) (hs : body s = .error e) (fuel : Nat) :
    run test body (fuel + 1) s = some (.error e) := by
  rw [run, if_pos h, hs]

theorem Visits.head (htest : test s = true) (hs : body s = .ok t) (h : Visits test body t u) :
    Visits test body s u := by
  induction h with
  | start => exact .round .start htest hs
  | round _ htest' hs' ih => exact .round ih htest' hs'

/-- The invariant rule: what a round keeps, holds in every state visited. -/
theorem Visits.invariant {I : σ → Prop} (hround : ∀ s t, I s → test s = true → body s = .ok t → I t)
    (h : Visits test body s t) (hs : I s) : I t := by
  induction h with
  | start => exact hs
  | round _ htest hbody ih => exact hround _ _ ih htest hbody

/-- A measure that every round lowers bounds the number of rounds. -/
theorem run_isSome (measure : σ → Nat) {fuel : Nat}
    (hround : ∀ t u, Visits test body s t → test t = true → body t = .ok u → measure u < measure t)
    (hfuel : measure s < fuel) : (run test body fuel s).isSome := by
  induction fuel generalizing s with
  | zero => exact absurd hfuel (Nat.not_lt_zero _)
  | succ fuel ih =>
      cases htest : test s with
      | false =>
          rw [run_stop htest]
          rfl
      | true =>
          cases hs : body s with
          | error e =>
              rw [run_error htest hs]
              rfl
          | ok u =>
              have hlower := hround s u .start htest hs
              rw [run_round htest hs]
              apply ih
              · intro t v hvisits
                exact hround t v (hvisits.head htest hs)
              · exact Nat.lt_of_lt_of_le hlower (Nat.le_of_lt_succ hfuel)

theorem run_stuck (htest : test s = true) (hstuck : body s = .ok s) (fuel : Nat) :
    run test body fuel s = none := by
  induction fuel with
  | zero => rfl
  | succ fuel ih => rw [run_round htest hstuck, ih]

end WhileLoop
