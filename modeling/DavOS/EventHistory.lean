import Mathlib.Data.List.Basic

/-! What the events of a run leave behind. A system takes events one after the other;
in each state an event emits some records, and the records of a whole run are its
history. A finer system does what a coarser one does on the history of its calls. -/
namespace EventHistory

variable {σ τ α β γ : Type*} {step : σ → α → σ} {emits : σ → α → List β} {faults : σ → α → List γ}

/-- The records of the events `as`, taken from the state `s` on. -/
def history (step : σ → α → σ) (emits : σ → α → List β) : σ → List α → List β
  | _, [] => []
  | s, a :: as => emits s a ++ history step emits (step s a) as

/-- The simulation rule: where every event without fault takes related states to related
states, the coarse system making the calls that the event emits, a run without faults
ends where the coarse system does after the history of the run. -/
theorem simulation {call : τ → β → τ} {R : σ → τ → Prop}
    (hstep : ∀ s t a, R s t → faults s a = [] → R (step s a) ((emits s a).foldl call t))
    {s : σ} {t : τ} (hs : R s t) {as : List α} (h : history step faults s as = []) :
    R (as.foldl step s) ((history step emits s as).foldl call t) := by
  induction as generalizing s t with
  | nil => exact hs
  | cons a as ih =>
      obtain ⟨hfirst, hrest⟩ := List.append_eq_nil_iff.mp h
      rw [history, List.foldl_append]
      exact ih (hstep s t a hs hfirst) hrest

/-- The invariant rule for a property of the state and of the records so far. -/
theorem invariant {I : σ → List β → Prop} (hstep : ∀ s bs a, I s bs → I (step s a) (bs ++ emits s a))
    {s : σ} (hs : I s []) (as : List α) : I (as.foldl step s) (history step emits s as) := by
  suffices hall : ∀ s bs, I s bs → I (as.foldl step s) (bs ++ history step emits s as) from hall s [] hs
  clear hs s
  induction as with
  | nil =>
      intro s bs hs
      rw [history, List.append_nil]
      exact hs
  | cons a as ih =>
      intro s bs hs
      rw [history, ← List.append_assoc]
      exact ih _ _ (hstep s bs a hs)

/-- The invariant rule for runs whose events may be impossible. -/
theorem invariant_of_some {step : σ → α → Option σ} {I : σ → Prop} (hstep : ∀ s a t, I s → step s a = some t → I t)
    {s t : σ} (hs : I s) {as : List α} (h : as.foldlM step s = some t) : I t := by
  induction as generalizing s with
  | nil =>
      cases h
      exact hs
  | cons a as ih =>
      rw [List.foldlM_cons] at h
      obtain ⟨u, hu, hrest⟩ := Option.bind_eq_some_iff.mp h
      exact ih (hstep s a u hs hu) hrest

end EventHistory
