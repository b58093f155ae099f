import Mathlib.Data.List.Induction

/-! Runs of a deterministic step function that may stop, driven by a caller who
keeps a contract. The step function is the code; the contract is a separate
predicate on the state before each step, never a test made by the code. -/
namespace GuardedRun

variable {σ α ε : Type*} {step : σ → α → Except ε σ} {ok ok' : σ → α → Prop}

/-- `Run step ok s as t`: the steps `as`, each allowed by `ok` in the state it
starts from, lead from `s` to `t` without stopping. -/
inductive Run (step : σ → α → Except ε σ) (ok : σ → α → Prop) : σ → List α → σ → Prop
  | nil (s : σ) : Run step ok s [] s
  | cons {s t u : σ} {a : α} {as : List α} :
      ok s a → step s a = .ok t → Run step ok t as u → Run step ok s (a :: as) u

theorem Run.snoc {s t u : σ} {a : α} {as : List α} (h : Run step ok s as t)
    (ha : ok t a) (hs : step t a = .ok u) : Run step ok s (as ++ [a]) u := by
  induction h with
  | nil s => exact .cons ha hs (.nil u)
  | cons hb hb' _ ih => exact .cons hb hb' (ih ha hs)

/-- The invariant rule: what every allowed step preserves, every run preserves. -/
theorem Run.invariant {I : σ → Prop}
    (hstep : ∀ s a t, I s → ok s a → step s a = .ok t → I t)
    {s t : σ} {as : List α} (h : Run step ok s as t) (hs : I s) : I t := by
  induction h with
  | nil s => exact hs
  | cons ha hb _ ih => exact ih (hstep _ _ _ hs ha hb)

/-- Where an invariant makes one contract imply another, a run under the first
is a run under the second. -/
theorem Run.mono {I : σ → Prop}
    (hstep : ∀ s a t, I s → ok s a → step s a = .ok t → I t)
    (hok : ∀ s a, I s → ok s a → ok' s a) {s t : σ} {as : List α}
    (h : Run step ok s as t) (hs : I s) : Run step ok' s as t := by
  induction h with
  | nil s => exact .nil s
  | cons ha hb _ ih => exact .cons (hok _ _ hs ha) hb (ih (hstep _ _ _ hs ha hb))

theorem Run.foldlM {s t : σ} {as : List α} (h : Run step ok s as t) : as.foldlM step s = .ok t := by
  induction h with
  | nil s => rfl
  | cons _ hb _ ih =>
      rw [List.foldlM_cons, hb]
      exact ih

/-- The steps `as` from `s` on meet the contract, as far as they do not stop. -/
def Guarded (step : σ → α → Except ε σ) (ok : σ → α → Prop) : σ → List α → Prop
  | _, [] => True
  | s, a :: as => ok s a ∧ ∀ t, step s a = .ok t → Guarded step ok t as

instance Guarded.decidable [∀ s a, Decidable (ok s a)] (s : σ) : (as : List α) → Decidable (Guarded step ok s as)
  | [] => isTrue trivial
  | a :: as =>
      match h : step s a with
      | .ok t =>
          have := Guarded.decidable t as
          decidable_of_iff (ok s a ∧ Guarded step ok t as) (by simp [Guarded, h])
      | .error _ => decidable_of_iff (ok s a) (by simp [Guarded, h])

/-- A loop that returns, with every round guarded, is a run. -/
theorem Guarded.run {s t : σ} {as : List α} (h : Guarded step ok s as)
    (hs : as.foldlM step s = .ok t) : Run step ok s as t := by
  induction as generalizing s with
  | nil =>
      cases hs
      exact .nil _
  | cons a as ih =>
      rw [List.foldlM_cons] at hs
      cases hu : step s a with
      | error e =>
          rw [hu] at hs
          cases hs
      | ok u =>
          rw [hu] at hs
          exact .cons h.1 hu (ih (h.2 u hu) hs)

/-- Where every allowed step returns and keeps the invariant, so does a guarded loop. -/
theorem Guarded.returns {I : σ → Prop} (hstep : ∀ s a, I s → ok s a → ∃ t, step s a = .ok t ∧ I t)
    {s : σ} {as : List α} (h : Guarded step ok s as) (hs : I s) : ∃ t, as.foldlM step s = .ok t ∧ I t := by
  induction as generalizing s with
  | nil => exact ⟨s, rfl, hs⟩
  | cons a as ih =>
      obtain ⟨t, ht, hinv⟩ := hstep s a hs h.1
      rw [List.foldlM_cons, ht]
      exact ih (h.2 t ht) hinv

theorem Guarded.mono (hok : ∀ s a, ok s a → ok' s a) {s : σ} {as : List α} (h : Guarded step ok s as) :
    Guarded step ok' s as := by
  induction as generalizing s with
  | nil => trivial
  | cons a as ih => exact ⟨hok s a h.1, fun t ht => ih (h.2 t ht)⟩

theorem Guarded.and_mem {P : α → Prop} {s : σ} {as : List α} (h : Guarded step ok s as) (hall : ∀ a ∈ as, P a) :
    Guarded step (fun s a => ok s a ∧ P a) s as := by
  induction as generalizing s with
  | nil => trivial
  | cons a as ih =>
      refine ⟨⟨h.1, hall a List.mem_cons_self⟩, fun t ht => ?_⟩
      exact ih (h.2 t ht) fun b hb => hall b (List.mem_cons_of_mem a hb)

/-- Take the steps one by one, as long as the contract allows them and none stops. -/
def replay (step : σ → α → Except ε σ) (ok : σ → α → Prop) [∀ s a, Decidable (ok s a)] :
    σ → List α → Option σ
  | s, [] => some s
  | s, a :: as =>
      if ok s a then
        match step s a with
        | .ok t => replay step ok t as
        | .error _ => none
      else none

theorem replay_run [∀ s a, Decidable (ok s a)] {s t : σ} {as : List α}
    (h : replay step ok s as = some t) : Run step ok s as t := by
  induction as generalizing s with
  | nil =>
      cases h
      exact .nil _
  | cons a as ih =>
      unfold replay at h
      split at h
      · rename_i ha
        split at h
        · rename_i u hu
          exact .cons ha hu (ih h)
        · cases h
      · cases h

theorem forall_split_iff {Q : List α → α → Prop} {as : List α} :
    (∀ before a after, as = before ++ a :: after → Q before a) ↔
      ∀ i, (h : i < as.length) → Q (as.take i) (as.get ⟨i, h⟩) := by
  constructor
  · intro hall i h
    refine hall _ _ (as.drop (i + 1)) ?_
    rw [List.get_eq_getElem, List.getElem_cons_drop, List.take_append_drop]
  · rintro hall before a after rfl
    simpa using hall before.length (by simp)

instance decidableForallSplit {Q : List α → α → Prop} [∀ before a, Decidable (Q before a)] {as : List α} :
    Decidable (∀ before a after, as = before ++ a :: after → Q before a) :=
  decidable_of_iff _ forall_split_iff.symm

theorem forall_prefix_take_iff {P : List α → Prop} {as : List α} :
    (∀ before, before <+: as → P before) ↔ ∀ i < as.length + 1, P (as.take i) := by
  constructor
  · intro hall i _
    exact hall _ (List.take_prefix i as)
  · intro hall before hbefore
    rw [List.prefix_iff_eq_take.mp hbefore]
    exact hall before.length (Nat.lt_succ_of_le hbefore.length_le)

instance decidableForallPrefix {P : List α → Prop} [DecidablePred P] {as : List α} :
    Decidable (∀ before, before <+: as → P before) :=
  decidable_of_iff _ forall_prefix_take_iff.symm

/-- A property of every beginning of a list, and a condition on its elements:
with an invariant that says at least as much as the property, an element that
meets the condition keeps the invariant, and one that does not breaks the property.
The rule turns a property of all states of a run into a condition on its steps. -/
theorem forall_prefix_iff_of_invariant {I P : List α → Prop} {Q : List α → α → Prop} {as : List α} (hnil : I [])
    (hprop : ∀ before, before <+: as → I before → P before)
    (hkeep : ∀ before a after, as = before ++ a :: after → I before → Q before a → I (before ++ [a]))
    (hbreak : ∀ before a after, as = before ++ a :: after → I before → P (before ++ [a]) → Q before a) :
    (∀ before, before <+: as → P before) ↔ ∀ before a after, as = before ++ a :: after → Q before a := by
  have hsplit : ∀ before a, before ++ [a] <+: as → ∃ after, as = before ++ a :: after := by
    rintro before a ⟨after, hafter⟩
    exact ⟨after, by rw [← hafter, List.append_assoc, List.singleton_append]⟩
  constructor
  · intro h
    -- the invariant holds of every beginning, since each has the property
    have hall : ∀ before, before <+: as → I before := by
      intro before
      induction before using List.reverseRecOn with
      | nil => exact fun _ => hnil
      | append_singleton before a ih =>
          intro hbefore
          obtain ⟨after, has⟩ := hsplit before a hbefore
          have hI := ih ⟨a :: after, has.symm⟩
          exact hkeep before a after has hI (hbreak before a after has hI (h _ hbefore))
    intro before a after has
    refine hbreak before a after has (hall before ⟨a :: after, has.symm⟩) (h _ ⟨after, ?_⟩)
    rw [has, List.append_assoc, List.singleton_append]
  · intro hQ before hbefore
    refine hprop before hbefore ?_
    induction before using List.reverseRecOn with
    | nil => exact hnil
    | append_singleton before a ih =>
        obtain ⟨after, has⟩ := hsplit before a hbefore
        exact hkeep before a after has (ih ⟨a :: after, has.symm⟩) (hQ before a after has)

/-- The same where the property is its own invariant. -/
theorem forall_prefix_iff {P : List α → Prop} {Q : List α → α → Prop} {as : List α}
    (hstep : ∀ before a after, as = before ++ a :: after → P before → (P (before ++ [a]) ↔ Q before a)) :
    (∀ before, before <+: as → P before) ↔ P [] ∧ ∀ before a after, as = before ++ a :: after → Q before a := by
  have hiff (hnil : P []) := forall_prefix_iff_of_invariant hnil (fun _ _ h => h)
    (fun before a after has h => (hstep before a after has h).mpr)
    (fun before a after has h => (hstep before a after has h).mp)
  constructor
  · intro h
    have hnil := h [] List.nil_prefix
    exact ⟨hnil, (hiff hnil).mp h⟩
  · rintro ⟨hnil, hall⟩
    exact (hiff hnil).mpr hall

end GuardedRun
