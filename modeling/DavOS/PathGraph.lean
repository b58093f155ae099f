import Mathlib.Data.List.Infix
import Mathlib.Data.Option.Basic

/-! Trees laid out as labelled graphs: a node has at most one successor under
each label. A path is followed from a root; `Unshared` says that no node is met
on two paths up to a depth. The two edits are changing nothing that a path can
see, and hanging a fresh childless node under an empty slot. -/
namespace PathGraph

variable {N I : Type*}

/-- Follow a path of labels from a node. -/
def follow (E : N → I → Option N) : N → List I → Option N
  | n, [] => some n
  | n, i :: π => (E n i).bind fun m => follow E m π

@[simp] theorem follow_nil (E : N → I → Option N) (n : N) : follow E n [] = some n := rfl

theorem follow_append (E : N → I → Option N) (n : N) (π ρ : List I) :
    follow E n (π ++ ρ) = (follow E n π).bind fun m => follow E m ρ := by
  induction π generalizing n with
  | nil => rfl
  | cons i π ih =>
      simp only [List.cons_append, follow]
      cases E n i with
      | none => rfl
      | some m => exact ih m

theorem follow_snoc {E : N → I → Option N} {r n : N} {π : List I} (h : follow E r π = some n)
    (i : I) : follow E r (π ++ [i]) = E n i := by
  rw [follow_append, h]
  cases hE : E n i <;> simp [follow, hE]

theorem follow_of_append {E : N → I → Option N} {r n : N} {π ρ : List I}
    (h : follow E r (π ++ ρ) = some n) : ∃ m, follow E r π = some m := by
  rw [follow_append] at h
  cases hm : follow E r π with
  | none => simp [hm] at h
  | some m => exact ⟨m, rfl⟩

/-- No node is met on two different paths of length at most `depth`. -/
def Unshared (E : N → I → Option N) (root : N) (depth : Nat) : Prop :=
  ∀ π ρ n, π.length ≤ depth → ρ.length ≤ depth →
    follow E root π = some n → follow E root ρ = some n → π = ρ

theorem follow_congr {E E' : N → I → Option N} {root : N} {π : List I}
    (h : ∀ ρ n i, ρ ++ [i] <+: π → follow E root ρ = some n → E' n i = E n i) :
    follow E' root π = follow E root π := by
  induction π using List.reverseRecOn with
  | nil => rfl
  | append_singleton π i ih =>
      have hπ := ih fun ρ n j hj => h ρ n j (hj.trans (List.prefix_append π [i]))
      rw [follow_append, follow_append, hπ]
      cases hn : follow E root π with
      | none => rfl
      | some n => simp only [Option.bind_some, follow, h π n i (List.prefix_refl _) hn]

/-- How many nodes a path lacks below `n`. -/
def missing (E : N → I → Option N) : N → List I → Nat
  | _, [] => 0
  | n, i :: π =>
      match E n i with
      | some m => missing E m π
      | none => π.length + 1

theorem missing_le (E : N → I → Option N) (n : N) (π : List I) : missing E n π ≤ π.length := by
  induction π generalizing n with
  | nil => exact le_refl 0
  | cons i π ih =>
      unfold missing
      cases E n i with
      | none => exact le_refl _
      | some m => exact Nat.le_succ_of_le (ih m)

theorem missing_cons_some {E : N → I → Option N} {n m : N} {i : I} (h : E n i = some m) (π : List I) :
    missing E n (i :: π) = missing E m π := by
  simp only [missing, h]

theorem missing_cons_none {E : N → I → Option N} {n : N} {i : I} (h : E n i = none) (π : List I) :
    missing E n (i :: π) = π.length + 1 := by
  simp only [missing, h]

theorem missing_append {E : N → I → Option N} {n m : N} {π : List I} (h : follow E n π = some m)
    (ρ : List I) : missing E n (π ++ ρ) = missing E m ρ := by
  induction π generalizing n with
  | nil =>
      cases h
      rfl
  | cons i π ih =>
      simp only [follow] at h
      cases he : E n i with
      | none => simp [he] at h
      | some k =>
          rw [he, Option.bind_some] at h
          rw [List.cons_append, missing_cons_some he]
          exact ih h

theorem missing_eq_zero {E : N → I → Option N} {n m : N} {π : List I} (h : follow E n π = some m) :
    missing E n π = 0 := by
  simpa [missing] using missing_append h []

/-- What a path lacks depends only on which of its first parts can be followed. -/
theorem missing_congr {E E' : N → I → Option N} {n n' : N} {π : List I}
    (h : ∀ ρ, ρ <+: π → (follow E' n' ρ).isSome = (follow E n ρ).isSome) :
    missing E' n' π = missing E n π := by
  induction π generalizing n n' with
  | nil => rfl
  | cons i π ih =>
      have hi := h [i] (List.cons_prefix_cons.mpr ⟨rfl, List.nil_prefix⟩)
      cases he : E n i with
      | none =>
          cases he' : E' n' i with
          | none => rw [missing_cons_none he, missing_cons_none he']
          | some m' => simp [follow, he, he'] at hi
      | some m =>
          cases he' : E' n' i with
          | none => simp [follow, he, he'] at hi
          | some m' =>
              rw [missing_cons_some he, missing_cons_some he']
              apply ih
              intro ρ hρ
              simpa [follow, he, he'] using h (i :: ρ) (List.cons_prefix_cons.mpr ⟨rfl, hρ⟩)

section Link

variable {E E' : N → I → Option N} {root n f : N} {π : List I} {i : I} {depth : Nat}

/-- `E'` hangs the fresh node `f` under the empty slot `i` of `n`. -/
structure Links (E E' : N → I → Option N) (root n f : N) (i : I) (depth : Nat) : Prop where
  slot : E' n i = some f
  empty : E n i = none
  childless : ∀ j, E' f j = none
  fresh : ∀ ρ, ρ.length ≤ depth → follow E root ρ ≠ some f
  other : ∀ ρ m j, ρ.length ≤ depth → follow E root ρ = some m → (m, j) ≠ (n, i) → E' m j = E m j

theorem Links.follow_off (h : Links E E' root n f i depth) (hu : Unshared E root depth)
    (hπ : follow E root π = some n) (hlen : π.length < depth) {ρ : List I}
    (hρ : ρ.length ≤ depth) (hoff : ¬ π ++ [i] <+: ρ) :
    follow E' root ρ = follow E root ρ := by
  apply follow_congr
  intro τ m j hτ hm
  have hτlen : τ.length ≤ depth := by
    have := hτ.length_le
    simp only [List.length_append, List.length_singleton] at this
    omega
  apply h.other τ m j hτlen hm
  intro hmn
  obtain ⟨rfl, rfl⟩ := Prod.mk.inj hmn
  exact hoff (hu τ π _ hτlen hlen.le hm hπ ▸ hτ)

theorem Links.follow_slot (h : Links E E' root n f i depth) (hu : Unshared E root depth)
    (hπ : follow E root π = some n) (hlen : π.length < depth) :
    follow E' root (π ++ [i]) = some f := by
  have hoff : ¬ π ++ [i] <+: π := by
    intro hp
    have := hp.length_le
    simp only [List.length_append, List.length_singleton] at this
    omega
  have hn := (h.follow_off hu hπ hlen hlen.le hoff).trans hπ
  rw [follow_snoc hn, h.slot]

theorem Links.follow_below (h : Links E E' root n f i depth) (hu : Unshared E root depth)
    (hπ : follow E root π = some n) (hlen : π.length < depth) (j : I) (ρ : List I) :
    follow E' root (π ++ [i] ++ j :: ρ) = none := by
  rw [follow_append, h.follow_slot hu hπ hlen]
  simp only [Option.bind_some, follow, h.childless, Option.bind_none]

theorem Links.follow_off_none (h : Links E E' root n f i depth) (hπ : follow E root π = some n)
    {ρ : List I} (hon : π ++ [i] <+: ρ) : follow E root ρ = none := by
  obtain ⟨τ, rfl⟩ := hon
  rw [follow_append, follow_snoc hπ, h.empty]
  rfl

/-- Everything that is reached after the edit was reached before, or is `f`. -/
theorem Links.follow_cases (h : Links E E' root n f i depth) (hu : Unshared E root depth)
    (hπ : follow E root π = some n) (hlen : π.length < depth) {ρ : List I} {m : N}
    (hρ : ρ.length ≤ depth) (hm : follow E' root ρ = some m) :
    follow E root ρ = some m ∨ (ρ = π ++ [i] ∧ m = f) := by
  by_cases hon : π ++ [i] <+: ρ
  · obtain ⟨τ, rfl⟩ := hon
    cases τ with
    | nil =>
        rw [List.append_nil] at hm ⊢
        rw [h.follow_slot hu hπ hlen] at hm
        exact Or.inr ⟨rfl, (Option.some.inj hm).symm⟩
    | cons j τ =>
        rw [h.follow_below hu hπ hlen] at hm
        cases hm
  · exact Or.inl ((h.follow_off hu hπ hlen hρ hon) ▸ hm)

theorem Links.follow_mono (h : Links E E' root n f i depth) (hu : Unshared E root depth)
    (hπ : follow E root π = some n) (hlen : π.length < depth) {ρ : List I} {m : N}
    (hρ : ρ.length ≤ depth) (hm : follow E root ρ = some m) : follow E' root ρ = some m := by
  rw [h.follow_off hu hπ hlen hρ]
  · exact hm
  · intro hon
    rw [h.follow_off_none hπ hon] at hm
    cases hm

theorem Links.unshared (h : Links E E' root n f i depth) (hu : Unshared E root depth)
    (hπ : follow E root π = some n) (hlen : π.length < depth) : Unshared E' root depth := by
  intro ρ τ m hρ hτ hm hm'
  rcases h.follow_cases hu hπ hlen hρ hm with h1 | ⟨rfl, rfl⟩
  · rcases h.follow_cases hu hπ hlen hτ hm' with h2 | ⟨rfl, rfl⟩
    · exact hu ρ τ m hρ hτ h1 h2
    · exact absurd h1 (h.fresh ρ hρ)
  · rcases h.follow_cases hu hπ hlen hτ hm' with h2 | ⟨rfl, _⟩
    · exact absurd h2 (h.fresh τ hτ)
    · rfl

end Link

end PathGraph
