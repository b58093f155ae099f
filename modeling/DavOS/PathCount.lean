import Mathlib.Data.Finset.Card
import DavOS.PathGraph

/-! How many nodes several paths lack together. A node that more than one of them
lacks is counted once: it is named by the labels that would lead to it. -/
namespace PathGraph

theorem nodup_inits {I : Type*} (π : List I) : π.inits.Nodup := by
  induction π with
  | nil => simp
  | cons i π ih =>
      rw [List.inits_cons]
      exact List.nodup_cons.mpr ⟨by simp, ih.map List.cons_injective⟩

variable {N I : Type*} [DecidableEq I] {E E' : N → I → Option N} {root n m : N} {i : I} {π ρ : List I}
  {paths : List (List I)}

/-- The first parts of some paths that cannot be followed. -/
def unreached (E : N → I → Option N) (root : N) (paths : List (List I)) : Finset (List I) :=
  {ρ ∈ (paths.flatMap List.inits).toFinset | (follow E root ρ).isNone}

theorem mem_unreached : ρ ∈ unreached E root paths ↔ (∃ π ∈ paths, ρ <+: π) ∧ follow E root ρ = none := by
  simp only [unreached, Finset.mem_filter, List.mem_toFinset, List.mem_flatMap, List.mem_inits,
    Option.isNone_iff_eq_none]

theorem unreached_cons_none (h : E n i = none) :
    unreached E n [i :: π] = π.inits.toFinset.image (i :: ·) := by
  ext ρ
  rw [mem_unreached]
  cases ρ with
  | nil => simp
  | cons j ρ =>
      simp only [List.mem_singleton, exists_eq_left, List.cons_prefix_cons, Finset.mem_image, List.mem_toFinset,
        List.mem_inits, List.cons.injEq]
      constructor
      · rintro ⟨⟨rfl, hρ⟩, _⟩
        exact ⟨ρ, hρ, rfl, rfl⟩
      · rintro ⟨τ, hτ, rfl, rfl⟩
        exact ⟨⟨rfl, hτ⟩, by simp [follow, h]⟩

theorem unreached_cons_some (h : E n i = some m) :
    unreached E n [i :: π] = (unreached E m [π]).image (i :: ·) := by
  ext ρ
  rw [mem_unreached]
  cases ρ with
  | nil => simp
  | cons j ρ =>
      simp only [List.mem_singleton, exists_eq_left, List.cons_prefix_cons, Finset.mem_image, mem_unreached,
        List.cons.injEq]
      constructor
      · rintro ⟨⟨rfl, hρ⟩, hnone⟩
        exact ⟨ρ, ⟨hρ, by simpa [follow, h] using hnone⟩, rfl, rfl⟩
      · rintro ⟨τ, ⟨hτ, hnone⟩, rfl, rfl⟩
        exact ⟨⟨rfl, hτ⟩, by simpa [follow, h] using hnone⟩

theorem card_unreached_singleton (E : N → I → Option N) (n : N) (π : List I) :
    (unreached E n [π]).card = missing E n π := by
  induction π generalizing n with
  | nil => simp [unreached, missing]
  | cons i π ih =>
      cases h : E n i with
      | none =>
          rw [missing_cons_none h, unreached_cons_none h, Finset.card_image_of_injective _ List.cons_injective,
            List.toFinset_card_of_nodup (nodup_inits π), List.length_inits]
      | some m =>
          rw [missing_cons_some h, unreached_cons_some h, Finset.card_image_of_injective _ List.cons_injective, ih m]

theorem missing_le_card_unreached (h : π ∈ paths) : missing E root π ≤ (unreached E root paths).card := by
  rw [← card_unreached_singleton]
  refine Finset.card_le_card fun ρ hρ => ?_
  obtain ⟨⟨τ, hτ, hpart⟩, hnone⟩ := mem_unreached.mp hρ
  rw [List.mem_singleton.mp hτ] at hpart
  exact mem_unreached.mpr ⟨⟨π, h, hpart⟩, hnone⟩

/-- When the nodes that `π` lacks have been made, the other paths lack what is left. -/
theorem card_unreached_cons
    (h : ∀ ρ, (∃ τ ∈ paths, ρ <+: τ) → (follow E' root ρ = none ↔ follow E root ρ = none ∧ ¬ ρ <+: π)) :
    (unreached E root (π :: paths)).card = missing E root π + (unreached E' root paths).card := by
  have hunion : unreached E root (π :: paths) = unreached E root [π] ∪ unreached E' root paths := by
    ext ρ
    simp only [Finset.mem_union, mem_unreached, List.exists_mem_cons_iff, List.not_mem_nil, false_and, exists_false,
      or_false]
    constructor
    · rintro ⟨hpart, hnone⟩
      by_cases hπ : ρ <+: π
      · exact Or.inl ⟨hπ, hnone⟩
      · have hrest := hpart.resolve_left hπ
        exact Or.inr ⟨hrest, (h ρ hrest).mpr ⟨hnone, hπ⟩⟩
    · rintro (⟨hπ, hnone⟩ | ⟨hrest, hnone⟩)
      · exact ⟨Or.inl hπ, hnone⟩
      · exact ⟨Or.inr hrest, ((h ρ hrest).mp hnone).1⟩
  have hdisjoint : Disjoint (unreached E root [π]) (unreached E' root paths) := by
    rw [Finset.disjoint_left]
    intro ρ hρ hρ'
    obtain ⟨⟨τ, hτ, hpart⟩, _⟩ := mem_unreached.mp hρ
    obtain ⟨hrest, hnone⟩ := mem_unreached.mp hρ'
    rw [List.mem_singleton.mp hτ] at hpart
    exact ((h ρ hrest).mp hnone).2 hpart
  rw [hunion, Finset.card_union_of_disjoint hdisjoint, card_unreached_singleton]

end PathGraph
