import Mathlib.Algebra.Ring.Nat
import Mathlib.Data.Nat.ModEq
import Mathlib.Logic.Function.Basic

/-! Pictures kept row by row in one array, and loops that paint on them. `Painted`
says what a painter did: the points of an area got their colours, all others kept
theirs. -/
namespace Raster

variable {κ : Type*} {f g h : Nat → κ} {w x y x' y' : Nat}

/-- The place of a point in the array. -/
def place (w x y : Nat) : Nat := w * y + x

theorem place_inj (hx : x < w) (hx' : x' < w) (hp : place w x y = place w x' y') : x = x' ∧ y = y' := by
  have hw : 0 < w := Nat.zero_lt_of_lt hx
  have hrow : (w * y + x) / w = (w * y' + x') / w := congrArg (· / w) hp
  rw [Nat.mul_add_div hw, Nat.mul_add_div hw, Nat.div_eq_of_lt hx, Nat.div_eq_of_lt hx'] at hrow
  subst hrow
  exact ⟨Nat.add_left_cancel hp, rfl⟩

/-- The points of `area` have the colours `colour` in `g`; the others are as in `f`. -/
def Painted (w : Nat) (f g : Nat → κ) (area : Nat → Nat → Prop) (colour : Nat → Nat → κ) : Prop :=
  ∀ x y, x < w → (area x y → g (place w x y) = colour x y) ∧ (¬ area x y → g (place w x y) = f (place w x y))

variable {area area' : Nat → Nat → Prop} {colour colour' : Nat → Nat → κ}

theorem Painted.refl (f : Nat → κ) (colour : Nat → Nat → κ) : Painted w f f (fun _ _ => False) colour :=
  fun _ _ _ => ⟨False.elim, fun _ => rfl⟩

theorem Painted.point (hx : x < w) (f : Nat → κ) :
    Painted w f (Function.update f (place w x y) (colour x y)) (fun x' y' => x' = x ∧ y' = y) colour := by
  intro x' y' hx'
  constructor
  · rintro ⟨rfl, rfl⟩
    exact Function.update_self ..
  · intro hne
    exact Function.update_of_ne (fun hp => hne (place_inj hx' hx hp)) ..

theorem Painted.trans (hf : Painted w f g area colour) (hg : Painted w g h area' colour) :
    Painted w f h (fun x y => area x y ∨ area' x y) colour := by
  intro x y hx
  by_cases hlast : area' x y
  · exact ⟨fun _ => (hg x y hx).1 hlast, fun hnone => absurd (Or.inr hlast) hnone⟩
  · have hkept := (hg x y hx).2 hlast
    rw [hkept]
    constructor
    · exact fun hsome => (hf x y hx).1 (hsome.resolve_right hlast)
    · exact fun hnone => (hf x y hx).2 fun ha => hnone (Or.inl ha)

theorem Painted.congr (hp : Painted w f g area colour) (harea : ∀ x y, x < w → (area' x y ↔ area x y))
    (hcolour : ∀ x y, x < w → area' x y → colour' x y = colour x y) : Painted w f g area' colour' := by
  intro x y hx
  constructor
  · intro ha
    rw [hcolour x y hx ha]
    exact (hp x y hx).1 ((harea x y hx).mp ha)
  · intro hna
    exact (hp x y hx).2 fun ha => hna ((harea x y hx).mpr ha)

/-- A loop paints what its rounds paint. `inv` is what every round keeps. -/
theorem Painted.loop {σ ι ε : Type*} {step : σ → ι → Except ε σ} (view : σ → Nat → κ) {inv : σ → Prop}
    {part : ι → Nat → Nat → Prop} {as : List ι}
    (hstep : ∀ s, inv s → ∀ a ∈ as, ∃ t, step s a = .ok t ∧ inv t ∧ Painted w (view s) (view t) (part a) colour)
    {s : σ} (hs : inv s) :
    ∃ t, as.foldlM step s = .ok t ∧ inv t ∧ Painted w (view s) (view t) (fun x y => ∃ a ∈ as, part a x y) colour := by
  induction as generalizing s with
  | nil => exact ⟨s, rfl, hs, (Painted.refl (view s) colour).congr (by simp) (by simp)⟩
  | cons a as ih =>
      obtain ⟨t, hfirst, ht, hpaint⟩ := hstep s hs a List.mem_cons_self
      obtain ⟨u, hrest, hu, hpaints⟩ := ih (fun s hs b hb => hstep s hs b (List.mem_cons_of_mem a hb)) ht
      refine ⟨u, ?_, hu, (hpaint.trans hpaints).congr (by simp) (by simp)⟩
      rw [List.foldlM_cons, hfirst]
      exact hrest

end Raster
