import Mathlib.Data.List.Basic
import Mathlib.Data.List.Pairwise
import Mathlib.Order.MinMax

/-! Lists of half-open intervals over a linear order: the gaps between them, and
the list that a union of them determines. -/
namespace HalfOpen

variable {α : Type*} [LinearOrder α]

/-- `x` lies in the interval `[lo, hi)`. -/
def Within (iv : α × α) (x : α) : Prop := iv.1 ≤ x ∧ x < iv.2

/-! ### Gaps -/

/-- The gaps from `a` on, in one pass over intervals that are sorted by lower end:
what lies between the largest upper end so far and the next lower end. -/
def gaps : α → List (α × α) → List (α × α)
  | _, [] => []
  | a, (lo, hi) :: rest => if lo ≤ a then gaps (max a hi) rest else (a, lo) :: gaps hi rest

/-- The intervals are sorted by lower end, and none is upside down. -/
structure Sweepable (ivs : List (α × α)) : Prop where
  sorted : ivs.Pairwise fun p q => p.1 ≤ q.1
  proper : ∀ p ∈ ivs, p.1 ≤ p.2

section

variable {a x : α} {p q : α × α} {ivs : List (α × α)}

theorem Sweepable.tail (h : Sweepable (p :: ivs)) : Sweepable ivs :=
  ⟨(List.pairwise_cons.mp h.sorted).2, fun q hq => h.proper q (List.mem_cons_of_mem p hq)⟩

theorem mem_gaps (h : Sweepable ivs) (hp : p ∈ gaps a ivs) : a ≤ p.1 ∧ p.1 < p.2 := by
  induction ivs generalizing a with
  | nil => cases hp
  | cons q ivs ih =>
      rw [gaps] at hp
      split at hp
      · obtain ⟨hle, hlt⟩ := ih h.tail hp
        exact ⟨(le_max_left a q.2).trans hle, hlt⟩
      · rename_i hbelow
        rcases List.mem_cons.mp hp with rfl | hp
        · exact ⟨le_refl a, lt_of_not_ge hbelow⟩
        · obtain ⟨hle, hlt⟩ := ih h.tail hp
          exact ⟨((lt_of_not_ge hbelow).le.trans (h.proper q List.mem_cons_self)).trans hle, hlt⟩

theorem gaps_sorted (a : α) (h : Sweepable ivs) : (gaps a ivs).Pairwise fun p q => p.2 ≤ q.1 := by
  induction ivs generalizing a with
  | nil => exact List.Pairwise.nil
  | cons p ivs ih =>
      rw [gaps]
      split
      · exact ih _ h.tail
      · refine List.pairwise_cons.mpr ⟨fun q hq => ?_, ih _ h.tail⟩
        exact (h.proper p List.mem_cons_self).trans (mem_gaps h.tail hq).1

/-- A gap ends where an interval begins; it begins at `a` or where an interval ends. -/
theorem gap_ends (hp : p ∈ gaps a ivs) : (∃ q ∈ ivs, p.2 = q.1) ∧ (p.1 = a ∨ ∃ q ∈ ivs, p.1 = q.2) := by
  induction ivs generalizing a with
  | nil => cases hp
  | cons q ivs ih =>
      rw [List.exists_mem_cons_iff, List.exists_mem_cons_iff]
      rw [gaps] at hp
      split at hp
      · obtain ⟨hstop, hstart⟩ := ih hp
        refine ⟨Or.inr hstop, ?_⟩
        rcases hstart with hstart | hstart
        · rcases max_choice a q.2 with hmax | hmax
          · exact Or.inl (hstart.trans hmax)
          · exact Or.inr (Or.inl (hstart.trans hmax))
        · exact Or.inr (Or.inr hstart)
      · rcases List.mem_cons.mp hp with rfl | hp
        · exact ⟨Or.inl rfl, Or.inl rfl⟩
        · obtain ⟨hstop, hstart⟩ := ih hp
          exact ⟨Or.inr hstop, Or.inr hstart⟩

theorem gaps_between (a : α) (h : Sweepable ivs) :
    (gaps a ivs).Pairwise fun p q => ∃ iv ∈ ivs, p.2 = iv.1 ∧ iv.2 ≤ q.1 := by
  induction ivs generalizing a with
  | nil => exact List.Pairwise.nil
  | cons iv ivs ih =>
      have hrest (b : α) : (gaps b ivs).Pairwise fun p q => ∃ w ∈ iv :: ivs, p.2 = w.1 ∧ w.2 ≤ q.1 :=
        (ih b h.tail).imp fun ⟨w, hw, hpq⟩ => ⟨w, List.mem_cons_of_mem iv hw, hpq⟩
      rw [gaps]
      split
      · exact hrest _
      · refine List.pairwise_cons.mpr ⟨fun q hq => ?_, hrest _⟩
        exact ⟨iv, List.mem_cons_self, rfl, (mem_gaps h.tail hq).1⟩

/-- The gaps hold what is at or above `a`, below some upper end, and in no interval. -/
theorem within_gaps_iff (h : Sweepable ivs) :
    (∃ p ∈ gaps a ivs, Within p x) ↔ a ≤ x ∧ (∃ p ∈ ivs, x < p.2) ∧ ∀ p ∈ ivs, ¬ Within p x := by
  induction ivs generalizing a with
  | nil => simp [gaps]
  | cons q ivs ih =>
      have hproper := h.proper q List.mem_cons_self
      have hsorted := (List.pairwise_cons.mp h.sorted).1
      rw [gaps, List.forall_mem_cons, List.exists_mem_cons_iff]
      unfold Within at ih ⊢
      split
      · rename_i hcovers
        rw [ih h.tail, max_le_iff]
        constructor
        · rintro ⟨⟨ha, hq⟩, hsome, hnone⟩
          exact ⟨ha, Or.inr hsome, fun hx => absurd hx.2 (not_lt_of_ge hq), hnone⟩
        · rintro ⟨ha, hsome, hnot, hnone⟩
          have hq : q.2 ≤ x := le_of_not_gt fun hx => hnot ⟨hcovers.trans ha, hx⟩
          exact ⟨⟨ha, hq⟩, hsome.resolve_left (not_lt_of_ge hq), hnone⟩
      · rename_i hbelow
        have hlt := lt_of_not_ge hbelow
        rw [List.exists_mem_cons_iff, ih h.tail]
        constructor
        · rintro (⟨ha, hx⟩ | ⟨hq, hsome, hnone⟩)
          · -- below the lower end of `q`, so below those of the intervals after it
            refine ⟨ha, Or.inl (hx.trans_le hproper), fun hin => absurd hx (not_lt_of_ge hin.1), ?_⟩
            exact fun p hp hin => absurd (hx.trans_le (hsorted p hp)) (not_lt_of_ge hin.1)
          · exact ⟨(hlt.le.trans hproper).trans hq, Or.inr hsome, fun hin => absurd hin.2 (not_lt_of_ge hq), hnone⟩
        · rintro ⟨ha, hsome, hnot, hnone⟩
          by_cases hx : x < q.1
          · exact Or.inl ⟨ha, hx⟩
          · have hq : q.2 ≤ x := le_of_not_gt fun hin => hnot ⟨le_of_not_gt hx, hin⟩
            exact Or.inr ⟨hq, hsome.resolve_left (not_lt_of_ge hq), hnone⟩

end

/-! ### Canonical lists -/

/-- Intervals that are not empty, in increasing order, with something between each and the next. -/
structure Separated (ivs : List (α × α)) : Prop where
  nonempty : ∀ p ∈ ivs, p.1 < p.2
  apart : ivs.Pairwise fun p q => p.2 < q.1

section

variable {p q : α × α} {ivs jvs : List (α × α)}

theorem Separated.tail (h : Separated (p :: ivs)) : Separated ivs :=
  ⟨fun q hq => h.nonempty q (List.mem_cons_of_mem p hq), (List.pairwise_cons.mp h.apart).2⟩

theorem Separated.first_le (h : Separated (p :: ivs)) {x : α} (hx : ∃ q ∈ p :: ivs, Within q x) : p.1 ≤ x := by
  obtain ⟨q, hq, hqx⟩ := hx
  rcases List.mem_cons.mp hq with rfl | hq
  · exact hqx.1
  · have hpq := (List.pairwise_cons.mp h.apart).1 q hq
    exact ((h.nonempty p List.mem_cons_self).trans hpq).le.trans hqx.1

theorem Separated.first_stop (h : Separated (p :: ivs))
    (hsub : ∀ x, Within q x → ∃ r ∈ p :: ivs, Within r x) (hmeet : q.1 ≤ p.2) : q.2 ≤ p.2 := by
  by_contra hlt
  have hstop : Within q p.2 := ⟨hmeet, lt_of_not_ge hlt⟩
  obtain ⟨r, hr, hrx⟩ := hsub p.2 hstop
  rcases List.mem_cons.mp hr with rfl | hr
  · exact absurd hrx.2 (lt_irrefl _)
  · exact absurd ((List.pairwise_cons.mp h.apart).1 r hr) (not_lt_of_ge hrx.1)

theorem Separated.ext (h : Separated ivs) (h' : Separated jvs)
    (hsame : ∀ x, (∃ p ∈ ivs, Within p x) ↔ ∃ p ∈ jvs, Within p x) : ivs = jvs := by
  induction ivs generalizing jvs with
  | nil =>
      cases jvs with
      | nil => rfl
      | cons q jvs =>
          have hq : Within q q.1 := ⟨le_refl _, h'.nonempty q List.mem_cons_self⟩
          obtain ⟨p, hp, _⟩ := (hsame q.1).mpr ⟨q, List.mem_cons_self, hq⟩
          cases hp
  | cons p ivs ih =>
      have hp : Within p p.1 := ⟨le_refl _, h.nonempty p List.mem_cons_self⟩
      cases jvs with
      | nil =>
          obtain ⟨q, hq, _⟩ := (hsame p.1).mp ⟨p, List.mem_cons_self, hp⟩
          cases hq
      | cons q jvs =>
          have hq : Within q q.1 := ⟨le_refl _, h'.nonempty q List.mem_cons_self⟩
          have hstart : p.1 = q.1 := le_antisymm (h.first_le ((hsame q.1).mpr ⟨q, List.mem_cons_self, hq⟩))
            (h'.first_le ((hsame p.1).mp ⟨p, List.mem_cons_self, hp⟩))
          have hstop : p.2 = q.2 := by
            apply le_antisymm
            · exact h'.first_stop (fun x hx => (hsame x).mp ⟨p, List.mem_cons_self, hx⟩) (hstart ▸ hq.2.le)
            · exact h.first_stop (fun x hx => (hsame x).mpr ⟨q, List.mem_cons_self, hx⟩) (hstart ▸ hp.2.le)
          obtain rfl : p = q := Prod.ext hstart hstop
          refine congrArg (p :: ·) (ih h.tail h'.tail fun x => ?_)
          -- what lies in a later interval does not lie in the first
          have hlater : ∀ {ls : List (α × α)}, Separated (p :: ls) → (∃ r ∈ ls, Within r x) → ¬ Within p x := by
            rintro ls hls ⟨r, hr, hrx⟩ hpx
            exact absurd (hpx.2.trans ((List.pairwise_cons.mp hls.apart).1 r hr)) (not_lt_of_ge hrx.1)
          have hx := hsame x
          rw [List.exists_mem_cons_iff, List.exists_mem_cons_iff] at hx
          constructor
          · exact fun hr => (hx.mp (Or.inr hr)).resolve_left (hlater h hr)
          · exact fun hr => (hx.mpr (Or.inr hr)).resolve_left (hlater h' hr)

end

end HalfOpen
