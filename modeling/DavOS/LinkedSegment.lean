import Mathlib.Data.List.Induction

/-! Singly linked lists laid out in a store. `Segment next a xs z` says that
following `next` from `a` passes exactly the nodes `xs`, in order, and then
stands at `z`. -/
namespace LinkedSegment

variable {N : Type*}

def Segment (next : N → N) : N → List N → N → Prop
  | a, [], z => a = z
  | a, x :: xs, z => a = x ∧ Segment next (next x) xs z

@[simp] theorem segment_nil (next : N → N) (a z : N) : Segment next a [] z ↔ a = z := Iff.rfl

theorem segment_cons (next : N → N) (a x z : N) (xs : List N) :
    Segment next a (x :: xs) z ↔ a = x ∧ Segment next (next x) xs z := Iff.rfl

theorem segment_append (next : N → N) (a z : N) (xs ys : List N) :
    Segment next a (xs ++ ys) z ↔ ∃ b, Segment next a xs b ∧ Segment next b ys z := by
  induction xs generalizing a with
  | nil => simp
  | cons x xs ih =>
      simp only [List.cons_append, segment_cons, ih]
      constructor
      · rintro ⟨rfl, b, hxs, hys⟩
        exact ⟨b, ⟨rfl, hxs⟩, hys⟩
      · rintro ⟨b, ⟨rfl, hxs⟩, hys⟩
        exact ⟨rfl, b, hxs, hys⟩

theorem Segment.congr {next next' : N → N} {a z : N} {xs : List N} (h : Segment next a xs z)
    (hnext : ∀ x ∈ xs, next' x = next x) : Segment next' a xs z := by
  induction xs generalizing a with
  | nil => exact h
  | cons x xs ih =>
      refine ⟨h.1, ?_⟩
      rw [hnext x List.mem_cons_self]
      exact ih h.2 fun y hy => hnext y (List.mem_cons_of_mem x hy)

/-- The nodes that following `next` from a non-null `a` meets. -/
inductive Reachable [Zero N] (next : N → N) (a : N) : N → Prop
  | start : a ≠ 0 → Reachable next a a
  | step {x : N} : Reachable next a x → next x ≠ 0 → Reachable next a (next x)

theorem Segment.reachable_iff [Zero N] {next : N → N} {a : N} {xs : List N} (h : Segment next a xs 0)
    (hnull : ∀ x ∈ xs, x ≠ 0) (x : N) : Reachable next a x ↔ x ∈ xs := by
  constructor
  · intro hx
    induction hx with
    | start ha =>
        cases xs with
        | nil => exact absurd h ha
        | cons y ys =>
            rw [h.1]
            exact List.mem_cons_self
    | @step y _ hne ih =>
        obtain ⟨before, after, rfl⟩ := List.append_of_mem ih
        obtain ⟨b, _, hb⟩ := (segment_append _ _ _ _ _).mp h
        cases after with
        | nil => exact absurd hb.2 hne
        | cons z zs =>
            rw [hb.2.1]
            simp
  · intro hx
    obtain ⟨before, after, rfl⟩ := List.append_of_mem hx
    clear hx
    induction before using List.reverseRecOn generalizing x after with
    | nil =>
        have ha : a = x := h.1
        subst ha
        exact .start (hnull a (by simp))
    | append_singleton before y ih =>
        rw [List.append_assoc, List.singleton_append] at h hnull
        have hy := ih y (x :: after) h hnull
        obtain ⟨b, _, hb⟩ := (segment_append _ _ _ _ _).mp h
        have hlink : next y = x := hb.2.1
        rw [← hlink]
        exact .step hy (by rw [hlink]; exact hnull x (by simp))

theorem Segment.unique [Zero N] {next : N → N} {a : N} {xs ys : List N} (hx : Segment next a xs 0)
    (hy : Segment next a ys 0) (hxs : ∀ x ∈ xs, x ≠ 0) (hys : ∀ y ∈ ys, y ≠ 0) : xs = ys := by
  induction xs generalizing a ys with
  | nil =>
      cases ys with
      | nil => rfl
      | cons y ys => exact absurd (hy.1.symm.trans hx) (hys y List.mem_cons_self)
  | cons x xs ih =>
      cases ys with
      | nil => exact absurd (hx.1.symm.trans hy) (hxs x List.mem_cons_self)
      | cons y ys =>
          obtain rfl : x = y := hx.1.symm.trans hy.1
          rw [ih hx.2 hy.2 (fun z hz => hxs z (List.mem_cons_of_mem x hz))
            fun z hz => hys z (List.mem_cons_of_mem x hz)]

/-- A link from a node to itself never leads to the null node. -/
theorem not_segment_loop [Zero N] {next : N → N} {a : N} (hloop : next a = a) (ha : a ≠ 0) (xs : List N) :
    ¬ Segment next a xs 0 := by
  induction xs with
  | nil => exact ha
  | cons x xs ih =>
      rintro ⟨rfl, hrest⟩
      rw [hloop] at hrest
      exact ih hrest

/-! ### Back links -/

/-- The back link of each node is the node before it; that of the first is `p`. -/
def BackLinks (prev : N → N) : N → List N → Prop
  | _, [] => True
  | p, x :: xs => prev x = p ∧ BackLinks prev x xs

theorem backLinks_append (prev : N → N) (p : N) (xs ys : List N) :
    BackLinks prev p (xs ++ ys) ↔ BackLinks prev p xs ∧ BackLinks prev (xs.getLast?.getD p) ys := by
  induction xs generalizing p with
  | nil => simp [BackLinks]
  | cons x xs ih =>
      have hlast : (x :: xs).getLast?.getD p = xs.getLast?.getD x := by cases xs <;> rfl
      rw [List.cons_append, BackLinks, BackLinks, ih, hlast, and_assoc]

theorem BackLinks.congr {prev prev' : N → N} {p : N} {xs : List N} (h : BackLinks prev p xs)
    (hprev : ∀ x ∈ xs, prev' x = prev x) : BackLinks prev' p xs := by
  induction xs generalizing p with
  | nil => trivial
  | cons x xs ih =>
      exact ⟨(hprev x List.mem_cons_self).trans h.1, ih h.2 fun y hy => hprev y (List.mem_cons_of_mem x hy)⟩

theorem Segment.prev_next [Zero N] {next prev : N → N} {a p x : N} {xs : List N} (h : Segment next a xs 0)
    (hb : BackLinks prev p xs) (hx : x ∈ xs) (hne : next x ≠ 0) : prev (next x) = x := by
  obtain ⟨before, after, rfl⟩ := List.append_of_mem hx
  obtain ⟨b, _, _, hafter⟩ := (segment_append _ _ _ _ _).mp h
  have hback := ((backLinks_append _ _ _ _).mp hb).2.2
  cases after with
  | nil => exact absurd hafter hne
  | cons y ys =>
      rw [hafter.1]
      exact hback.1

end LinkedSegment
