import Mathlib.Data.List.Nodup
import Mathlib.Logic.Function.Basic
import DavOS.GuardedRun

/-! `optional.hpp`: the lifetimes of the values in `Optional` objects. The values are
numbered in the order in which they are constructed, so that one that is read after
its destructor has run can be told from the one that has taken its place. -/
namespace DavOS
open GuardedRun

/-- The `Optional` objects that are alive, each with the value in its buffer if
`is_present`, and what has become of the values. -/
structure Optionals (Place : Type) where
  slots : Place → Option (Option Nat)
  constructed : Nat
  -- in the order of the destructor calls
  destroyed : List Nat
  -- read by a constructor after their destructor
  dangling : List Nat
  -- in an object that has ended
  leaked : List Nat

namespace Optionals

variable {Place : Type} [DecidableEq Place]

def value (s : Optionals Place) (p : Place) : Option Nat := (s.slots p).join

def reset (s : Optionals Place) (p : Place) : Optionals Place :=
  match s.value p with
  | some x => { s with slots := Function.update s.slots p (some none), destroyed := s.destroyed ++ [x] }
  | none => s

/-- Placement `new`, from a reference to the value `source` if it is in an `Optional`. -/
def construct (s : Optionals Place) (p : Place) (source : Option Nat) : Optionals Place :=
  { s with
    slots := Function.update s.slots p (some (some s.constructed))
    constructed := s.constructed + 1
    dangling := s.dangling ++ source.toList.filter (· ∈ s.destroyed) }

def emplace (s : Optionals Place) (p : Place) (source : Option Nat) : Optionals Place :=
  (if (s.value p).isSome then s.reset p else s).construct p source

/-- `operator=` from another `Optional`; copying and moving differ in the constructor
that `emplace` calls, and neither changes `other.is_present`. -/
def assign (s : Optionals Place) (p other : Place) : Optionals Place :=
  match s.value other with
  | some x => s.emplace p (some x)
  | none => s.reset p

/-- `operator=` from a value. -/
def assignValue (s : Optionals Place) (p : Place) (source : Option Nat) : Optionals Place :=
  (if (s.value p).isSome then s.reset p else s).emplace p source

inductive Op (Place : Type) where
  | default (p : Place)
  | reset (p : Place)
  | emplace (p : Place) (source : Option Place)
  | assignNullopt (p : Place)
  | copyAssign (p other : Place)
  | moveAssign (p other : Place)
  | assignValue (p : Place) (source : Option Place)
  | destruct (p : Place)
  deriving DecidableEq

/-- One call. There is no destructor, so the value stays in the buffer of an object that ends. -/
def step (s : Optionals Place) : Op Place → Optionals Place
  | .default p => { s with slots := Function.update s.slots p (some none) }
  | .reset p => s.reset p
  | .emplace p source => s.emplace p (source.bind s.value)
  | .assignNullopt p => s.reset p
  | .copyAssign p other => s.assign p other
  | .moveAssign p other => s.assign p other
  | .assignValue p source => s.assignValue p (source.bind s.value)
  | .destruct p => { s with slots := Function.update s.slots p none, leaked := s.leaked ++ (s.value p).toList }

/-- No object lives where one is made, all others named are alive, and `*other` is used on a value only. -/
def Allowed (s : Optionals Place) : Op Place → Prop
  | .default p => (s.slots p).isNone = true
  | .reset p => (s.slots p).isSome = true
  | .emplace p source => (s.slots p).isSome = true ∧ ∀ q ∈ source, (s.value q).isSome = true
  | .assignNullopt p => (s.slots p).isSome = true
  | .copyAssign p other => (s.slots p).isSome = true ∧ (s.slots other).isSome = true
  | .moveAssign p other => (s.slots p).isSome = true ∧ (s.slots other).isSome = true
  | .assignValue p source => (s.slots p).isSome = true ∧ ∀ q ∈ source, (s.value q).isSome = true
  | .destruct p => (s.slots p).isSome = true

instance (s : Optionals Place) (op : Op Place) : Decidable (s.Allowed op) :=
  match op with
  | .default _ => inferInstanceAs (Decidable (_ = _))
  | .reset _ => inferInstanceAs (Decidable (_ = _))
  | .emplace _ _ => inferInstanceAs (Decidable (_ ∧ _))
  | .assignNullopt _ => inferInstanceAs (Decidable (_ = _))
  | .copyAssign _ _ => inferInstanceAs (Decidable (_ ∧ _))
  | .moveAssign _ _ => inferInstanceAs (Decidable (_ ∧ _))
  | .assignValue _ _ => inferInstanceAs (Decidable (_ ∧ _))
  | .destruct _ => inferInstanceAs (Decidable (_ = _))

def empty : Optionals Place := ⟨fun _ => none, 0, [], [], []⟩

def run (ops : List (Op Place)) : Optionals Place := ops.foldl step empty

/-- Each step is allowed in the state that it starts from. -/
def Legal : Optionals Place → List (Op Place) → Prop
  | _, [] => True
  | s, op :: ops => s.Allowed op ∧ Legal (s.step op) ops

def decidableLegal : (s : Optionals Place) → (ops : List (Op Place)) → Decidable (Legal s ops)
  | _, [] => .isTrue trivial
  | s, op :: ops =>
      have := decidableLegal (s.step op) ops
      inferInstanceAs (Decidable (_ ∧ _))

instance (s : Optionals Place) (ops : List (Op Place)) : Decidable (Legal s ops) := decidableLegal s ops

/-- Every value is in one object, or its destructor has run once, or it has leaked. -/
structure Sound (s : Optionals Place) : Prop where
  once : s.destroyed.Nodup
  live : ∀ p x, s.value p = some x → x ∉ s.destroyed
  unique : ∀ p q x, s.value p = some x → s.value q = some x → p = q
  held_lt : ∀ p x, s.value p = some x → x < s.constructed
  destroyed_lt : ∀ x ∈ s.destroyed, x < s.constructed
  accounted : ∀ x < s.constructed, x ∈ s.destroyed ∨ x ∈ s.leaked ∨ ∃ p, s.value p = some x

/-- The step constructs a value in place of the one that it is constructed from. -/
def ReadsOwn (s : Optionals Place) : Op Place → Prop
  | .emplace p source => source = some p
  | .copyAssign p other => p = other ∧ (s.value p).isSome = true
  | .moveAssign p other => p = other ∧ (s.value p).isSome = true
  | .assignValue p source => source = some p
  | _ => False

/-- The step ends an object that has a value. -/
def Leaks (s : Optionals Place) : Op Place → Prop
  | .destruct p => (s.value p).isSome = true
  | _ => False

section

variable {s : Optionals Place} {p q : Place} {x : Nat}

theorem value_update (slots : Place → Option (Option Nat)) (o : Option (Option Nat)) (p q : Place) :
    (Function.update slots p o q).join = if q = p then o.join else (slots q).join := by
  by_cases hq : q = p
  · rw [if_pos hq, hq, Function.update_self]
  · rw [if_neg hq, Function.update_of_ne hq]

theorem value_reset (s : Optionals Place) (p q : Place) :
    (s.reset p).value q = if q = p then none else s.value q := by
  unfold reset
  cases hp : s.value p with
  | some x => exact value_update _ _ _ _
  | none =>
      by_cases hq : q = p
      · rw [if_pos hq, hq]
        exact hp
      · rw [if_neg hq]

theorem value_construct (s : Optionals Place) (p q : Place) (source : Option Nat) :
    (s.construct p source).value q = if q = p then some s.constructed else s.value q := value_update _ _ _ _

theorem reset_destroyed (s : Optionals Place) (p : Place) :
    (s.reset p).destroyed = s.destroyed ++ (s.value p).toList := by
  unfold reset
  cases s.value p with
  | some x => rfl
  | none => exact (List.append_nil _).symm

theorem reset_frame (s : Optionals Place) (p : Place) : (s.reset p).constructed = s.constructed ∧
    (s.reset p).dangling = s.dangling ∧ (s.reset p).leaked = s.leaked := by
  unfold reset
  cases s.value p with
  | some x => exact ⟨rfl, rfl, rfl⟩
  | none => exact ⟨rfl, rfl, rfl⟩

theorem guarded_reset (s : Optionals Place) (p : Place) : (if (s.value p).isSome then s.reset p else s) = s.reset p := by
  unfold reset
  cases s.value p with
  | some x => rfl
  | none => rfl

theorem emplace_eq (s : Optionals Place) (p : Place) (source : Option Nat) :
    s.emplace p source = (s.reset p).construct p source := by rw [emplace, guarded_reset]

theorem assignValue_eq (s : Optionals Place) (p : Place) (source : Option Nat) :
    s.assignValue p source = (s.reset p).construct p source := by
  have hagain : (s.reset p).reset p = s.reset p := by
    have hempty : (s.reset p).value p = none := (value_reset s p p).trans (if_pos rfl)
    rw [reset, hempty]
  rw [assignValue, guarded_reset, emplace_eq, hagain]

theorem Sound.reset (h : s.Sound) (p : Place) : (s.reset p).Sound := by
  obtain ⟨hconstructed, _, hleaked⟩ := reset_frame s p
  have hkept : ∀ q x, (s.reset p).value q = some x → q ≠ p ∧ s.value q = some x := by
    intro q x hq
    rw [value_reset] at hq
    split at hq
    · cases hq
    · exact ⟨‹_›, hq⟩
  refine ⟨?_, ?_, ?_, ?_, ?_, ?_⟩
  · rw [reset_destroyed, List.nodup_append]
    refine ⟨h.once, ?_, ?_⟩
    · cases s.value p with
      | some x => exact List.nodup_singleton x
      | none => exact List.nodup_nil
    · rintro x hx y hy rfl
      exact h.live p x (Option.mem_toList.mp hy) hx
  · intro q x hq hx
    obtain ⟨hne, hq⟩ := hkept q x hq
    rw [reset_destroyed, List.mem_append] at hx
    rcases hx with hx | hx
    · exact h.live q x hq hx
    · exact hne (h.unique q p x hq (Option.mem_toList.mp hx))
  · intro q q' x hq hq'
    exact h.unique q q' x (hkept q x hq).2 (hkept q' x hq').2
  · intro q x hq
    rw [hconstructed]
    exact h.held_lt q x (hkept q x hq).2
  · intro x hx
    rw [reset_destroyed, List.mem_append] at hx
    rw [hconstructed]
    exact hx.elim (h.destroyed_lt x) fun hx => h.held_lt p x (Option.mem_toList.mp hx)
  · intro x hx
    rw [hconstructed] at hx
    rw [hleaked, reset_destroyed, List.mem_append]
    rcases h.accounted x hx with hx | hx | ⟨q, hq⟩
    · exact Or.inl (Or.inl hx)
    · exact Or.inr (Or.inl hx)
    · by_cases hne : q = p
      · exact Or.inl (Or.inr (Option.mem_toList.mpr (hne ▸ hq)))
      · refine Or.inr (Or.inr ⟨q, ?_⟩)
        rw [value_reset, if_neg hne]
        exact hq

theorem Sound.construct (h : s.Sound) (hempty : s.value p = none) (source : Option Nat) :
    (s.construct p source).Sound := by
  have hcases : ∀ q x, (s.construct p source).value q = some x →
      (q = p ∧ x = s.constructed) ∨ s.value q = some x := by
    intro q x hq
    rw [value_construct] at hq
    split at hq
    · exact Or.inl ⟨‹_›, (Option.some.inj hq).symm⟩
    · exact Or.inr hq
  refine ⟨h.once, ?_, ?_, ?_, ?_, ?_⟩
  · intro q x hq hx
    rcases hcases q x hq with ⟨_, rfl⟩ | hq
    · exact Nat.lt_irrefl _ (h.destroyed_lt _ hx)
    · exact h.live q x hq hx
  · intro q q' x hq hq'
    rcases hcases q x hq with ⟨rfl, rfl⟩ | hq
    · rcases hcases q' _ hq' with ⟨rfl, _⟩ | hq'
      · rfl
      · exact absurd (h.held_lt q' _ hq') (Nat.lt_irrefl _)
    · rcases hcases q' _ hq' with ⟨_, rfl⟩ | hq'
      · exact absurd (h.held_lt q _ hq) (Nat.lt_irrefl _)
      · exact h.unique q q' x hq hq'
  · intro q x hq
    rcases hcases q x hq with ⟨_, rfl⟩ | hq
    · exact Nat.lt_succ_self _
    · exact Nat.lt_succ_of_lt (h.held_lt q x hq)
  · intro x hx
    exact Nat.lt_succ_of_lt (h.destroyed_lt x hx)
  · intro x hx
    rcases Nat.eq_or_lt_of_le (Nat.le_of_lt_succ hx) with rfl | hx
    · exact Or.inr (Or.inr ⟨p, by rw [value_construct, if_pos rfl]⟩)
    · rcases h.accounted x hx with hx | hx | ⟨q, hq⟩
      · exact Or.inl hx
      · exact Or.inr (Or.inl hx)
      · have hne : q ≠ p := by
          rintro rfl
          rw [hempty] at hq
          cases hq
        exact Or.inr (Or.inr ⟨q, by rw [value_construct, if_neg hne]; exact hq⟩)

theorem Sound.vacate (h : s.Sound) (p : Place) {o : Option (Option Nat)} (ho : o.join = none) :
    Sound { s with slots := Function.update s.slots p o, leaked := s.leaked ++ (s.value p).toList } := by
  have hkept : ∀ q x, (Function.update s.slots p o q).join = some x → s.value q = some x := by
    intro q x hq
    rw [value_update, ho] at hq
    split at hq
    · cases hq
    · exact hq
  refine ⟨h.once, fun q x hq => h.live q x (hkept q x hq), ?_, fun q x hq => h.held_lt q x (hkept q x hq),
    h.destroyed_lt, ?_⟩
  · intro q q' x hq hq'
    exact h.unique q q' x (hkept q x hq) (hkept q' x hq')
  · intro x hx
    change x ∈ s.destroyed ∨ x ∈ s.leaked ++ (s.value p).toList ∨ ∃ q, (Function.update s.slots p o q).join = some x
    rw [List.mem_append]
    rcases h.accounted x hx with hx | hx | ⟨q, hq⟩
    · exact Or.inl hx
    · exact Or.inr (Or.inl (Or.inl hx))
    · by_cases hne : q = p
      · exact Or.inr (Or.inl (Or.inr (Option.mem_toList.mpr (hne ▸ hq))))
      · refine Or.inr (Or.inr ⟨q, ?_⟩)
        rw [value_update, if_neg hne]
        exact hq

theorem Sound.replace (h : s.Sound) (p : Place) (source : Option Nat) : ((s.reset p).construct p source).Sound :=
  (h.reset p).construct ((value_reset s p p).trans (if_pos rfl)) source

theorem Sound.assign (h : s.Sound) (p other : Place) : (s.assign p other).Sound := by
  unfold Optionals.assign
  cases s.value other with
  | some x =>
      dsimp only
      rw [emplace_eq]
      exact h.replace p (some x)
  | none => exact h.reset p

theorem Sound.step (h : s.Sound) {op : Op Place} (hop : s.Allowed op) : (s.step op).Sound := by
  cases op with
  | default p =>
      have hempty : s.value p = none := by
        rw [value, Option.isNone_iff_eq_none.mp hop]
        rfl
      have hnew := h.vacate p (o := some none) rfl
      rw [hempty, Option.toList_none, List.append_nil] at hnew
      exact hnew
  | reset p => exact h.reset p
  | emplace p source =>
      rw [Optionals.step, emplace_eq]
      exact h.replace p _
  | assignNullopt p => exact h.reset p
  | copyAssign p other => exact h.assign p other
  | moveAssign p other => exact h.assign p other
  | assignValue p source =>
      rw [Optionals.step, assignValue_eq]
      exact h.replace p _
  | destruct p => exact h.vacate p rfl

/-- A value is read after its destructor exactly when it is the one that is replaced. -/
theorem replace_dangling (h : s.Sound) (hq : s.value q = some x) :
    ((s.reset p).construct p (some x)).dangling = s.dangling ↔ q ≠ p := by
  have hdangling : ((s.reset p).construct p (some x)).dangling =
      s.dangling ++ [x].filter (· ∈ (s.reset p).destroyed) := by
    rw [← (reset_frame s p).2.1]
    rfl
  rw [hdangling, List.append_right_eq_self, List.filter_eq_nil_iff]
  have hgone : x ∈ (s.reset p).destroyed ↔ q = p := by
    rw [reset_destroyed, List.mem_append, Option.mem_toList]
    constructor
    · rintro (hx | hx)
      · exact absurd hx (h.live q x hq)
      · exact h.unique q p x hq hx
    · rintro rfl
      exact Or.inr hq
  simp [hgone]

theorem replace_dangling_none (s : Optionals Place) (p : Place) :
    ((s.reset p).construct p none).dangling = s.dangling := by
  change (s.reset p).dangling ++ [] = s.dangling
  rw [List.append_nil, (reset_frame s p).2.1]

theorem source_dangling (h : s.Sound) {source : Option Place} (hsource : ∀ q ∈ source, (s.value q).isSome = true) :
    ((s.reset p).construct p (source.bind s.value)).dangling = s.dangling ↔ source ≠ some p := by
  cases source with
  | none => exact iff_of_true (replace_dangling_none s p) (Option.some_ne_none p).symm
  | some q =>
      obtain ⟨x, hx⟩ := Option.isSome_iff_exists.mp (hsource q rfl)
      rw [Option.bind_some, hx, replace_dangling h hx]
      simp

theorem assign_dangling (h : s.Sound) (p other : Place) :
    (s.assign p other).dangling = s.dangling ↔ ¬ (p = other ∧ (s.value p).isSome = true) := by
  unfold Optionals.assign
  cases hother : s.value other with
  | some x =>
      dsimp only
      rw [emplace_eq, replace_dangling h hother]
      constructor
      · rintro hne ⟨rfl, _⟩
        exact hne rfl
      · rintro hown rfl
        exact hown ⟨rfl, by rw [hother]; rfl⟩
  | none =>
      refine iff_of_true (reset_frame s p).2.1 ?_
      rintro ⟨rfl, hsome⟩
      rw [hother] at hsome
      cases hsome

theorem step_dangling (h : s.Sound) {op : Op Place} (hop : s.Allowed op) :
    (s.step op).dangling = s.dangling ↔ ¬ s.ReadsOwn op := by
  cases op with
  | default p => exact iff_of_true rfl id
  | reset p => exact iff_of_true (reset_frame s p).2.1 id
  | emplace p source =>
      rw [step, emplace_eq]
      exact source_dangling h hop.2
  | assignNullopt p => exact iff_of_true (reset_frame s p).2.1 id
  | copyAssign p other => exact assign_dangling h p other
  | moveAssign p other => exact assign_dangling h p other
  | assignValue p source =>
      rw [step, assignValue_eq]
      exact source_dangling h hop.2
  | destruct p => exact iff_of_true rfl id

theorem assign_leaked (s : Optionals Place) (p other : Place) : (s.assign p other).leaked = s.leaked := by
  unfold Optionals.assign
  cases s.value other with
  | some x =>
      dsimp only
      rw [emplace_eq]
      exact (reset_frame s p).2.2
  | none => exact (reset_frame s p).2.2

theorem step_leaked (s : Optionals Place) (op : Op Place) : (s.step op).leaked = s.leaked ↔ ¬ s.Leaks op := by
  cases op with
  | default p => exact iff_of_true rfl id
  | reset p => exact iff_of_true (reset_frame s p).2.2 id
  | emplace p source =>
      rw [step, emplace_eq]
      exact iff_of_true (reset_frame s p).2.2 id
  | assignNullopt p => exact iff_of_true (reset_frame s p).2.2 id
  | copyAssign p other => exact iff_of_true (assign_leaked s p other) id
  | moveAssign p other => exact iff_of_true (assign_leaked s p other) id
  | assignValue p source =>
      rw [step, assignValue_eq]
      exact iff_of_true (reset_frame s p).2.2 id
  | destruct p =>
      change s.leaked ++ (s.value p).toList = s.leaked ↔ ¬ (s.value p).isSome = true
      cases s.value p with
      | some x => simp
      | none => simp

end

theorem run_snoc (ops : List (Op Place)) (op : Op Place) : run (ops ++ [op]) = (run ops).step op := by
  simp [run]

omit [DecidableEq Place] in
theorem sound_empty : (empty : Optionals Place).Sound where
  once := List.nodup_nil
  live := fun _ _ h => by cases h
  unique := fun _ _ _ h => by cases h
  held_lt := fun _ _ h => by cases h
  destroyed_lt := fun _ h => by cases h
  accounted := fun _ h => by cases h

theorem Legal.allowed {s : Optionals Place} {before after : List (Op Place)} {op : Op Place}
    (h : Legal s (before ++ op :: after)) : (before.foldl step s).Allowed op := by
  induction before generalizing s with
  | nil => exact h.1
  | cons first before ih => exact ih h.2

/-- The invariant of every run. -/
theorem Legal.sound {ops before : List (Op Place)} (hlegal : Legal empty ops) (hbefore : before <+: ops) :
    (run before).Sound := by
  induction before using List.reverseRecOn with
  | nil => exact sound_empty
  | append_singleton before op ih =>
      obtain ⟨after, hafter⟩ := hbefore
      rw [List.append_assoc, List.singleton_append] at hafter
      rw [run_snoc]
      have hsound := ih ⟨op :: after, hafter⟩
      rw [← hafter] at hlegal
      exact hsound.step hlegal.allowed

/-- In every sequence of allowed calls each value is in one object, destroyed once, or leaked. None is
read after its destructor exactly as long as no object is given its own value, by an assignment of the
object, of `*p`, or by `emplace`; and none leaks exactly as long as no object ends with a value in it. -/
theorem optional_lifetimes (ops : List (Op Place)) (hlegal : Legal empty ops) :
    (∀ before, before <+: ops → (run before).Sound) ∧
    ((∀ before, before <+: ops → (run before).dangling = []) ↔
      ∀ before op after, ops = before ++ op :: after → ¬ (run before).ReadsOwn op) ∧
    ((∀ before, before <+: ops → (run before).leaked = []) ↔
      ∀ before op after, ops = before ++ op :: after → ¬ (run before).Leaks op) := by
  refine ⟨fun before hbefore => hlegal.sound hbefore, ?_, ?_⟩
  · refine (forall_prefix_iff ?_).trans (and_iff_right rfl)
    intro before op after hops hnone
    rw [hops] at hlegal
    have hstep := step_dangling (hlegal.sound ⟨op :: after, rfl⟩) hlegal.allowed
    rw [run_snoc, ← hstep, hnone]
  · refine (forall_prefix_iff ?_).trans (and_iff_right rfl)
    intro before op after hops hnone
    rw [run_snoc, ← step_leaked, hnone]

/-- The value of the first object is copied to the second, which is then assigned to itself; the
first one ends with its value. -/
def selfAssigned : List (Op Nat) :=
  [.default 0, .default 1, .emplace 0 none, .copyAssign 1 0, .copyAssign 1 1, .destruct 0]

theorem optional_lifetimes_self_assigned : Legal empty selfAssigned ∧ (run selfAssigned).Sound ∧
    (run selfAssigned).dangling = [1] ∧ (run selfAssigned).leaked = [0] := by
  have hlegal : Legal empty selfAssigned := by decide
  exact ⟨hlegal, (optional_lifetimes selfAssigned hlegal).1 selfAssigned (List.prefix_refl _), by decide, by decide⟩

end Optionals

end DavOS
