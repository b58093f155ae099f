import Mathlib.Data.List.Nodup
import Mathlib.Logic.Function.Basic
import DavOS.GuardedRun

/-! `UniquePtr.hpp`: a pointer that destroys what it points to. The objects of the
program are named by where they are, and the members follow the order in which the
source destroys, releases and stores. -/
namespace DavOS
open GuardedRun

/-- The `UniquePtr` objects that are alive, each with its `m_resource`, and what
has become of the resources. -/
structure UniquePtrs (Place Resource : Type) where
  pointers : Place → Option (Option Resource)
  created : List Resource
  -- handed to the caller by a call of `release` from outside of the class
  released : List Resource
  -- in the order of the destructor calls
  destroyed : List Resource

namespace UniquePtrs

variable {Place Resource : Type} [DecidableEq Place]

/-- `m_resource` of the object, the null pointer if there is none. -/
def resource (s : UniquePtrs Place Resource) (p : Place) : Option Resource := (s.pointers p).join

def setResource (s : UniquePtrs Place Resource) (p : Place) (m : Option Resource) : UniquePtrs Place Resource :=
  { s with pointers := Function.update s.pointers p (some m) }

/-- `if (m_resource) m_resource->~Resource();` -/
def destroyResource (s : UniquePtrs Place Resource) (p : Place) : UniquePtrs Place Resource :=
  { s with destroyed := s.destroyed ++ (s.resource p).toList }

def release (s : UniquePtrs Place Resource) (p : Place) : Option Resource × UniquePtrs Place Resource :=
  (s.resource p, s.setResource p none)

def moveConstruct (s : UniquePtrs Place Resource) (p source : Place) : UniquePtrs Place Resource :=
  (s.release source).2.setResource p (s.release source).1

/-- `operator=`: the source is released only after the old resource is destroyed. -/
def moveAssign (s : UniquePtrs Place Resource) (p source : Place) : UniquePtrs Place Resource :=
  ((s.destroyResource p).release source).2.setResource p ((s.destroyResource p).release source).1

def destruct (s : UniquePtrs Place Resource) (p : Place) : UniquePtrs Place Resource :=
  { s.destroyResource p with pointers := Function.update s.pointers p none }

inductive Op (Place Resource : Type) where
  | default (p : Place)
  | create (p : Place) (resource : Resource)
  | moveConstruct (p source : Place)
  | moveAssign (p source : Place)
  | release (p : Place)
  | destruct (p : Place)
  deriving DecidableEq

def step (s : UniquePtrs Place Resource) : Op Place Resource → UniquePtrs Place Resource
  | .default p => s.setResource p none
  | .create p r => { s.setResource p (some r) with created := s.created ++ [r] }
  | .moveConstruct p source => s.moveConstruct p source
  | .moveAssign p source => s.moveAssign p source
  | .release p => { (s.release p).2 with released := s.released ++ (s.release p).1.toList }
  | .destruct p => s.destruct p

/-- No object lives where one is made, and all others named are alive; a resource is given to one pointer only. -/
def Allowed (s : UniquePtrs Place Resource) : Op Place Resource → Prop
  | .default p => (s.pointers p).isNone = true
  | .create p r => (s.pointers p).isNone = true ∧ r ∉ s.created
  | .moveConstruct p source => (s.pointers p).isNone = true ∧ (s.pointers source).isSome = true
  | .moveAssign p source => (s.pointers p).isSome = true ∧ (s.pointers source).isSome = true
  | .release p => (s.pointers p).isSome = true
  | .destruct p => (s.pointers p).isSome = true

instance [DecidableEq Resource] (s : UniquePtrs Place Resource) (op : Op Place Resource) : Decidable (s.Allowed op) :=
  match op with
  | .default _ => inferInstanceAs (Decidable (_ = _))
  | .create _ _ => inferInstanceAs (Decidable (_ ∧ _))
  | .moveConstruct _ _ => inferInstanceAs (Decidable (_ ∧ _))
  | .moveAssign _ _ => inferInstanceAs (Decidable (_ ∧ _))
  | .release _ => inferInstanceAs (Decidable (_ = _))
  | .destruct _ => inferInstanceAs (Decidable (_ = _))

/-- Each step is allowed in the state that it starts from. -/
def Legal : UniquePtrs Place Resource → List (Op Place Resource) → Prop
  | _, [] => True
  | s, op :: ops => s.Allowed op ∧ Legal (s.step op) ops

def decidableLegal [DecidableEq Resource] :
    (s : UniquePtrs Place Resource) → (ops : List (Op Place Resource)) → Decidable (Legal s ops)
  | _, [] => .isTrue trivial
  | s, op :: ops =>
      have := decidableLegal (s.step op) ops
      inferInstanceAs (Decidable (_ ∧ _))

instance [DecidableEq Resource] (s : UniquePtrs Place Resource) (ops : List (Op Place Resource)) :
    Decidable (Legal s ops) := decidableLegal s ops

def empty : UniquePtrs Place Resource := ⟨fun _ => none, [], [], []⟩

def run (ops : List (Op Place Resource)) : UniquePtrs Place Resource := ops.foldl step empty

/-- Every resource has one owner and is destroyed once. -/
structure Safe (s : UniquePtrs Place Resource) : Prop where
  once : s.destroyed.Nodup
  live : ∀ p r, s.resource p = some r → r ∉ s.destroyed
  unique : ∀ p q r, s.resource p = some r → s.resource q = some r → p = q
  complete : (∀ p, s.pointers p = none) → ∀ r ∈ s.created, r ∉ s.released → r ∈ s.destroyed

/-- What makes safety inductive: where the resources are that have been created. -/
structure Owned (s : UniquePtrs Place Resource) : Prop where
  once : s.destroyed.Nodup
  live : ∀ p r, s.resource p = some r → r ∉ s.destroyed
  unique : ∀ p q r, s.resource p = some r → s.resource q = some r → p = q
  held_created : ∀ p r, s.resource p = some r → r ∈ s.created
  destroyed_created : ∀ r ∈ s.destroyed, r ∈ s.created
  accounted : ∀ r ∈ s.created, r ∈ s.released ∨ r ∈ s.destroyed ∨ ∃ p, s.resource p = some r

/-- The step is no assignment of a pointer that holds a resource to itself. -/
def NoSelfMove (s : UniquePtrs Place Resource) : Op Place Resource → Prop
  | .moveAssign p source => p = source → s.resource p = none
  | _ => True

section

variable {s : UniquePtrs Place Resource} {p q source : Place} {r : Resource} {m : Option Resource}
  {ops : List (Op Place Resource)}

theorem run_snoc (ops : List (Op Place Resource)) (op : Op Place Resource) : run (ops ++ [op]) = (run ops).step op := by
  simp [run]

theorem Legal.allowed {before after : List (Op Place Resource)} {op : Op Place Resource}
    (h : Legal s (before ++ op :: after)) : (before.foldl step s).Allowed op := by
  induction before generalizing s with
  | nil => exact h.1
  | cons first before ih => exact ih h.2

@[simp] theorem resource_setResource (s : UniquePtrs Place Resource) (p q : Place) (m : Option Resource) :
    (s.setResource p m).resource q = if q = p then m else s.resource q := by
  change (Function.update s.pointers p (some m) q).join = _
  by_cases hq : q = p
  · rw [if_pos hq, hq, Function.update_self, Option.join_some]
  · rw [if_neg hq, Function.update_of_ne hq]
    rfl

theorem resource_destruct (s : UniquePtrs Place Resource) (p q : Place) :
    (s.destruct p).resource q = if q = p then none else s.resource q := by
  change (Function.update s.pointers p none q).join = _
  by_cases hq : q = p
  · rw [if_pos hq, hq, Function.update_self, Option.join_none]
  · rw [if_neg hq, Function.update_of_ne hq]
    rfl

theorem resource_moveConstruct (s : UniquePtrs Place Resource) (p q source : Place) :
    (s.moveConstruct p source).resource q =
      if q = p then s.resource source else if q = source then none else s.resource q := by
  unfold moveConstruct release
  rw [resource_setResource, resource_setResource]

/-- What `m_resource` becomes in an assignment: for the pointer itself it is the
resource that has just been destroyed. -/
theorem resource_moveAssign (s : UniquePtrs Place Resource) (p q source : Place) :
    (s.moveAssign p source).resource q =
      if q = p then s.resource source else if q = source then none else s.resource q :=
  resource_moveConstruct (s.destroyResource p) p q source

omit [DecidableEq Place] in
theorem resource_of_isNone (h : (s.pointers p).isNone = true) : s.resource p = none := by
  rw [resource, Option.isNone_iff_eq_none.mp h, Option.join_none]

theorem kept_of_emptied (hq : (s.setResource p none).resource q = some r) : q ≠ p ∧ s.resource q = some r := by
  rw [resource_setResource] at hq
  split at hq
  · cases hq
  · rename_i hne
    exact ⟨hne, hq⟩

omit [DecidableEq Place] in
theorem ne_of_holds (hp : s.resource p = none) (hq : s.resource q = some r) : q ≠ p := by
  rintro rfl
  rw [hp] at hq
  cases hq

omit [DecidableEq Place] in
theorem Owned.safe (h : s.Owned) : s.Safe := by
  refine ⟨h.once, h.live, h.unique, ?_⟩
  intro hnone r hr hreleased
  rcases h.accounted r hr with hr | hr | ⟨p, hp⟩
  · exact absurd hr hreleased
  · exact hr
  · rw [resource, hnone p] at hp
    cases hp

omit [DecidableEq Place] in
/-- Ownership is a matter of what the pointers hold, not of which empty ones there are. -/
theorem Owned.congr {t : UniquePtrs Place Resource} (h : s.Owned) (hres : ∀ q, t.resource q = s.resource q)
    (hcreated : t.created = s.created) (hreleased : t.released = s.released) (hdestroyed : t.destroyed = s.destroyed) :
    t.Owned := by
  obtain ⟨once, live, unique, held, gone, accounted⟩ := h
  constructor
  · rwa [hdestroyed]
  · simpa only [hres, hdestroyed] using live
  · simpa only [hres] using unique
  · simpa only [hres, hcreated] using held
  · rwa [hdestroyed, hcreated]
  · simpa only [hres, hcreated, hreleased, hdestroyed] using accounted

theorem Owned.drop (h : s.Owned) (p : Place) : ((s.destroyResource p).setResource p none).Owned := by
  have hdestroyed : ((s.destroyResource p).setResource p none).destroyed = s.destroyed ++ (s.resource p).toList := rfl
  have hkept : ∀ q r, ((s.destroyResource p).setResource p none).resource q = some r → q ≠ p ∧ s.resource q = some r :=
    fun q r => kept_of_emptied
  constructor
  · rw [hdestroyed, List.nodup_append]
    refine ⟨h.once, Option.toList_nodup _, ?_⟩
    rintro r hr r' hr' rfl
    exact h.live p r (Option.mem_toList.mp hr') hr
  · intro q r hq
    obtain ⟨hne, hq⟩ := hkept q r hq
    rw [hdestroyed, List.mem_append, not_or]
    exact ⟨h.live q r hq, fun hr => hne (h.unique q p r hq (Option.mem_toList.mp hr))⟩
  · intro q q' r hq hq'
    exact h.unique q q' r (hkept q r hq).2 (hkept q' r hq').2
  · intro q r hq
    exact h.held_created q r (hkept q r hq).2
  · intro r hr
    rw [hdestroyed, List.mem_append] at hr
    rcases hr with hr | hr
    · exact h.destroyed_created r hr
    · exact h.held_created p r (Option.mem_toList.mp hr)
  · intro r hr
    rw [hdestroyed, List.mem_append]
    rcases h.accounted r hr with hr | hr | ⟨q, hq⟩
    · exact Or.inl hr
    · exact Or.inr (Or.inl (Or.inl hr))
    · by_cases hp : q = p
      · subst hp
        exact Or.inr (Or.inl (Or.inr (Option.mem_toList.mpr hq)))
      · refine Or.inr (Or.inr ⟨q, ?_⟩)
        rw [resource_setResource, if_neg hp]
        exact hq

theorem Owned.move (h : s.Owned) (hp : s.resource p = none) (source : Place) : (s.moveConstruct p source).Owned := by
  -- who holds a resource after the move held it before it, or is the target
  have hheld : ∀ q r, (s.moveConstruct p source).resource q = some r →
      (q = p ∧ s.resource source = some r) ∨ (q ≠ p ∧ q ≠ source ∧ s.resource q = some r) := by
    intro q r hq
    rw [resource_moveConstruct] at hq
    split at hq
    · exact Or.inl ⟨by assumption, hq⟩
    · split at hq
      · cases hq
      · exact Or.inr ⟨by assumption, by assumption, hq⟩
  have hbefore : ∀ q r, (s.moveConstruct p source).resource q = some r → ∃ q', s.resource q' = some r := by
    intro q r hq
    rcases hheld q r hq with ⟨_, hr⟩ | ⟨_, _, hr⟩
    · exact ⟨source, hr⟩
    · exact ⟨q, hr⟩
  constructor
  · exact h.once
  · intro q r hq
    obtain ⟨q', hq'⟩ := hbefore q r hq
    exact h.live q' r hq'
  · intro q q' r hq hq'
    rcases hheld q r hq with ⟨rfl, hr⟩ | ⟨_, hne, hr⟩
    · rcases hheld q' r hq' with ⟨rfl, _⟩ | ⟨_, hne', hr'⟩
      · rfl
      · exact absurd (h.unique q' source r hr' hr) hne'
    · rcases hheld q' r hq' with ⟨_, hr'⟩ | ⟨_, _, hr'⟩
      · exact absurd (h.unique q source r hr hr') hne
      · exact h.unique q q' r hr hr'
  · intro q r hq
    obtain ⟨q', hq'⟩ := hbefore q r hq
    exact h.held_created q' r hq'
  · exact h.destroyed_created
  · intro r hr
    rcases h.accounted r hr with hr | hr | ⟨q, hq⟩
    · exact Or.inl hr
    · exact Or.inr (Or.inl hr)
    · refine Or.inr (Or.inr ?_)
      have hne := ne_of_holds hp hq
      by_cases hsource : q = source
      · subst hsource
        exact ⟨p, by rw [resource_moveConstruct, if_pos rfl, hq]⟩
      · exact ⟨q, by rw [resource_moveConstruct, if_neg hne, if_neg hsource, hq]⟩

theorem Owned.create (h : s.Owned) (hp : s.resource p = none) (hr : r ∉ s.created) : (s.step (.create p r)).Owned := by
  have hres : ∀ q, (s.step (.create p r)).resource q = if q = p then some r else s.resource q :=
    fun q => resource_setResource s p q (some r)
  have hcreated : (s.step (.create p r)).created = s.created ++ [r] := rfl
  -- the new pointer holds the new resource, and no other one does
  have hheld : ∀ q r', (s.step (.create p r)).resource q = some r' → (q = p ∧ r' = r) ∨ s.resource q = some r' := by
    intro q r' hq
    rw [hres] at hq
    split at hq
    · exact Or.inl ⟨by assumption, (Option.some.inj hq).symm⟩
    · exact Or.inr hq
  constructor
  · exact h.once
  · intro q r' hq
    rcases hheld q r' hq with ⟨_, rfl⟩ | hq
    · exact fun hgone => hr (h.destroyed_created _ hgone)
    · exact h.live q r' hq
  · intro q q' r' hq hq'
    rcases hheld q r' hq with ⟨rfl, rfl⟩ | hold
    · rcases hheld q' _ hq' with ⟨rfl, _⟩ | hold'
      · rfl
      · exact absurd (h.held_created q' _ hold') hr
    · rcases hheld q' r' hq' with ⟨_, rfl⟩ | hold'
      · exact absurd (h.held_created q _ hold) hr
      · exact h.unique q q' r' hold hold'
  · intro q r' hq
    rw [hcreated, List.mem_append]
    rcases hheld q r' hq with ⟨_, rfl⟩ | hq
    · exact Or.inr (List.mem_singleton_self _)
    · exact Or.inl (h.held_created q r' hq)
  · intro r' hgone
    rw [hcreated, List.mem_append]
    exact Or.inl (h.destroyed_created r' hgone)
  · intro r' hr'
    rw [hcreated, List.mem_append, List.mem_singleton] at hr'
    rcases hr' with hr' | rfl
    · rcases h.accounted r' hr' with hr' | hr' | ⟨q, hq⟩
      · exact Or.inl hr'
      · exact Or.inr (Or.inl hr')
      · have hne := ne_of_holds hp hq
        exact Or.inr (Or.inr ⟨q, by rw [hres, if_neg hne, hq]⟩)
    · exact Or.inr (Or.inr ⟨p, by rw [hres, if_pos rfl]⟩)

theorem Owned.release (h : s.Owned) (p : Place) : (s.step (.release p)).Owned := by
  have hreleased : (s.step (.release p)).released = s.released ++ (s.resource p).toList := rfl
  have hres : ∀ q, (s.step (.release p)).resource q = if q = p then none else s.resource q :=
    fun q => resource_setResource s p q none
  have hkept : ∀ q r, (s.step (.release p)).resource q = some r → s.resource q = some r :=
    fun q r hq => (kept_of_emptied hq).2
  constructor
  · exact h.once
  · exact fun q r hq => h.live q r (hkept q r hq)
  · exact fun q q' r hq hq' => h.unique q q' r (hkept q r hq) (hkept q' r hq')
  · exact fun q r hq => h.held_created q r (hkept q r hq)
  · exact h.destroyed_created
  · intro r hr
    rw [hreleased, List.mem_append]
    rcases h.accounted r hr with hr | hr | ⟨q, hq⟩
    · exact Or.inl (Or.inl hr)
    · exact Or.inr (Or.inl hr)
    · by_cases hp : q = p
      · subst hp
        exact Or.inl (Or.inr (Option.mem_toList.mpr hq))
      · exact Or.inr (Or.inr ⟨q, by rw [hres, if_neg hp, hq]⟩)

theorem Owned.assign (h : s.Owned) (hne : p ≠ source) : (s.moveAssign p source).Owned := by
  have hempty : ((s.destroyResource p).setResource p none).resource p = none := by
    rw [resource_setResource, if_pos rfl]
  refine ((h.drop p).move hempty source).congr ?_ rfl rfl rfl
  intro q
  rw [resource_moveAssign, resource_moveConstruct, resource_setResource, resource_setResource, if_neg hne.symm]
  by_cases hq : q = p
  · rw [if_pos hq, if_pos hq]
    rfl
  · rw [if_neg hq, if_neg hq, if_neg hq]
    rfl

theorem Owned.assign_self (h : s.Owned) (hp : s.resource p = none) : (s.moveAssign p p).Owned := by
  refine h.congr ?_ rfl rfl ?_
  · intro q
    rw [resource_moveAssign]
    by_cases hq : q = p
    · rw [if_pos hq, hq]
    · rw [if_neg hq, if_neg hq]
  · change s.destroyed ++ (s.resource p).toList = s.destroyed
    rw [hp, Option.toList_none, List.append_nil]

theorem Owned.step (h : s.Owned) {op : Op Place Resource} (hallowed : s.Allowed op) (hmove : s.NoSelfMove op) :
    (s.step op).Owned := by
  cases op with
  | default p =>
      refine h.congr (fun q => ?_) rfl rfl rfl
      have hnone := resource_of_isNone hallowed
      change (s.setResource p none).resource q = s.resource q
      rw [resource_setResource]
      split
      · rename_i hq
        rw [hq, hnone]
      · rfl
  | create p r => exact h.create (resource_of_isNone hallowed.1) hallowed.2
  | moveConstruct p source => exact h.move (resource_of_isNone hallowed.1) source
  | moveAssign p source =>
      by_cases hself : p = source
      · subst hself
        exact h.assign_self (hmove rfl)
      · exact h.assign hself
  | release p => exact h.release p
  | destruct p =>
      refine (h.drop p).congr (fun q => ?_) rfl rfl rfl
      change (s.destruct p).resource q = _
      rw [resource_destruct, resource_setResource]
      rfl

omit [DecidableEq Place] in
theorem owned_empty : (empty : UniquePtrs Place Resource).Owned where
  once := List.nodup_nil
  live := fun _ _ h => by cases h
  unique := fun _ _ _ h => by cases h
  held_created := fun _ _ h => by cases h
  destroyed_created := fun _ h => by cases h
  accounted := fun _ h => by cases h

/-- After an assignment to itself a pointer holds the resource that it has destroyed. -/
theorem not_safe_self_move (hp : s.resource p = some r) : ¬ (s.moveAssign p p).Safe := by
  intro hsafe
  refine hsafe.live p r ?_ ?_
  · rw [resource_moveAssign, if_pos rfl, hp]
  · change r ∈ s.destroyed ++ (s.resource p).toList
    rw [hp]
    exact List.mem_append_right _ (List.mem_singleton_self r)

end

/-- In every sequence of allowed steps, each resource has one owner and is destroyed
once exactly as long as no pointer that holds a resource is assigned to itself. -/
theorem resources_destroyed_once_iff (ops : List (Op Place Resource)) (hlegal : Legal empty ops) :
    (∀ before, before <+: ops → (run before).Safe) ↔
      ∀ before op after, ops = before ++ op :: after → (run before).NoSelfMove op := by
  refine forall_prefix_iff_of_invariant (I := fun before => (run before).Owned) owned_empty
    (fun _ _ h => h.safe) ?_ ?_
  · intro before op after hops h hmove
    rw [hops] at hlegal
    rw [run_snoc]
    exact h.step hlegal.allowed hmove
  · intro before op after _ _ hsafe
    rw [run_snoc] at hsafe
    cases op with
    | moveAssign p source =>
        rintro rfl
        cases hp : (run before).resource p with
        | none => rfl
        | some r => exact absurd hsafe (not_safe_self_move hp)
    | _ => trivial

/-- A pointer is assigned from another one, whose resource is then released. -/
def assignAndRelease : List (Op Nat Nat) :=
  [.create 0 100, .create 1 101, .moveAssign 0 1, .release 0, .destruct 1, .destruct 0]

theorem resources_destroyed_once_assigned : Legal empty assignAndRelease ∧ (run assignAndRelease).Safe ∧
    (run assignAndRelease).destroyed = [100] ∧ (run assignAndRelease).released = [101] := by
  have hlegal : Legal empty assignAndRelease := by decide
  refine ⟨hlegal, ?_, by decide, by decide⟩
  refine (resources_destroyed_once_iff assignAndRelease hlegal).mpr ?_ assignAndRelease (List.prefix_refl _)
  intro before op after hops
  cases op with
  | moveAssign p source =>
      have hmem : Op.moveAssign p source ∈ assignAndRelease := by simp [hops]
      rintro rfl
      simp [assignAndRelease] at hmem
      omega
  | _ => trivial

/-- `p = std::move(p)`, and then the end of `p`. -/
def selfMove : List (Op Nat Nat) := [.create 0 100, .moveAssign 0 0, .destruct 0]

/-- The resource is destroyed twice. -/
theorem self_move_destroys_twice : Legal empty selfMove ∧ (run selfMove).destroyed = [100, 100] ∧
    ¬ (run selfMove).Safe := by
  refine ⟨by decide, by decide, fun hsafe => ?_⟩
  have honce := hsafe.once
  revert honce
  decide

end UniquePtrs

end DavOS
