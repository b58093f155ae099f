import Mathlib.Logic.Function.Basic
import DavOS.GuardedRun

/-! Memory as a program sees it. A store of words, however it is laid out, cannot be
told apart from one flat array if no access ever changes a word that is known at
another address. What the words were before the first access to them is left open. -/
namespace FlatMemory
open GuardedRun

variable {K V σ ε : Type*}

inductive Access (K V : Type*) where
  | load (address : K)
  | store (address : K) (word : V)

def Access.address : Access K V → K
  | .load address => address
  | .store address _ => address

section Flat

variable [DecidableEq K]

/-- An access to a flat array: the array after it, and the word that was read or stored. -/
def flatAccess (m : K → V) : Access K V → (K → V) × V
  | .load address => (m, m address)
  | .store address word => (Function.update m address word, word)

def replies : (K → V) → List (Access K V) → List V
  | _, [] => []
  | m, a :: as => (flatAccess m a).2 :: replies (flatAccess m a).1 as

end Flat

/-- A step that also returns a word, with the words so far. -/
def logged {α : Type*} (step : σ → α → Except ε (σ × V)) (s : σ × List V) (a : α) : Except ε (σ × List V) := do
  let (t, v) ← step s.1 a
  return (t, s.2 ++ [v])

/-- An access from `s` to `t` that returns `v`, for a store that knows the words
`content`: the word at its address is known afterwards, and no other is forgotten. -/
structure Remembers (content : σ → K → Option V) (s t : σ) (a : Access K V) (v : V) : Prop where
  known : content t a.address = some v
  loaded : ∀ address, a = .load address → ∀ w, content s address = some w → v = w
  stored : ∀ address w, a = .store address w → v = w
  kept : ∀ k w, k ≠ a.address → content s k = some w → content t k = some w

theorem Remembers.after {content : σ → K → Option V} {s t u : σ} {a : Access K V} {v : V}
    (h : Remembers content t u a v) (hkeep : ∀ k w, content s k = some w → content t k = some w) :
    Remembers content s u a v :=
  ⟨h.known, fun address haddress w hw => h.loaded address haddress w (hkeep _ _ hw), h.stored,
    fun k w hne hk => h.kept k w hne (hkeep k w hk)⟩

variable [DecidableEq K] {step : σ → Access K V → Except ε (σ × V)} {ok : σ → Access K V → Prop}
  {content : σ → K → Option V} {I : σ → Prop}

/-- One access, seen from behind: a flat array that agrees with what is known after
the access comes from one that agrees with what was known before it. -/
theorem Remembers.flat {s t : σ} {a : Access K V} {v : V} (h : Remembers content s t a v) {m : K → V}
    (hm : ∀ k w, content t k = some w → m k = w) :
    ∃ m₀, (∀ k w, content s k = some w → m₀ k = w) ∧ flatAccess m₀ a = (m, v) := by
  have hv : m a.address = v := hm _ _ h.known
  cases a with
  | load address =>
      refine ⟨m, fun k w hk => ?_, Prod.ext rfl hv⟩
      by_cases haddress : k = address
      · rw [haddress] at hk ⊢
        exact hv.trans (h.loaded address rfl w hk)
      · exact hm k w (h.kept k w haddress hk)
  | store address word =>
      obtain rfl : v = word := h.stored address word rfl
      refine ⟨Function.update m address ((content s address).getD v), fun k w hk => ?_, ?_⟩
      · by_cases haddress : k = address
        · rw [haddress, Function.update_self, ← haddress, hk]
          rfl
        · rw [Function.update_of_ne haddress]
          exact hm k w (h.kept k w haddress hk)
      · refine Prod.ext ?_ rfl
        change Function.update (Function.update m address _) address v = m
        rw [Function.update_idem, ← hv]
        exact Function.update_eq_self _ _

theorem replies_of_remembers [Inhabited V]
    (hstep : ∀ s a t v, I s → ok s a → step s a = .ok (t, v) → I t ∧ Remembers content s t a v)
    {s t : σ × List V} {as : List (Access K V)} (h : Run (logged step) (fun s a => ok s.1 a) s as t) (hs : I s.1) :
    I t.1 ∧ ∃ m, (∀ k w, content s.1 k = some w → m k = w) ∧ t.2 = s.2 ++ replies m as := by
  induction h with
  | nil s =>
      -- any array with the known words will do
      refine ⟨hs, fun k => (content s.1 k).getD default, fun k w hk => ?_, (List.append_nil _).symm⟩
      exact congrArg (Option.getD · default) hk
  | @cons s t u a as ha hb _ ih =>
      cases hstep' : step s.1 a with
      | error e =>
          rw [logged, hstep'] at hb
          cases hb
      | ok reply =>
          obtain ⟨t', v⟩ := reply
          rw [logged, hstep'] at hb
          cases hb
          obtain ⟨ht, hremembers⟩ := hstep s.1 a t' v hs ha hstep'
          obtain ⟨hu, m, hm, hreplies⟩ := ih ht
          obtain ⟨m₀, hm₀, hflat⟩ := hremembers.flat hm
          refine ⟨hu, m₀, hm₀, ?_⟩
          rw [hreplies, replies, hflat, List.append_assoc, List.singleton_append]

end FlatMemory
