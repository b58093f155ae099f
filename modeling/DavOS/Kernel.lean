import DavOS.MachineWord

/-! What every kernel function shares: how it can fail to return, and the
constants of `kernel/constants.h`. -/
namespace DavOS

/-- The ways a call does not return: `kernel_panic` prints its text and halts
the machine; a loop whose test never fails runs for ever. -/
inductive Stop where
  | panic (message : String)
  | hang
  deriving DecidableEq, Repr

namespace kernelConstants

abbrev pageSize : Nat := 0x1000

abbrev frameSize : Nat := 0x1000

end kernelConstants

/-- A loop that the model gave up on is a loop that never ends. -/
def orHang {α : Type} : Option α → Except Stop α
  | some a => .ok a
  | none => .error .hang

@[simp] theorem orHang_some {α : Type} (a : α) : orHang (some a) = .ok a := rfl

theorem orHang_ok {α : Type} {x : Option α} {a : α} (h : orHang x = .ok a) : x = some a := by
  cases x with
  | none => cases h
  | some b => exact congrArg some (Except.ok.inj h)

theorem bind_ok {α β : Type} {x : Except Stop α} {f : α → Except Stop β} {b : β}
    (h : (x >>= f) = .ok b) : ∃ a, x = .ok a ∧ f a = .ok b := by
  cases x with
  | error e => cases h
  | ok a => exact ⟨a, rfl, h⟩

theorem foldlM_snoc {σ α : Type} {step : σ → α → Except Stop σ} {s t u : σ} {a : α} {as : List α}
    (h : as.foldlM step s = .ok t) (ha : step t a = .ok u) : (as ++ [a]).foldlM step s = .ok u := by
  rw [List.foldlM_append, h]
  change (step t a >>= fun t => [].foldlM step t) = .ok u
  rw [ha]
  rfl

theorem foldlM_keeps {σ α β : Type} {step : σ → α → Except Stop σ} (f : σ → β) {as : List α}
    (hstep : ∀ s, ∀ a ∈ as, ∀ t, step s a = .ok t → f t = f s) {s t : σ} (h : as.foldlM step s = .ok t) :
    f t = f s := by
  induction as generalizing s with
  | nil =>
      cases h
      rfl
  | cons a as ih =>
      rw [List.foldlM_cons] at h
      obtain ⟨u, hu, hrest⟩ := bind_ok h
      rw [ih (fun s b hb => hstep s b (List.mem_cons_of_mem a hb)) hrest]
      exact hstep s a List.mem_cons_self u hu

end DavOS
