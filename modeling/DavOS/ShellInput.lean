import DavOS.Shell

/-! What a command depends on. The loop follows the editor, and so depends on the
keys alone, as long as the right arrow does not take the cursor past the text: there
it goes on through what the array held before. -/
namespace DavOS
open GuardedRun

namespace Shell

/-- The array holds the text of the editor, and behind it what it held at the prompt. -/
structure Follows (input : Nat → Byte) (s : Shell) (e : Editor) : Prop where
  pos_eq : s.pos = e.cursor
  text_eq : ∀ i < e.text.length, e.text[i]? = some (s.input i)
  rest_eq : ∀ i, e.text.length ≤ i → s.input i = input i

/-- A key that takes the cursor no farther than the text. -/
def Inside (e : Editor) (key : Key) : Prop := key = .rightArrow → e.cursor < e.text.length ∨ e.cursor = 255

instance (e : Editor) (key : Key) : Decidable (Inside e key) := inferInstanceAs (Decidable (_ → _))

section

variable {input : Nat → Byte} {s : Shell} {e : Editor} {key : Key}

theorem Follows.index_eq (h : s.Follows input e) : s.pos.toNat = e.cursor := by
  rw [h.pos_eq]
  rfl

theorem Follows.type (h : s.Follows input e) {c : Byte} (hc : c ≠ 0) : (s.type c).1.Follows input (e.type c hc) := by
  by_cases hroom : e.cursor < 255
  · have hpos : s.pos < 256 - 1 := by
      rw [h.pos_eq]
      omega
    rw [Shell.type, if_pos hpos, Editor.type, dif_pos hroom, h.index_eq]
    refine ⟨?_, ?_, ?_⟩
    · rw [h.pos_eq]
      rfl
    · intro i hi
      rcases eq_or_ne i e.cursor with rfl | hne
      · rw [getElem?_overwrite_self e.cursor_le]
        simp
      · dsimp only at hi ⊢
        rw [length_overwrite e.cursor_le] at hi
        rw [getElem?_overwrite e.cursor_le hne, Function.update_of_ne hne]
        have := e.cursor_le
        exact h.text_eq i (by omega)
    · intro i hi
      dsimp only at hi ⊢
      rw [length_overwrite e.cursor_le] at hi
      rw [Function.update_of_ne (by omega)]
      exact h.rest_eq i (by omega)
  · have hpos : ¬ s.pos < 256 - 1 := by
      rw [h.pos_eq]
      omega
    rw [Shell.type, if_neg hpos, Editor.type, dif_neg hroom]
    exact h

theorem Follows.left (h : s.Follows input e) {out : List TerminalOp} :
    (if 0 < s.pos then (({ s with pos := s.pos - 1 }, out) : Shell × List TerminalOp) else (s, [])).1.Follows input
      e.left := by
  split
  · rename_i hpos
    refine ⟨?_, h.text_eq, h.rest_eq⟩
    have := h.pos_eq
    dsimp only [Editor.left]
    omega
  · rename_i hpos
    refine ⟨?_, h.text_eq, h.rest_eq⟩
    have := h.pos_eq
    dsimp only [Editor.left]
    omega

theorem Follows.right (h : s.Follows input e) (hinside : Inside e .rightArrow) :
    (s.handleKey .rightArrow).1.Follows input e.right := by
  have hlength := e.length_le
  have hle := e.cursor_le
  rw [handleKey, Editor.right]
  by_cases hlt : e.cursor < e.text.length
  · have hchar := h.text_eq e.cursor hlt
    have hne : s.input s.pos.toNat ≠ 0 := by
      rw [h.index_eq]
      intro hzero
      rw [hzero] at hchar
      exact e.nonzero (List.mem_of_getElem? hchar)
    rw [if_pos ⟨by rw [h.pos_eq]; omega, hne⟩, dif_pos hlt]
    exact ⟨congrArg (· + 1) h.pos_eq, h.text_eq, h.rest_eq⟩
  · have hend := (hinside rfl).resolve_left hlt
    rw [if_neg (by rw [h.pos_eq]; omega), dif_neg hlt]
    exact h

/-- One round of the loop is one step of the editor. -/
theorem Follows.handleKey (h : s.Follows input e) (henter : key ≠ .enter) (hinside : Inside e key) :
    (s.handleKey key).1.Follows input (e.handleKey key) := by
  cases key with
  | none => exact h
  | upArrow => exact h
  | downArrow => exact h
  | leftArrow => exact h.left
  | rightArrow => exact h.right hinside
  | function n => exact h.type (functionChar_ne_zero n)
  | ascii code hcode =>
      have hchar : code ≠ newline := by
        rintro rfl
        exact henter rfl
      rw [Shell.handleKey, if_neg hchar, Editor.handleKey]
      split
      · exact h.left
      · exact h.type hcode

theorem Follows.submit (h : s.Follows input e) :
    (cstring (s.handleKey .enter).1.input 0 256, (s.handleKey .enter).1.pos) = e.command := by
  have hstored : (s.handleKey .enter).1 = ⟨Function.update s.input e.cursor 0, s.pos⟩ := by
    rw [← h.index_eq]
    rfl
  have hle := e.cursor_le
  have hlength : (e.text.take e.cursor).length = e.cursor := by
    rw [List.length_take]
    omega
  have htext : cstring (Function.update s.input e.cursor 0) 0 256 = e.text.take e.cursor := by
    apply cstring_eq_text
    · intro k hk
      rw [hlength] at hk
      rw [List.getElem?_take_of_lt hk, Nat.zero_add, Function.update_of_ne (Nat.ne_of_lt hk)]
      exact h.text_eq k (by omega)
    · exact fun hmem => e.nonzero (List.mem_of_mem_take hmem)
    · have := e.length_le
      omega
    · intro _
      rw [hlength, Nat.zero_add, Function.update_self]
  rw [hstored, Editor.command, ← htext, ← h.pos_eq]

end

/-! ### Whole inputs -/

section

variable {input : Nat → Byte} {keys : List Key}

theorem run_snoc (input : Nat → Byte) (keys : List Key) (key : Key) :
    run input (keys ++ [key]) = ((run input keys).handleKey key).1 := by
  simp [run]

theorem editor_run_snoc (keys : List Key) (key : Key) :
    Editor.run (keys ++ [key]) = (Editor.run keys).handleKey key := by
  simp [Editor.run]

theorem Follows.command_eq (h : (run input keys).Follows input (Editor.run keys)) :
    command input keys = (Editor.run keys).command := by
  rw [command, run_snoc]
  exact h.submit

/-- Past the text, the right arrow moves the cursor in an array of ones and not in one of NULs. -/
theorem inside_of_command_eq (hkeys : ∀ input, (run input keys).Follows input (Editor.run keys))
    (hsame : ∀ input input', command input (keys ++ [.rightArrow]) = command input' (keys ++ [.rightArrow])) :
    Inside (Editor.run keys) .rightArrow := by
  intro _
  by_contra hpast
  obtain ⟨hend, hroom⟩ := not_or.mp hpast
  have hle := (Editor.run keys).cursor_le
  have hlength := (Editor.run keys).length_le
  have hlast : ∀ input : Nat → Byte,
      (run input keys).input (run input keys).pos.toNat = input (Editor.run keys).cursor := by
    intro input
    rw [(hkeys input).pos_eq]
    exact (hkeys input).rest_eq _ (by omega)
  have hpos : ∀ input : Nat → Byte, (command input (keys ++ [.rightArrow])).2 =
      if input (Editor.run keys).cursor ≠ 0 then (Editor.run keys).cursor + 1 else (Editor.run keys).cursor := by
    intro input
    have hmove : run input (keys ++ [.rightArrow]) = ((run input keys).handleKey .rightArrow).1 := run_snoc ..
    rw [command, run_snoc, hmove]
    change ((run input keys).handleKey .rightArrow).1.pos = _
    rw [handleKey, hlast input]
    by_cases hne : input (Editor.run keys).cursor ≠ 0
    · rw [if_pos ⟨by rw [(hkeys input).pos_eq]; omega, hne⟩, if_pos hne]
      exact congrArg (· + 1) (hkeys input).pos_eq
    · rw [if_neg fun h => hne h.2, if_neg hne]
      exact (hkeys input).pos_eq
  have := congrArg Prod.snd (hsame (fun _ => 1) fun _ => 0)
  rw [hpos, hpos, if_pos (by decide), if_neg (by decide)] at this
  omega

theorem handleKey_pos (s : Shell) (key : Key) (h : 0 ≤ s.pos ∧ s.pos ≤ 255) :
    0 ≤ (s.handleKey key).1.pos ∧ (s.handleKey key).1.pos ≤ 255 := by
  have htype (c : Byte) : 0 ≤ (s.type c).1.pos ∧ (s.type c).1.pos ≤ 255 := by
    unfold type
    split
    · dsimp only
      omega
    · exact h
  cases key with
  | none => exact h
  | upArrow => exact h
  | downArrow => exact h
  | function n => exact htype _
  | leftArrow =>
      rw [handleKey]
      split
      · dsimp only
        omega
      · exact h
  | rightArrow =>
      rw [handleKey]
      split
      · dsimp only
        omega
      · exact h
  | ascii code hcode =>
      rw [handleKey]
      split
      · exact h
      · split
        · split
          · dsimp only
            omega
          · exact h
        · exact htype code

theorem run_pos (input : Nat → Byte) (keys : List Key) : 0 ≤ (run input keys).pos ∧ (run input keys).pos ≤ 255 := by
  induction keys using List.reverseRecOn with
  | nil =>
      change 0 ≤ (0 : Int) ∧ (0 : Int) ≤ 255
      omega
  | append_singleton keys key ih =>
      rw [run_snoc]
      exact handleKey_pos _ key ih

theorem follows_nil (input : Nat → Byte) : (run input []).Follows input (Editor.run []) :=
  ⟨rfl, fun _ hi => absurd hi (Nat.not_lt_zero _), fun _ _ => rfl⟩

end

/-- The index stays within the array. At every point of the input, the command
depends on the keys alone exactly when no right arrow is pressed at the end of the
text typed so far, short of the end of the array. -/
theorem command_independent_iff (keys : List Key) (henter : Key.enter ∉ keys) :
    (∀ input before, before <+: keys ++ [.enter] → 0 ≤ (run input before).pos ∧ (run input before).pos ≤ 255) ∧
      ((∀ before, before <+: keys → ∀ input input', command input before = command input' before) ↔
        ∀ before key after, keys = before ++ key :: after → Inside (Editor.run before) key) := by
  refine ⟨fun input before _ => run_pos input before, ?_⟩
  apply forall_prefix_iff_of_invariant
    (I := fun before => ∀ input, (run input before).Follows input (Editor.run before))
  · exact follows_nil
  · intro before _ hfollows input input'
    rw [(hfollows input).command_eq, (hfollows input').command_eq]
  · intro before key after hsplit hfollows hinside input
    have hkey : key ≠ .enter := by
      rintro rfl
      exact henter (by rw [hsplit]; simp)
    rw [run_snoc, editor_run_snoc]
    exact (hfollows input).handleKey hkey hinside
  · rintro before key after _ hfollows hsame rfl
    exact inside_of_command_eq hfollows hsame rfl

/-- Three letters, back to the first, another letter over it, and on past the second. -/
def overwritten : List Key :=
  [.ascii 97 (by decide), .ascii 98 (by decide), .ascii 99 (by decide), .leftArrow, .leftArrow, .leftArrow,
    .ascii 100 (by decide), .rightArrow, .ascii backspace (by decide), .rightArrow]

/-- An array of NULs and one of letters give the same command. -/
theorem command_independent_overwritten :
    command (fun _ => 0) overwritten = command (fun _ => 65) overwritten :=
  (command_independent_iff overwritten (by decide)).2.mpr (by decide +kernel) _ (List.prefix_refl _) _ _

/-- The right arrow and Enter, right after the prompt: the command is a letter that an
earlier command left in the array. -/
theorem command_takes_old_letter :
    command (fun _ => 0) [.rightArrow] = ([], 0) ∧
      command (fun i => if i = 0 then 65 else 0) [.rightArrow] = ([65], 1) := by
  decide +kernel

end Shell

end DavOS
