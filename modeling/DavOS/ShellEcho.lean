import Mathlib.Data.List.DropRight
import DavOS.LineText
import DavOS.Shell

/-! What the terminal shows of the command being edited. The shell knows the
terminal by the characters that it writes to it, and the terminal has no use for a
backspace: it stores it as any other character. -/
namespace DavOS
open GuardedRun

def prompt : List Byte := [100, 97, 118, 79, 83, 62, 32]

namespace LineBuffer

/-- The newest line is `text`, with the column behind it and nothing but NULs from there on. -/
structure Holds (b : LineBuffer) (text : List Byte) : Prop where
  column_eq : b.column = text.length
  text_eq : ∀ k < text.length, text[k]? = some (b.currentLine k)
  rest_eq : ∀ k, text.length ≤ k → b.currentLine k = 0
  nonzero : 0 ∉ text

/-- No NUL in front of the column. -/
def Solid (b : LineBuffer) : Prop := ∀ k < b.column, b.currentLine k ≠ 0

section

variable {b : LineBuffer} {text : List Byte} {c : Byte}

theorem putChar_currentLine (b : LineBuffer) (c : Byte) :
    (b.putChar c).currentLine = Function.update b.currentLine b.column c := by
  have hslot : (b.putChar c).currentSlot = b.currentSlot := rfl
  rw [currentLine, hslot]
  exact Function.update_self ..

theorem Holds.lineText_eq (h : b.Holds text) (hle : text.length ≤ 200) : lineText b.currentLine = text := by
  apply cstring_eq_text
  · simpa using h.text_eq
  · exact h.nonzero
  · exact hle
  · intro _
    rw [Nat.zero_add]
    exact h.rest_eq _ (Nat.le_refl _)

theorem Holds.solid (h : b.Holds text) : b.Solid := by
  intro k hk hzero
  apply h.nonzero
  rw [h.column_eq] at hk
  have hcell := h.text_eq k hk
  rw [hzero] at hcell
  exact List.mem_of_getElem? hcell

theorem Holds.write (h : b.Holds text) (hroom : text.length < b.lineSize) (hc : c ≠ 0) (hchar : c ≠ newline) :
    (b.write c).2.Holds (text ++ [c]) := by
  have hfree : ¬ b.lineSize ≤ b.column := by
    rw [h.column_eq]
    omega
  rw [write_room hchar hfree]
  refine ⟨?_, ?_, ?_, ?_⟩
  · rw [List.length_append, List.length_singleton, ← h.column_eq]
    rfl
  · intro k hk
    rw [List.length_append, List.length_singleton] at hk
    rw [putChar_currentLine, h.column_eq]
    by_cases hlt : k < text.length
    · rw [List.getElem?_append_left hlt, Function.update_of_ne (Nat.ne_of_lt hlt)]
      exact h.text_eq k hlt
    · obtain rfl : k = text.length := by omega
      rw [List.getElem?_concat_length, Function.update_self]
  · intro k hk
    rw [List.length_append, List.length_singleton] at hk
    rw [putChar_currentLine, h.column_eq, Function.update_of_ne (by omega)]
    exact h.rest_eq k (by omega)
  · intro hmem
    rcases List.mem_append.mp hmem with hold | hnew
    · exact h.nonzero hold
    · exact hc (List.mem_singleton.mp hnew).symm

theorem holds_applyAll (hcolumn : b.column = 0) (hslot : ∀ k, b.currentLine k = 0) (hfits : text.length ≤ b.lineSize)
    (hzero : 0 ∉ text) (hplain : newline ∉ text) :
    (b.applyAll (text.map .write)).Holds text ∧ (b.applyAll (text.map .write)).lineSize = b.lineSize := by
  induction text using List.reverseRecOn with
  | nil => exact ⟨⟨hcolumn, fun k hk => absurd hk (Nat.not_lt_zero k), fun k _ => hslot k, List.not_mem_nil⟩, rfl⟩
  | append_singleton text c ih =>
      rw [List.length_append, List.length_singleton] at hfits
      rw [List.mem_append, List.mem_singleton, not_or] at hzero hplain
      obtain ⟨hholds, hline⟩ := ih (by omega) hzero.1 hplain.1
      have hsnoc : b.applyAll ((text ++ [c]).map .write) = ((b.applyAll (text.map .write)).write c).2 := by
        simp [applyAll, apply]
      rw [hsnoc]
      refine ⟨hholds.write (by omega) (Ne.symm hzero.2) (Ne.symm hplain.2), ?_⟩
      rw [write_lineSize, hline]

theorem Solid.putChar (h : b.Solid) (hlt : b.column < 200) (hc : c ≠ 0) :
    (b.putChar c).Solid ∧ c ∈ lineText (b.putChar c).currentLine := by
  have hcells : ∀ k ≤ b.column, (b.putChar c).currentLine (0 + k) ≠ 0 := by
    intro k hk
    rw [putChar_currentLine, Nat.zero_add]
    rcases Nat.lt_or_eq_of_le hk with hbefore | rfl
    · rw [Function.update_of_ne (Nat.ne_of_lt hbefore)]
      exact h k hbefore
    · rw [Function.update_self]
      exact hc
  constructor
  · intro k hk
    have hcell := hcells k (Nat.lt_succ_iff.mp hk)
    rwa [Nat.zero_add] at hcell
  · have hmem := mem_cstring_of_nonzero hcells hlt
    rw [putChar_currentLine, Nat.zero_add, Function.update_self, ← putChar_currentLine] at hmem
    exact hmem

theorem Solid.write (h : b.Solid) (hsize : b.lineSize ≤ 200) (hc : c ≠ 0) (hchar : c ≠ newline) :
    (b.write c).2.Solid ∧ c ∈ lineText (b.write c).2.currentLine := by
  by_cases hfull : b.lineSize ≤ b.column
  · have hwrapped : (b.wrapLine .automatic).Solid := by
      intro k hk
      rw [wrapLine_column] at hk
      exact absurd hk (Nat.not_lt_zero k)
    rw [write_wrap hchar hfull]
    exact hwrapped.putChar (by rw [wrapLine_column]; decide) hc
  · rw [write_room hchar hfull]
    exact h.putChar (Nat.lt_of_lt_of_le (Nat.lt_of_not_le hfull) hsize) hc

end

end LineBuffer

namespace Shell

/-- The prompt and the keys, with the text of the terminal beside the shell. -/
def echo (input : Nat → Byte) (b : LineBuffer) (keys : List Key) : Shell × LineBuffer :=
  keys.foldl (fun s key => ((s.1.handleKey key).1, s.2.applyAll (s.1.handleKey key).2))
    (⟨input, 0⟩, b.applyAll (prompt.map .write))

/-- All that the loop does to the terminal, the prompt first. -/
def output (input : Nat → Byte) (keys : List Key) : List TerminalOp :=
  (keys.foldl (fun s key => ((s.1.handleKey key).1, s.2 ++ (s.1.handleKey key).2))
    ((⟨input, 0⟩ : Shell), prompt.map TerminalOp.write)).2

/-- A line without the spaces at its end. -/
def trim (line : List Byte) : List Byte := line.rdropWhile fun c => c = space

/-- The current line is the prompt and the input in front of the cursor. -/
def ShowsInput (s : Shell × LineBuffer) : Prop :=
  trim (LineBuffer.lineText s.2.currentLine) = trim (prompt ++ (List.range s.1.pos.toNat).map s.1.input)

theorem mem_trim {line : List Byte} {c : Byte} (h : c ∈ line) (hc : c ≠ space) : c ∈ trim line := by
  rw [← List.rdropWhile_append_rtakeWhile (p := fun c => decide (c = space)) (l := line)] at h
  rcases List.mem_append.mp h with hkept | hdropped
  · exact hkept
  · have hspace := List.mem_rtakeWhile_imp hdropped
    exact absurd (of_decide_eq_true hspace) hc

/-- The shell and the terminal agree on the text. -/
structure Echoed (lineSize : Nat) (s : Shell × LineBuffer) (text : List Byte) : Prop where
  pos_eq : s.1.pos = text.length
  input_eq : (List.range text.length).map s.1.input = text
  plain : backspace ∉ text
  lineSize_eq : s.2.lineSize = lineSize
  holds : s.2.Holds (prompt ++ text)

section

variable {input : Nat → Byte} {b : LineBuffer} {s : Shell × LineBuffer} {keys : List Key} {text : List Byte}
  {lineSize : Nat} {c : Byte}

theorem echo_snoc (input : Nat → Byte) (b : LineBuffer) (keys : List Key) (key : Key) :
    echo input b (keys ++ [key]) = (((echo input b keys).1.handleKey key).1,
      (echo input b keys).2.applyAll ((echo input b keys).1.handleKey key).2) := by
  simp [echo]

theorem echo_run (input : Nat → Byte) (b : LineBuffer) (keys : List Key) : (echo input b keys).1 = run input keys := by
  induction keys using List.reverseRecOn with
  | nil => rfl
  | append_singleton keys key ih =>
      rw [echo_snoc, ih]
      simp [run]

theorem output_run (input : Nat → Byte) (keys : List Key) :
    keys.foldl (fun s key => ((s.1.handleKey key).1, s.2 ++ (s.1.handleKey key).2))
      ((⟨input, 0⟩ : Shell), prompt.map TerminalOp.write) = (run input keys, output input keys) := by
  refine Prod.ext ?_ rfl
  induction keys using List.reverseRecOn with
  | nil => rfl
  | append_singleton keys key ih =>
      rw [List.foldl_append]
      simp only [List.foldl_cons, List.foldl_nil, ih]
      simp [run]

theorem output_snoc (input : Nat → Byte) (keys : List Key) (key : Key) :
    output input (keys ++ [key]) = output input keys ++ ((run input keys).handleKey key).2 := by
  rw [output, List.foldl_append, output_run]
  rfl

/-- A terminal that gets this output holds the text that stands beside the shell. -/
theorem output_echo {t u : Terminal} (h : (output input keys).foldlM terminalStep t = .ok u) :
    u.lineBuffer = (echo input t.lineBuffer keys).2 := by
  rw [terminalRun_lineBuffer h]
  clear h
  induction keys using List.reverseRecOn with
  | nil => rfl
  | append_singleton keys key ih =>
      rw [echo_snoc, echo_run, output_snoc, LineBuffer.applyAll_append, ih]

theorem echoed_nil (hcolumn : b.column = 0) (hslot : ∀ k, b.currentLine k = 0) (hfits : 7 ≤ b.lineSize) :
    Echoed b.lineSize (echo input b []) [] := by
  obtain ⟨hprompt, hline⟩ := LineBuffer.holds_applyAll hcolumn hslot (show prompt.length ≤ b.lineSize from hfits)
    (by decide) (by decide)
  exact ⟨rfl, rfl, List.not_mem_nil, hline, by rw [List.append_nil]; exact hprompt⟩

theorem Echoed.index_eq (h : Echoed lineSize s text) : s.1.pos.toNat = text.length := by
  rw [h.pos_eq]
  rfl

theorem Echoed.length_le (h : Echoed lineSize s text) (hfits : 7 + s.1.pos ≤ lineSize) :
    (prompt ++ text).length ≤ lineSize := by
  rw [h.pos_eq] at hfits
  rw [List.length_append]
  change 7 + text.length ≤ lineSize
  omega

theorem Echoed.showsInput (h : Echoed lineSize s text) (hsize : lineSize ≤ 200) (hfits : 7 + s.1.pos ≤ lineSize) :
    ShowsInput s := by
  have hlength := h.length_le hfits
  rw [ShowsInput, h.holds.lineText_eq (Nat.le_trans hlength hsize), h.index_eq, h.input_eq]

theorem Echoed.type (h : Echoed lineSize s text) (hsize : lineSize ≤ 200) (hfits : 7 + s.1.pos < lineSize) (hc : c ≠ 0)
    (hchar : c ≠ newline) (hback : c ≠ backspace) :
    Echoed lineSize ((s.1.type c).1, s.2.applyAll (s.1.type c).2) (text ++ [c]) := by
  have hpos := h.pos_eq
  rw [Shell.type, if_pos (by omega), h.index_eq]
  refine ⟨?_, ?_, ?_, ?_, ?_⟩
  · rw [List.length_append, List.length_singleton, hpos]
    rfl
  · rw [List.length_append, List.length_singleton, List.range_succ, List.map_append, List.map_singleton]
    congr 1
    · refine (List.map_congr_left fun k hk => ?_).trans h.input_eq
      exact Function.update_of_ne (Nat.ne_of_lt (List.mem_range.mp hk)) ..
    · exact congrArg (· :: []) (Function.update_self ..)
  · rw [List.mem_append, List.mem_singleton, not_or]
    exact ⟨h.plain, Ne.symm hback⟩
  · exact (LineBuffer.write_lineSize ..).trans h.lineSize_eq
  · rw [← List.append_assoc]
    refine h.holds.write ?_ hc hchar
    rw [h.lineSize_eq, List.length_append]
    change 7 + text.length < lineSize
    omega

/-- A backspace in the text leaves three more characters on the terminal. -/
theorem Echoed.erase (h : Echoed lineSize s text) (hsize : lineSize ≤ 200) :
    ¬ ShowsInput ({ s.1 with pos := s.1.pos - 1 },
      s.2.applyAll [.write backspace, .write space, .write backspace]) := by
  have hsolid := h.holds.solid
  have hline : s.2.lineSize ≤ 200 := by rw [h.lineSize_eq]; exact hsize
  obtain ⟨hsolid, _⟩ := hsolid.write hline (show backspace ≠ 0 by decide) (by decide)
  obtain ⟨hsolid, _⟩ := hsolid.write (by rw [LineBuffer.write_lineSize]; exact hline)
    (show space ≠ 0 by decide) (by decide)
  obtain ⟨_, hmem⟩ := hsolid.write (by rw [LineBuffer.write_lineSize, LineBuffer.write_lineSize]; exact hline)
    (show backspace ≠ 0 by decide) (by decide)
  intro hshows
  have hshown := mem_trim hmem (by decide)
  have hsame : backspace ∈ trim (prompt ++ (List.range (s.1.pos - 1).toNat).map s.1.input) := hshows ▸ hshown
  rcases List.mem_append.mp ((List.rdropWhile_prefix _ _).subset hsame) with hprompt | htyped
  · revert hprompt
    decide
  · obtain ⟨k, hk, hchar⟩ := List.mem_map.mp htyped
    apply h.plain
    rw [← h.input_eq, ← hchar]
    refine List.mem_map_of_mem (List.mem_range.mpr ?_)
    have := List.mem_range.mp hk
    have := h.pos_eq
    omega

end

/-- Backspace and the keys that have a character, without Enter. -/
def Plain (key : Key) : Prop := ∃ code h, key = .ascii code h ∧ code ≠ newline

def erase : Key := .ascii backspace backspace_ne_zero

/-- While the input fits on its line, the line shows it at every point exactly when
no backspace has anything to erase. -/
theorem line_shows_input_iff (input : Nat → Byte) (b : LineBuffer) (keys : List Key) (hsize : b.lineSize ≤ 200)
    (hcolumn : b.column = 0) (hslot : ∀ k, b.currentLine k = 0) (hkeys : ∀ key ∈ keys, Plain key)
    (hfits : ∀ before, before <+: keys → 7 + (echo input b before).1.pos ≤ b.lineSize) :
    (∀ before, before <+: keys → ShowsInput (echo input b before)) ↔
      ∀ before key after, keys = before ++ key :: after → key = erase → (echo input b before).1.pos = 0 := by
  apply forall_prefix_iff_of_invariant (I := fun before => ∃ text, Echoed b.lineSize (echo input b before) text)
  · have hprompt := hfits [] List.nil_prefix
    have hzero : (echo input b []).1.pos = 0 := rfl
    exact ⟨[], echoed_nil hcolumn hslot (by omega)⟩
  · rintro before hbefore ⟨text, htext⟩
    exact htext.showsInput hsize (hfits before hbefore)
  · rintro before key after hsplit ⟨text, htext⟩ hempty
    obtain ⟨code, hcode, rfl, hchar⟩ := hkeys key (by rw [hsplit]; simp)
    have hnext := hfits (before ++ [.ascii code hcode])
      ⟨after, by rw [hsplit, List.append_assoc, List.singleton_append]⟩
    rw [echo_snoc] at hnext ⊢
    rw [handleKey, if_neg hchar] at hnext ⊢
    by_cases hback : code = backspace
    · subst hback
      rw [if_pos rfl, if_neg (by rw [hempty rfl]; decide)]
      exact ⟨text, htext⟩
    · rw [if_neg hback] at hnext ⊢
      dsimp only at hnext
      have hnow := hfits before ⟨_, hsplit.symm⟩
      have hmoved : ((echo input b before).1.type code).1.pos = (echo input b before).1.pos + 1 := by
        rw [Shell.type, if_pos (by omega)]
      exact ⟨text ++ [code], htext.type hsize (by omega) hcode hchar hback⟩
  · rintro before key after hsplit ⟨text, htext⟩ hshows rfl
    by_contra hne
    have hpos : 0 < (echo input b before).1.pos := by
      have := htext.pos_eq
      omega
    have herase : (echo input b before).1.handleKey Shell.erase = _ := if_pos hpos
    rw [echo_snoc, herase] at hshows
    exact htext.erase hsize hshows

/-- A backspace that finds nothing to erase, and then two letters. -/
def erasedPrompt : List Key := [erase, .ascii 108 (by decide), .ascii 115 (by decide)]

/-- In 80 columns the prompt stands alone after the backspace, and then the letters behind it. -/
theorem line_shows_input_letters :
    ShowsInput (echo (fun _ => 0) (.fresh (fun _ _ => 0) 80 25) [erase]) ∧
      ShowsInput (echo (fun _ => 0) (.fresh (fun _ _ => 0) 80 25) erasedPrompt) := by
  have hshows := (line_shows_input_iff (fun _ => 0) (.fresh (fun _ _ => 0) 80 25) erasedPrompt (by decide) rfl
    (fun _ => rfl) ?_ (by decide +kernel)).mpr (by decide +kernel)
  · exact ⟨hshows [erase] ⟨_, rfl⟩, hshows _ (List.prefix_refl _)⟩
  · simp only [erasedPrompt, List.forall_mem_cons]
    exact ⟨⟨backspace, backspace_ne_zero, rfl, by decide⟩, ⟨108, by decide, rfl, by decide⟩,
      ⟨115, by decide, rfl, by decide⟩, fun _ h => absurd h List.not_mem_nil⟩

/-- A letter and a backspace: the letter stays, with a backspace, a space and a backspace behind it. -/
theorem erased_letter_stays :
    (echo (fun _ => 0) (.fresh (fun _ _ => 0) 80 25) [.ascii 97 (by decide), erase]).1.pos = 0 ∧
    LineBuffer.lineText (echo (fun _ => 0) (.fresh (fun _ _ => 0) 80 25) [.ascii 97 (by decide), erase]).2.currentLine =
      prompt ++ [97, backspace, space, backspace] ∧
    ¬ ShowsInput (echo (fun _ => 0) (.fresh (fun _ _ => 0) 80 25) [.ascii 97 (by decide), erase]) := by
  unfold ShowsInput
  decide +kernel

end Shell

end DavOS
