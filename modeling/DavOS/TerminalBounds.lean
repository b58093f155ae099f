import DavOS.LineViewport
import DavOS.TerminalPaint

/-! Whether the terminal paints outside of the framebuffer. A repaint never does.
A character that is painted at the cursor does once the cursor has come to stand
farther right than the column it is stored in, or in the rest of a row at the
bottom edge. -/
namespace DavOS
open Raster GuardedRun

namespace LineBuffer

/-- Nothing is stored behind the end of a line, and no line break anywhere. -/
structure Tidy (b : LineBuffer) : Prop where
  valid : b.Valid
  visible_pos : 1 ≤ b.visibleLines
  lineSize_pos : 1 ≤ b.lineSize
  margin : ∀ slot column, b.lineSize ≤ column → b.lines slot column = 0
  plain : ∀ slot column, b.lines slot column ≠ newline

/-- A line break that moves the viewport. -/
def ViewportMoves (b : LineBuffer) (c : Byte) : Prop := (b.scrolled c).firstVisible ≠ b.firstVisible

instance (b : LineBuffer) (c : Byte) : Decidable (b.ViewportMoves c) := inferInstanceAs (Decidable (_ ≠ _))

section

variable {b : LineBuffer} {c : Byte}

theorem tidy_fresh {lineSize visible : Nat} (hline : 1 ≤ lineSize) (hvisible : 1 ≤ visible) :
    (fresh (fun _ _ => 0) lineSize visible).Tidy := by
  refine ⟨valid_fresh _ _ _, ?_, ?_, fun _ _ _ => rfl, fun _ _ => newline_ne_zero.symm⟩
  · change 1 ≤ min visible 256
    omega
  · change 1 ≤ min lineSize 200
    omega

@[simp] theorem scrollDown_lineSize (b : LineBuffer) (n : Int) : (b.scrollDown n).lineSize = b.lineSize := by
  unfold scrollDown
  split <;> rfl

@[simp] theorem scrollDown_visibleLines (b : LineBuffer) (n : Int) :
    (b.scrollDown n).visibleLines = b.visibleLines := by
  unfold scrollDown
  split <;> rfl

@[simp] theorem scrollDown_lines (b : LineBuffer) (n : Int) : (b.scrollDown n).lines = b.lines := by
  unfold scrollDown
  split <;> rfl

theorem Tidy.scrollDown (h : b.Tidy) (n : Int) : (b.scrollDown n).Tidy := by
  refine ⟨h.valid.scrollDown n, ?_, ?_, ?_, ?_⟩
  · rw [scrollDown_visibleLines]
    exact h.visible_pos
  · rw [scrollDown_lineSize]
    exact h.lineSize_pos
  · rw [scrollDown_lineSize, scrollDown_lines]
    exact h.margin
  · rw [scrollDown_lines]
    exact h.plain

theorem clear_lines (b : LineBuffer) (slot column : Nat) :
    b.clear.lines slot column = if slot = 0 then 0 else b.lines slot column := by
  split
  · rename_i hslot
    rw [hslot]
    exact congrFun (Function.update_self 0 (fun _ => 0) b.lines) column
  · rename_i hslot
    exact congrFun (Function.update_of_ne hslot (fun _ => 0) b.lines) column

theorem putChar_lines (b : LineBuffer) (c : Byte) (slot column : Nat) :
    (b.putChar c).lines slot column =
      if slot = b.currentSlot ∧ column = b.column then c else b.lines slot column := by
  by_cases hslot : slot = b.currentSlot
  · subst hslot
    simp [putChar, Function.update_apply]
  · simp [putChar, hslot]

theorem Tidy.clear (h : b.Tidy) : b.clear.Tidy := by
  refine ⟨⟨Nat.succ_pos 255, Nat.le_refl 1, Nat.succ_le_succ (Nat.zero_le 255), fun _ => rfl, Nat.one_pos,
    h.valid.lineSize_le, h.valid.visible_le⟩, h.visible_pos, h.lineSize_pos, ?_, ?_⟩
  · intro slot column hcolumn
    rw [clear_lines, h.margin slot column hcolumn, ite_self]
  · intro slot column
    rw [clear_lines]
    split
    · exact newline_ne_zero.symm
    · exact h.plain slot column

theorem write_lines (h : 1 ≤ b.lineSize) (slot column : Nat) :
    (b.write c).2.lines slot column = b.lines slot column ∨
      (b.write c).2.lines slot column = c ∧ c ≠ newline ∧ column < b.lineSize := by
  by_cases hchar : c = newline
  · rw [hchar, write_newline, wrapLine_lines]
    exact Or.inl rfl
  · by_cases hfull : b.lineSize ≤ b.column
    · rw [write_wrap hchar hfull, putChar_lines, wrapLine_lines, wrapLine_column]
      split
      · rename_i hcell
        exact Or.inr ⟨rfl, hchar, by omega⟩
      · exact Or.inl rfl
    · rw [write_room hchar hfull, putChar_lines]
      split
      · rename_i hcell
        exact Or.inr ⟨rfl, hchar, by omega⟩
      · exact Or.inl rfl

theorem Tidy.write (h : b.Tidy) (c : Byte) : (b.write c).2.Tidy := by
  obtain ⟨_, _, _, hvisible, hline⟩ := write_viewport b c
  refine ⟨h.valid.write h.visible_pos c, hvisible ▸ h.visible_pos, hline ▸ h.lineSize_pos, ?_, ?_⟩
  · intro slot column hcolumn
    rw [hline] at hcolumn
    rcases write_lines h.lineSize_pos slot column with hsame | ⟨_, _, hlt⟩
    · rw [hsame]
      exact h.margin slot column hcolumn
    · omega
  · intro slot column
    rcases write_lines h.lineSize_pos slot column with hsame | ⟨hstored, hchar, _⟩
    · rw [hsame]
      exact h.plain slot column
    · rw [hstored]
      exact hchar

theorem needsViewportRedraw_iff (b : LineBuffer) (c : Byte) :
    (b.write c).1.needsViewportRedraw = true ↔ b.ViewportMoves c := by
  rw [ViewportMoves, ← (write_viewport b c).2.2.1]
  exact decide_eq_true_iff

theorem Tidy.fits (h : b.Tidy) {width height : Nat} (hwidth : 8 * b.lineSize ≤ width)
    (hheight : 16 * b.visibleLines ≤ height) : FitsOn b.visibleText width height := by
  have hline : ∀ text ∈ b.visibleText, ∃ slot, text = cstring (b.lines slot) 0 maxColumns := by
    intro text hmem
    obtain ⟨index, _, rfl⟩ := List.mem_map.mp hmem
    exact ⟨_, rfl⟩
  refine ⟨?_, ?_, ?_⟩
  · have hlast := h.valid.lastVisibleLineIndex_eq h.visible_pos
    have hlength : b.visibleText.length = b.lastVisibleLineIndex + 1 - b.firstVisibleLineIndex := by
      rw [visibleText, List.length_map, upTo, List.length_range']
    rw [hlength]
    have := h.visible_pos
    omega
  · intro text hmem
    obtain ⟨slot, rfl⟩ := hline text hmem
    have hlength : (cstring (b.lines slot) 0 maxColumns).length ≤ b.lineSize :=
      cstring_length_le_of_zero (h.margin slot _ (by omega))
    omega
  · intro text hmem hbreak
    obtain ⟨slot, rfl⟩ := hline text hmem
    obtain ⟨_, column, _, _, hcell⟩ := mem_cstring hbreak
    exact h.plain slot column hcell

theorem Tidy.first_le_last (h : b.Tidy) : b.firstVisibleLineIndex ≤ b.lastVisibleLineIndex := by
  have := h.valid.firstVisibleLineIndex_le
  have := h.visible_pos
  rw [h.valid.lastVisibleLineIndex_eq h.visible_pos]
  omega

end

end LineBuffer

namespace Terminal

/-- The terminal after a character is stored, before it is painted. -/
def stored (t : Terminal) (c : Byte) : Terminal := { t with lineBuffer := (t.lineBuffer.write c).2 }

/-- The cursor stands on a row of text that lies on the framebuffer. -/
structure InRange (t : Terminal) : Prop where
  tidy : t.lineBuffer.Tidy
  width : 8 * t.lineBuffer.lineSize ≤ t.framebuffer.width
  height : 16 * t.lineBuffer.visibleLines ≤ t.framebuffer.height
  row : ∃ row, t.paintCursor.y = 16 * row ∧ 16 * row + 16 ≤ t.framebuffer.height

section

variable {t : Terminal} {c : Byte}

theorem write_redraw (h : t.lineBuffer.ViewportMoves c) : t.write c = (t.stored c).paintVisibleBuffer :=
  if_pos ((t.lineBuffer.needsViewportRedraw_iff c).mpr h)

theorem write_paint (h : ¬ t.lineBuffer.ViewportMoves c) :
    t.write c = (if t.lineBuffer.lineWrap c = true ∧ c ≠ newline then (t.stored c).paintCharacter newline
      else pure (t.stored c)) >>= fun t => t.paintCharacter c := by
  refine (if_neg (mt (t.lineBuffer.needsViewportRedraw_iff c).mp h)).trans ?_
  by_cases hbreak : t.lineBuffer.lineWrap c = true ∧ c ≠ newline
  · rw [if_pos hbreak, if_pos hbreak]
    rfl
  · rw [if_neg hbreak, if_neg hbreak]
    rfl

theorem write_newline (h : ¬ t.lineBuffer.ViewportMoves newline) :
    t.write newline = (t.stored newline).paintCharacter newline := by
  rw [write_paint h, if_neg fun h => h.2 rfl]
  rfl

theorem write_wrap (h : ¬ t.lineBuffer.ViewportMoves c) (hc : c ≠ newline) (hwrap : t.lineBuffer.lineWrap c = true) :
    t.write c = (t.stored c).paintCharacter newline >>= fun t => t.paintCharacter c := by
  rw [write_paint h, if_pos ⟨hwrap, hc⟩]

theorem write_room (h : ¬ t.lineBuffer.ViewportMoves c) (hwrap : ¬ t.lineBuffer.lineWrap c = true) :
    t.write c = (t.stored c).paintCharacter c := by
  rw [write_paint h, if_neg fun h => hwrap h.1]
  rfl

theorem inRange_new (pixels : Nat → RGBAPixel) (font : VGAFont) {width height : Nat} (hwidth : 8 ≤ width)
    (hheight : 16 ≤ height) : (Terminal.new ⟨pixels, width, height⟩ font fun _ _ => 0).InRange := by
  refine ⟨LineBuffer.tidy_fresh (Nat.div_pos hwidth (by decide)) (Nat.div_pos hheight (by decide)), ?_, ?_,
    ⟨0, rfl, hheight⟩⟩
  · change 8 * min (width / 8) 200 ≤ width
    omega
  · change 16 * min (height / 16) 256 ≤ height
    omega

theorem InRange.stored (h : t.InRange) (c : Byte) : (t.stored c).InRange := by
  obtain ⟨_, _, _, hvisible, hline⟩ := t.lineBuffer.write_viewport c
  exact ⟨h.tidy.write c, hline ▸ h.width, hvisible ▸ h.height, h.row⟩

theorem InRange.scrollDown (h : t.InRange) (n : Int) :
    ({ t with lineBuffer := t.lineBuffer.scrollDown n } : Terminal).InRange :=
  ⟨h.tidy.scrollDown n, by rw [LineBuffer.scrollDown_lineSize]; exact h.width,
    by rw [LineBuffer.scrollDown_visibleLines]; exact h.height, h.row⟩

theorem InRange.onto (h : t.InRange) {pixels : Nat → RGBAPixel} {cursor : Cursor}
    (hrow : ∃ row, cursor.y = 16 * row ∧ 16 * row + 16 ≤ t.framebuffer.height) : (t.onto pixels cursor).InRange :=
  ⟨h.tidy, h.width, h.height, hrow⟩

theorem InRange.fits (h : t.InRange) : FitsOn t.lineBuffer.visibleText t.framebuffer.width t.framebuffer.height :=
  h.tidy.fits h.width h.height

theorem InRange.rows_le (h : t.InRange) {above : List (List Byte)} {text : List Byte}
    (htext : t.lineBuffer.visibleText = above ++ [text]) : 16 * above.length + 16 ≤ t.framebuffer.height := by
  have hrows := h.fits.rows
  rw [htext, List.length_append, List.length_singleton] at hrows
  omega

theorem InRange.paintVisibleBuffer (h : t.InRange) : ∃ u, t.paintVisibleBuffer = .ok u ∧ u.InRange := by
  obtain ⟨pixels, above, text, hsplit, hpaint, _⟩ := paintVisibleBuffer_ok h.tidy.first_le_last h.fits
  exact ⟨_, hpaint, h.onto ⟨above.length, rfl, h.rows_le hsplit⟩⟩

theorem InRange.clearViewport (h : t.InRange) : ∃ u, t.clearViewport = .ok u ∧ u.InRange := by
  obtain ⟨pixels, hblank, _⟩ := t.blankBelow_ok 0
  obtain ⟨row, _, hheight⟩ := h.row
  refine ⟨t.onto pixels {}, ?_, h.onto ⟨0, rfl, by omega⟩⟩
  rw [Terminal.clearViewport, hblank]
  rfl

/-- A line break leaves the cursor on a row of text, if it was not on the last
whole one above the rest of a row. -/
theorem InRange.paintNewline (h : t.InRange)
    (hrow : 16 ∣ t.framebuffer.height ∨ t.paintCursor.y + 32 ≤ t.framebuffer.height) :
    ∃ u, t.paintCharacter newline = .ok u ∧ u.InRange ∧ u.framebuffer.width = t.framebuffer.width ∧
      u.lineBuffer = t.lineBuffer ∧ u.paintCursor.x = 0 := by
  obtain ⟨row, hy, hheight⟩ := h.row
  obtain ⟨pixels, hpaint, _⟩ := paintCharacter_newline (t := t) (by omega)
  refine ⟨_, hpaint, h.onto ?_, rfl, rfl, rfl⟩
  by_cases hroom : t.paintCursor.y + 16 < t.framebuffer.height
  · rw [newLine_room hroom]
    exact ⟨row + 1, by dsimp only; omega, by omega⟩
  · rw [newLine_bottom hroom]
    exact ⟨row, hy, hheight⟩

theorem InRange.paintGlyph (h : t.InRange) (hc : c ≠ newline) (hx : t.paintCursor.x + 8 ≤ t.framebuffer.width) :
    ∃ u, t.paintCharacter c = .ok u ∧ u.InRange := by
  obtain ⟨row, hy, hheight⟩ := h.row
  obtain ⟨pixels, hpaint, _⟩ := paintCharacter_glyph hc hx (by omega)
  exact ⟨_, hpaint, h.onto ⟨row, hy, hheight⟩⟩

end

/-- The calls after which the cursor is where the buffer has its column. A write
that repaints nothing must find it no farther right, and if it breaks the line,
not on the last whole row above the rest of one. -/
def Steady (t : Terminal) : TerminalOp → Prop
  | .write c => t.lineBuffer.ViewportMoves c ∨
      if t.lineBuffer.lineWrap c then
        16 ∣ t.framebuffer.height ∨ t.paintCursor.y + 32 ≤ t.framebuffer.height
      else t.paintCursor.x ≤ 8 * t.lineBuffer.column
  | _ => True

instance (t : Terminal) : (op : TerminalOp) → Decidable (t.Steady op)
  | .write _ => inferInstanceAs (Decidable (_ ∨ _))
  | .scrollDown _ | .clearViewport | .clear => isTrue trivial

section

variable {t : Terminal} {c : Byte}

theorem InRange.write (h : t.InRange) (hsteady : t.Steady (.write c)) : ∃ u, t.write c = .ok u ∧ u.InRange := by
  have hstored := h.stored c
  by_cases hmoves : t.lineBuffer.ViewportMoves c
  · rw [write_redraw hmoves]
    exact hstored.paintVisibleBuffer
  · have hcursor := hsteady.resolve_left hmoves
    by_cases hwrap : t.lineBuffer.lineWrap c = true
    · rw [if_pos hwrap] at hcursor
      obtain ⟨u, hbreak, hrange, hwidth, hbuffer, hleft⟩ := hstored.paintNewline hcursor
      by_cases hchar : c = newline
      · subst hchar
        rw [write_newline hmoves]
        exact ⟨u, hbreak, hrange⟩
      · rw [write_wrap hmoves hchar hwrap, hbreak]
        apply hrange.paintGlyph hchar
        have := hrange.width
        have := hrange.tidy.lineSize_pos
        omega
    · rw [if_neg hwrap] at hcursor
      rw [write_room hmoves hwrap]
      have hlt : t.lineBuffer.column < t.lineBuffer.lineSize := by
        by_contra hfull
        exact hwrap (by simp [LineBuffer.lineWrap, Nat.le_of_not_lt hfull])
      refine hstored.paintGlyph (fun hbreak => hwrap (by simp [LineBuffer.lineWrap, hbreak])) ?_
      have := h.width
      change t.paintCursor.x + 8 ≤ t.framebuffer.width
      omega

theorem InRange.step (h : t.InRange) (op : TerminalOp) (hsteady : t.Steady op) :
    ∃ u, terminalStep t op = .ok u ∧ u.InRange := by
  cases op with
  | write c => exact h.write hsteady
  | scrollDown n => exact (h.scrollDown n).paintVisibleBuffer
  | clearViewport => exact h.clearViewport
  | clear =>
      obtain ⟨u, hclear, hrange⟩ := h.clearViewport
      refine ⟨{ u with lineBuffer := u.lineBuffer.clear }, ?_,
        ⟨hrange.tidy.clear, hrange.width, hrange.height, hrange.row⟩⟩
      rw [terminalStep, Terminal.clear, hclear]
      rfl

end

end Terminal

/-- Every run whose writes find the cursor where they should paints on the framebuffer only. -/
theorem terminal_paints_in_bounds (pixels : Nat → RGBAPixel) (font : VGAFont) (width height : Nat)
    (hwidth : 8 ≤ width) (hheight : 16 ≤ height) (ops : List TerminalOp)
    (hsteady : Guarded terminalStep Terminal.Steady (.new ⟨pixels, width, height⟩ font fun _ _ => 0) ops) :
    ∃ t, ops.foldlM terminalStep (.new ⟨pixels, width, height⟩ font fun _ _ => 0) = .ok t := by
  have hnew := Terminal.inRange_new pixels font hwidth hheight
  obtain ⟨t, hrun, _⟩ := hsteady.returns (fun t op h hop => h.step op hop) hnew
  exact ⟨t, hrun⟩

/-- On two columns: a full line and a wrapped one, a line break, a look back, and a wrap again. -/
def wrappedLetters : List TerminalOp :=
  [.write 97, .write 98, .write 99, .write newline, .write 100, .scrollDown (-1), .scrollDown 1, .write 101,
    .write 102]

theorem terminal_paints_in_bounds_wrapped : ∃ t, wrappedLetters.foldlM terminalStep
    (.new ⟨fun _ => 0, 16, 16⟩ ⟨fun _ => 0⟩ fun _ _ => 0) = .ok t :=
  terminal_paints_in_bounds (fun _ => 0) ⟨fun _ => 0⟩ 16 16 (by decide) (by decide) wrappedLetters
    (by decide +kernel)

/-- Five letters in two columns; back to a full line; one more letter. -/
def scrolledUp : List TerminalOp :=
  [.write 97, .write 98, .write 99, .write 100, .write 101, .scrollDown (-1), .write 102]

/-- The letter goes to the second column of the line that is not shown, and is
painted behind the two letters of the line that is. -/
theorem terminal_paints_out_of_bounds : ¬ ∃ t, scrolledUp.foldlM terminalStep
    (.new ⟨fun _ => 0, 16, 16⟩ ⟨fun _ => 0⟩ fun _ _ => 0) = .ok t := by
  rintro ⟨t, hrun⟩
  have hpanic : (scrolledUp.foldlM terminalStep
      (.new ⟨fun _ => 0, 16, 16⟩ ⟨fun _ => 0⟩ fun _ _ => 0)).isOk = false := by decide +kernel
  rw [hrun] at hpanic
  cases hpanic

end DavOS
