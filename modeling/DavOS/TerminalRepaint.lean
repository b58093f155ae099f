import DavOS.TerminalBounds

/-! Painting character by character against repainting the whole viewport. The
two agree where the newest line is on the screen and shows what was written to
it; the buffer's flag for a repaint knows of neither. -/
namespace DavOS
open Raster RingWindow GuardedRun

namespace LineBuffer

section

variable {b : LineBuffer} {c : Byte}

theorem older_length (b : LineBuffer) : b.older.length = b.size - 1 := by
  simp [older]

theorem NewestVisible.visibleText_eq (h : b.NewestVisible) (hpos : 1 ≤ b.size) :
    b.visibleText = b.shown.drop b.firstVisibleLineIndex := by
  have hlast : b.lastVisibleLineIndex + 1 = b.size := by
    have : b.lastVisibleLineIndex ≤ b.size - 1 := Nat.min_le_left _ _
    have := h.2
    omega
  rw [visibleText, hlast, shown, window, upTo, List.range_eq_range', List.map_map, ← List.map_drop, List.drop_range',
    Nat.mul_one, Nat.zero_add]
  rfl

theorem NewestVisible.visibleText_split (h : b.NewestVisible) (hpos : 1 ≤ b.size) :
    b.visibleText = b.older.drop b.firstVisibleLineIndex ++ [lineText b.currentLine] := by
  have hle : b.firstVisibleLineIndex ≤ b.older.length := by
    rw [older_length]
    exact h.1
  rw [h.visibleText_eq hpos, shown_eq hpos, List.drop_append_of_le_length hle]

theorem NewestVisible.visibleText_putChar (h : b.NewestVisible) (hvalid : b.Valid) :
    (b.putChar c).visibleText =
      b.older.drop b.firstVisibleLineIndex ++ [lineText (Function.update b.currentLine b.column c)] := by
  have hle : b.firstVisibleLineIndex ≤ b.older.length := by
    rw [older_length]
    exact h.1
  have hput : (b.putChar c).NewestVisible := h
  rw [hput.visibleText_eq hvalid.size_pos, shown_putChar hvalid.size_pos hvalid.size_le]
  exact List.drop_append_of_le_length hle

end

/-- A row of the viewport is left for one more line. In a full ring that line
takes the slot of the oldest one, and the count of the visible lines jumps where
the front goes round. -/
def RoomBelow (b : LineBuffer) : Prop :=
  b.size = 256 → b.front ≠ 255 ∧ 257 ≤ b.firstVisibleLineIndex + b.visibleLines

instance (b : LineBuffer) : Decidable b.RoomBelow := inferInstanceAs (Decidable (_ → _))

section

variable {b : LineBuffer} {c : Byte}

theorem wrapLine_viewport (hwrap : b.lineWrap c = true) :
    (b.wrapLine .automatic).front = (b.scrolled c).front ∧ (b.wrapLine .automatic).size = (b.scrolled c).size ∧
      (b.wrapLine .automatic).firstVisible = (b.scrolled c).firstVisible ∧
      (b.wrapLine .automatic).visibleLines = b.visibleLines := by
  rw [scrolled, if_pos hwrap]
  exact ⟨rfl, rfl, rfl, advance_visibleLines b⟩

/-- While the ring has room, the first visible line keeps its number. -/
theorem first_wrapLine_room (hvalid : b.Valid) (hwrap : b.lineWrap c = true) (hstill : ¬ b.ViewportMoves c)
    (hsize : b.size < 256) :
    (b.wrapLine .automatic).firstVisibleLineIndex = b.firstVisibleLineIndex ∧
      (b.wrapLine .automatic).size ≤ (b.wrapLine .automatic).firstVisibleLineIndex + b.visibleLines := by
  obtain ⟨hfront, hsize', hfirst, _⟩ := wrapLine_viewport hwrap
  obtain ⟨hsfront, hssize, hsfirst⟩ := scrolled_room hwrap hsize
  have hsame : (b.scrolled c).firstVisible = b.firstVisible := not_not.mp hstill
  have hzero := hvalid.front_zero hsize
  unfold firstVisibleLineIndex
  rw [hsize', hfront, hfirst, hsfront, hssize, hsame, hzero]
  rw [hsame] at hsfirst
  refine ⟨rfl, ?_⟩
  rw [if_neg (Nat.not_lt_zero _)]
  omega

/-- In a full ring its number is one less, as that of all lines. -/
theorem first_wrapLine_full (hvalid : b.Valid) (hwrap : b.lineWrap c = true) (hstill : ¬ b.ViewportMoves c)
    (hsize : b.size = 256) (hroom : b.RoomBelow) :
    (b.wrapLine .automatic).firstVisibleLineIndex + 1 = b.firstVisibleLineIndex ∧
      (b.wrapLine .automatic).size ≤ (b.wrapLine .automatic).firstVisibleLineIndex + b.visibleLines := by
  obtain ⟨hfront, hsize', hfirst, _⟩ := wrapLine_viewport hwrap
  obtain ⟨hsfront, hssize, _⟩ := scrolled_full hwrap hsize
  have hsame : (b.scrolled c).firstVisible = b.firstVisible := not_not.mp hstill
  obtain ⟨hlast, hrow⟩ := hroom hsize
  have := hvalid.front_lt
  have := hvalid.visible_le
  unfold firstVisibleLineIndex maxLines at hrow ⊢
  rw [hsize', hfront, hfirst, hsfront, hssize, hsame]
  have hnext : (b.front + 1) % 256 = b.front + 1 := Nat.mod_eq_of_lt (by omega)
  rw [hnext]
  split at hrow
  · rename_i hbefore
    rw [if_pos (by omega), if_pos hbefore]
    omega
  · rename_i hafter
    rw [if_neg (by omega), if_neg hafter]
    omega

theorem NewestVisible.wrapLine (h : b.NewestVisible) (hvalid : b.Valid) (hpos : 1 ≤ b.visibleLines)
    (hwrap : b.lineWrap c = true) (hstill : ¬ b.ViewportMoves c) (hroom : b.RoomBelow) :
    (b.wrapLine .automatic).NewestVisible ∧
      (b.wrapLine .automatic).visibleText = b.visibleText ++ [lineText (b.wrapLine .automatic).currentLine] := by
  have hvalid' := hvalid.wrapLine hpos .automatic
  have hvisible : (b.wrapLine .automatic).visibleLines = b.visibleLines := (wrapLine_viewport hwrap).2.2.2
  have holder : (b.wrapLine .automatic).older = _ := (shown_wrapLine hvalid.front_lt hvalid.size_le).1
  by_cases hfull : 256 ≤ b.size
  · obtain ⟨hfirst, hnewest⟩ := first_wrapLine_full hvalid hwrap hstill (Nat.le_antisymm hvalid.size_le hfull) hroom
    have hseen : (b.wrapLine .automatic).NewestVisible := by
      rw [hvalid'.newestVisible_iff (hvisible ▸ hpos), hvisible]
      exact hnewest
    refine ⟨hseen, ?_⟩
    rw [hseen.visibleText_split hvalid'.size_pos, h.visibleText_eq hvalid.size_pos, holder, if_pos hfull,
      List.drop_tail, hfirst]
  · obtain ⟨hfirst, hnewest⟩ := first_wrapLine_room hvalid hwrap hstill (Nat.lt_of_not_le hfull)
    have hseen : (b.wrapLine .automatic).NewestVisible := by
      rw [hvalid'.newestVisible_iff (hvisible ▸ hpos), hvisible]
      exact hnewest
    refine ⟨hseen, ?_⟩
    rw [hseen.visibleText_split hvalid'.size_pos, h.visibleText_eq hvalid.size_pos, holder, if_neg hfull, hfirst]

end

end LineBuffer

/-! ### Pictures -/

section

variable {font : VGAFont} {above : List (List Byte)} {text : List Byte} {c : Byte} {x y : Nat}

theorem screen_append_nil (font : VGAFont) (texts : List (List Byte)) (x y : Nat) :
    screen font (texts ++ [[]]) x y = screen font texts x y := by
  have hrow : (texts ++ [[]])[y / 16]?.getD [] = texts[y / 16]?.getD [] := by
    by_cases hlt : y / 16 < texts.length
    · rw [List.getElem?_append_left hlt]
    · rw [List.getElem?_append_right (Nat.le_of_not_lt hlt), List.getElem?_eq_none (Nat.le_of_not_lt hlt)]
      cases y / 16 - texts.length <;> rfl
  rw [screen, screen, hrow]

theorem screen_append_char (hother : ¬ ((8 * text.length ≤ x ∧ x < 8 * text.length + 8) ∧
      16 * above.length ≤ y ∧ y < 16 * above.length + 16)) :
    screen font (above ++ [text ++ [c]]) x y = screen font (above ++ [text]) x y := by
  have hcell : ((above ++ [text ++ [c]])[y / 16]?.getD [])[x / 8]? = ((above ++ [text])[y / 16]?.getD [])[x / 8]? := by
    rcases Nat.lt_trichotomy (y / 16) above.length with hlt | heq | hgt
    · rw [List.getElem?_append_left hlt, List.getElem?_append_left hlt]
    · have hcolumn : x / 8 ≠ text.length := by omega
      rw [heq, List.getElem?_concat_length, List.getElem?_concat_length, Option.getD_some, Option.getD_some]
      rcases Nat.lt_or_gt_of_ne hcolumn with hleft | hright
      · rw [List.getElem?_append_left hleft]
      · have hlength : (text ++ [c]).length ≤ x / 8 := by rw [List.length_append]; exact hright
        rw [List.getElem?_eq_none hlength, List.getElem?_eq_none (Nat.le_of_lt hright)]
    · have hnone (last : List Byte) : (above ++ [last])[y / 16]? = none :=
        List.getElem?_eq_none (by rw [List.length_append]; exact hgt)
      rw [hnone, hnone]
  rw [screen, screen, hcell]

end

namespace Terminal

/-- The screen shows the lines `above`, and below them `text` with the cursor behind it. -/
structure Depicts (t : Terminal) (above : List (List Byte)) (text : List Byte) : Prop where
  cursor_eq : t.paintCursor = ⟨8 * text.length, 16 * above.length⟩
  pixels_eq : ∀ x y, x < t.framebuffer.width → y < t.framebuffer.height →
    t.framebuffer.pixels (place t.framebuffer.width x y) = screen t.font (above ++ [text]) x y

section

variable {t : Terminal} {above : List (List Byte)} {text : List Byte} {c : Byte}

theorem Depicts.stored (h : t.Depicts above text) (c : Byte) : (t.stored c).Depicts above text :=
  ⟨h.cursor_eq, h.pixels_eq⟩

theorem Depicts.paintNewline (h : t.Depicts above text)
    (hy : 16 * (above ++ [text]).length + 16 ≤ t.framebuffer.height) :
    ∃ pixels cursor, t.paintCharacter newline = .ok (t.onto pixels cursor) ∧
      (t.onto pixels cursor).Depicts (above ++ [text]) [] := by
  have hcursor := h.cursor_eq
  have hrow : t.paintCursor.y + 16 < t.framebuffer.height := by
    rw [List.length_append, List.length_singleton] at hy
    rw [hcursor]
    dsimp only
    omega
  obtain ⟨pixels, hpaint, hpainted⟩ := paintCharacter_newline (Nat.le_of_lt hrow)
  rw [newLine_room hrow, hcursor] at hpaint
  refine ⟨pixels, _, hpaint, by simp [Nat.mul_add], ?_⟩
  intro x y hx hy
  rw [screen_append_nil]
  have hlast : (above ++ [text])[above.length]?.getD [] = text := by simp
  rw [hcursor] at hpainted
  by_cases harea : 8 * text.length ≤ x ∧ 16 * above.length ≤ y ∧ y < 16 * above.length + 16
  · exact ((hpainted x y hx).1 harea).trans (screen_blank hlast harea.1 harea.2).symm
  · exact ((hpainted x y hx).2 harea).trans (h.pixels_eq x y hx hy)

theorem Depicts.paintGlyph (h : t.Depicts above text) (hc : c ≠ newline)
    (hx : 8 * (text.length + 1) ≤ t.framebuffer.width) (hy : 16 * above.length + 16 ≤ t.framebuffer.height) :
    ∃ pixels cursor, t.paintCharacter c = .ok (t.onto pixels cursor) ∧
      (t.onto pixels cursor).Depicts above (text ++ [c]) := by
  have hcursor := h.cursor_eq
  obtain ⟨pixels, hpaint, hpainted⟩ :=
    paintCharacter_glyph (t := t) hc (by rw [hcursor]; exact hx) (by rw [hcursor]; exact hy)
  rw [hcursor] at hpaint hpainted
  refine ⟨pixels, _, hpaint, by simp [Nat.mul_add], ?_⟩
  intro x y hx hy
  have hlast : (above ++ [text ++ [c]])[above.length]?.getD [] = text ++ [c] := by simp
  have hchar : (text ++ [c])[text.length]? = some c := by simp
  by_cases harea : (8 * text.length ≤ x ∧ x < 8 * text.length + 8) ∧ 16 * above.length ≤ y ∧ y < 16 * above.length + 16
  · exact ((hpainted x y hx).1 harea).trans (screen_glyph hlast hchar harea.1 harea.2).symm
  · rw [screen_append_char harea]
    exact ((hpainted x y hx).2 harea).trans (h.pixels_eq x y hx hy)

end

/-- The screen, of the given size, is the picture of the visible lines. -/
structure Synced (width height : Nat) (t : Terminal) : Prop where
  width_eq : t.framebuffer.width = width
  height_eq : t.framebuffer.height = height
  range : t.InRange
  depicts : ∃ above text, t.lineBuffer.visibleText = above ++ [text] ∧ t.Depicts above text

/-- The calls that keep it so. A write that repaints nothing must find the newest
line visible and no older text around the place of its character, nor move lines
to other rows. -/
def Faithful (t : Terminal) : TerminalOp → Prop
  | .write c => t.lineBuffer.ViewportMoves c ∨ t.lineBuffer.NewestVisible ∧ t.lineBuffer.TailClear c ∧
      if t.lineBuffer.lineWrap c then t.lineBuffer.RoomBelow
      else (LineBuffer.lineText t.lineBuffer.currentLine).length = t.lineBuffer.column
  | _ => True

instance (t : Terminal) : (op : TerminalOp) → Decidable (t.Faithful op)
  | .write _ => inferInstanceAs (Decidable (_ ∨ _ ∧ _ ∧ _))
  | .scrollDown _ | .clearViewport | .clear => isTrue trivial

section

variable {t : Terminal} {above : List (List Byte)} {text : List Byte} {c : Byte} {width height : Nat}

theorem InRange.repaint (h : t.InRange) :
    ∃ u, t.paintVisibleBuffer = .ok u ∧ u.Synced t.framebuffer.width t.framebuffer.height := by
  obtain ⟨pixels, above, text, hsplit, hpaint, hpixels⟩ := paintVisibleBuffer_ok h.tidy.first_le_last h.fits
  rw [hsplit] at hpixels
  exact ⟨_, hpaint, rfl, rfl, h.onto ⟨above.length, rfl, h.rows_le hsplit⟩, above, text, hsplit, rfl, hpixels⟩

theorem Depicts.synced {pixels : Nat → RGBAPixel} {cursor : Cursor} (h : (t.onto pixels cursor).Depicts above text)
    (hrange : t.InRange) (htext : t.lineBuffer.visibleText = above ++ [text]) :
    (t.onto pixels cursor).Synced t.framebuffer.width t.framebuffer.height := by
  refine ⟨rfl, rfl, hrange.onto ⟨above.length, ?_, hrange.rows_le htext⟩, above, text, htext, h⟩
  exact congrArg Cursor.y h.cursor_eq

/-- A repaint of a screen that shows the right picture changes nothing. -/
theorem Synced.repaint_pixel (h : t.Synced width height) {x y : Nat} (hx : x < width) (hy : y < height) :
    ∃ u, t.paintVisibleBuffer = .ok u ∧ t.framebuffer.pixel x y = u.framebuffer.pixel x y := by
  obtain ⟨rfl, rfl, hinRange, above, text, htext, hdepicts⟩ := h
  obtain ⟨pixels, _, _, _, hpaint, hpixels⟩ := paintVisibleBuffer_ok hinRange.tidy.first_le_last hinRange.fits
  refine ⟨_, hpaint, (hdepicts.pixels_eq x y hx hy).trans ?_⟩
  rw [← htext]
  exact (hpixels x y hx hy).symm

/-! ### One write -/

theorem newest_split (hrange : t.InRange) (hnewest : t.lineBuffer.NewestVisible)
    (htext : t.lineBuffer.visibleText = above ++ [text]) :
    t.lineBuffer.older.drop t.lineBuffer.firstVisibleLineIndex = above ∧
      LineBuffer.lineText t.lineBuffer.currentLine = text := by
  rw [hnewest.visibleText_split hrange.tidy.valid.size_pos] at htext
  obtain ⟨habove, hlast⟩ := List.append_inj' htext rfl
  exact ⟨habove, List.singleton_inj.mp hlast⟩

theorem Synced.write_room (h : t.Synced width height) (hc : c ≠ 0) (hstill : ¬ t.lineBuffer.ViewportMoves c)
    (hwrap : ¬ t.lineBuffer.lineWrap c = true) (hnewest : t.lineBuffer.NewestVisible) (htail : t.lineBuffer.TailClear c)
    (hlength : (LineBuffer.lineText t.lineBuffer.currentLine).length = t.lineBuffer.column) :
    ∃ u, t.write c = .ok u ∧ u.Synced width height := by
  obtain ⟨rfl, rfl, hinRange, above, text, htext, hdepicts⟩ := h
  obtain ⟨habove, hlast⟩ := newest_split hinRange hnewest htext
  obtain ⟨hfree, hchar⟩ := not_or.mp (mt (t.lineBuffer.lineWrap_iff c).mpr hwrap)
  have hlt : t.lineBuffer.column < LineBuffer.maxColumns :=
    Nat.lt_of_lt_of_le (Nat.lt_of_not_le hfree) hinRange.tidy.valid.lineSize_le
  have hnext : (t.stored c).lineBuffer.visibleText = above ++ [text ++ [c]] := by
    change (t.lineBuffer.write c).2.visibleText = _
    rw [LineBuffer.write_room hchar hfree, hnewest.visibleText_putChar hinRange.tidy.valid, habove,
      LineBuffer.lineText_update hlength hlt hc, (LineBuffer.tailClear_room hchar hfree).mp htail, hlast]
  have hrange := hinRange.stored c
  have hcolumns := hrange.fits.columns (text ++ [c]) (by simp [hnext])
  rw [List.length_append, List.length_singleton] at hcolumns
  obtain ⟨pixels, cursor, hpaint, hafter⟩ := (hdepicts.stored c).paintGlyph hchar hcolumns (hrange.rows_le hnext)
  rw [Terminal.write_room hstill hwrap]
  exact ⟨_, hpaint, hafter.synced hrange hnext⟩

theorem Synced.write_newline (h : t.Synced width height) (hstill : ¬ t.lineBuffer.ViewportMoves newline)
    (hnewest : t.lineBuffer.NewestVisible) (htail : t.lineBuffer.TailClear newline) (hroom : t.lineBuffer.RoomBelow) :
    ∃ u, t.write newline = .ok u ∧ u.Synced width height := by
  obtain ⟨rfl, rfl, hinRange, above, text, htext, hdepicts⟩ := h
  have htidy := hinRange.tidy
  have hwrap : t.lineBuffer.lineWrap newline = true := (t.lineBuffer.lineWrap_iff newline).mpr (Or.inr rfl)
  obtain ⟨_, hlines⟩ := hnewest.wrapLine htidy.valid htidy.visible_pos hwrap hstill hroom
  have hnext : (t.stored newline).lineBuffer.visibleText = above ++ [text] ++ [[]] := by
    change (t.lineBuffer.write newline).2.visibleText = _
    rw [LineBuffer.write_newline, hlines, htext, (LineBuffer.shown_wrapLine htidy.valid.front_lt htidy.valid.size_le).2,
      LineBuffer.tailClear_newline.mp htail]
  have hrange := hinRange.stored newline
  obtain ⟨pixels, cursor, hpaint, hafter⟩ := (hdepicts.stored newline).paintNewline (hrange.rows_le hnext)
  rw [Terminal.write_newline hstill]
  exact ⟨_, hpaint, hafter.synced hrange hnext⟩

theorem Synced.write_wrap (h : t.Synced width height) (hc : c ≠ 0) (hchar : c ≠ newline)
    (hstill : ¬ t.lineBuffer.ViewportMoves c) (hwrap : t.lineBuffer.lineWrap c = true)
    (hnewest : t.lineBuffer.NewestVisible) (htail : t.lineBuffer.TailClear c)
    (hroom : t.lineBuffer.RoomBelow) : ∃ u, t.write c = .ok u ∧ u.Synced width height := by
  obtain ⟨rfl, rfl, hinRange, above, text, htext, hdepicts⟩ := h
  have htidy := hinRange.tidy
  have hfull := ((t.lineBuffer.lineWrap_iff c).mp hwrap).resolve_right hchar
  obtain ⟨hseen, hlines⟩ := hnewest.wrapLine htidy.valid htidy.visible_pos hwrap hstill hroom
  have hvalid := htidy.valid.wrapLine htidy.visible_pos .automatic
  have hnext : (t.stored c).lineBuffer.visibleText = above ++ [text] ++ [[c]] := by
    change (t.lineBuffer.write c).2.visibleText = _
    -- the lines above the new one are those that were visible
    rw [hseen.visibleText_split hvalid.size_pos, List.append_cancel_right_eq] at hlines
    rw [LineBuffer.write_wrap hchar hfull, hseen.visibleText_putChar hvalid, hlines, htext, LineBuffer.wrapLine_column,
      (LineBuffer.shown_wrapLine htidy.valid.front_lt htidy.valid.size_le).2, LineBuffer.lineText_update_first hc,
      (LineBuffer.tailClear_wrap hchar hfull).mp htail]
  have hrange := hinRange.stored c
  have hrows := hrange.rows_le hnext
  have hcolumns := hrange.fits.columns [c] (by simp [hnext])
  obtain ⟨broken, start, hbreak, hline⟩ := (hdepicts.stored c).paintNewline hrows
  obtain ⟨pixels, cursor, hpaint, hafter⟩ := hline.paintGlyph hchar hcolumns hrows
  rw [onto_onto] at hpaint hafter
  rw [Terminal.write_wrap hstill hchar hwrap, hbreak]
  exact ⟨_, hpaint, hafter.synced hrange hnext⟩

theorem Synced.write (h : t.Synced width height) (hc : c ≠ 0) (hfaithful : t.Faithful (.write c)) :
    ∃ u, t.write c = .ok u ∧ u.Synced width height := by
  by_cases hmoves : t.lineBuffer.ViewportMoves c
  · obtain ⟨rfl, rfl, hinRange, _⟩ := h
    rw [write_redraw hmoves]
    exact (hinRange.stored c).repaint
  · obtain ⟨hnewest, htail, hline⟩ := hfaithful.resolve_left hmoves
    by_cases hwrap : t.lineBuffer.lineWrap c = true
    · rw [if_pos hwrap] at hline
      by_cases hchar : c = newline
      · subst hchar
        exact h.write_newline hmoves hnewest htail hline
      · exact h.write_wrap hc hchar hmoves hwrap hnewest htail hline
    · rw [if_neg hwrap] at hline
      exact h.write_room hc hmoves hwrap hnewest htail hline

theorem depicts_blank (hcursor : t.paintCursor = {})
    (hblack : ∀ x y, x < t.framebuffer.width → y < t.framebuffer.height →
      t.framebuffer.pixels (place t.framebuffer.width x y) = blackRGBA) : t.Depicts [] [] := by
  refine ⟨hcursor, fun x y hx hy => (hblack x y hx hy).trans ?_⟩
  exact (screen_append_nil t.font [] x y).symm

end

end Terminal

namespace LineBuffer

theorem visibleText_blank {b : LineBuffer} (hfront : b.front = 0) (hsize : b.size = 1) (hfirst : b.firstVisible = 0)
    (hzero : b.lines 0 0 = 0) : b.visibleText = [[]] := by
  have hindex : b.firstVisibleLineIndex = 0 := by rw [firstVisibleLineIndex, hfront, hfirst]; rfl
  have hlast : b.lastVisibleLineIndex = 0 := by rw [lastVisibleLineIndex, hsize]; exact Nat.zero_min _
  have hline : lineText (b.getLine 0) = [] := by
    rw [getLine, hfront]
    exact (cstring_eq_nil _ _ _).mpr (Or.inr hzero)
  rw [visibleText, hindex, hlast]
  exact congrArg (· :: []) hline

end LineBuffer

/-- Text and the calls that show it. -/
def TerminalOp.Textual : TerminalOp → Prop
  | .write character => character ≠ 0
  | .clearViewport => False
  | _ => True

namespace Terminal

variable {t : Terminal} {width height : Nat}

theorem Synced.clear (h : t.Synced width height) : ∃ u, t.clear = .ok u ∧ u.Synced width height := by
  obtain ⟨rfl, rfl, hinRange, _⟩ := h
  obtain ⟨pixels, hblank, hpainted⟩ := t.blankBelow_ok 0
  have hrange : ({ t with lineBuffer := t.lineBuffer.clear } : Terminal).InRange :=
    ⟨hinRange.tidy.clear, hinRange.width, hinRange.height, hinRange.row⟩
  have hclear : t.clear = .ok (({ t with lineBuffer := t.lineBuffer.clear } : Terminal).onto pixels {}) := by
    rw [Terminal.clear, Terminal.clearViewport, hblank]
    rfl
  have hdepicts : (({ t with lineBuffer := t.lineBuffer.clear } : Terminal).onto pixels {}).Depicts [] [] :=
    depicts_blank rfl fun x y hx hy => (hpainted x y hx).1 ⟨Nat.zero_le y, hy⟩
  refine ⟨_, hclear, hdepicts.synced hrange ?_⟩
  exact LineBuffer.visibleText_blank rfl rfl rfl (by rw [LineBuffer.clear_lines]; rfl)

theorem Synced.step (h : t.Synced width height) (op : TerminalOp) (hop : t.Faithful op ∧ op.Textual) :
    ∃ u, terminalStep t op = .ok u ∧ u.Synced width height := by
  cases op with
  | write c => exact h.write hop.2 hop.1
  | scrollDown n =>
      obtain ⟨rfl, rfl, hinRange, _⟩ := h
      exact (hinRange.scrollDown n).repaint
  | clearViewport => exact hop.2.elim
  | clear => exact h.clear

end Terminal

/-- In every run whose writes keep to the screen, any pixel is what a full repaint would make it. -/
theorem incremental_paint_is_repaint (font : VGAFont) (columns rows : Nat) (ops : List TerminalOp)
    (hops : ∀ op ∈ ops, op.Textual)
    (hfaithful : Guarded terminalStep Terminal.Faithful
      (.new ⟨fun _ => blackRGBA, 8 * columns, 16 * rows⟩ font fun _ _ => 0) ops)
    (x y : Nat) (hx : x < 8 * columns) (hy : y < 16 * rows) :
    ∃ t u, ops.foldlM terminalStep (.new ⟨fun _ => blackRGBA, 8 * columns, 16 * rows⟩ font fun _ _ => 0) = .ok t ∧
      t.paintVisibleBuffer = .ok u ∧ t.framebuffer.pixel x y = u.framebuffer.pixel x y := by
  have hnew : (Terminal.new ⟨fun _ => blackRGBA, 8 * columns, 16 * rows⟩ font fun _ _ => 0).Synced
      (8 * columns) (16 * rows) := by
    refine ⟨rfl, rfl, Terminal.inRange_new _ font (by omega) (by omega), [], [], ?_, ?_⟩
    · exact LineBuffer.visibleText_blank rfl rfl rfl rfl
    · exact Terminal.depicts_blank rfl fun _ _ _ _ => rfl
  obtain ⟨t, hrun, hsynced⟩ := (hfaithful.and_mem hops).returns (fun t op h hop => h.step op hop) hnew
  obtain ⟨u, hpaint, hpixel⟩ := hsynced.repaint_pixel hx hy
  exact ⟨t, u, hrun, hpaint, hpixel⟩

/-- The bitmap of the letter `b`, as `vga_font.raw` has it. -/
def letterBitmap : List Byte :=
  [0x00, 0x00, 0xc0, 0xc0, 0xc0, 0xdc, 0xe6, 0xc6, 0xc6, 0xc6, 0xc6, 0xe6, 0xdc, 0x00, 0x00, 0x00]

def letterFont : VGAFont := ⟨fun i => letterBitmap.getD (i - 98 * 16).toNat 0⟩

/-- On two columns and two rows: a wrapped line, a line break, a look back at the
first lines, and letters again. -/
def wrappedText : List TerminalOp :=
  [.write 98, .write 98, .write 98, .write newline, .write 98, .scrollDown (-1), .scrollDown 1, .write 98, .write 98]

/-- The top left corner of the last letter. -/
theorem incremental_paint_is_repaint_wrapped :
    ∃ t u, wrappedText.foldlM terminalStep
        (.new ⟨fun _ => blackRGBA, 16, 32⟩ letterFont fun _ _ => 0) = .ok t ∧
      t.paintVisibleBuffer = .ok u ∧ t.framebuffer.pixel 0 18 = u.framebuffer.pixel 0 18 :=
  incremental_paint_is_repaint letterFont 2 2 wrappedText
    (by simp [wrappedText, TerminalOp.Textual, newline]) (by decide +kernel) 0 18 (by decide) (by decide)

/-- A letter, a new line, back to the first line, and another letter. -/
def offScreenLetter : List TerminalOp := [.write 98, .write newline, .scrollDown (-1), .write 98]

/-- The second letter belongs to the line below the screen, and is painted on the first one. -/
theorem incremental_paint_differs :
    (offScreenLetter.foldlM terminalStep
        (.new ⟨fun _ => blackRGBA, 16, 16⟩ letterFont fun _ _ => 0)).toOption.map
      (fun t => t.framebuffer.pixel 8 2) = some whiteRGBA ∧
    (offScreenLetter.foldlM terminalStep (.new ⟨fun _ => blackRGBA, 16, 16⟩ letterFont fun _ _ => 0) >>=
        Terminal.paintVisibleBuffer).toOption.map
      (fun t => t.framebuffer.pixel 8 2) = some blackRGBA := by
  decide +kernel

end DavOS
