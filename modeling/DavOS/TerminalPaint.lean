import DavOS.Raster
import DavOS.Terminal

/-! What the terminal paints. `screen` is the picture that a list of lines of text
should give; a full repaint of lines that fit the framebuffer gives it. -/
namespace DavOS
open Raster

theorem mem_upTo {start stop i : Nat} : i ∈ upTo start stop ↔ start ≤ i ∧ i < stop := by
  rw [upTo, List.mem_range'_1]
  omega

/-- The picture of lines of text, one below the other, on black. -/
def screen (font : VGAFont) (texts : List (List Byte)) (x y : Nat) : RGBAPixel :=
  match (texts[y / 16]?.getD [])[x / 8]? with
  | some c => font.glyph c (x % 8) (y % 16)
  | none => blackRGBA

section

variable {font : VGAFont} {texts : List (List Byte)} {text : List Byte} {c : Byte} {x y row column : Nat}

theorem screen_glyph (htext : texts[row]?.getD [] = text) (hc : text[column]? = some c)
    (hx : 8 * column ≤ x ∧ x < 8 * column + 8) (hy : 16 * row ≤ y ∧ y < 16 * row + 16) :
    screen font texts x y = font.glyph c (x - 8 * column) (y - 16 * row) := by
  have hrow : y / 16 = row := by omega
  have hcolumn : x / 8 = column := by omega
  have hline : y % 16 = y - 16 * row := by omega
  have hbit : x % 8 = x - 8 * column := by omega
  rw [screen, hrow, hcolumn, htext, hc, hline, hbit]

theorem screen_blank (htext : texts[row]?.getD [] = text) (hx : 8 * text.length ≤ x)
    (hy : 16 * row ≤ y ∧ y < 16 * row + 16) : screen font texts x y = blackRGBA := by
  have hrow : y / 16 = row := by omega
  have hcolumn : text.length ≤ x / 8 := by omega
  rw [screen, hrow, htext, List.getElem?_eq_none hcolumn]

theorem screen_below (hy : 16 * texts.length ≤ y) : screen font texts x y = blackRGBA := by
  have hrow : texts.length ≤ y / 16 := by omega
  rw [screen, List.getElem?_eq_none hrow]
  rfl

end

namespace Terminal

/-- The terminal with other pixels and another cursor. -/
def onto (t : Terminal) (pixels : Nat → RGBAPixel) (cursor : Cursor) : Terminal :=
  { t with framebuffer := { t.framebuffer with pixels := pixels }, paintCursor := cursor }

/-- Only the pixels differ. -/
def Redrawn (t u : Terminal) : Prop := ∃ pixels, u = t.onto pixels t.paintCursor

section

variable (t : Terminal) (pixels pixels' : Nat → RGBAPixel) (cursor cursor' : Cursor)

@[simp] theorem onto_cursor : (t.onto pixels cursor).paintCursor = cursor := rfl

@[simp] theorem onto_lineBuffer : (t.onto pixels cursor).lineBuffer = t.lineBuffer := rfl

@[simp] theorem onto_onto : (t.onto pixels cursor).onto pixels' cursor' = t.onto pixels' cursor' := rfl

end

section

variable {t : Terminal} {c : Byte} {x y : Nat}

theorem setPixel_ok (hx : x < t.framebuffer.width) (hy : y < t.framebuffer.height) (value : RGBAPixel) :
    t.setPixel x y value =
      .ok (t.onto (Function.update t.framebuffer.pixels (place t.framebuffer.width x y) value) t.paintCursor) := by
  rw [setPixel, Framebuffer.setPixel, if_pos ⟨hy, hx⟩]
  rfl

theorem nested_loop (as bs : List Nat) (px py : Nat → Nat → Nat) (value : Nat → Nat → RGBAPixel)
    (colour : Nat → Nat → RGBAPixel)
    (hin : ∀ a ∈ as, ∀ b ∈ bs, px a b < t.framebuffer.width ∧ py a b < t.framebuffer.height)
    (hcolour : ∀ a ∈ as, ∀ b ∈ bs, value a b = colour (px a b) (py a b)) :
    ∃ pixels, as.foldlM (fun t' a => bs.foldlM (fun t' b => t'.setPixel (px a b) (py a b) (value a b)) t') t =
        .ok (t.onto pixels t.paintCursor) ∧
      Painted t.framebuffer.width t.framebuffer.pixels pixels
        (fun x y => ∃ a ∈ as, ∃ b ∈ bs, x = px a b ∧ y = py a b) colour := by
  have hpoint : ∀ a ∈ as, ∀ s, t.Redrawn s → ∀ b ∈ bs, ∃ u,
      s.setPixel (px a b) (py a b) (value a b) = .ok u ∧ t.Redrawn u ∧
      Painted t.framebuffer.width s.framebuffer.pixels u.framebuffer.pixels
        (fun x y => x = px a b ∧ y = py a b) colour := by
    rintro a ha _ ⟨pixels, rfl⟩ b hb
    obtain ⟨hx, hy⟩ := hin a ha b hb
    refine ⟨_, setPixel_ok (t := t.onto pixels t.paintCursor) hx hy _, ⟨_, rfl⟩, ?_⟩
    rw [hcolour a ha b hb]
    exact Painted.point hx pixels
  have hrow : ∀ s, t.Redrawn s → ∀ a ∈ as, ∃ u,
      bs.foldlM (fun t' b => t'.setPixel (px a b) (py a b) (value a b)) s = .ok u ∧ t.Redrawn u ∧
      Painted t.framebuffer.width s.framebuffer.pixels u.framebuffer.pixels
        (fun x y => ∃ b ∈ bs, x = px a b ∧ y = py a b) colour :=
    fun s hs a ha => Painted.loop (fun s => s.framebuffer.pixels) (hpoint a ha) hs
  obtain ⟨_, hloop, ⟨pixels, rfl⟩, hpainted⟩ :=
    Painted.loop (fun s : Terminal => s.framebuffer.pixels) hrow (⟨t.framebuffer.pixels, rfl⟩ : t.Redrawn t)
  exact ⟨pixels, hloop, hpainted⟩

theorem blankLine_ok (hy : t.paintCursor.y + 16 ≤ t.framebuffer.height) :
    ∃ pixels, t.blankLine = .ok (t.onto pixels t.paintCursor) ∧
      Painted t.framebuffer.width t.framebuffer.pixels pixels
        (fun x y => t.paintCursor.x ≤ x ∧ t.paintCursor.y ≤ y ∧ y < t.paintCursor.y + 16) fun _ _ => blackRGBA := by
  obtain ⟨pixels, hloop, hpainted⟩ := nested_loop (t := t) (upTo t.paintCursor.x t.framebuffer.width)
    (upTo t.paintCursor.y (t.paintCursor.y + 16)) (fun x _ => x) (fun _ y => y) (fun _ _ => blackRGBA)
    (fun _ _ => blackRGBA) (by simp only [mem_upTo]; omega) (fun _ _ _ _ => rfl)
  refine ⟨pixels, hloop, hpainted.congr ?_ fun _ _ _ _ => rfl⟩
  intro x y hx
  simp only [mem_upTo]
  constructor
  · rintro ⟨hleft, hrow⟩
    exact ⟨x, ⟨hleft, hx⟩, y, hrow, rfl, rfl⟩
  · rintro ⟨_, ⟨hleft, _⟩, _, hrow, rfl, rfl⟩
    exact ⟨hleft, hrow⟩

theorem blankBelow_ok (t : Terminal) (top : Nat) :
    ∃ pixels, t.blankBelow top = .ok (t.onto pixels t.paintCursor) ∧
      Painted t.framebuffer.width t.framebuffer.pixels pixels
        (fun _ y => top ≤ y ∧ y < t.framebuffer.height) fun _ _ => blackRGBA := by
  obtain ⟨pixels, hloop, hpainted⟩ := nested_loop (t := t) (upTo top t.framebuffer.height)
    (upTo 0 t.framebuffer.width) (fun _ x => x) (fun y _ => y) (fun _ _ => blackRGBA)
    (fun _ _ => blackRGBA) (by simp only [mem_upTo]; omega) (fun _ _ _ _ => rfl)
  refine ⟨pixels, hloop, hpainted.congr ?_ fun _ _ _ _ => rfl⟩
  intro x y hx
  simp only [mem_upTo]
  constructor
  · intro hrow
    exact ⟨y, hrow, x, ⟨Nat.zero_le x, hx⟩, rfl, rfl⟩
  · rintro ⟨_, hrow, _, _, rfl, rfl⟩
    exact hrow

theorem newLine_room (hy : t.paintCursor.y + 16 < t.framebuffer.height) :
    t.newLine.paintCursor = ⟨0, t.paintCursor.y + 16⟩ :=
  congrArg (Cursor.mk 0) (if_pos hy)

theorem newLine_bottom (hy : ¬ t.paintCursor.y + 16 < t.framebuffer.height) :
    t.newLine.paintCursor = ⟨0, t.paintCursor.y⟩ :=
  congrArg (Cursor.mk 0) (if_neg hy)

theorem paintCharacter_newline (hy : t.paintCursor.y + 16 ≤ t.framebuffer.height) :
    ∃ pixels, t.paintCharacter newline = .ok (t.onto pixels t.newLine.paintCursor) ∧
      Painted t.framebuffer.width t.framebuffer.pixels pixels
        (fun x y => t.paintCursor.x ≤ x ∧ t.paintCursor.y ≤ y ∧ y < t.paintCursor.y + 16) fun _ _ => blackRGBA := by
  obtain ⟨pixels, hblank, hpainted⟩ := blankLine_ok hy
  refine ⟨pixels, ?_, hpainted⟩
  rw [paintCharacter, if_pos rfl, hblank]
  rfl

theorem paintCharacter_glyph (hc : c ≠ newline) (hx : t.paintCursor.x + 8 ≤ t.framebuffer.width)
    (hy : t.paintCursor.y + 16 ≤ t.framebuffer.height) :
    ∃ pixels, t.paintCharacter c = .ok (t.onto pixels ⟨t.paintCursor.x + 8, t.paintCursor.y⟩) ∧
      Painted t.framebuffer.width t.framebuffer.pixels pixels
        (fun x y => (t.paintCursor.x ≤ x ∧ x < t.paintCursor.x + 8) ∧ t.paintCursor.y ≤ y ∧ y < t.paintCursor.y + 16)
        fun x y => t.font.glyph c (x - t.paintCursor.x) (y - t.paintCursor.y) := by
  obtain ⟨pixels, hloop, hpainted⟩ := nested_loop (t := t) (upTo 0 16) (upTo 0 8)
    (fun _ bit => t.paintCursor.x + 0 + bit) (fun line _ => t.paintCursor.y + 0 + line)
    (fun line bit => t.font.glyph c bit line)
    (fun x y => t.font.glyph c (x - t.paintCursor.x) (y - t.paintCursor.y))
    (by simp only [mem_upTo]; omega) (fun _ _ _ _ => by simp)
  refine ⟨pixels, ?_, hpainted.congr ?_ fun _ _ _ _ => rfl⟩
  · have hbitmap : t.paintBitmap c = .ok (t.onto pixels t.paintCursor) := hloop
    rw [paintCharacter, if_neg hc, hbitmap]
    rfl
  · intro x y _
    simp only [mem_upTo]
    constructor
    · rintro ⟨⟨hleft, hright⟩, htop, hbottom⟩
      exact ⟨y - t.paintCursor.y, by omega, x - t.paintCursor.x, by omega, by omega, by omega⟩
    · rintro ⟨line, hline, bit, hbit, rfl, rfl⟩
      omega

end

/-! ### A full repaint -/

section

variable {t : Terminal} {texts : List (List Byte)} {text : List Byte} {row : Nat}

theorem paintText_ok (before : List Byte) (hcursor : t.paintCursor = ⟨8 * before.length, 16 * row⟩)
    (htext : texts[row]?.getD [] = before ++ text) (hplain : newline ∉ text)
    (hx : 8 * (before ++ text).length ≤ t.framebuffer.width) (hy : 16 * row + 16 ≤ t.framebuffer.height) :
    ∃ pixels, text.foldlM paintCharacter t = .ok (t.onto pixels ⟨8 * (before ++ text).length, 16 * row⟩) ∧
      Painted t.framebuffer.width t.framebuffer.pixels pixels
        (fun x y => (8 * before.length ≤ x ∧ x < 8 * (before ++ text).length) ∧ 16 * row ≤ y ∧ y < 16 * row + 16)
        (screen t.font texts) := by
  induction text generalizing t before with
  | nil =>
      rw [List.append_nil, ← hcursor]
      refine ⟨t.framebuffer.pixels, rfl, (Painted.refl _ _).congr ?_ fun _ _ _ _ => rfl⟩
      intro x y _
      exact ⟨fun h => absurd h.1.2 (Nat.not_lt.mpr h.1.1), False.elim⟩
  | cons c text ih =>
      have hsplit : before ++ c :: text = before ++ [c] ++ text := by simp
      rw [hsplit] at htext hx ⊢
      have hroom : 8 * before.length + 8 ≤ t.framebuffer.width := by
        simp only [List.length_append, List.length_singleton] at hx
        omega
      -- the first character, at the cursor
      obtain ⟨first, hfirst, hpaint⟩ := paintCharacter_glyph (t := t) (c := c)
        (fun h => hplain (h ▸ List.mem_cons_self)) (by rw [hcursor]; exact hroom) (by rw [hcursor]; exact hy)
      rw [hcursor] at hfirst hpaint
      -- the others, from behind it
      have hnext : (t.onto first ⟨8 * before.length + 8, 16 * row⟩).paintCursor =
          ⟨8 * (before ++ [c]).length, 16 * row⟩ := by simp [Nat.mul_add]
      obtain ⟨pixels, hrest, hpaints⟩ :=
        ih (before ++ [c]) hnext htext (fun h => hplain (List.mem_cons_of_mem c h)) hx hy
      have hchar : (before ++ [c] ++ text)[before.length]? = some c := by simp
      have hglyph : Painted t.framebuffer.width t.framebuffer.pixels first
          (fun x y => (8 * before.length ≤ x ∧ x < 8 * before.length + 8) ∧ 16 * row ≤ y ∧ y < 16 * row + 16)
          (screen t.font texts) :=
        hpaint.congr (fun _ _ _ => Iff.rfl) fun x y _ harea => screen_glyph htext hchar harea.1 harea.2
      refine ⟨pixels, ?_, (hglyph.trans hpaints).congr ?_ fun _ _ _ _ => rfl⟩
      · rw [List.foldlM_cons, hfirst]
        exact hrest
      · intro x y _
        simp only [List.length_append, List.length_singleton]
        omega

theorem paintText_start (hcursor : t.paintCursor = ⟨0, 16 * row⟩) (htext : texts[row]?.getD [] = text)
    (hplain : newline ∉ text) (hx : 8 * text.length ≤ t.framebuffer.width)
    (hy : 16 * row + 16 ≤ t.framebuffer.height) :
    ∃ pixels, text.foldlM paintCharacter t = .ok (t.onto pixels ⟨8 * text.length, 16 * row⟩) ∧
      Painted t.framebuffer.width t.framebuffer.pixels pixels
        (fun x y => x < 8 * text.length ∧ 16 * row ≤ y ∧ y < 16 * row + 16) (screen t.font texts) := by
  obtain ⟨pixels, hloop, hpainted⟩ := paintText_ok [] hcursor htext hplain hx hy
  refine ⟨pixels, hloop, hpainted.congr ?_ fun _ _ _ _ => rfl⟩
  intro x y _
  simp

theorem row_painted {font : VGAFont} {w : Nat} {f g h : Nat → RGBAPixel} (htext : texts[row]?.getD [] = text)
    (hpaints : Painted w f g (fun x y => x < 8 * text.length ∧ 16 * row ≤ y ∧ y < 16 * row + 16) (screen font texts))
    (hblank : Painted w g h (fun x y => 8 * text.length ≤ x ∧ 16 * row ≤ y ∧ y < 16 * row + 16) fun _ _ => blackRGBA) :
    Painted w f h (fun _ y => 16 * row ≤ y ∧ y < 16 * row + 16) (screen font texts) := by
  have hblack : Painted w g h (fun x y => 8 * text.length ≤ x ∧ 16 * row ≤ y ∧ y < 16 * row + 16)
      (screen font texts) :=
    hblank.congr (fun _ _ _ => Iff.rfl) fun x y _ harea => screen_blank htext harea.1 harea.2
  refine (hpaints.trans hblack).congr ?_ fun _ _ _ _ => rfl
  intro x y _
  omega

theorem paintLine_inner (line : Nat) (hget : LineBuffer.lineText (t.lineBuffer.getLine line) = text)
    (hcursor : t.paintCursor = ⟨0, 16 * row⟩) (htext : texts[row]?.getD [] = text) (hplain : newline ∉ text)
    (hx : 8 * text.length ≤ t.framebuffer.width) (hline : line ≠ t.lineBuffer.lastVisibleLineIndex)
    (hy : 16 * row + 16 < t.framebuffer.height) :
    ∃ pixels, t.paintLine line = .ok (t.onto pixels ⟨0, 16 * (row + 1)⟩) ∧
      Painted t.framebuffer.width t.framebuffer.pixels pixels (fun _ y => 16 * row ≤ y ∧ y < 16 * row + 16)
        (screen t.font texts) := by
  obtain ⟨written, hwritten, hpaints⟩ := paintText_start hcursor htext hplain hx (Nat.le_of_lt hy)
  obtain ⟨pixels, hbreak, hblank⟩ := paintCharacter_newline (t := t.onto written ⟨8 * text.length, 16 * row⟩)
    (Nat.le_of_lt hy)
  refine ⟨pixels, ?_, row_painted htext hpaints hblank⟩
  rw [paintLine, hget, hwritten]
  refine (if_neg hline).trans (hbreak.trans ?_)
  rw [newLine_room hy, onto_onto]
  rfl

theorem paintLine_last (line : Nat) (hget : LineBuffer.lineText (t.lineBuffer.getLine line) = text)
    (hcursor : t.paintCursor = ⟨0, 16 * row⟩) (htext : texts[row]?.getD [] = text) (hplain : newline ∉ text)
    (hx : 8 * text.length ≤ t.framebuffer.width) (hline : line = t.lineBuffer.lastVisibleLineIndex)
    (hy : 16 * row + 16 ≤ t.framebuffer.height) :
    ∃ pixels, t.paintLine line = .ok (t.onto pixels ⟨8 * text.length, 16 * row⟩) ∧
      Painted t.framebuffer.width t.framebuffer.pixels pixels (fun _ y => 16 * row ≤ y ∧ y < 16 * row + 16)
        (screen t.font texts) := by
  obtain ⟨written, hwritten, hpaints⟩ := paintText_start hcursor htext hplain hx hy
  obtain ⟨pixels, hrest, hblank⟩ := blankLine_ok (t := t.onto written ⟨8 * text.length, 16 * row⟩) hy
  refine ⟨pixels, ?_, row_painted htext hpaints hblank⟩
  rw [paintLine, hget, hwritten]
  exact (if_pos hline).trans hrest

end

end Terminal

/-- The lines that are visible, as they are shown. -/
def LineBuffer.visibleText (b : LineBuffer) : List (List Byte) :=
  (upTo b.firstVisibleLineIndex (b.lastVisibleLineIndex + 1)).map fun index => lineText (b.getLine index)

/-- Lines of text that there is room for on a framebuffer. -/
structure FitsOn (texts : List (List Byte)) (width height : Nat) : Prop where
  rows : 16 * texts.length ≤ height
  columns : ∀ text ∈ texts, 8 * text.length ≤ width
  plain : ∀ text ∈ texts, newline ∉ text

theorem LineBuffer.visibleText_getElem? (b : LineBuffer) (row : Nat)
    (h : b.firstVisibleLineIndex + row ≤ b.lastVisibleLineIndex) :
    b.visibleText[row]? = some (lineText (b.getLine (b.firstVisibleLineIndex + row))) := by
  have hrow : row < b.lastVisibleLineIndex + 1 - b.firstVisibleLineIndex := by omega
  rw [visibleText, upTo, List.getElem?_map, List.getElem?_range' hrow, Nat.one_mul]
  rfl

theorem LineBuffer.visibleText_split {b : LineBuffer} {n : Nat}
    (h : b.lastVisibleLineIndex = b.firstVisibleLineIndex + n) :
    ∃ above, above.length = n ∧ b.visibleText = above ++ [lineText (b.getLine (b.firstVisibleLineIndex + n))] := by
  have hcount : b.firstVisibleLineIndex + n + 1 - b.firstVisibleLineIndex = n + 1 := by omega
  refine ⟨(List.range' b.firstVisibleLineIndex n).map fun index => lineText (b.getLine index), by simp, ?_⟩
  rw [visibleText, upTo, h, hcount, List.range'_1_concat, List.map_append, List.map_singleton]

namespace Terminal

section

variable {t : Terminal}

theorem paintLines_ok (hcursor : t.paintCursor = {})
    (hfits : FitsOn t.lineBuffer.visibleText t.framebuffer.width t.framebuffer.height) (k : Nat)
    (hk : t.lineBuffer.firstVisibleLineIndex + k ≤ t.lineBuffer.lastVisibleLineIndex) :
    ∃ pixels, (List.range' t.lineBuffer.firstVisibleLineIndex k).foldlM paintLine t = .ok (t.onto pixels ⟨0, 16 * k⟩) ∧
      Painted t.framebuffer.width t.framebuffer.pixels pixels (fun _ y => y < 16 * k)
        (screen t.font t.lineBuffer.visibleText) := by
  induction k with
  | zero =>
      refine ⟨t.framebuffer.pixels, congrArg (fun c => Except.ok (t.onto _ c)) hcursor,
        (Painted.refl _ _).congr ?_ fun _ _ _ _ => rfl⟩
      intro x y _
      exact iff_of_false (Nat.not_lt_zero y) id
  | succ k ih =>
      obtain ⟨before, hbefore, hpaints⟩ := ih (by omega)
      have htext := t.lineBuffer.visibleText_getElem? k (by omega)
      have hmem := List.mem_of_getElem? htext
      have hnext := t.lineBuffer.visibleText_getElem? (k + 1) hk
      have hrows : k + 1 < t.lineBuffer.visibleText.length := (List.getElem?_eq_some_iff.mp hnext).1
      have hheight : 16 * k + 16 < t.framebuffer.height := Nat.lt_of_lt_of_le (by omega) hfits.rows
      obtain ⟨pixels, hline, hpaint⟩ := paintLine_inner (t := t.onto before ⟨0, 16 * k⟩)
        (t.lineBuffer.firstVisibleLineIndex + k) rfl rfl (by rw [htext]; rfl) (hfits.plain _ hmem)
        (hfits.columns _ hmem) (by rw [onto_lineBuffer]; omega) hheight
      refine ⟨pixels, ?_, (hpaints.trans hpaint).congr ?_ fun _ _ _ _ => rfl⟩
      · rw [List.range'_1_concat]
        exact foldlM_snoc hbefore hline
      · intro x y _
        omega

/-- A repaint of lines that fit gives their picture, with the cursor behind the last of them. -/
theorem paintVisibleBuffer_ok
    (hsome : t.lineBuffer.firstVisibleLineIndex ≤ t.lineBuffer.lastVisibleLineIndex)
    (hfits : FitsOn t.lineBuffer.visibleText t.framebuffer.width t.framebuffer.height) :
    ∃ pixels above text, t.lineBuffer.visibleText = above ++ [text] ∧
      t.paintVisibleBuffer = .ok (t.onto pixels ⟨8 * text.length, 16 * above.length⟩) ∧
      ∀ x y, x < t.framebuffer.width → y < t.framebuffer.height →
        pixels (place t.framebuffer.width x y) = screen t.font t.lineBuffer.visibleText x y := by
  obtain ⟨n, hn⟩ := Nat.exists_eq_add_of_le hsome
  obtain ⟨above, hlength, hsplit⟩ := LineBuffer.visibleText_split hn
  obtain ⟨text, hget⟩ : ∃ text,
      LineBuffer.lineText (t.lineBuffer.getLine (t.lineBuffer.firstVisibleLineIndex + n)) = text := ⟨_, rfl⟩
  rw [hget] at hsplit
  have hmem : text ∈ t.lineBuffer.visibleText := by simp [hsplit]
  have htext : t.lineBuffer.visibleText[n]?.getD [] = text := by simp [hsplit, ← hlength]
  have hheight : 16 * n + 16 ≤ t.framebuffer.height := by
    have := hfits.rows
    rw [hsplit, List.length_append, List.length_singleton] at this
    omega
  -- the lines above, the last one, and the rows of pixels below it
  obtain ⟨upper, hupper, hpaints⟩ :=
    paintLines_ok (t := t.onto t.framebuffer.pixels {}) rfl hfits n (Nat.le_of_eq hn.symm)
  obtain ⟨full, hline, hpaint⟩ := paintLine_last (t := t.onto upper ⟨0, 16 * n⟩)
    (t.lineBuffer.firstVisibleLineIndex + n) hget rfl htext (hfits.plain _ hmem) (hfits.columns _ hmem)
    hn.symm hheight
  obtain ⟨pixels, hbelow, hblank⟩ := (t.onto full ⟨8 * text.length, 16 * n⟩).blankBelow_ok (16 * n + 16)
  refine ⟨pixels, above, text, hsplit, ?_, ?_⟩
  · have hcount : t.lineBuffer.lastVisibleLineIndex + 1 - t.lineBuffer.firstVisibleLineIndex = n + 1 := by omega
    have hlines := foldlM_snoc hupper hline
    rw [onto_lineBuffer, ← List.range'_1_concat, ← hcount] at hlines
    rw [hlength, paintVisibleBuffer]
    change (List.foldlM paintLine (t.onto t.framebuffer.pixels {}) (upTo _ _) >>= _) = _
    rw [upTo, hlines]
    exact hbelow
  · have hblack : Painted t.framebuffer.width full pixels (fun _ y => 16 * n + 16 ≤ y ∧ y < t.framebuffer.height)
        (screen t.font t.lineBuffer.visibleText) := by
      refine hblank.congr (fun _ _ _ => Iff.rfl) fun x y _ harea => screen_below ?_
      rw [hsplit, List.length_append, hlength]
      exact harea.1
    intro x y hx hy
    exact (((hpaints.trans hpaint).trans hblack) x y hx).1 (by omega)

end

end Terminal

end DavOS
