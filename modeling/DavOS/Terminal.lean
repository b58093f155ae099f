import DavOS.Kernel
import DavOS.LineBuffer

/-! `Terminal`: the line buffer and the framebuffer that it is painted on. The
paint cursor is kept beside the buffer: a write moves it along, a repaint sets it
anew. -/
namespace DavOS

/-- A pixel of the framebuffer. -/
abbrev RGBAPixel := BitVec 32

def blackRGBA : RGBAPixel := 0

def whiteRGBA : RGBAPixel := 0xffffffff

structure Cursor where
  x : Nat := 0
  y : Nat := 0
  deriving DecidableEq

structure Framebuffer where
  pixels : Nat → RGBAPixel
  width : Nat
  height : Nat

namespace Framebuffer

def setPixel (fb : Framebuffer) (cursor : Cursor) (value : RGBAPixel) : Except Stop Framebuffer :=
  if cursor.y < fb.height ∧ cursor.x < fb.width then
    .ok { fb with pixels := Function.update fb.pixels (fb.width * cursor.y + cursor.x) value }
  else .error (.panic "Cursor out of bounds")

/-- What stands at a point. -/
def pixel (fb : Framebuffer) (x y : Nat) : RGBAPixel := fb.pixels (fb.width * y + x)

end Framebuffer

/-- The bytes at and around the `data` of `DefaultFonts::terminalFont`; its
characters are signed, and those from 128 on are looked up in front of it. -/
structure VGAFont where
  data : Int → Byte

namespace terminalFont

abbrev characterWidth : Nat := 8

abbrev characterHeight : Nat := 16

abbrev characterLeftPadding : Nat := 0

abbrev characterTopPadding : Nat := 0

abbrev characterRightPadding : Nat := 0

abbrev characterBottomPadding : Nat := 0

abbrev characterTotalWidth : Nat := characterWidth + characterLeftPadding + characterRightPadding

abbrev characterTotalHeight : Nat := characterHeight + characterTopPadding + characterBottomPadding

end terminalFont

/-- Line `line` of the bitmap of a character. -/
def VGAFont.characterBitmap (font : VGAFont) (character : Byte) (line : Nat) : Byte :=
  font.data (character.toInt * terminalFont.characterHeight + line)

/-- The colour of one point of a character. -/
def VGAFont.glyph (font : VGAFont) (character : Byte) (bit line : Nat) : RGBAPixel :=
  if font.characterBitmap character line &&& (1 <<< (terminalFont.characterWidth - bit - 1)) ≠ 0 then whiteRGBA
  else blackRGBA

/-- The values that a counter takes from `start` on below `stop`. -/
def upTo (start stop : Nat) : List Nat := List.range' start (stop - start)

structure Terminal where
  framebuffer : Framebuffer
  font : VGAFont
  paintCursor : Cursor := {}
  lineBuffer : LineBuffer

namespace Terminal
open terminalFont

/-- A new terminal; `lines` is what its array of lines happens to hold. -/
def new (framebuffer : Framebuffer) (font : VGAFont) (lines : Nat → Nat → Byte) : Terminal where
  framebuffer := framebuffer
  font := font
  lineBuffer := .fresh lines (framebuffer.width / characterTotalWidth) (framebuffer.height / characterTotalHeight)

def setPixel (t : Terminal) (x y : Nat) (value : RGBAPixel) : Except Stop Terminal := do
  let framebuffer ← t.framebuffer.setPixel ⟨x, y⟩ value
  return { t with framebuffer := framebuffer }

/-- Blacken the rest of the text row, from the cursor to the right edge. -/
def blankLine (t : Terminal) : Except Stop Terminal :=
  (upTo t.paintCursor.x t.framebuffer.width).foldlM (fun t' x =>
    (upTo t.paintCursor.y (t.paintCursor.y + characterTotalHeight)).foldlM (fun t' y => t'.setPixel x y blackRGBA) t') t

/-- Blacken whole rows of pixels, from row `y` to the bottom edge. -/
def blankBelow (t : Terminal) (y : Nat) : Except Stop Terminal :=
  (upTo y t.framebuffer.height).foldlM (fun t' y =>
    (upTo 0 t.framebuffer.width).foldlM (fun t' x => t'.setPixel x y blackRGBA) t') t

def newLine (t : Terminal) : Terminal :=
  { t with
    paintCursor :=
      { x := 0
        y :=
          if t.paintCursor.y + characterTotalHeight < t.framebuffer.height then
            t.paintCursor.y + characterTotalHeight
          else t.paintCursor.y } }

/-- The bitmap of a character, with its top left corner at the cursor. -/
def paintBitmap (t : Terminal) (character : Byte) : Except Stop Terminal :=
  (upTo 0 characterHeight).foldlM (fun t' line =>
    (upTo 0 characterWidth).foldlM (fun t' bit =>
      t'.setPixel (t.paintCursor.x + characterLeftPadding + bit) (t.paintCursor.y + characterTopPadding + line)
        (t.font.glyph character bit line)) t') t

def paintCharacter (t : Terminal) (character : Byte) : Except Stop Terminal :=
  if character = newline then do
    let t ← t.blankLine
    return t.newLine
  else do
    let t ← t.paintBitmap character
    return { t with
      paintCursor :=
        { t.paintCursor with
          x := t.paintCursor.x + (characterWidth + characterLeftPadding + characterRightPadding) } }

/-- One visible line, up to its first NUL. -/
def paintLine (t : Terminal) (line : Nat) : Except Stop Terminal := do
  let t ← (LineBuffer.lineText (t.lineBuffer.getLine line)).foldlM paintCharacter t
  if line = t.lineBuffer.lastVisibleLineIndex then t.blankLine else t.paintCharacter newline

def paintVisibleBuffer (t : Terminal) : Except Stop Terminal := do
  let t : Terminal := { t with paintCursor := {} }
  let t ← (upTo t.lineBuffer.firstVisibleLineIndex (t.lineBuffer.lastVisibleLineIndex + 1)).foldlM paintLine t
  t.blankBelow (t.paintCursor.y + characterTotalHeight)

def write (t : Terminal) (character : Byte) : Except Stop Terminal := do
  let (result, lineBuffer) := t.lineBuffer.write character
  let t : Terminal := { t with lineBuffer := lineBuffer }
  if result.needsViewportRedraw then t.paintVisibleBuffer
  else do
    let t ← if result.lineWrapped ∧ character ≠ newline then t.paintCharacter newline else pure t
    t.paintCharacter character

def scrollDown (t : Terminal) (lines : Int) : Except Stop Terminal :=
  { t with lineBuffer := t.lineBuffer.scrollDown lines }.paintVisibleBuffer

def clearViewport (t : Terminal) : Except Stop Terminal := do
  let t ← t.blankBelow 0
  return { t with paintCursor := {} }

def clear (t : Terminal) : Except Stop Terminal := do
  let t ← t.clearViewport
  return { t with lineBuffer := t.lineBuffer.clear }

end Terminal

/-- The calls that a user of the terminal makes. -/
inductive TerminalOp where
  | write (character : Byte)
  | scrollDown (lines : Int)
  | clearViewport
  | clear
  deriving DecidableEq

def terminalStep (t : Terminal) : TerminalOp → Except Stop Terminal
  | .write character => t.write character
  | .scrollDown lines => t.scrollDown lines
  | .clearViewport => t.clearViewport
  | .clear => t.clear

/-! ### The text of the terminal -/

/-- What a call does to the text of the terminal. -/
def LineBuffer.apply (b : LineBuffer) : TerminalOp → LineBuffer
  | .write character => (b.write character).2
  | .scrollDown lines => b.scrollDown lines
  | .clearViewport => b
  | .clear => b.clear

def LineBuffer.applyAll (b : LineBuffer) (ops : List TerminalOp) : LineBuffer := ops.foldl apply b

theorem LineBuffer.applyAll_append (b : LineBuffer) (ops ops' : List TerminalOp) :
    b.applyAll (ops ++ ops') = (b.applyAll ops).applyAll ops' :=
  List.foldl_append

namespace Terminal

variable {t u : Terminal}

theorem setPixel_lineBuffer {x y : Nat} {value : RGBAPixel} (h : t.setPixel x y value = .ok u) :
    u.lineBuffer = t.lineBuffer := by
  obtain ⟨framebuffer, _, hu⟩ := bind_ok h
  cases hu
  rfl

theorem nested_lineBuffer {as bs : List Nat} {px py : Nat → Nat → Nat} {value : Nat → Nat → RGBAPixel}
    (h : as.foldlM (fun t a => bs.foldlM (fun t b => t.setPixel (px a b) (py a b) (value a b)) t) t = .ok u) :
    u.lineBuffer = t.lineBuffer :=
  foldlM_keeps Terminal.lineBuffer
    (fun _ _ _ _ hrow => foldlM_keeps Terminal.lineBuffer (fun _ _ _ _ => setPixel_lineBuffer) hrow) h

theorem blankLine_lineBuffer (h : t.blankLine = .ok u) : u.lineBuffer = t.lineBuffer := nested_lineBuffer h

theorem blankBelow_lineBuffer {y : Nat} (h : t.blankBelow y = .ok u) : u.lineBuffer = t.lineBuffer :=
  nested_lineBuffer h

theorem paintBitmap_lineBuffer {c : Byte} (h : t.paintBitmap c = .ok u) : u.lineBuffer = t.lineBuffer :=
  nested_lineBuffer h

theorem paintCharacter_lineBuffer {c : Byte} (h : t.paintCharacter c = .ok u) : u.lineBuffer = t.lineBuffer := by
  unfold paintCharacter at h
  split at h
  · obtain ⟨v, hv, hu⟩ := bind_ok h
    cases hu
    exact (blankLine_lineBuffer hv :)
  · obtain ⟨v, hv, hu⟩ := bind_ok h
    cases hu
    exact (paintBitmap_lineBuffer hv :)

theorem paintLine_lineBuffer {line : Nat} (h : t.paintLine line = .ok u) : u.lineBuffer = t.lineBuffer := by
  obtain ⟨v, hv, hu⟩ := bind_ok h
  have htext : v.lineBuffer = t.lineBuffer :=
    foldlM_keeps Terminal.lineBuffer (fun _ _ _ _ => paintCharacter_lineBuffer) hv
  rw [← htext]
  split at hu
  · exact blankLine_lineBuffer hu
  · exact paintCharacter_lineBuffer hu

theorem paintVisibleBuffer_lineBuffer (h : t.paintVisibleBuffer = .ok u) : u.lineBuffer = t.lineBuffer := by
  obtain ⟨v, hv, hu⟩ := bind_ok h
  have hlines := foldlM_keeps Terminal.lineBuffer (fun _ _ _ _ => paintLine_lineBuffer) hv
  exact (blankBelow_lineBuffer hu).trans hlines

theorem clearViewport_lineBuffer (h : t.clearViewport = .ok u) : u.lineBuffer = t.lineBuffer := by
  obtain ⟨v, hv, hu⟩ := bind_ok h
  cases hu
  exact (blankBelow_lineBuffer hv :)

theorem write_lineBuffer {c : Byte} (h : t.write c = .ok u) : u.lineBuffer = (t.lineBuffer.write c).2 := by
  unfold write at h
  dsimp only at h
  split at h
  · exact paintVisibleBuffer_lineBuffer h
  · split at h
    · obtain ⟨v, hv, hu⟩ := bind_ok h
      rw [paintCharacter_lineBuffer hu, paintCharacter_lineBuffer hv]
    · exact paintCharacter_lineBuffer h

end Terminal

/-- The text after a call is what the line buffer makes of it, whatever is painted. -/
theorem terminalStep_lineBuffer {t u : Terminal} {op : TerminalOp} (h : terminalStep t op = .ok u) :
    u.lineBuffer = t.lineBuffer.apply op := by
  cases op with
  | write c => exact Terminal.write_lineBuffer h
  | scrollDown n => exact Terminal.paintVisibleBuffer_lineBuffer h
  | clearViewport => exact Terminal.clearViewport_lineBuffer h
  | clear =>
      obtain ⟨v, hv, hu⟩ := bind_ok h
      cases hu
      exact congrArg LineBuffer.clear (Terminal.clearViewport_lineBuffer hv)

theorem terminalRun_lineBuffer {t u : Terminal} {ops : List TerminalOp} (h : ops.foldlM terminalStep t = .ok u) :
    u.lineBuffer = t.lineBuffer.applyAll ops := by
  induction ops generalizing t with
  | nil =>
      cases h
      rfl
  | cons op ops ih =>
      rw [List.foldlM_cons] at h
      obtain ⟨v, hv, hrest⟩ := bind_ok h
      rw [ih hrest, terminalStep_lineBuffer hv]
      rfl

end DavOS
