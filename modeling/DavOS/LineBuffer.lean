import DavOS.CString
import DavOS.MachineWord
import DavOS.RingWindow

/-! `Terminal::LineBuffer`: the text of the terminal, as lines in a ring of 256
arrays of 200 characters. `firstVisible` and `front` are raw indices into the
ring; the two functions that give the visible range count lines from `front` on. -/
namespace DavOS
open MachineWord RingWindow

inductive ScrollMode where
  | automatic
  | manual
  deriving DecidableEq

def newline : Byte := 10

theorem newline_ne_zero : newline ≠ 0 := by
  decide

namespace LineBuffer

abbrev maxColumns : Nat := 200

abbrev maxLines : Nat := 256

end LineBuffer

structure LineBuffer where
  lines : Nat → Nat → Byte
  lineSize : Nat := LineBuffer.maxColumns
  visibleLines : Nat := 24
  front : Nat := 0
  size : Nat := 1
  firstVisible : Nat := 0
  column : Nat := 0

namespace LineBuffer

def setLineSize (b : LineBuffer) (lineSize : Nat) : LineBuffer := { b with lineSize := min lineSize maxColumns }

def setNumVisibleLines (b : LineBuffer) (numVisibleLines : Nat) : LineBuffer :=
  { b with visibleLines := min numVisibleLines maxLines }

/-- The buffer of a new terminal; its array is not initialised. -/
def fresh (lines : Nat → Nat → Byte) (lineSize numVisibleLines : Nat) : LineBuffer :=
  (LineBuffer.setLineSize { lines := lines } lineSize).setNumVisibleLines numVisibleLines

def scrollDown (b : LineBuffer) (lines : Int) : LineBuffer :=
  if 0 ≤ lines then { b with firstVisible := min (b.size - 1) (b.firstVisible + lines.toNat) }
  else
    { b with firstVisible := if lines.natAbs > b.firstVisible then 0 else b.firstVisible - lines.natAbs }

structure WriteResult where
  lineWrapped : Bool
  needsViewportRedraw : Bool
  deriving DecidableEq

/-- Room for a new line at the end: a full ring gives up its oldest line. -/
def advance (b : LineBuffer) : LineBuffer :=
  if maxLines ≤ b.size then
    let front := (b.front + 1) % maxLines
    { b with
      front := front
      firstVisible := if b.firstVisible = front then (b.firstVisible + 1) % maxLines else b.firstVisible }
  else { b with size := b.size + 1 }

/-- The viewport after a line break in automatic mode. -/
def follow (b : LineBuffer) : LineBuffer :=
  { b with firstVisible := max b.firstVisible (if b.visibleLines < b.size then b.size - b.visibleLines else 0) }

def wrapLine (b : LineBuffer) (scrollMode : ScrollMode) : LineBuffer :=
  { (match scrollMode with
      | .automatic => b.advance.follow
      | .manual => b.advance) with
    column := 0 }

/-- The slot of the newest line. -/
def currentSlot (b : LineBuffer) : Nat := (b.front + b.size - 1) % maxLines

def putChar (b : LineBuffer) (character : Byte) : LineBuffer :=
  { b with
    lines := Function.update b.lines b.currentSlot
      (Function.update (b.lines b.currentSlot) b.column character)
    column := b.column + 1 }

def lineWrap (b : LineBuffer) (character : Byte) : Bool :=
  decide (b.lineSize ≤ b.column) || decide (character = newline)

def write (b : LineBuffer) (character : Byte) (scrollMode : ScrollMode := .automatic) : WriteResult × LineBuffer :=
  let wrapped := if b.lineWrap character then b.wrapLine scrollMode else b
  let written := if character ≠ newline then wrapped.putChar character else wrapped
  (⟨b.lineWrap character, decide (written.firstVisible ≠ b.firstVisible)⟩, written)

/-- The first branch counts one line too few: `front` itself is not subtracted but `front + 1`. -/
def firstVisibleLineIndex (b : LineBuffer) : Nat :=
  if b.firstVisible < b.front then b.firstVisible + (maxLines - b.front - 1) else b.firstVisible - b.front

def lastVisibleLineIndex (b : LineBuffer) : Nat :=
  min (b.size - 1) (wrapSub (b.firstVisibleLineIndex + b.visibleLines) 1)

def getLine (b : LineBuffer) (index : Nat) : Nat → Byte := b.lines ((b.front + index) % maxLines)

/-- Only the first line of the array is zeroed. -/
def clear (b : LineBuffer) : LineBuffer :=
  { b with front := 0, size := 1, firstVisible := 0, column := 0, lines := Function.update b.lines 0 fun _ => 0 }

/-- A line as it is shown: up to its first NUL, or to the end of the array. -/
def lineText (line : Nat → Byte) : List Byte := cstring line 0 maxColumns

/-- The lines of the buffer as they are shown, oldest first. -/
def shown (b : LineBuffer) : List (List Byte) := (window b.lines maxLines b.front b.size).map lineText

/-! ### Indices -/

/-- What holds of the indices in every reachable state. -/
structure Valid (b : LineBuffer) : Prop where
  front_lt : b.front < 256
  size_pos : 1 ≤ b.size
  size_le : b.size ≤ 256
  front_zero : b.size < 256 → b.front = 0
  first_le : b.firstVisible < b.size
  lineSize_le : b.lineSize ≤ 200
  visible_le : b.visibleLines ≤ 256

section

variable {b : LineBuffer} {c : Byte} {mode : ScrollMode}

theorem valid_fresh (lines : Nat → Nat → Byte) (lineSize visible : Nat) : (fresh lines lineSize visible).Valid :=
  ⟨Nat.succ_pos 255, Nat.le_refl 1, Nat.succ_le_succ (Nat.zero_le 255), fun _ => rfl, Nat.one_pos,
    Nat.min_le_right _ _, Nat.min_le_right _ _⟩

theorem Valid.scrollDown (h : b.Valid) (n : Int) : (b.scrollDown n).Valid := by
  obtain ⟨hfront, hpos, hsize, hzero, hfirst, hline, hvisible⟩ := h
  unfold LineBuffer.scrollDown
  split
  · refine ⟨hfront, hpos, hsize, hzero, ?_, hline, hvisible⟩
    dsimp only
    omega
  · refine ⟨hfront, hpos, hsize, hzero, ?_, hline, hvisible⟩
    dsimp only
    split <;> omega

theorem Valid.advance (h : b.Valid) : b.advance.Valid := by
  obtain ⟨hfront, hpos, hsize, hzero, hfirst, hline, hvisible⟩ := h
  simp only [LineBuffer.advance, maxLines]
  split
  · rename_i hfull
    refine ⟨Nat.mod_lt _ (by decide), hpos, hsize, ?_, ?_, hline, hvisible⟩
    · exact fun hlt => absurd hfull (Nat.not_le_of_lt hlt)
    · dsimp only
      split <;> omega
  · rename_i hroom
    refine ⟨hfront, Nat.succ_pos _, Nat.lt_of_not_le hroom, ?_, Nat.lt_succ_of_lt hfirst, hline, hvisible⟩
    exact fun _ => hzero (Nat.lt_of_not_le hroom)

/-- With at least one visible line the viewport follows to a line that exists. -/
theorem Valid.follow (h : b.Valid) (hv : 1 ≤ b.visibleLines) : b.follow.Valid := by
  obtain ⟨hfront, hpos, hsize, hzero, hfirst, hline, hvisible⟩ := h
  refine ⟨hfront, hpos, hsize, hzero, ?_, hline, hvisible⟩
  simp only [LineBuffer.follow]
  split <;> omega

theorem lineWrap_iff (b : LineBuffer) (c : Byte) : b.lineWrap c = true ↔ b.lineSize ≤ b.column ∨ c = newline := by
  simp [lineWrap]

@[simp] theorem advance_lines (b : LineBuffer) : b.advance.lines = b.lines := by
  unfold advance
  split <;> rfl

@[simp] theorem advance_lineSize (b : LineBuffer) : b.advance.lineSize = b.lineSize := by
  unfold advance
  split <;> rfl

@[simp] theorem advance_visibleLines (b : LineBuffer) : b.advance.visibleLines = b.visibleLines := by
  unfold advance
  split <;> rfl

theorem Valid.wrapLine (h : b.Valid) (hv : 1 ≤ b.visibleLines) (mode : ScrollMode) : (b.wrapLine mode).Valid := by
  have hadvance := h.advance
  cases mode with
  | automatic =>
      have hfollow := hadvance.follow (by simpa using hv)
      exact ⟨hfollow.1, hfollow.2, hfollow.3, hfollow.4, hfollow.5, hfollow.6, hfollow.7⟩
  | manual => exact ⟨hadvance.1, hadvance.2, hadvance.3, hadvance.4, hadvance.5, hadvance.6, hadvance.7⟩

end

end LineBuffer

end DavOS
