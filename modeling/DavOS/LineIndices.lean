import DavOS.LineViewport
import DavOS.Terminal

/-! The indices of the line buffer over every sequence of calls: no subtraction
in them goes below zero, nothing is stored outside of the array, and the visible
range is a range of lines that exist. -/
namespace DavOS
open MachineWord

namespace LineBuffer

/-- The calls that the terminal makes on its buffer once the sizes are set. -/
inductive Call where
  | write (character : Byte) (scrollMode : ScrollMode)
  | scrollDown (lines : Int)
  | clear

def call (b : LineBuffer) : Call → LineBuffer
  | .write character scrollMode => (b.write character scrollMode).2
  | .scrollDown lines => b.scrollDown lines
  | .clear => b.clear

/-- Where `write` stores a character that is no line break. -/
def storeColumn (b : LineBuffer) (c : Byte) : Nat := if b.lineWrap c then 0 else b.column

/-- What every call keeps: a line is full before its column leaves the array. -/
structure Bounded (b : LineBuffer) : Prop where
  valid : b.Valid
  visible_pos : 1 ≤ b.visibleLines
  column_le : b.column ≤ 200

section

variable {b : LineBuffer} {c : Byte} {mode : ScrollMode}

theorem bounded_fresh (lines : Nat → Nat → Byte) (lineSize : Nat) {visible : Nat} (hv : 1 ≤ visible) :
    (fresh lines lineSize visible).Bounded := by
  refine ⟨valid_fresh lines lineSize visible, ?_, Nat.zero_le 200⟩
  change 1 ≤ min visible 256
  omega

@[simp] theorem wrapLine_visibleLines : (b.wrapLine mode).visibleLines = b.visibleLines := by
  cases mode <;> simp [wrapLine, follow]

theorem Bounded.wrapLine (h : b.Bounded) : (b.wrapLine mode).Bounded := by
  refine ⟨h.valid.wrapLine h.visible_pos mode, ?_, ?_⟩
  · rw [wrapLine_visibleLines]
    exact h.visible_pos
  · rw [wrapLine_column]
    exact Nat.zero_le 200

theorem Bounded.putChar (h : b.Bounded) (hlt : b.column < 200) : (b.putChar c).Bounded := by
  obtain ⟨⟨hfront, hpos, hsize, hzero, hfirst, hline, hvisible⟩, hv, _⟩ := h
  exact ⟨⟨hfront, hpos, hsize, hzero, hfirst, hline, hvisible⟩, hv, hlt⟩

theorem Bounded.write (h : b.Bounded) : (b.write c mode).2.Bounded := by
  have hline := h.valid.lineSize_le
  by_cases hbreak : c = newline
  · rw [hbreak, write_newline]
    exact h.wrapLine
  · by_cases hfull : b.lineSize ≤ b.column
    · rw [write_wrap hbreak hfull]
      exact h.wrapLine.putChar (by rw [wrapLine_column]; decide)
    · rw [write_room hbreak hfull]
      exact h.putChar (by omega)

theorem Bounded.scrollDown (h : b.Bounded) (n : Int) : (b.scrollDown n).Bounded := by
  refine ⟨h.valid.scrollDown n, ?_, ?_⟩
  · unfold LineBuffer.scrollDown
    split <;> exact h.visible_pos
  · unfold LineBuffer.scrollDown
    split <;> exact h.column_le

theorem Bounded.clear (h : b.Bounded) : b.clear.Bounded :=
  ⟨⟨Nat.succ_pos 255, Nat.le_refl 1, Nat.succ_le_succ (Nat.zero_le 255), fun _ => rfl, Nat.one_pos,
    h.valid.lineSize_le, h.valid.visible_le⟩, h.visible_pos, Nat.zero_le 200⟩

theorem Bounded.call (h : b.Bounded) (op : Call) : (b.call op).Bounded := by
  cases op with
  | write c mode => exact h.write
  | scrollDown n => exact h.scrollDown n
  | clear => exact h.clear

theorem Bounded.calls (h : b.Bounded) (ops : List Call) : (ops.foldl LineBuffer.call b).Bounded := by
  induction ops generalizing b with
  | nil => exact h
  | cons op ops ih => exact ih (h.call op)

end

/-- The indices of a buffer whose next call, and next repaint, touch only what is there. -/
structure IndicesInRange (b : LineBuffer) : Prop where
  front_lt : b.front < 256
  size_pos : 1 ≤ b.size
  size_le : b.size ≤ 256
  first_lt : b.firstVisible < 256
  column_le : b.column ≤ 200
  stores : ∀ c, c ≠ newline → b.storeColumn c < 200
  visible : b.firstVisibleLineIndex ≤ b.lastVisibleLineIndex ∧ b.lastVisibleLineIndex < b.size
  -- the loop of `paintVisibleBuffer`, whose counter has 64 bits, ends and visits lines of the buffer
  painted : strideWhile (fun line => decide (line ≤ b.lastVisibleLineIndex)) 1 loopFuel b.firstVisibleLineIndex =
      some (upTo b.firstVisibleLineIndex (b.lastVisibleLineIndex + 1)) ∧
    ∀ line ∈ upTo b.firstVisibleLineIndex (b.lastVisibleLineIndex + 1), line < b.size

theorem strideWhile_le {first last : Nat} (hle : first ≤ last + 1) (hlast : last + 1 < 2 ^ 64) :
    strideWhile (fun y => decide (y ≤ last)) 1 loopFuel first = some (upTo first (last + 1)) := by
  have hsame : (fun y => decide (y ≤ last)) = fun y => decide (y < last + 1) := by
    funext y
    exact decide_eq_decide.mpr Nat.lt_succ_iff.symm
  rw [hsame, strideWhile_lt (n := last + 1 - first) Nat.one_pos (by omega) hlast, stride_one]
  rfl

theorem Bounded.indicesInRange {b : LineBuffer} (h : b.Bounded) : b.IndicesInRange := by
  obtain ⟨hvalid, hv, hcolumn⟩ := h
  have hfirst := hvalid.firstVisibleLineIndex_le
  have hlast := hvalid.lastVisibleLineIndex_eq hv
  have hpos := hvalid.size_pos
  have hsize := hvalid.size_le
  have hraw := hvalid.first_le
  have hvisible : b.firstVisibleLineIndex ≤ b.lastVisibleLineIndex ∧ b.lastVisibleLineIndex < b.size := by
    rw [hlast]
    omega
  refine ⟨hvalid.front_lt, hpos, hsize, by omega, hcolumn, ?_, hvisible, strideWhile_le (by omega) (by omega), ?_⟩
  · intro c _
    have hline := hvalid.lineSize_le
    unfold storeColumn
    split
    · decide
    · rename_i hroom
      rw [lineWrap_iff, not_or] at hroom
      omega
  · intro line hline
    rw [upTo, List.mem_range'_1] at hline
    omega

/-- After any calls on a buffer of any line size and at least one visible line, its indices are in range. -/
theorem indices_in_range (lines : Nat → Nat → Byte) (lineSize visible : Nat) (hv : 1 ≤ visible) (ops : List Call) :
    (ops.foldl call (fresh lines lineSize visible)).IndicesInRange :=
  ((bounded_fresh lines lineSize hv).calls ops).indicesInRange

/-- A terminal of no columns and one row: every character begins a line. -/
theorem indices_in_range_no_columns :
    ([Call.write 97 .manual, .write 98 .automatic, .scrollDown (-1)].foldl call
      (fresh (fun _ _ => 0) 0 1)).IndicesInRange ∧
    ([Call.write 97 .manual, .write 98 .automatic, .scrollDown (-1)].foldl call
      (fresh (fun _ _ => 0) 0 1)).size = 3 :=
  ⟨indices_in_range (fun _ _ => 0) 0 1 (by decide) _, by decide⟩

end LineBuffer

end DavOS
