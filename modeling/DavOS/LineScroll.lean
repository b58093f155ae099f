import DavOS.LineIndices

/-! Scrolling. `scrollDown` clamps the raw index of the first visible line, while
`firstVisibleLineIndex` counts lines from `front` on; the two move together only
as long as the raw index does not pass `front` or an end of the array. -/
namespace DavOS

namespace LineBuffer

/-- The viewport moves by `n` lines, as far as there are lines. -/
def ScrollsBy (b : LineBuffer) (n : Int) : Prop :=
  ((b.scrollDown n).firstVisibleLineIndex : Int) =
    max 0 (min ((b.size : Int) - 1) ((b.firstVisibleLineIndex : Int) + n))

/-- The ring has not been used around its end, or the raw index and its target
both lie from `front` on, or both before it. With `front` at the last slot, slot 0
counts as the oldest line as well, so a scroll to the top finds it. -/
def ScrollsInPart (b : LineBuffer) (n : Int) : Prop :=
  b.front = 0 ∨
  (b.front ≤ b.firstVisible ∧ (b.front : Int) ≤ b.firstVisible + n ∧ (b.firstVisible : Int) + n < 256) ∨
  (b.firstVisible < b.front ∧ 0 ≤ (b.firstVisible : Int) + n ∧ (b.firstVisible : Int) + n < b.front) ∨
  (b.front = 255 ∧ (b.firstVisible : Int) + n ≤ 0)

instance (b : LineBuffer) (n : Int) : Decidable (b.ScrollsInPart n) :=
  inferInstanceAs (Decidable (_ ∨ _))

section

variable {b : LineBuffer}

theorem Valid.scrollDown_firstVisible (h : b.Valid) (n : Int) :
    ((b.scrollDown n).firstVisible : Int) = max 0 (min ((b.size : Int) - 1) ((b.firstVisible : Int) + n)) := by
  have hpos := h.size_pos
  have hfirst := h.first_le
  unfold LineBuffer.scrollDown
  split
  · dsimp only
    omega
  · dsimp only
    split <;> omega

theorem scrollDown_front (b : LineBuffer) (n : Int) : (b.scrollDown n).front = b.front := by
  unfold scrollDown
  split <;> rfl

/-- Before the ring is used around its end, a raw index is a position. -/
theorem Valid.scrollsBy_of_front_zero (h : b.Valid) (hfront : b.front = 0) (n : Int) : b.ScrollsBy n := by
  have hraw := h.scrollDown_firstVisible n
  unfold ScrollsBy firstVisibleLineIndex
  rw [scrollDown_front, hfront]
  simpa using hraw

theorem Valid.scrollsBy_iff (h : b.Valid) (n : Int) : b.ScrollsBy n ↔ b.ScrollsInPart n := by
  by_cases hfront : b.front = 0
  · exact iff_of_true (h.scrollsBy_of_front_zero hfront n) (Or.inl hfront)
  · have hraw := h.scrollDown_firstVisible n
    have hlt := h.front_lt
    have hsize : b.size = 256 := by
      by_contra hne
      exact hfront (h.front_zero (Nat.lt_of_le_of_ne h.size_le hne))
    have hfirst := h.first_le
    unfold ScrollsBy ScrollsInPart firstVisibleLineIndex
    rw [scrollDown_front]
    simp only [maxLines]
    -- which side of `front` the raw index is on, before and after the call
    by_cases hbefore : b.firstVisible < b.front
    · by_cases hafter : (b.scrollDown n).firstVisible < b.front
      · rw [if_pos hbefore, if_pos hafter]
        omega
      · rw [if_pos hbefore, if_neg hafter]
        omega
    · by_cases hafter : (b.scrollDown n).firstVisible < b.front
      · rw [if_neg hbefore, if_pos hafter]
        omega
      · rw [if_neg hbefore, if_neg hafter]
        omega

end

/-- After any calls on a buffer with at least one visible line, scrolling moves
the viewport by the requested number of lines exactly when the raw index stays in
its part of the ring. -/
theorem scroll_moves_iff (lines : Nat → Nat → Byte) (lineSize visible : Nat) (hv : 1 ≤ visible) (ops : List Call)
    (n : Int) :
    (ops.foldl call (fresh lines lineSize visible)).ScrollsBy n ↔
      (ops.foldl call (fresh lines lineSize visible)).ScrollsInPart n :=
  ((bounded_fresh lines lineSize hv).calls ops).valid.scrollsBy_iff n

/-- 256 line breaks on a screen of 25 lines: the ring has given up one line. -/
def brokenLines : LineBuffer :=
  (List.replicate 256 (Call.write newline .automatic)).foldl call (fresh (fun _ _ => 0) 80 25)

theorem brokenLines_indices : brokenLines.front = 1 ∧ brokenLines.firstVisible = 231 ∧ brokenLines.size = 256 := by
  decide +kernel

/-- Three lines up, within the part of the ring that the viewport is in. -/
theorem scroll_moves_three_up : brokenLines.ScrollsBy (-3) := by
  obtain ⟨hfront, hfirst, -⟩ := brokenLines_indices
  have hpart : brokenLines.ScrollsInPart (-3) := by
    unfold ScrollsInPart
    rw [hfront, hfirst]
    decide
  exact (scroll_moves_iff (fun _ _ => 0) 80 25 (by decide) (List.replicate 256 (Call.write newline .automatic)) (-3)).mpr
    hpart

/-- All the way up: the viewport arrives at the bottom instead of the oldest line. -/
theorem scroll_up_shows_bottom : (brokenLines.firstVisibleLineIndex = 230 ∧
    (brokenLines.scrollDown (-300)).firstVisibleLineIndex = 254) ∧ ¬ brokenLines.ScrollsBy (-300) := by
  obtain ⟨hfront, hfirst, hsize⟩ := brokenLines_indices
  have hraw : (brokenLines.scrollDown (-300)).firstVisible = 0 := by
    unfold scrollDown
    rw [hfirst, hsize]
    rfl
  have hbefore : brokenLines.firstVisibleLineIndex = 230 := by
    unfold firstVisibleLineIndex
    rw [hfront, hfirst]
    rfl
  have hafter : (brokenLines.scrollDown (-300)).firstVisibleLineIndex = 254 := by
    unfold firstVisibleLineIndex
    rw [scrollDown_front, hfront, hraw]
    rfl
  refine ⟨⟨hbefore, hafter⟩, ?_⟩
  unfold ScrollsBy
  rw [hbefore, hafter, hsize]
  decide

end LineBuffer

end DavOS
