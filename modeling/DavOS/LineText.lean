import DavOS.GuardedRun
import DavOS.LineBuffer

/-! The text that the line buffer shows against the text that was written. Slots
of the ring are used again without being cleared, so a line shows what an earlier
one left behind its end. -/
namespace DavOS
open RingWindow

/-- The lines of a text that continues `line`: a newline ends a line, and so does
a character for which there is no room in it. -/
def splitLines (lineSize : Nat) (line : List Byte) : List Byte → List (List Byte)
  | [] => [line]
  | c :: text =>
      if c = newline then line :: splitLines lineSize [] text
      else if lineSize ≤ line.length then line :: splitLines lineSize [c] text
      else splitLines lineSize (line ++ [c]) text

/-- One more character: the lines before the last one, and the last one. -/
def extend (lineSize : Nat) (lines : List (List Byte) × List Byte) (c : Byte) : List (List Byte) × List Byte :=
  if c = newline then (lines.1 ++ [lines.2], [])
  else if lineSize ≤ lines.2.length then (lines.1 ++ [lines.2], [c])
  else (lines.1, lines.2 ++ [c])

/-- The lines of a text, taken character by character. -/
def layOut (lineSize : Nat) (text : List Byte) : List (List Byte) × List Byte := text.foldl (extend lineSize) ([], [])

theorem append_splitLines (lineSize : Nat) (before : List (List Byte)) (line text : List Byte) :
    before ++ splitLines lineSize line text =
      (text.foldl (extend lineSize) (before, line)).1 ++ [(text.foldl (extend lineSize) (before, line)).2] := by
  induction text generalizing before line with
  | nil => rfl
  | cons c text ih =>
      rw [splitLines, List.foldl_cons, extend]
      split
      · rw [← ih, List.append_assoc, List.singleton_append]
      · split
        · rw [← ih, List.append_assoc, List.singleton_append]
        · rw [← ih]

theorem splitLines_eq (lineSize : Nat) (text : List Byte) :
    splitLines lineSize [] text = (layOut lineSize text).1 ++ [(layOut lineSize text).2] :=
  append_splitLines lineSize [] [] text

theorem layOut_snoc (lineSize : Nat) (text : List Byte) (c : Byte) :
    layOut lineSize (text ++ [c]) = extend lineSize (layOut lineSize text) c := by
  simp [layOut]

/-- The lines that the ring has room for. -/
def recent (lines : List (List Byte)) : List (List Byte) := lines.drop (lines.length - LineBuffer.maxLines)

theorem recent_singleton (line : List Byte) : recent [line] = [line] := by
  simp [recent, LineBuffer.maxLines]

theorem recent_snoc (lines : List (List Byte)) (line : List Byte) :
    recent (lines ++ [line]) = (if 256 ≤ lines.length then (recent lines).tail else recent lines) ++ [line] := by
  unfold recent LineBuffer.maxLines
  rw [List.length_append, List.length_singleton]
  split
  · have hnext : lines.length + 1 - 256 = lines.length - 256 + 1 := by omega
    rw [List.drop_append_of_le_length (by omega), List.tail_drop, hnext]
  · rw [show lines.length + 1 - 256 = 0 by omega, show lines.length - 256 = 0 by omega]
    rfl

namespace LineBuffer

/-- The lines as they are shown, without the newest. -/
def older (b : LineBuffer) : List (List Byte) := (window b.lines maxLines b.front (b.size - 1)).map lineText

/-- The newest line. -/
def currentLine (b : LineBuffer) : Nat → Byte := b.lines b.currentSlot

/-- The slot that a character goes to. -/
def targetSlot (b : LineBuffer) (c : Byte) : Nat := (if b.lineWrap c then b.advance else b).currentSlot

/-- The column behind the character. -/
def nextColumn (b : LineBuffer) (c : Byte) : Nat :=
  if c = newline then 0 else (if b.lineWrap c then 0 else b.column) + 1

/-- Behind the character its slot holds a NUL, or ends. -/
def TailClear (b : LineBuffer) (c : Byte) : Prop :=
  b.nextColumn c < maxColumns → b.lines (b.targetSlot c) (b.nextColumn c) = 0

instance (b : LineBuffer) (c : Byte) : Decidable (b.TailClear c) := inferInstanceAs (Decidable (_ → _))

section

variable {b : LineBuffer} {c : Byte} {mode : ScrollMode}

@[simp] theorem wrapLine_lines : (b.wrapLine mode).lines = b.lines := by
  cases mode <;> simp [wrapLine, follow]

@[simp] theorem wrapLine_front : (b.wrapLine mode).front = b.advance.front := by
  cases mode <;> rfl

@[simp] theorem wrapLine_size : (b.wrapLine mode).size = b.advance.size := by
  cases mode <;> rfl

@[simp] theorem wrapLine_column : (b.wrapLine mode).column = 0 := by
  cases mode <;> rfl

@[simp] theorem wrapLine_lineSize : (b.wrapLine mode).lineSize = b.lineSize := by
  cases mode <;> simp [wrapLine, follow]

@[simp] theorem wrapLine_currentSlot : (b.wrapLine mode).currentSlot = b.advance.currentSlot := by
  simp [currentSlot]

theorem shown_eq (hsize : 1 ≤ b.size) : b.shown = b.older ++ [lineText b.currentLine] := by
  obtain ⟨n, hn⟩ : ∃ n, b.size = n + 1 := ⟨b.size - 1, by omega⟩
  unfold shown older currentLine currentSlot
  rw [hn, window_succ, List.map_append, Nat.add_sub_cancel, ← Nat.add_assoc, Nat.add_sub_cancel]
  rfl

theorem shown_putChar (hsize : 1 ≤ b.size) (hle : b.size ≤ 256) :
    (b.putChar c).shown = b.older ++ [lineText (Function.update b.currentLine b.column c)] := by
  obtain ⟨n, hn⟩ : ∃ n, b.size = n + 1 := ⟨b.size - 1, by omega⟩
  have hslot : b.currentSlot = (b.front + n) % maxLines := by
    unfold currentSlot
    rw [hn, ← Nat.add_assoc, Nat.add_sub_cancel]
  unfold shown older currentLine putChar
  rw [hslot, hn, window_push (by unfold maxLines; omega), List.map_append, Nat.add_sub_cancel]
  rfl

/-- A new line pushes the oldest one out of a full ring. -/
theorem older_advance (hfront : b.front < 256) (hle : b.size ≤ 256) :
    b.advance.older = if 256 ≤ b.size then b.shown.tail else b.shown := by
  unfold older shown
  simp only [advance_lines]
  unfold advance
  split
  · rename_i hfull
    obtain hsize : b.size = 255 + 1 := Nat.le_antisymm hle hfull
    dsimp only
    rw [hsize, window_pop hfront]
    rfl
  · rfl

theorem shown_wrapLine (hfront : b.front < 256) (hle : b.size ≤ 256) :
    (b.wrapLine mode).older = (if 256 ≤ b.size then b.shown.tail else b.shown) ∧
      (b.wrapLine mode).currentLine = b.lines b.advance.currentSlot := by
  refine ⟨?_, by simp [currentLine]⟩
  rw [← older_advance hfront hle]
  simp [older]

theorem advance_size (b : LineBuffer) (hle : b.size ≤ 256) : b.advance.size = min 256 (b.size + 1) := by
  unfold advance maxLines
  split
  · dsimp only
    omega
  · dsimp only
    omega

theorem advance_front_lt (hfront : b.front < 256) : b.advance.front < 256 := by
  unfold advance
  split
  · exact Nat.mod_lt _ (by decide)
  · exact hfront

end

/-- The buffer is at the end of the last of the lines. -/
structure Tracks (b : LineBuffer) (lines : List (List Byte) × List Byte) : Prop where
  front_lt : b.front < 256
  size_eq : b.size = min 256 (lines.1.length + 1)
  column_eq : b.column = lines.2.length

/-- It shows all of them that it has room for. -/
def Shows (b : LineBuffer) (lines : List (List Byte) × List Byte) : Prop := b.shown = recent (lines.1 ++ [lines.2])

section

variable {b : LineBuffer} {c : Byte} {mode : ScrollMode} {lines : List (List Byte) × List Byte}

theorem Tracks.size_pos (h : b.Tracks lines) : 1 ≤ b.size := by
  rw [h.size_eq]
  omega

theorem Tracks.size_le (h : b.Tracks lines) : b.size ≤ 256 := by
  rw [h.size_eq]
  omega

theorem Tracks.full_iff (h : b.Tracks lines) : 256 ≤ b.size ↔ 256 ≤ (lines.1 ++ [lines.2]).length := by
  rw [h.size_eq, List.length_append, List.length_singleton]
  omega

theorem Tracks.wrapLine (h : b.Tracks lines) : (b.wrapLine mode).Tracks (lines.1 ++ [lines.2], []) := by
  refine ⟨?_, ?_, by simp⟩
  · rw [wrapLine_front]
    exact advance_front_lt h.front_lt
  · rw [wrapLine_size, advance_size b h.size_le, h.size_eq, List.length_append, List.length_singleton]
    omega

theorem Tracks.putChar (h : b.Tracks lines) : (b.putChar c).Tracks (lines.1, lines.2 ++ [c]) := by
  refine ⟨h.front_lt, h.size_eq, ?_⟩
  rw [List.length_append, ← h.column_eq]
  rfl

theorem Tracks.older_wrapLine (h : b.Tracks lines) (hshows : b.Shows lines) (line : List Byte) :
    (b.wrapLine mode).older ++ [line] = recent (lines.1 ++ [lines.2] ++ [line]) := by
  rw [recent_snoc, (shown_wrapLine h.front_lt h.size_le).1, hshows]
  simp only [h.full_iff]

theorem Shows.current (hshows : b.Shows lines) (h : b.Tracks lines) :
    lineText b.currentLine = lines.2 ∧ b.older ++ [lines.2 ++ [c]] = recent (lines.1 ++ [lines.2 ++ [c]]) := by
  rw [Shows, shown_eq h.size_pos, recent_snoc] at hshows
  obtain ⟨holder, hlast⟩ := List.append_inj' hshows rfl
  rw [recent_snoc, holder]
  exact ⟨List.singleton_inj.mp hlast, rfl⟩

end

/-! ### Writing -/

section

variable {b : LineBuffer} {c : Byte} {mode : ScrollMode} {lines : List (List Byte) × List Byte}

theorem write_newline (b : LineBuffer) (mode : ScrollMode) : (b.write newline mode).2 = b.wrapLine mode := by
  simp [write, lineWrap]

theorem write_wrap (hc : c ≠ newline) (hfull : b.lineSize ≤ b.column) :
    (b.write c mode).2 = (b.wrapLine mode).putChar c := by
  simp [write, lineWrap, hc, hfull]

theorem write_room (hc : c ≠ newline) (hroom : ¬ b.lineSize ≤ b.column) : (b.write c mode).2 = b.putChar c := by
  simp [write, lineWrap, hc, hroom]

theorem cstring_tail {line : Nat → Byte} {j : Nat} :
    cstring line j (maxColumns - j) = [] ↔ (j < maxColumns → line j = 0) := by
  rw [cstring_eq_nil]
  constructor
  · rintro (hend | hzero) hlt
    · exact absurd hlt (by omega)
    · exact hzero
  · intro h
    by_cases hlt : j < maxColumns
    · exact Or.inr (h hlt)
    · exact Or.inl (by omega)

theorem Tracks.write (h : b.Tracks lines) : (b.write c mode).2.Tracks (extend b.lineSize lines c) := by
  rw [extend, ← h.column_eq]
  split
  · rename_i hbreak
    rw [hbreak, write_newline]
    exact h.wrapLine
  · rename_i hchar
    split
    · rename_i hfull
      rw [write_wrap hchar hfull]
      exact h.wrapLine.putChar
    · rename_i hroom
      rw [write_room hchar hroom]
      exact h.putChar

theorem tailClear_newline : b.TailClear newline ↔ lineText (b.lines b.advance.currentSlot) = [] := by
  have hnext : b.nextColumn newline = 0 := if_pos rfl
  have htarget : b.targetSlot newline = b.advance.currentSlot := by simp [targetSlot, lineWrap]
  rw [TailClear, hnext, htarget]
  exact cstring_tail.symm

theorem tailClear_wrap (hchar : c ≠ newline) (hfull : b.lineSize ≤ b.column) :
    b.TailClear c ↔ cstring (b.lines b.advance.currentSlot) 1 (maxColumns - 1) = [] := by
  have hnext : b.nextColumn c = 1 := by simp [nextColumn, hchar, lineWrap, hfull]
  have htarget : b.targetSlot c = b.advance.currentSlot := by simp [targetSlot, lineWrap, hfull]
  rw [TailClear, hnext, htarget]
  exact cstring_tail.symm

theorem tailClear_room (hchar : c ≠ newline) (hroom : ¬ b.lineSize ≤ b.column) :
    b.TailClear c ↔ cstring b.currentLine (b.column + 1) (maxColumns - (b.column + 1)) = [] := by
  have hnext : b.nextColumn c = b.column + 1 := by simp [nextColumn, hchar, lineWrap, hroom]
  have htarget : b.targetSlot c = b.currentSlot := by simp [targetSlot, lineWrap, hroom, hchar]
  rw [TailClear, hnext, htarget]
  exact cstring_tail.symm

theorem lineText_update {line : Nat → Byte} {column : Nat} (hlength : (lineText line).length = column)
    (hlt : column < maxColumns) (hc : c ≠ 0) : lineText (Function.update line column c) =
      lineText line ++ c :: cstring line (column + 1) (maxColumns - (column + 1)) := by
  have htext := cstring_update (i := 0) hlength hlt hc
  rw [Nat.zero_add, Nat.sub_sub] at htext
  exact htext

theorem lineText_update_first {line : Nat → Byte} (hc : c ≠ 0) :
    lineText (Function.update line 0 c) = c :: cstring line 1 (maxColumns - 1) :=
  cstring_update_first hc

theorem shows_newline_iff (h : b.Tracks lines) (hshows : b.Shows lines) :
    (b.wrapLine mode).Shows (lines.1 ++ [lines.2], []) ↔ b.TailClear newline := by
  have hwrapped : (b.wrapLine mode).Tracks (lines.1 ++ [lines.2], []) := h.wrapLine
  rw [Shows, shown_eq hwrapped.size_pos, ← h.older_wrapLine hshows, List.append_cancel_left_eq, List.singleton_inj,
    (shown_wrapLine h.front_lt h.size_le).2, tailClear_newline]

theorem shows_wrap_iff (h : b.Tracks lines) (hshows : b.Shows lines) (hc : c ≠ 0) (hchar : c ≠ newline)
    (hfull : b.lineSize ≤ b.column) :
    ((b.wrapLine mode).putChar c).Shows (lines.1 ++ [lines.2], [c]) ↔ b.TailClear c := by
  have hwrapped : (b.wrapLine mode).Tracks (lines.1 ++ [lines.2], []) := h.wrapLine
  rw [Shows, shown_putChar hwrapped.size_pos hwrapped.size_le, ← h.older_wrapLine hshows, List.append_cancel_left_eq,
    List.singleton_inj, (shown_wrapLine h.front_lt h.size_le).2, wrapLine_column, lineText_update_first hc,
    List.cons_inj_right, tailClear_wrap hchar hfull]

theorem shows_room_iff (h : b.Tracks lines) (hshows : b.Shows lines) (hsize : b.lineSize ≤ 200) (hc : c ≠ 0)
    (hchar : c ≠ newline) (hroom : ¬ b.lineSize ≤ b.column) :
    (b.putChar c).Shows (lines.1, lines.2 ++ [c]) ↔ b.TailClear c := by
  obtain ⟨hlast, holder⟩ := hshows.current (c := c) h
  have hlength : (lineText b.currentLine).length = b.column := by rw [h.column_eq, hlast]
  have hlt : b.column < maxColumns := by unfold maxColumns; omega
  rw [Shows, shown_putChar h.size_pos h.size_le, ← holder, List.append_cancel_left_eq, List.singleton_inj,
    lineText_update hlength hlt hc, hlast, List.append_cancel_left_eq, List.cons_inj_right, tailClear_room hchar hroom]

/-- A buffer that shows the right lines shows them after one more character
exactly when its slot is clear behind that character. -/
theorem shows_write_iff (h : b.Tracks lines) (hshows : b.Shows lines) (hsize : b.lineSize ≤ 200) (hc : c ≠ 0) :
    (b.write c mode).2.Shows (extend b.lineSize lines c) ↔ b.TailClear c := by
  rw [extend, ← h.column_eq]
  split
  · rename_i hbreak
    rw [hbreak, write_newline]
    exact shows_newline_iff h hshows
  · rename_i hchar
    split
    · rename_i hfull
      rw [write_wrap hchar hfull]
      exact shows_wrap_iff h hshows hc hchar hfull
    · rename_i hroom
      rw [write_room hchar hroom]
      exact shows_room_iff h hshows hsize hc hchar hroom

end

end LineBuffer

/-! ### Runs -/

inductive BufferOp where
  | write (character : Byte) (scrollMode : ScrollMode)
  | clear
  deriving DecidableEq

def bufferStep (b : LineBuffer) : BufferOp → LineBuffer
  | .write character scrollMode => (b.write character scrollMode).2
  | .clear => b.clear

def bufferRun (b : LineBuffer) (ops : List BufferOp) : LineBuffer := ops.foldl bufferStep b

def writtenStep (text : List Byte) : BufferOp → List Byte
  | .write character _ => text ++ [character]
  | .clear => []

/-- The text written since the last clear. -/
def written (ops : List BufferOp) : List Byte := ops.foldl writtenStep []

/-- The buffer shows the last lines of a text, 256 at most. -/
def LineBuffer.ShowsText (b : LineBuffer) (text : List Byte) : Prop := b.shown = recent (splitLines b.lineSize [] text)

/-- The slot that a step writes to is clear behind what it writes. -/
def BufferOp.Clear (b : LineBuffer) : BufferOp → Prop
  | .write character _ => b.TailClear character
  | .clear => True

instance (b : LineBuffer) : (op : BufferOp) → Decidable (op.Clear b)
  | .write _ _ => inferInstanceAs (Decidable (_ → _))
  | .clear => isTrue trivial

section

variable {b : LineBuffer} {ops : List BufferOp}

theorem LineBuffer.write_lineSize (b : LineBuffer) (c : Byte) (mode : ScrollMode) :
    (b.write c mode).2.lineSize = b.lineSize := by
  simp only [LineBuffer.write, LineBuffer.putChar]
  split <;> split <;> simp

theorem bufferRun_lineSize (b : LineBuffer) (ops : List BufferOp) : (bufferRun b ops).lineSize = b.lineSize := by
  induction ops generalizing b with
  | nil => rfl
  | cons op ops ih =>
      rw [bufferRun, List.foldl_cons, ← bufferRun, ih]
      cases op with
      | write c mode => exact b.write_lineSize c mode
      | clear => rfl

theorem bufferRun_snoc (b : LineBuffer) (ops : List BufferOp) (op : BufferOp) :
    bufferRun b (ops ++ [op]) = bufferStep (bufferRun b ops) op := by
  simp [bufferRun]

theorem written_snoc (ops : List BufferOp) (op : BufferOp) : written (ops ++ [op]) = writtenStep (written ops) op := by
  simp [written]

theorem bufferRun_tracks (lines : Nat → Nat → Byte) (lineSize visible : Nat) (ops : List BufferOp) :
    (bufferRun (.fresh lines lineSize visible) ops).Tracks
      (layOut (LineBuffer.fresh lines lineSize visible).lineSize (written ops)) := by
  induction ops using List.reverseRecOn with
  | nil => exact ⟨Nat.succ_pos 255, rfl, rfl⟩
  | append_singleton ops op ih =>
      rw [bufferRun_snoc, written_snoc]
      cases op with
      | write c mode =>
          have hwrite : ((bufferRun (.fresh lines lineSize visible) ops).write c mode).2.Tracks _ := ih.write
          rw [bufferRun_lineSize, ← layOut_snoc] at hwrite
          exact hwrite
      | clear => exact ⟨Nat.succ_pos 255, rfl, rfl⟩

theorem LineBuffer.showsText_iff {text : List Byte} : b.ShowsText text ↔ b.Shows (layOut b.lineSize text) := by
  rw [ShowsText, splitLines_eq, Shows]

theorem LineBuffer.showsText_nil (hfront : b.front = 0) (hsize : b.size = 1) : b.ShowsText [] ↔ b.lines 0 0 = 0 := by
  have hshown : b.shown = [cstring (b.lines 0) 0 200] := by
    rw [shown, hfront, hsize]
    rfl
  rw [ShowsText, hshown, splitLines, recent_singleton, List.singleton_inj, cstring_eq_nil]
  exact or_iff_right (by decide)

end

/-- The buffer shows the text in all states of a run exactly when the array
begins with a NUL and every character is stored, and every line begun, in front
of one. -/
theorem buffer_shows_text_iff (lines : Nat → Nat → Byte) (lineSize visible : Nat) (ops : List BufferOp)
    (hops : ∀ c mode, BufferOp.write c mode ∈ ops → c ≠ 0) :
    (∀ before, before <+: ops →
        (bufferRun (.fresh lines lineSize visible) before).ShowsText (written before)) ↔
      lines 0 0 = 0 ∧ ∀ before op after, ops = before ++ op :: after →
        op.Clear (bufferRun (.fresh lines lineSize visible) before) := by
  have hstart : (bufferRun (.fresh lines lineSize visible) []).ShowsText (written []) ↔ lines 0 0 = 0 :=
    LineBuffer.showsText_nil rfl rfl
  rw [← hstart]
  apply GuardedRun.forall_prefix_iff
  intro before op after hsplit hshows
  rw [bufferRun_snoc, written_snoc]
  cases op with
  | write c mode =>
      have hc : c ≠ 0 := hops c mode (by rw [hsplit]; simp)
      have ht := bufferRun_tracks lines lineSize visible before
      have hlineSize := bufferRun_lineSize (.fresh lines lineSize visible) before
      have hle : (bufferRun (.fresh lines lineSize visible) before).lineSize ≤ 200 := by
        rw [hlineSize]
        exact Nat.min_le_right _ _
      rw [← hlineSize] at ht
      rw [LineBuffer.showsText_iff] at hshows ⊢
      simp only [bufferStep, writtenStep]
      rw [LineBuffer.write_lineSize, layOut_snoc]
      exact LineBuffer.shows_write_iff ht hshows hle hc
  | clear => exact iff_of_true ((LineBuffer.showsText_nil rfl rfl).mpr (by simp [LineBuffer.clear, bufferStep])) trivial

/-- In lines of two: a wrapped line, a line break in manual mode, and the text after a clear. -/
def wrappedLines : List BufferOp :=
  [.write 97 .automatic, .write 98 .automatic, .write 99 .automatic, .write newline .manual, .write 100 .automatic,
    .clear, .write 101 .automatic, .write 102 .automatic]

theorem buffer_shows_text_wrapped :
    (bufferRun (.fresh (fun _ _ => 0) 2 2) (wrappedLines.take 5)).ShowsText [97, 98, 99, newline, 100] ∧
      (bufferRun (.fresh (fun _ _ => 0) 2 2) wrappedLines).ShowsText [101, 102] := by
  have hshows := (buffer_shows_text_iff (fun _ _ => 0) 2 2 wrappedLines ?_).mpr ⟨rfl, by decide +kernel⟩
  · exact ⟨hshows _ (List.take_prefix 5 _), hshows _ (List.prefix_refl _)⟩
  · simp only [wrappedLines, List.mem_cons, BufferOp.write.injEq, reduceCtorEq, List.not_mem_nil, or_false, false_or]
    rintro c mode (⟨rfl, _⟩ | ⟨rfl, _⟩ | ⟨rfl, _⟩ | ⟨rfl, _⟩ | ⟨rfl, _⟩ | ⟨rfl, _⟩ | ⟨rfl, _⟩) <;> decide

/-- The letter on the second line is still there after the clear. -/
def staleLine : List BufferOp :=
  [.write newline .automatic, .write 97 .automatic, .clear, .write newline .automatic]

theorem buffer_shows_stale_text : written staleLine = [newline] ∧
    (bufferRun (.fresh (fun _ _ => 0) 80 25) staleLine).shown = [[], [97]] ∧
    ¬ (bufferRun (.fresh (fun _ _ => 0) 80 25) staleLine).ShowsText (written staleLine) := by
  have hshown : (bufferRun (.fresh (fun _ _ => 0) 80 25) staleLine).shown = [[], [97]] := by decide +kernel
  refine ⟨rfl, hshown, ?_⟩
  rw [LineBuffer.ShowsText, hshown]
  decide +kernel

end DavOS
