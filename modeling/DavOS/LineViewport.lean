import DavOS.LineText

/-! Whether the viewport follows the output. `firstVisible` is a raw index, while
the line that it should not fall behind is counted from the oldest line; the two
are the same only until the ring is full. -/
namespace DavOS
open MachineWord RingWindow

namespace LineBuffer

/-- The newest line lies in the visible range. -/
def NewestVisible (b : LineBuffer) : Prop :=
  b.firstVisibleLineIndex ≤ b.size - 1 ∧ b.size - 1 ≤ b.lastVisibleLineIndex

instance (b : LineBuffer) : Decidable b.NewestVisible := inferInstanceAs (Decidable (_ ∧ _))

/-- Characters written one after the other, in automatic mode. -/
def typed (b : LineBuffer) (text : List Byte) : LineBuffer := text.foldl (fun b c => (b.write c).2) b

/-- The ring and the viewport after a line break. -/
def scrolled (b : LineBuffer) (c : Byte) : LineBuffer := if b.lineWrap c then b.advance.follow else b

section

variable {b : LineBuffer} {c : Byte} {text : List Byte}

theorem write_viewport (b : LineBuffer) (c : Byte) : (b.write c).2.front = (b.scrolled c).front ∧
    (b.write c).2.size = (b.scrolled c).size ∧ (b.write c).2.firstVisible = (b.scrolled c).firstVisible ∧
    (b.write c).2.visibleLines = b.visibleLines ∧ (b.write c).2.lineSize = b.lineSize := by
  -- storing the character touches none of these
  have hstored : ∀ wrapped : LineBuffer, (if b.lineWrap c then b.wrapLine .automatic else b) = wrapped →
      (b.write c).2 = wrapped ∨ (b.write c).2 = wrapped.putChar c := by
    rintro wrapped rfl
    unfold write
    dsimp only
    split
    · exact Or.inr rfl
    · exact Or.inl rfl
  unfold scrolled
  by_cases hwrap : b.lineWrap c = true
  · have hvisible : (b.wrapLine .automatic).visibleLines = b.visibleLines := advance_visibleLines b
    have hline : (b.wrapLine .automatic).lineSize = b.lineSize := advance_lineSize b
    rw [if_pos hwrap]
    rcases hstored _ (if_pos hwrap) with h | h
    · rw [h]
      exact ⟨rfl, rfl, rfl, hvisible, hline⟩
    · rw [h]
      exact ⟨rfl, rfl, rfl, hvisible, hline⟩
  · rw [if_neg hwrap]
    rcases hstored _ (if_neg hwrap) with h | h
    · rw [h]
      exact ⟨rfl, rfl, rfl, rfl, rfl⟩
    · rw [h]
      exact ⟨rfl, rfl, rfl, rfl, rfl⟩

theorem Valid.write (h : b.Valid) (hv : 1 ≤ b.visibleLines) (c : Byte) : (b.write c).2.Valid := by
  obtain ⟨hfront, hsize, hfirst, hvisible, hline⟩ := write_viewport b c
  have hscrolled : (b.scrolled c).Valid := by
    unfold scrolled
    split
    · exact h.advance.follow (by simpa using hv)
    · exact h
  obtain ⟨h1, h2, h3, h4, h5, _, _⟩ := hscrolled
  refine ⟨?_, ?_, ?_, ?_, ?_, ?_, ?_⟩
  · rw [hfront]; exact h1
  · rw [hsize]; exact h2
  · rw [hsize]; exact h3
  · rw [hsize, hfront]; exact h4
  · rw [hfirst, hsize]; exact h5
  · rw [hline]; exact h.lineSize_le
  · rw [hvisible]; exact h.visible_le

theorem typed_snoc (b : LineBuffer) (text : List Byte) (c : Byte) :
    b.typed (text ++ [c]) = ((b.typed text).write c).2 := by
  simp [typed]

theorem typed_visibleLines (b : LineBuffer) (text : List Byte) : (b.typed text).visibleLines = b.visibleLines := by
  induction text using List.reverseRecOn with
  | nil => rfl
  | append_singleton text c ih => rw [typed_snoc, (write_viewport _ c).2.2.2.1, ih]

theorem typed_lineSize (b : LineBuffer) (text : List Byte) : (b.typed text).lineSize = b.lineSize := by
  induction text using List.reverseRecOn with
  | nil => rfl
  | append_singleton text c ih => rw [typed_snoc, (write_viewport _ c).2.2.2.2, ih]

theorem typed_valid (h : b.Valid) (hv : 1 ≤ b.visibleLines) (text : List Byte) : (b.typed text).Valid := by
  induction text using List.reverseRecOn with
  | nil => exact h
  | append_singleton text c ih =>
      rw [typed_snoc]
      exact ih.write (by rw [typed_visibleLines]; exact hv) c

theorem typed_eq_bufferRun (b : LineBuffer) (text : List Byte) :
    b.typed text = bufferRun b (text.map fun c => .write c .automatic) := by
  rw [typed, bufferRun, List.foldl_map]
  rfl

theorem written_map (text : List Byte) : written (text.map fun c => .write c .automatic) = text := by
  induction text using List.reverseRecOn with
  | nil => rfl
  | append_singleton text c ih => rw [List.map_append, List.map_singleton, written_snoc, ih, writtenStep]

theorem typed_tracks (lines : Nat → Nat → Byte) (lineSize visible : Nat) (text : List Byte) :
    ((fresh lines lineSize visible).typed text).Tracks (layOut (min lineSize maxColumns) text) := by
  have h := bufferRun_tracks lines lineSize visible (text.map fun c => .write c .automatic)
  rw [written_map, ← typed_eq_bufferRun] at h
  exact h

theorem Tracks.lineWrap_iff {lines : List (List Byte) × List Byte} (h : b.Tracks lines) :
    (extend b.lineSize lines c).1 = if b.lineWrap c then lines.1 ++ [lines.2] else lines.1 := by
  unfold extend lineWrap
  rw [h.column_eq]
  by_cases hchar : c = newline
  · simp [hchar]
  · by_cases hfull : b.lineSize ≤ lines.2.length
    · simp [hchar, hfull]
    · simp [hchar, hfull]

end

/-! ### The visible range -/

section

variable {b : LineBuffer}

theorem Valid.firstVisibleLineIndex_le (h : b.Valid) : b.firstVisibleLineIndex ≤ b.size - 1 := by
  have := h.front_lt
  have := h.first_le
  have := h.front_zero
  have := h.size_le
  unfold firstVisibleLineIndex maxLines
  split <;> omega

theorem Valid.lastVisibleLineIndex_eq (h : b.Valid) (hv : 1 ≤ b.visibleLines) :
    b.lastVisibleLineIndex = min (b.size - 1) (b.firstVisibleLineIndex + b.visibleLines - 1) := by
  have := h.firstVisibleLineIndex_le
  have := h.size_le
  have := h.visible_le
  unfold lastVisibleLineIndex
  rw [wrapSub_of_le (by omega) (by omega)]

theorem Valid.newestVisible_iff (h : b.Valid) (hv : 1 ≤ b.visibleLines) :
    b.NewestVisible ↔ b.size ≤ b.firstVisibleLineIndex + b.visibleLines := by
  have := h.firstVisibleLineIndex_le
  have := h.size_pos
  rw [NewestVisible, h.lastVisibleLineIndex_eq hv]
  omega

end

/-! ### One line break -/

section

variable {b : LineBuffer} {c : Byte}

theorem scrolled_room (hwrap : b.lineWrap c = true) (hroom : b.size < 256) :
    (b.scrolled c).front = b.front ∧ (b.scrolled c).size = b.size + 1 ∧
      (b.scrolled c).firstVisible = max b.firstVisible (b.size + 1 - b.visibleLines) := by
  have hadvance : b.advance = { b with size := b.size + 1 } := if_neg (Nat.not_le_of_lt hroom)
  rw [scrolled, if_pos hwrap, follow, hadvance]
  refine ⟨rfl, rfl, ?_⟩
  dsimp only
  split <;> omega

theorem scrolled_full (hwrap : b.lineWrap c = true) (hfull : b.size = 256) :
    (b.scrolled c).front = (b.front + 1) % 256 ∧ (b.scrolled c).size = 256 ∧
      (b.scrolled c).firstVisible = max (if b.firstVisible = (b.front + 1) % 256 then (b.firstVisible + 1) % 256
        else b.firstVisible) (256 - b.visibleLines) := by
  rw [scrolled, if_pos hwrap, follow, advance, if_pos (Nat.le_of_eq hfull.symm)]
  refine ⟨rfl, hfull, ?_⟩
  dsimp only
  rw [hfull]
  congr 1
  split <;> omega

end

/-- Until the ring is full, raw indices and line numbers are the same. -/
structure Early (b : LineBuffer) : Prop where
  front_eq : b.front = 0
  first_eq : b.firstVisible = b.size - b.visibleLines

/-- In a full ring a viewport of 255 lines starts behind the oldest line. -/
def Late (b : LineBuffer) : Prop := b.size = 256 → b.firstVisible ≠ b.front ∧ 1 ≤ b.firstVisible

section

variable {b : LineBuffer} {c : Byte}

theorem Early.newestVisible (h : b.Early) (hv : b.Valid) (hpos : 1 ≤ b.visibleLines) : b.NewestVisible := by
  rw [hv.newestVisible_iff hpos, firstVisibleLineIndex, h.front_eq, h.first_eq, if_neg (Nat.not_lt_zero _)]
  omega

theorem Early.scrolled (h : b.Early) (hroom : b.lineWrap c = true → b.size < 256) :
    (b.scrolled c).front = 0 ∧ (b.scrolled c).firstVisible = (b.scrolled c).size - b.visibleLines := by
  by_cases hwrap : b.lineWrap c = true
  · obtain ⟨hfront, hsize, hfirst⟩ := scrolled_room hwrap (hroom hwrap)
    rw [hfront, hsize, hfirst, h.first_eq]
    exact ⟨h.front_eq, by omega⟩
  · rw [LineBuffer.scrolled, if_neg hwrap]
    exact ⟨h.front_eq, h.first_eq⟩

/-- The line break that fills the ring over leaves the newest line below a
viewport of 254 lines or fewer. -/
theorem Early.overflow (h : b.Early) (hfull : b.size = 256) (hwrap : b.lineWrap c = true)
    (hpos : 1 ≤ b.visibleLines) (hv : b.visibleLines ≤ 254) :
    (b.scrolled c).size = 256 ∧ (b.scrolled c).front = 1 ∧ (b.scrolled c).firstVisible = 256 - b.visibleLines := by
  obtain ⟨hfront, hsize, hfirst⟩ := scrolled_full hwrap hfull
  rw [hfront, hfirst, h.front_eq, h.first_eq, hfull]
  refine ⟨hsize, rfl, ?_⟩
  rw [if_neg (by omega)]
  omega

theorem Late.scrolled (h : b.Late) (hv : b.Valid) (hvisible : b.visibleLines = 255) :
    (b.scrolled c).size = 256 →
      (b.scrolled c).firstVisible ≠ (b.scrolled c).front ∧ 1 ≤ (b.scrolled c).firstVisible := by
  intro hsize'
  by_cases hwrap : b.lineWrap c = true
  · by_cases hfull : b.size = 256
    · obtain ⟨hfront, _, hfirst⟩ := scrolled_full hwrap hfull
      obtain ⟨hne, hpos⟩ := h hfull
      have := hv.front_lt
      rw [hfront, hfirst, hvisible]
      split <;> omega
    · have hroom : b.size < 256 := Nat.lt_of_le_of_ne hv.size_le hfull
      obtain ⟨hfront, hsize, hfirst⟩ := scrolled_room hwrap hroom
      rw [hfront, hfirst, hv.front_zero hroom, hvisible]
      omega
  · rw [LineBuffer.scrolled, if_neg hwrap] at hsize' ⊢
    exact h hsize'

theorem Late.newestVisible (h : b.Late) (hv : b.Valid) (hvisible : b.visibleLines = 255) : b.NewestVisible := by
  rw [hv.newestVisible_iff (by omega), hvisible]
  have := hv.size_le
  have := hv.front_lt
  by_cases hfull : b.size = 256
  · obtain ⟨hne, hpos⟩ := h hfull
    unfold firstVisibleLineIndex maxLines
    split <;> omega
  · omega

end

/-! ### Whole texts -/

section

variable {lines : Nat → Nat → Byte} {lineSize visible : Nat} {text : List Byte}

theorem layOut_length_mono (lineSize : Nat) (text rest : List Byte) :
    (layOut lineSize text).1.length ≤ (layOut lineSize (text ++ rest)).1.length := by
  induction rest using List.reverseRecOn with
  | nil => simp
  | append_singleton rest c ih =>
      rw [← List.append_assoc, layOut_snoc, extend]
      split
      · simp only [List.length_append]
        omega
      · split
        · simp only [List.length_append]
          omega
        · exact ih

theorem layOut_typed (lines : Nat → Nat → Byte) (lineSize visible : Nat) (text : List Byte) (c : Byte) :
    (layOut (min lineSize maxColumns) (text ++ [c])).1 =
      if ((fresh lines lineSize visible).typed text).lineWrap c then
        (layOut (min lineSize maxColumns) text).1 ++ [(layOut (min lineSize maxColumns) text).2]
      else (layOut (min lineSize maxColumns) text).1 := by
  have hlineSize : ((fresh lines lineSize visible).typed text).lineSize = min lineSize maxColumns :=
    typed_lineSize _ text
  rw [layOut_snoc, ← (typed_tracks lines lineSize visible text).lineWrap_iff, hlineSize]

theorem typed_early (hpos : 1 ≤ visible) (h : (layOut (min lineSize maxColumns) text).1.length < 256) :
    ((fresh lines lineSize visible).typed text).Early := by
  induction text using List.reverseRecOn with
  | nil =>
      refine ⟨rfl, ?_⟩
      change 0 = 1 - min visible 256
      omega
  | append_singleton text c ih =>
      have hmono := layOut_length_mono (min lineSize maxColumns) text [c]
      have hearly := ih (by omega)
      have hroom : ((fresh lines lineSize visible).typed text).lineWrap c = true →
          ((fresh lines lineSize visible).typed text).size < 256 := by
        intro hwrap
        rw [layOut_typed lines lineSize visible, if_pos hwrap, List.length_append, List.length_singleton] at h
        rw [(typed_tracks lines lineSize visible text).size_eq]
        omega
      obtain ⟨hfront, hfirst⟩ := hearly.scrolled hroom
      obtain ⟨hwfront, hwsize, hwfirst, hwvisible, _⟩ := write_viewport ((fresh lines lineSize visible).typed text) c
      rw [typed_snoc]
      refine ⟨hwfront.trans hfront, ?_⟩
      rw [hwfirst, hwsize, hwvisible]
      exact hfirst

theorem typed_late (text : List Byte) : ((fresh lines lineSize 255).typed text).Late := by
  induction text using List.reverseRecOn with
  | nil => exact fun h => by cases h
  | append_singleton text c ih =>
      have hvisible := typed_visibleLines (fresh lines lineSize 255) text
      have hvalid := typed_valid (valid_fresh lines lineSize 255) (show 1 ≤ min 255 256 by decide) text
      obtain ⟨hwfront, hwsize, hwfirst, _, _⟩ := write_viewport ((fresh lines lineSize 255).typed text) c
      rw [typed_snoc, Late, hwfront, hwsize, hwfirst]
      exact ih.scrolled hvalid hvisible

/-- A text of 257 lines passes through a state in which the newest line is not visible. -/
theorem typed_fits (hpos : 1 ≤ visible) (hv : visible ≤ 254)
    (h : ∀ before, before <+: text → ((fresh lines lineSize visible).typed before).NewestVisible) :
    (layOut (min lineSize maxColumns) text).1.length < 256 := by
  induction text using List.reverseRecOn with
  | nil => exact Nat.succ_pos 255
  | append_singleton text c ih =>
      have hfew := ih fun before hbefore => h before (hbefore.trans (List.prefix_append text [c]))
      have hearly : ((fresh lines lineSize visible).typed text).Early := typed_early hpos hfew
      have hvisible : ((fresh lines lineSize visible).typed text).visibleLines = visible :=
        (typed_visibleLines _ text).trans (Nat.min_eq_left (by unfold maxLines; omega))
      rw [layOut_typed lines lineSize visible]
      split
      · rename_i hwrap
        rw [List.length_append, List.length_singleton]
        by_contra hfull
        have hsize : ((fresh lines lineSize visible).typed text).size = 256 := by
          rw [(typed_tracks lines lineSize visible text).size_eq]
          omega
        obtain ⟨hosize, hofront, hofirst⟩ := hearly.overflow hsize hwrap (by omega) (by omega)
        obtain ⟨hwfront, hwsize, hwfirst, hwvisible, _⟩ := write_viewport ((fresh lines lineSize visible).typed text) c
        have hvalid : ((fresh lines lineSize visible).typed (text ++ [c])).Valid :=
          typed_valid (valid_fresh lines lineSize visible) (show 1 ≤ min visible 256 by omega) _
        have hseen := h (text ++ [c]) (List.prefix_refl _)
        rw [hvalid.newestVisible_iff (by rw [typed_visibleLines]; change 1 ≤ min visible 256; omega), typed_snoc,
          firstVisibleLineIndex, hwsize, hwfirst, hwfront, hwvisible, hosize, hofront, hofirst, hvisible,
          if_neg (by omega)] at hseen
        omega
      · exact hfew

/-- The viewport follows the output up to the 256th line; beyond it, only where it
is at most one line shorter than the ring. -/
theorem newest_visible_iff (lines : Nat → Nat → Byte) (lineSize visible : Nat) (text : List Byte)
    (hpos : 1 ≤ visible) (hle : visible ≤ 256) :
    (∀ before, before <+: text → ((fresh lines lineSize visible).typed before).NewestVisible) ↔
      255 ≤ visible ∨ (splitLines (min lineSize maxColumns) [] text).length ≤ 256 := by
  have hvalid (before : List Byte) : ((fresh lines lineSize visible).typed before).Valid :=
    typed_valid (valid_fresh lines lineSize visible) (show 1 ≤ min visible 256 by omega) before
  have hvisible (before : List Byte) : ((fresh lines lineSize visible).typed before).visibleLines = visible :=
    (typed_visibleLines _ before).trans (Nat.min_eq_left hle)
  have hlength : (splitLines (min lineSize maxColumns) [] text).length ≤ 256 ↔
      (layOut (min lineSize maxColumns) text).1.length < 256 := by
    rw [splitLines_eq, List.length_append, List.length_singleton]
    omega
  rw [hlength]
  constructor
  · intro h
    by_cases hlarge : 255 ≤ visible
    · exact Or.inl hlarge
    · exact Or.inr (typed_fits hpos (by omega) h)
  · rintro (hlarge | hfew) before ⟨rest, rfl⟩
    · rcases Nat.eq_or_lt_of_le hlarge with rfl | hall
      · exact (typed_late before).newestVisible (hvalid before) (hvisible before)
      · rw [(hvalid before).newestVisible_iff (by rw [hvisible]; omega), hvisible]
        have := (hvalid before).size_le
        omega
    · have hmono := layOut_length_mono (min lineSize maxColumns) before rest
      exact (typed_early hpos (by omega)).newestVisible (hvalid before) (by rw [hvisible]; omega)

end

/-- A line break and two wraps on a screen of two lines, which scrolls twice. -/
theorem newest_visible_wrapped :
    ((fresh (fun _ _ => 0) 2 2).typed [97, newline, 98, 99, 100, 101, 102]).NewestVisible :=
  (newest_visible_iff (fun _ _ => 0) 2 2 [97, newline, 98, 99, 100, 101, 102] (by decide) (by decide)).mpr
    (Or.inr (by decide)) _ (List.prefix_refl _)

/-- The 256th newline pushes the newest line out of the viewport. -/
theorem newest_line_hidden :
    ¬ ((fresh (fun _ _ => 0) 80 25).typed (List.replicate 256 newline)).NewestVisible := by
  unfold NewestVisible
  decide +kernel

end LineBuffer

end DavOS
