import DavOS.GuardedRun
import DavOS.Keyboard
import DavOS.Terminal

/-! The input loop of `kernel_main`, from one prompt to the next Enter. The array
for the input is never cleared; the loop is compared with an editor that holds
only what was typed since the prompt. -/
namespace DavOS

def backspace : Byte := 8

theorem backspace_ne_zero : backspace ≠ 0 := by
  decide

def space : Byte := 32

/-- `Key::enter`. -/
def Key.enter : Key := .ascii newline newline_ne_zero

/-- The `char` to which the keys from F1 (0x104) on are cast. -/
def functionChar (n : Fin 18) : Byte := BitVec.ofNat 8 (0x104 + n)

/-- The array and the index of the loop. -/
structure Shell where
  input : Nat → Byte
  pos : Int := 0

namespace Shell

/-- Any other key: it is stored and put to the terminal. -/
def type (s : Shell) (character : Byte) : Shell × List TerminalOp :=
  if s.pos < 256 - 1 then
    (⟨Function.update s.input s.pos.toNat character, s.pos + 1⟩, [.write character])
  else (s, [])

/-- One round of the loop: the state after it, and what it does to the terminal. -/
def handleKey (s : Shell) : Key → Shell × List TerminalOp
  | .ascii code _ =>
      if code = newline then (⟨Function.update s.input s.pos.toNat 0, s.pos⟩, [.write newline])
      else if code = backspace then
        if 0 < s.pos then ({ s with pos := s.pos - 1 }, [.write backspace, .write space, .write backspace]) else (s, [])
      else s.type code
  | .leftArrow => if 0 < s.pos then ({ s with pos := s.pos - 1 }, []) else (s, [])
  | .rightArrow =>
      if s.pos < 256 - 1 ∧ s.input s.pos.toNat ≠ 0 then ({ s with pos := s.pos + 1 }, []) else (s, [])
  | .upArrow => (s, [.scrollDown (-1)])
  | .downArrow => (s, [.scrollDown 1])
  | .none => (s, [])
  | .function n => s.type (functionChar n)

/-- The loop over the keys it gets, from the prompt on. -/
def run (input : Nat → Byte) (keys : List Key) : Shell := keys.foldl (fun s key => (s.handleKey key).1) ⟨input, 0⟩

/-- The string and the length that `handle_command` gets when the keys are followed by Enter. -/
def command (input : Nat → Byte) (keys : List Key) : List Byte × Int :=
  (cstring (run input (keys ++ [.enter])).input 0 256, (run input (keys ++ [.enter])).pos)

end Shell

/-! ### The text typed since the prompt -/

/-- Text with a character stored at place `i`, or appended there. -/
def overwrite (text : List Byte) (i : Nat) (c : Byte) : List Byte :=
  if i < text.length then text.set i c else text ++ [c]

section

variable {text : List Byte} {i j : Nat} {b c : Byte}

theorem length_overwrite (hi : i ≤ text.length) (c : Byte) : (overwrite text i c).length = max text.length (i + 1) := by
  unfold overwrite
  split
  · rw [List.length_set]
    omega
  · rw [List.length_append, List.length_singleton]
    omega

theorem mem_overwrite (h : b ∈ overwrite text i c) : b = c ∨ b ∈ text := by
  unfold overwrite at h
  split at h
  · exact (List.mem_or_eq_of_mem_set h).symm
  · rcases List.mem_append.mp h with hold | hnew
    · exact Or.inr hold
    · exact Or.inl (List.mem_singleton.mp hnew)

theorem getElem?_overwrite (hi : i ≤ text.length) (hj : j ≠ i) : (overwrite text i c)[j]? = text[j]? := by
  unfold overwrite
  split
  · exact List.getElem?_set_ne hj.symm
  · rename_i hend
    by_cases hlt : j < text.length
    · exact List.getElem?_append_left hlt
    · rw [List.getElem?_eq_none (by rw [List.length_append, List.length_singleton]; omega),
        List.getElem?_eq_none (Nat.le_of_not_lt hlt)]

theorem getElem?_overwrite_self (hi : i ≤ text.length) : (overwrite text i c)[i]? = some c := by
  unfold overwrite
  split
  · rename_i hlt
    exact List.getElem?_set_self hlt
  · rename_i hend
    obtain rfl : i = text.length := by omega
    exact List.getElem?_concat_length

theorem overwrite_nonzero (h : 0 ∉ text) (hc : c ≠ 0) (i : Nat) : 0 ∉ overwrite text i c := by
  intro hmem
  rcases mem_overwrite hmem with hzero | hold
  · exact hc hzero.symm
  · exact h hold

end

/-- What a line editor knows: the text, and where in it the cursor stands. -/
structure Editor where
  text : List Byte
  cursor : Nat
  cursor_le : cursor ≤ text.length
  length_le : text.length ≤ 255
  nonzero : 0 ∉ text

theorem functionChar_ne_zero (n : Fin 18) : functionChar n ≠ 0 := by
  revert n
  decide

namespace Editor

theorem cursor_lt_length_overwrite {text : List Byte} {i : Nat} (hi : i ≤ text.length) (c : Byte) :
    i + 1 ≤ (overwrite text i c).length := by
  rw [length_overwrite hi]
  exact Nat.le_max_right _ _

theorem length_overwrite_le {text : List Byte} {i : Nat} (hi : i ≤ text.length) (h : text.length ≤ 255) (hlt : i < 255)
    (c : Byte) : (overwrite text i c).length ≤ 255 := by
  rw [length_overwrite hi]
  exact Nat.max_le.mpr ⟨h, hlt⟩

theorem start_le : 0 ≤ ([] : List Byte).length := Nat.le_refl 0

theorem nil_length_le : ([] : List Byte).length ≤ 255 := Nat.zero_le 255

theorem nil_nonzero : (0 : Byte) ∉ ([] : List Byte) := List.not_mem_nil

def empty : Editor := ⟨[], 0, start_le, nil_length_le, nil_nonzero⟩

def type (e : Editor) (c : Byte) (hc : c ≠ 0) : Editor :=
  if h : e.cursor < 255 then
    { text := overwrite e.text e.cursor c
      cursor := e.cursor + 1
      cursor_le := cursor_lt_length_overwrite e.cursor_le c
      length_le := length_overwrite_le e.cursor_le e.length_le h c
      nonzero := overwrite_nonzero e.nonzero hc e.cursor }
  else e

def left (e : Editor) : Editor :=
  { e with cursor := e.cursor - 1, cursor_le := Nat.le_trans (Nat.sub_le _ _) e.cursor_le }

def right (e : Editor) : Editor :=
  if h : e.cursor < e.text.length then { e with cursor := e.cursor + 1, cursor_le := h } else e

def handleKey (e : Editor) : Key → Editor
  | .ascii code h => if code = backspace then e.left else e.type code h
  | .leftArrow => e.left
  | .rightArrow => e.right
  | .function n => e.type (functionChar n) (functionChar_ne_zero n)
  | .upArrow => e
  | .downArrow => e
  | .none => e

def run (keys : List Key) : Editor := keys.foldl handleKey empty

/-- The text in front of the cursor. -/
def command (e : Editor) : List Byte × Int := (e.text.take e.cursor, e.cursor)

end Editor

end DavOS
