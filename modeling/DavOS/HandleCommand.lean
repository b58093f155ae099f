import DavOS.PrintfFormat
import DavOS.ShellInput
import DavOS.Strncmp

/-! `handle_command` of `kernel_main`: the command is found by comparing the first
characters of the input with each of the four it knows. -/
namespace DavOS
open NumberText

/-- What a command does, one thing after the other. -/
inductive ShellEffect where
  | print (text : List Byte)
  | clear
  | hang
  deriving DecidableEq

/-- A string literal and the NULs behind it. -/
def literal (text : String) : Nat → Byte := cLiteral text.toList

/-- `kpp::printf`, and the characters it puts to the terminal. -/
def printf (fuel : Nat) (fmt : String) (args : List PrintArg) : Option ShellEffect :=
  (vprintf fuel (literal fmt) args).map fun r => .print r.2.emitted

def helpLines : List String :=
  ["Available commands:\n",
    "  help - Show this help message\n",
    "  echo <message> - Echo the message back\n",
    "  exit - Exit the shell\n"]

def handleCommand (fuel : Nat) (input : Nat → Byte) (length : Int) : Option (List ShellEffect) :=
  if length = 0 then some []
  else if strncmp input (literal "help") 4 = 0 then helpLines.mapM fun line => printf fuel line []
  else if strncmp input (literal "echo ") 5 = 0 then
    (printf fuel "%s\n" [.str fun i => input (5 + i)]).map fun printed => [printed]
  else if strncmp input (literal "exit") 4 = 0 then
    -- `kernel_hang` does not return
    (printf fuel "Exiting shell...\n" []).map fun printed => [printed, .hang]
  else if strncmp input (literal "clear") 5 = 0 then some [.clear]
  else (printf fuel "Unknown command: %s\n" [.str input]).map fun printed => [printed]

/-! ### Commands as texts -/

def bytesOf (text : String) : List Byte := text.toList.map byteOf

/-- What is done for a line of text: its beginning says which command it is. -/
def commandEffects (text : List Byte) : List ShellEffect :=
  if bytesOf "help" <+: text then helpLines.map fun line => .print (bytesOf line)
  else if bytesOf "echo " <+: text then [.print (text.drop 5 ++ bytesOf "\n")]
  else if bytesOf "exit" <+: text then [.print (bytesOf "Exiting shell...\n"), .hang]
  else if bytesOf "clear" <+: text then [.clear]
  else [.print (bytesOf "Unknown command: " ++ (text ++ bytesOf "\n"))]

section

variable {s input : Nat → Byte} {text word : List Byte} {i n : Nat}

theorem cLiteral_char {cs : List Char} {k : Nat} (hk : k < cs.length) : cLiteral cs k = byteOf cs[k] := by
  simp [cLiteral, hk]

theorem holdsText_cLiteral (cs : List Char) (h : 0 ∉ cs.map byteOf) : HoldsText (cLiteral cs) 0 (cs.map byteOf) := by
  have hchars : cs.map byteOf = (List.range' 0 cs.length).map (cLiteral cs) := by
    apply List.ext_getElem
    · simp
    · intro j hj _
      have hj' : j < cs.length := by simpa using hj
      simp [cLiteral_char hj']
  rw [hchars] at h ⊢
  apply holdsText_of_terminated
  · have hend : cLiteral cs (0 + cs.length) = byteOf '\x00' := by simp [cLiteral]
    exact hend
  · intro j hj hzero
    apply h
    rw [List.mem_map]
    exact ⟨0 + j, by simpa using hj, hzero⟩

theorem HoldsText.isPrefix_iff (h : HoldsText s i text) (hword : 0 ∉ word) :
    word <+: text ↔ ∀ k < word.length, word[k]? = some (s (i + k)) := by
  induction word generalizing i text with
  | nil => simp
  | cons c word ih =>
      have hc : c ≠ 0 := fun hzero => hword (hzero ▸ List.mem_cons_self)
      have hrest : 0 ∉ word := fun hmem => hword (List.mem_cons_of_mem c hmem)
      cases text with
      | nil =>
          have hend : s i = 0 := h
          refine iff_of_false (by simp) fun hall => hc ?_
          have hfirst := hall 0 (Nat.succ_pos _)
          rw [Nat.add_zero, hend] at hfirst
          exact Option.some.inj hfirst
      | cons d text =>
          obtain ⟨hd, _, htext⟩ := h
          rw [List.cons_prefix_cons, ih htext hrest, List.length_cons, Nat.forall_lt_succ_left]
          simp [hd, Nat.add_assoc, Nat.add_comm 1]

theorem strncmp_literal (h : HoldsText input 0 text) {w : String} (hw : 0 ∉ bytesOf w) (hn : (bytesOf w).length = n) :
    strncmp input (literal w) n = 0 ↔ bytesOf w <+: text := by
  have hword : ∀ k < (bytesOf w).length, (bytesOf w)[k]? = some (literal w k) := by
    intro k hk
    have hk' : k < w.toList.length := by simpa [bytesOf] using hk
    simp [bytesOf, literal, hk', cLiteral_char hk']
  rw [strncmp_eq_zero, h.isPrefix_iff hw, ← hn]
  refine forall₂_congr fun k hk => ?_
  rw [hword k hk, Nat.zero_add, Option.some.injEq, eq_comm]

/-- Compared with a word that has no NUL, the input is not read beyond its own. -/
theorem strncmpReads_literal (h : HoldsText input 0 text) {w : String} (hw : 0 ∉ bytesOf w)
    (hn : (bytesOf w).length = n) {k : Nat} (hk : k ∈ strncmpReads input (literal w) n) : k ≤ text.length := by
  obtain ⟨hlt, hagree⟩ := mem_strncmpReads.mp hk
  by_contra hpast
  have hnul : input text.length = 0 := by
    have happend : HoldsText input 0 (text ++ []) := by rwa [List.append_nil]
    have hend : HoldsText input (0 + text.length) [] := happend.drop
    rwa [Nat.zero_add] at hend
  have hlength : text.length < w.toList.length := by
    rw [bytesOf, List.length_map] at hn
    omega
  apply hw
  rw [bytesOf, List.mem_map]
  refine ⟨w.toList[text.length], List.getElem_mem hlength, ?_⟩
  have hchar := hagree text.length (Nat.lt_of_not_le hpast)
  rw [hnul, literal, cLiteral_char hlength] at hchar
  exact hchar.symm

/-! ### Printing -/

theorem renders_text (run : List Byte) {pieces : List FormatPiece} {args : List PrintArg} {out : List Byte}
    (h : Renders pieces args out) : Renders (run.map .text ++ pieces) args (run ++ out) := by
  induction run with
  | nil => exact h
  | cons c run ih => exact .text ih

theorem renders_plain (h : percent ∉ text) : Renders (parseFormat text) [] text := by
  have hpieces : parseFormat text = text.map .text := by simpa [parseFormat] using parseFormat_run h []
  have hout := renders_text text .nil
  rw [List.append_nil, List.append_nil] at hout
  rw [hpieces]
  exact hout

/-- With fuel enough, the call puts `out` to the terminal. -/
def Puts (fmt : String) (args : List PrintArg) (out : List Byte) : Prop :=
  ∃ enough, ∀ fuel, enough ≤ fuel → printf fuel fmt args = some (.print out)

theorem puts_renders {fmt : String} {args : List PrintArg} {out : List Byte} (h : 0 ∉ bytesOf fmt)
    (hout : Renders (parseFormat (bytesOf fmt)) args out) : Puts fmt args out := by
  obtain ⟨result, t, hprinted⟩ := vprintf_printed [] (holdsText_cLiteral fmt.toList h) hout
  obtain ⟨enough, hreturns⟩ := hprinted.returns
  refine ⟨enough, fun fuel hfuel => ?_⟩
  have hcall := hreturns fuel hfuel
  rw [List.append_nil] at hcall
  rw [printf, literal, hcall, ← hprinted.emitted]
  rfl

theorem puts_plain (fmt : String) (h : 0 ∉ bytesOf fmt) (hplain : percent ∉ bytesOf fmt) : Puts fmt [] (bytesOf fmt) :=
  puts_renders h (renders_plain hplain)

theorem mapM_printf {lines : List String} (h : ∀ line ∈ lines, Puts line [] (bytesOf line)) :
    ∃ enough, ∀ fuel, enough ≤ fuel →
      lines.mapM (fun line => printf fuel line []) = some (lines.map fun line => .print (bytesOf line)) := by
  induction lines with
  | nil => exact ⟨0, fun _ _ => rfl⟩
  | cons line lines ih =>
      obtain ⟨enough, hfirst⟩ := h line List.mem_cons_self
      obtain ⟨enough', hrest⟩ := ih fun line' hline => h line' (List.mem_cons_of_mem line hline)
      refine ⟨max enough enough', fun fuel hfuel => ?_⟩
      rw [List.mapM_cons, hfirst fuel (by omega), hrest fuel (by omega)]
      rfl

theorem puts_helpLines : ∀ line ∈ helpLines, Puts line [] (bytesOf line) := by
  have hzero : ∀ line ∈ helpLines, 0 ∉ bytesOf line := by decide
  have hplain : ∀ line ∈ helpLines, percent ∉ bytesOf line := by decide
  exact fun line hline => puts_plain line (hzero line hline) (hplain line hline)

theorem holdsText_shift (h : HoldsText s i text) : HoldsText (fun j => s (i + j)) 0 text := by
  suffices hall : ∀ j, HoldsText s (i + j) text → HoldsText (fun j => s (i + j)) j text from hall 0 h
  clear h
  induction text with
  | nil => exact fun _ h => h
  | cons c text ih => exact fun j h => ⟨h.1, h.2.1, ih (j + 1) h.2.2⟩

theorem puts_echo (h : HoldsText s 0 text) : Puts "%s\n" [.str s] (text ++ bytesOf "\n") := by
  have hpieces : parseFormat (bytesOf "%s\n") = [.conversion .string, .text newline] := by decide
  apply puts_renders (by decide)
  rw [hpieces]
  exact .conversion (.string h) (.text .nil)

theorem puts_unknown (h : HoldsText s 0 text) :
    Puts "Unknown command: %s\n" [.str s] (bytesOf "Unknown command: " ++ (text ++ bytesOf "\n")) := by
  have hpieces : parseFormat (bytesOf "Unknown command: %s\n") =
      (bytesOf "Unknown command: ").map .text ++ [.conversion .string, .text newline] := by decide
  apply puts_renders (by decide)
  rw [hpieces]
  exact renders_text _ (.conversion (.string h) (.text .nil))

/-! ### The dispatcher -/

/-- What a line does depends on its text alone, not on what lies behind its terminator. -/
theorem handleCommand_eq (h : HoldsText input 0 text) {length : Int} (hlength : length ≠ 0) :
    ∃ enough, ∀ fuel, enough ≤ fuel → handleCommand fuel input length = some (commandEffects text) := by
  have hhelp := strncmp_literal h (w := "help") (by decide) (rfl : _ = 4)
  have hecho := strncmp_literal h (w := "echo ") (by decide) (rfl : _ = 5)
  have hexit := strncmp_literal h (w := "exit") (by decide) (rfl : _ = 4)
  have hclear := strncmp_literal h (w := "clear") (by decide) (rfl : _ = 5)
  simp only [handleCommand, commandEffects, if_neg hlength, hhelp, hecho, hexit, hclear]
  split
  · exact mapM_printf puts_helpLines
  · split
    · rename_i hword
      obtain ⟨rest, rfl⟩ := hword
      obtain ⟨enough, hputs⟩ := puts_echo (holdsText_shift (HoldsText.drop h))
      refine ⟨enough, fun fuel hfuel => ?_⟩
      exact congrArg (Option.map fun printed => [printed]) (hputs fuel hfuel)
    · split
      · obtain ⟨enough, hputs⟩ := puts_plain "Exiting shell...\n" (by decide) (by decide)
        refine ⟨enough, fun fuel hfuel => ?_⟩
        rw [hputs fuel hfuel]
        rfl
      · split
        · exact ⟨0, fun _ _ => rfl⟩
        · obtain ⟨enough, hputs⟩ := puts_unknown h
          refine ⟨enough, fun fuel hfuel => ?_⟩
          rw [hputs fuel hfuel]
          rfl

/-! ### From the prompt to the command -/

theorem holdsText_cstring (h : ∃ j < n, s (i + j) = 0) : HoldsText s i (cstring s i n) := by
  induction n generalizing i with
  | zero =>
      obtain ⟨j, hj, _⟩ := h
      cases hj
  | succ n ih =>
      rw [cstring]
      split
      · rename_i hzero
        exact hzero
      · rename_i hne
        refine ⟨rfl, hne, ih ?_⟩
        obtain ⟨j, hj, hzero⟩ := h
        cases j with
        | zero => exact absurd hzero hne
        | succ j =>
            rw [Nat.add_comm j, ← Nat.add_assoc] at hzero
            exact ⟨j, Nat.lt_of_succ_lt_succ hj, hzero⟩

end

/-- Every line typed at the prompt, in whatever way, is carried out as the command
that its text begins with; an empty line does nothing. -/
theorem Shell.line_is_carried_out (input : Nat → Byte) (keys : List Key) :
    ∃ enough, ∀ fuel, enough ≤ fuel →
      handleCommand fuel (run input (keys ++ [.enter])).input (run input (keys ++ [.enter])).pos =
        some (if (command input keys).2 = 0 then [] else commandEffects (command input keys).1) := by
  have hpos := run_pos input keys
  have henter : run input (keys ++ [.enter]) =
      ⟨Function.update (run input keys).input (run input keys).pos.toNat 0, (run input keys).pos⟩ := by
    rw [run_snoc]
    rfl
  have htext : HoldsText (run input (keys ++ [.enter])).input 0 (command input keys).1 := by
    apply holdsText_cstring
    refine ⟨(run input keys).pos.toNat, by omega, ?_⟩
    rw [henter, Nat.zero_add]
    exact Function.update_self _ _ _
  have hsame : (command input keys).2 = (run input (keys ++ [.enter])).pos := rfl
  by_cases hlength : (run input (keys ++ [.enter])).pos = 0
  · refine ⟨0, fun fuel _ => ?_⟩
    rw [handleCommand, if_pos hlength, hsame, if_pos hlength]
  · rw [hsame, if_neg hlength]
    exact handleCommand_eq htext hlength

end DavOS
