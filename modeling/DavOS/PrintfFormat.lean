import DavOS.Printf

/-! The format of `vprintf` against its grammar: literal characters, `%%` for a `%`,
and the conversions. A `%` in front of anything else is dropped. -/
namespace DavOS
open MachineWord NumberText

inductive Conversion where
  | char
  | string
  | decimal
  | hex
  deriving DecidableEq

def conversionOf (c : Byte) : Option Conversion :=
  if c = byteOf 'c' then some .char
  else if c = byteOf 's' then some .string
  else if c = byteOf 'd' then some .decimal
  else if c = byteOf 'x' ∨ c = byteOf 'p' then some .hex
  else none

/-- The specifiers of a conversion. -/
def Conversion.Specifier (d : Byte) : Conversion → Prop
  | .char => d = byteOf 'c'
  | .string => d = byteOf 's'
  | .decimal => d = byteOf 'd'
  | .hex => d = byteOf 'x' ∨ d = byteOf 'p'

theorem conversionOf_specifier {d : Byte} {k : Conversion} (h : conversionOf d = some k) : k.Specifier d := by
  unfold conversionOf at h
  repeat' split at h
  all_goals cases h
  all_goals assumption

inductive FormatPiece where
  | text (c : Byte)
  | conversion (k : Conversion)
  deriving DecidableEq

def parseFormat : List Byte → List FormatPiece
  | [] => []
  -- a `%` at the end is dropped
  | [c] => if c = percent then [] else [.text c]
  | c :: d :: rest =>
      if c ≠ percent then .text c :: parseFormat (d :: rest)
      else if d = percent then .text percent :: parseFormat rest
      else
        match conversionOf d with
        | some k => .conversion k :: parseFormat rest
        | none => .text d :: parseFormat rest

/-- The string at `s`, from index `i` on, is `text`: a NUL follows it, and it has none. -/
def HoldsText (s : Nat → Byte) (i : Nat) : List Byte → Prop
  | [] => s i = 0
  | c :: text => s i = c ∧ c ≠ 0 ∧ HoldsText s (i + 1) text

/-- What a conversion prints for an argument of its type. -/
inductive Converts : Conversion → PrintArg → List Byte → Prop
  | char (n : BitVec 32) : Converts .char (.int n) [n.setWidth 8]
  | string {s : Nat → Byte} {str : List Byte} : HoldsText s 0 str → Converts .string (.str s) str
  | decimal (n : BitVec 32) : Converts .decimal (.int n) (convertDecimal n).text
  | hex (m : BitVec 64) : Converts .hex (.word m) (convertHex m).text

/-- The pieces take the arguments, one for each conversion, and print the text. -/
inductive Renders : List FormatPiece → List PrintArg → List Byte → Prop
  | nil : Renders [] [] []
  | text {c : Byte} {pieces : List FormatPiece} {args : List PrintArg} {out : List Byte} :
      Renders pieces args out → Renders (.text c :: pieces) args (c :: out)
  | conversion {k : Conversion} {arg : PrintArg} {data : List Byte} {pieces : List FormatPiece} {args : List PrintArg}
      {out : List Byte} :
      Converts k arg data → Renders pieces args out → Renders (.conversion k :: pieces) (arg :: args) (data ++ out)

/-! ### Strings -/

section

variable {s fmt : Nat → Byte} {i n fuel : Nat} {text run rest : List Byte} {c d : Byte}

theorem strlenFrom_eq (h : HoldsText s i text) (hfuel : text.length < fuel) :
    strlenFrom s i fuel = some (i + text.length) := by
  induction text generalizing i fuel with
  | nil =>
      obtain ⟨fuel, rfl⟩ := Nat.exists_eq_succ_of_ne_zero (Nat.ne_of_gt hfuel)
      have hzero : s i = 0 := h
      rw [strlenFrom, if_neg (not_not.mpr hzero)]
      rfl
  | cons c text ih =>
      obtain ⟨fuel, rfl⟩ := Nat.exists_eq_succ_of_ne_zero (Nat.ne_of_gt (Nat.zero_lt_of_lt hfuel))
      obtain ⟨hc, hne, hrest⟩ := h
      rw [strlenFrom, if_pos (hc ▸ hne), ih hrest (Nat.lt_of_succ_lt_succ hfuel), List.length_cons]
      congr 1
      omega

theorem HoldsText.chars (run : List Byte) (h : HoldsText s i (run ++ rest)) :
    (List.range' i run.length).map s = run := by
  induction run generalizing i with
  | nil => rfl
  | cons c run ih =>
      obtain ⟨hc, _, hrest⟩ := h
      rw [List.length_cons, List.range'_succ, List.map_cons, hc, ih hrest]

theorem HoldsText.whole (h : HoldsText s 0 text) : (List.range text.length).map s = text := by
  have happend : HoldsText s 0 (text ++ []) := by rwa [List.append_nil]
  rw [List.range_eq_range']
  exact HoldsText.chars text happend

theorem HoldsText.drop (h : HoldsText s i (run ++ rest)) : HoldsText s (i + run.length) rest := by
  induction run generalizing i with
  | nil => exact h
  | cons c run ih =>
      have hindex : i + (c :: run).length = i + 1 + run.length := by rw [List.length_cons]; omega
      rw [hindex]
      exact ih h.2.2

theorem holdsText_of_terminated (hend : s (i + n) = 0) (hchars : ∀ j < n, s (i + j) ≠ 0) :
    HoldsText s i ((List.range' i n).map s) := by
  induction n generalizing i with
  | zero => exact hend
  | succ n ih =>
      rw [List.range'_succ, List.map_cons]
      refine ⟨rfl, hchars 0 (Nat.succ_pos n), ih ?_ fun j hj => ?_⟩
      · rwa [Nat.add_assoc, Nat.add_comm 1]
      · rw [Nat.add_assoc, Nat.add_comm 1]
        exact hchars (j + 1) (Nat.succ_lt_succ hj)

/-- What a literal stops at: the next `%` or the end. -/
def Stops : List Byte → Prop
  | [] => True
  | c :: _ => c = percent

theorem charsToPrint_eq {p : Nat} (h : HoldsText fmt (p + n) (run ++ rest)) (hrun : percent ∉ run) (hrest : Stops rest)
    (hfuel : run.length < fuel) : charsToPrint fmt p n fuel = some (n + run.length) := by
  induction run generalizing n fuel with
  | nil =>
      obtain ⟨fuel, rfl⟩ := Nat.exists_eq_succ_of_ne_zero (Nat.ne_of_gt hfuel)
      rw [charsToPrint, if_neg]
      · rfl
      · rintro ⟨hne, hother⟩
        cases rest with
        | nil => exact hne h
        | cons c rest => exact hother (h.1.trans hrest)
  | cons c run ih =>
      obtain ⟨fuel, rfl⟩ := Nat.exists_eq_succ_of_ne_zero (Nat.ne_of_gt (Nat.zero_lt_of_lt hfuel))
      obtain ⟨hc, hne, htail⟩ := h
      have hother : c ≠ percent := fun hc => hrun (hc ▸ List.mem_cons_self)
      rw [charsToPrint, if_pos ⟨hc ▸ hne, hc ▸ hother⟩, ih htail (fun hmem => hrun (List.mem_cons_of_mem c hmem))
        (Nat.lt_of_succ_lt_succ hfuel), List.length_cons]
      congr 1
      omega

theorem literal_split (text : List Byte) : ∃ run rest, text = run ++ rest ∧ percent ∉ run ∧ Stops rest := by
  induction text with
  | nil => exact ⟨[], [], rfl, List.not_mem_nil, trivial⟩
  | cons c text ih =>
      by_cases hc : c = percent
      · exact ⟨[], c :: text, rfl, List.not_mem_nil, hc⟩
      · obtain ⟨run, rest, rfl, hrun, hrest⟩ := ih
        refine ⟨c :: run, rest, rfl, ?_, hrest⟩
        intro hmem
        rcases List.mem_cons.mp hmem with hmem | hmem
        · exact hc hmem.symm
        · exact hrun hmem

/-! ### The grammar -/

theorem parseFormat_text (hc : c ≠ percent) (text : List Byte) :
    parseFormat (c :: text) = .text c :: parseFormat text := by
  cases text with
  | nil => exact if_neg hc
  | cons d text => rw [parseFormat, if_pos hc]

theorem parseFormat_escape (text : List Byte) :
    parseFormat (percent :: percent :: text) = .text percent :: parseFormat text := by
  rw [parseFormat, if_neg (not_not.mpr rfl), if_pos rfl]

theorem parseFormat_conversion {k : Conversion} (hd : d ≠ percent) (hk : conversionOf d = some k) (text : List Byte) :
    parseFormat (percent :: d :: text) = .conversion k :: parseFormat text := by
  rw [parseFormat, if_neg (not_not.mpr rfl), if_neg hd, hk]

theorem parseFormat_unknown (hd : d ≠ percent) (hk : conversionOf d = none) (text : List Byte) :
    parseFormat (percent :: d :: text) = parseFormat (d :: text) := by
  rw [parseFormat, if_neg (not_not.mpr rfl), if_neg hd, hk, parseFormat_text hd]

theorem parseFormat_run (hrun : percent ∉ run) (rest : List Byte) :
    parseFormat (run ++ rest) = run.map .text ++ parseFormat rest := by
  induction run with
  | nil => rfl
  | cons c run ih =>
      have hc : c ≠ percent := fun hc => hrun (hc ▸ List.mem_cons_self)
      rw [List.cons_append, parseFormat_text hc, ih fun hmem => hrun (List.mem_cons_of_mem c hmem)]
      rfl

theorem Renders.literal (run : List Byte) {pieces : List FormatPiece} {args : List PrintArg} {out : List Byte}
    (h : Renders (run.map .text ++ pieces) args out) : ∃ out', out = run ++ out' ∧ Renders pieces args out' := by
  induction run generalizing out with
  | nil => exact ⟨out, rfl, h⟩
  | cons c run ih =>
      cases h with
      | text h =>
          obtain ⟨out', rfl, hrest⟩ := ih h
          exact ⟨out', rfl, hrest⟩

end

/-! ### One round -/

namespace Printing

/-- Characters that are printed and counted. -/
def emit (s : Printing) (data : List Byte) : Printing :=
  { s with emitted := s.emitted ++ data, written := wrap (s.written + data.length) }

@[simp] theorem read_position (s : Printing) (indices : List Nat) : (s.read indices).position = s.position := rfl

@[simp] theorem advance_position (s : Printing) (n : Nat) : (s.advance n).position = s.position + n := rfl

@[simp] theorem emit_position (s : Printing) (data : List Byte) : (s.emit data).position = s.position := rfl

@[simp] theorem take_position (s : Printing) (args : List PrintArg) : (s.take args).position = s.position := rfl

@[simp] theorem read_args (s : Printing) (indices : List Nat) : (s.read indices).args = s.args := rfl

@[simp] theorem advance_args (s : Printing) (n : Nat) : (s.advance n).args = s.args := rfl

/-- `putchar` never returns -1, so `print` does not fail. -/
theorem print_eq (s : Printing) (data : List Byte) :
    s.print data = (true, { s with emitted := s.emitted ++ data }) := by
  induction data generalizing s with
  | nil => simp [print]
  | cons c data ih =>
      have hreturned : (s.putchar c.toNat).1 ≠ -1 := by
        change (c.toNat : Int) ≠ -1
        omega
      rw [print, if_neg hreturned, ih]
      simp [putchar]

theorem printCounted_eq (s : Printing) (data : List Byte) : s.printCounted data = (true, s.emit data) := by
  rw [printCounted, print_eq]
  rfl

/-- From `s` to `t` the arguments `used` are taken and `out` is printed, and no
character of the format behind index `last` is read. -/
structure Prints (last : Nat) (used : List PrintArg) (out : List Byte) (s t : Printing) : Prop where
  args : s.args = used ++ t.args
  emitted : t.emitted = s.emitted ++ out
  written : wrap t.written = wrap (s.written + out.length)
  written_lt : s.written < 2 ^ 64 → t.written < 2 ^ 64
  reads : ∀ i ∈ t.reads, i ∈ s.reads ∨ i ≤ last

section

variable {last : Nat} {used used' : List PrintArg} {out out' : List Byte} {s t u : Printing}

theorem Prints.trans (h : Prints last used out s t) (h' : Prints last used' out' t u) :
    Prints last (used ++ used') (out ++ out') s u := by
  refine ⟨?_, ?_, ?_, fun hlt => h'.written_lt (h.written_lt hlt), ?_⟩
  · rw [h.args, h'.args, List.append_assoc]
  · rw [h'.emitted, h.emitted, List.append_assoc]
  · have hw := h.written
    have hw' := h'.written
    rw [List.length_append]
    unfold wrap at hw hw' ⊢
    omega
  · intro i hi
    rcases h'.reads i hi with hi | hi
    · exact h.reads i hi
    · exact Or.inr hi

theorem prints_read {indices : List Nat} (h : ∀ i ∈ indices, i ≤ last) : Prints last [] [] s (s.read indices) := by
  refine ⟨rfl, (List.append_nil _).symm, rfl, id, fun i hi => ?_⟩
  rcases List.mem_append.mp hi with hi | hi
  · exact Or.inl hi
  · exact Or.inr (h i hi)

theorem prints_read_one {i : Nat} (h : i ≤ last) : Prints last [] [] s (s.read [i]) := by
  apply prints_read
  intro j hj
  rw [List.mem_singleton] at hj
  exact hj ▸ h

theorem prints_read_two {i : Nat} (h : i + 1 ≤ last) : Prints last [] [] s (s.read [i, i + 1]) := by
  apply prints_read
  intro j hj
  simp only [List.mem_cons, List.not_mem_nil, or_false] at hj
  omega

theorem prints_advance (n : Nat) : Prints last [] [] s (s.advance n) :=
  ⟨rfl, (List.append_nil _).symm, rfl, id, fun _ hi => Or.inl hi⟩

theorem prints_take {arg : PrintArg} {args : List PrintArg} (h : s.args = arg :: args) :
    Prints last [arg] [] s (s.take args) :=
  ⟨h, (List.append_nil _).symm, rfl, id, fun _ hi => Or.inl hi⟩

theorem prints_emit (data : List Byte) : Prints last [] data s (s.emit data) :=
  ⟨rfl, rfl, Nat.mod_mod _ _, fun _ => Nat.mod_lt _ (by decide), fun _ hi => Or.inl hi⟩

end

end Printing

open Printing

/-- A round of the loop takes `s` to `t`, once there is fuel enough for its own loops. -/
def StepsTo (fmt : Nat → Byte) (s t : Printing) : Prop :=
  ∃ enough, ∀ fuel, enough ≤ fuel → vprintfStep fuel fmt s = some (true, t)

/-- A round prints `out` and goes on at `rest`. -/
structure Round (fmt : Nat → Byte) (last : Nat) (used : List PrintArg) (out rest : List Byte) (s t : Printing) : Prop where
  steps : StepsTo fmt s t
  prints : Prints last used out s t
  holds : HoldsText fmt t.position rest
  ends : t.position + rest.length = last

section

variable {fmt : Nat → Byte} {s : Printing} {last fuel : Nat} {run rest : List Byte} {c d : Byte}

/-- The characters of a literal: what the scan tests and what `print` reads. -/
def literalReads (position n : Nat) : List Nat := List.range' (position + 1) n ++ List.range' position n

theorem printRun_eq (h : HoldsText fmt s.position (c :: (run ++ rest))) (hrun : percent ∉ run) (hrest : Stops rest)
    (hfuel : run.length < fuel) : printRun fuel fmt s =
      some (true, ((s.read (literalReads s.position (1 + run.length))).emit (c :: run)).advance (1 + run.length)) := by
  have hchars : (List.range' s.position (1 + run.length)).map fmt = c :: run := by
    rw [Nat.add_comm]
    exact HoldsText.chars (c :: run) h
  unfold printRun
  rw [charsToPrint_eq h.2.2 hrun hrest hfuel, Option.map_some]
  simp only [read_position, hchars, printCounted_eq]
  rfl

theorem prints_run (hlast : s.position + (1 + run.length) ≤ last) : Prints last [] (c :: run) s
    (((s.read (literalReads s.position (1 + run.length))).emit (c :: run)).advance (1 + run.length)) := by
  have hreads : ∀ i ∈ literalReads s.position (1 + run.length), i ≤ last := by
    intro i hi
    simp only [literalReads, List.mem_append, List.mem_range'_1] at hi
    omega
  simpa using ((prints_read hreads).trans (prints_emit (c :: run))).trans (prints_advance (1 + run.length))

theorem round_literal (hc : c ≠ percent) (h : HoldsText fmt s.position (c :: (run ++ rest))) (hrun : percent ∉ run)
    (hrest : Stops rest) (hlast : s.position + (c :: (run ++ rest)).length = last) :
    ∃ t, Round fmt last [] (c :: run) rest s t := by
  have hfirst : fmt s.position ≠ percent := h.1 ▸ hc
  rw [List.length_cons, List.length_append] at hlast
  refine ⟨_, ⟨run.length + 1, fun fuel hfuel => ?_⟩,
    (prints_read_one (i := s.position) (by omega)).trans (prints_run (by simp only [read_position]; omega)), ?_, ?_⟩
  · unfold vprintfStep printLiteral
    simp only [if_neg hfirst, read_position]
    rw [if_pos (Or.inl hfirst)]
    exact printRun_eq h hrun hrest hfuel
  · have hdrop := HoldsText.drop h.2.2
    simp only [advance_position, emit_position, read_position]
    rwa [← Nat.add_assoc]
  · simp only [advance_position, emit_position, read_position]
    omega

theorem round_escape (h : HoldsText fmt s.position (percent :: percent :: (run ++ rest))) (hrun : percent ∉ run)
    (hrest : Stops rest) (hlast : s.position + (percent :: percent :: (run ++ rest)).length = last) :
    ∃ t, Round fmt last [] (percent :: run) rest s t := by
  have hfirst : fmt s.position = percent := h.1
  have hsecond : fmt (s.position + 1) = percent := h.2.2.1
  rw [List.length_cons, List.length_cons, List.length_append] at hlast
  refine ⟨_, ⟨run.length + 1, fun fuel hfuel => ?_⟩,
    ((prints_read_two (i := s.position) (by omega)).trans (prints_advance 1)).trans
      (prints_run (by simp only [advance_position, read_position]; omega)), ?_, ?_⟩
  · unfold vprintfStep printLiteral
    simp only [if_pos hfirst, read_position]
    rw [if_pos (Or.inr hsecond)]
    exact printRun_eq h.2.2 hrun hrest hfuel
  · have hdrop := HoldsText.drop h.2.2.2.2
    simp only [advance_position, emit_position, read_position]
    rwa [← Nat.add_assoc]
  · simp only [advance_position, emit_position, read_position]
    omega

/-- The state at a specifier, behind its `%`. -/
def atSpecifier (s : Printing) : Printing :=
  ((s.read [s.position, s.position + 1]).advance 1).read [s.position + 1]

theorem prints_atSpecifier (hlast : s.position + 1 ≤ last) : Prints last [] [] s (atSpecifier s) :=
  ((prints_read_two hlast).trans (prints_advance 1)).trans (prints_read_one hlast)

theorem vprintfStep_specifier (hfirst : fmt s.position = percent) (hsecond : fmt (s.position + 1) ≠ percent) :
    vprintfStep fuel fmt s = printSpecifier fuel fmt (s.read [s.position, s.position + 1]) := by
  unfold vprintfStep
  simp only [if_pos hfirst, read_position]
  rw [if_neg]
  rintro (h | h)
  · exact h hfirst
  · exact hsecond h

theorem convertSpecifier_converts {k : Conversion} {arg : PrintArg} {args : List PrintArg} {data : List Byte}
    (hk : conversionOf d = some k) (hdata : Converts k arg data) (hargs : s.args = arg :: args) :
    ∃ enough, ∀ fuel, enough ≤ fuel →
      convertSpecifier fuel d s = some (true, ((s.advance 1).take args).emit data) := by
  have hspecifier := conversionOf_specifier hk
  unfold convertSpecifier
  simp only [hargs, printCounted_eq]
  cases hdata with
  | char n =>
      subst hspecifier
      exact ⟨0, fun fuel _ => if_pos rfl⟩
  | string hstr =>
      subst hspecifier
      rename_i str
      refine ⟨data.length + 1, fun fuel hfuel => ?_⟩
      have hlen : strlen fuel str = some data.length := by
        rw [strlen, strlenFrom_eq hstr hfuel, Nat.zero_add]
      rw [if_neg (by decide), if_pos rfl]
      dsimp only
      rw [hlen, Option.map_some, hstr.whole]
  | decimal n =>
      subst hspecifier
      refine ⟨0, fun fuel _ => ?_⟩
      rw [if_neg (by decide), if_neg (by decide), if_pos rfl]
  | hex m =>
      refine ⟨0, fun fuel _ => ?_⟩
      rcases hspecifier with rfl | rfl
      · rw [if_neg (by decide), if_neg (by decide), if_neg (by decide), if_pos (Or.inl rfl)]
      · rw [if_neg (by decide), if_neg (by decide), if_neg (by decide), if_pos (Or.inr rfl)]

theorem convertSpecifier_unknown (hk : conversionOf d = none) : convertSpecifier fuel d s = some (true, s) := by
  unfold conversionOf at hk
  unfold convertSpecifier
  repeat' split at hk
  · cases hk
  · cases hk
  · cases hk
  · cases hk
  · rename_i hc hs hd hx
    rw [if_neg hc, if_neg hs, if_neg hd, if_neg hx]

theorem round_conversion {k : Conversion} {arg : PrintArg} {args : List PrintArg} {data : List Byte} (hd : d ≠ percent)
    (h : HoldsText fmt s.position (percent :: d :: rest)) (hk : conversionOf d = some k) (hdata : Converts k arg data)
    (hargs : s.args = arg :: args) (hlast : s.position + (percent :: d :: rest).length = last) :
    ∃ t, Round fmt last [arg] data rest s t := by
  obtain ⟨hfirst, _, hsecond, _, htail⟩ := h
  rw [List.length_cons, List.length_cons] at hlast
  obtain ⟨enough, hconvert⟩ := convertSpecifier_converts (s := atSpecifier s) hk hdata hargs
  refine ⟨_, ⟨enough, fun fuel hfuel => ?_⟩, (((prints_atSpecifier (by omega)).trans (prints_advance 1)).trans
    (prints_take hargs)).trans (prints_emit data), htail, ?_⟩
  · rw [vprintfStep_specifier hfirst (hsecond ▸ hd)]
    change convertSpecifier fuel (fmt (s.position + 1)) (atSpecifier s) = _
    rw [hsecond]
    exact hconvert fuel hfuel
  · change s.position + 1 + 1 + rest.length = last
    omega

/-- A `%` in front of anything else is dropped. -/
theorem round_dropped (h : HoldsText fmt s.position (percent :: rest)) (hother : fmt (s.position + 1) ≠ percent)
    (hk : conversionOf (fmt (s.position + 1)) = none) (hlast : s.position + (percent :: rest).length = last) :
    ∃ t, Round fmt last [] [] rest s t := by
  rw [List.length_cons] at hlast
  refine ⟨atSpecifier s, ⟨0, fun fuel _ => ?_⟩, prints_atSpecifier (by omega), h.2.2, ?_⟩
  · rw [vprintfStep_specifier h.1 hother]
    exact convertSpecifier_unknown hk
  · change s.position + 1 + rest.length = last
    omega

end

/-! ### The loop -/

/-- The loop returns `result` in the state `t`, once there is fuel enough. -/
def Returns (fmt : Nat → Byte) (s : Printing) (result : Int) (t : Printing) : Prop :=
  ∃ enough, ∀ fuel, enough ≤ fuel → vprintfLoop fmt fuel s = some (result, t)

section

variable {fmt : Nat → Byte} {s t u : Printing} {last : Nat} {result : Int}

theorem returns_of_zero (h : fmt s.position = 0) :
    Returns fmt s (if intMax < s.written then -1 else s.written) (s.read [s.position]) := by
  refine ⟨1, fun fuel hfuel => ?_⟩
  obtain ⟨fuel, rfl⟩ := Nat.exists_eq_succ_of_ne_zero (Nat.ne_of_gt hfuel)
  rw [vprintfLoop]
  exact if_pos h

theorem Returns.step (hne : fmt s.position ≠ 0) (hstep : StepsTo fmt (s.read [s.position]) t)
    (h : Returns fmt t result u) : Returns fmt s result u := by
  obtain ⟨enough, hstep⟩ := hstep
  obtain ⟨enough', hloop⟩ := h
  refine ⟨max enough enough' + 1, fun fuel hfuel => ?_⟩
  obtain ⟨fuel, rfl⟩ := Nat.exists_eq_succ_of_ne_zero (Nat.ne_of_gt (Nat.lt_of_lt_of_le (Nat.succ_pos _) hfuel))
  rw [vprintfLoop, read_position, if_neg hne, hstep fuel (by omega)]
  exact hloop fuel (by omega)

/-- The next round at any text: it prints the first pieces of the text, and what is
left of the text is shorter. -/
theorem exists_round {text : List Byte} {used rest : List PrintArg} {out : List Byte} (hne : text ≠ [])
    (h : HoldsText fmt s.position text) (hlast : s.position + text.length = last) (hargs : s.args = used ++ rest)
    (hout : Renders (parseFormat text) used out) :
    ∃ t text' taken used' printed out', Round fmt last taken printed text' s t ∧ text'.length < text.length ∧
      used = taken ++ used' ∧ out = printed ++ out' ∧ Renders (parseFormat text') used' out' := by
  obtain ⟨c, text, rfl⟩ := List.exists_cons_of_ne_nil hne
  by_cases hc : c = percent
  · subst hc
    cases text with
    | nil =>
        -- a `%` at the end
        have hzero : fmt (s.position + 1) = 0 := h.2.2
        obtain ⟨t, ht⟩ := round_dropped h (by rw [hzero]; decide) (by rw [hzero]; decide) hlast
        exact ⟨t, [], [], used, [], out, ht, Nat.one_pos, rfl, rfl, hout⟩
    | cons d text =>
        by_cases hd : d = percent
        · subst hd
          obtain ⟨run, text, rfl, hrun, hstops⟩ := literal_split text
          rw [parseFormat_escape, parseFormat_run hrun] at hout
          obtain ⟨t, ht⟩ := round_escape h hrun hstops hlast
          obtain ⟨out', rfl, hrest⟩ := Renders.literal (percent :: run) hout
          refine ⟨t, text, [], used, percent :: run, out', ht, ?_, rfl, rfl, hrest⟩
          simp only [List.length_cons, List.length_append]
          omega
        · cases hk : conversionOf d with
          | none =>
              rw [parseFormat_unknown hd hk] at hout
              have hsecond : fmt (s.position + 1) = d := h.2.2.1
              obtain ⟨t, ht⟩ := round_dropped h (hsecond ▸ hd) (hsecond ▸ hk) hlast
              exact ⟨t, d :: text, [], used, [], out, ht, Nat.lt_succ_self _, rfl, rfl, hout⟩
          | some k =>
              rw [parseFormat_conversion hd hk] at hout
              cases hout with
              | @conversion _ arg data _ args out hdata hout =>
                  obtain ⟨t, ht⟩ := round_conversion hd h hk hdata hargs hlast
                  refine ⟨t, text, [arg], args, data, out, ht, ?_, rfl, rfl, hout⟩
                  simp only [List.length_cons]
                  omega
  · obtain ⟨run, text, rfl, hrun, hstops⟩ := literal_split text
    rw [parseFormat_text hc, parseFormat_run hrun] at hout
    obtain ⟨t, ht⟩ := round_literal hc h hrun hstops hlast
    obtain ⟨out', rfl, hrest⟩ := Renders.literal (c :: run) hout
    refine ⟨t, text, [], used, c :: run, out', ht, ?_, rfl, rfl, hrest⟩
    simp only [List.length_cons, List.length_append]
    omega

/-- The loop, by induction on the length of the text that is left. -/
theorem vprintfLoop_renders (text : List Byte) {used rest : List PrintArg} {out : List Byte}
    (h : HoldsText fmt s.position text) (hlast : s.position + text.length = last) (hargs : s.args = used ++ rest)
    (hout : Renders (parseFormat text) used out) :
    ∃ t, Returns fmt s (if intMax < t.written then -1 else t.written) t ∧ Prints last used out s t := by
  induction hn : text.length using Nat.strong_induction_on generalizing text s used out with
  | _ n ih =>
      have hread : Prints last [] [] s (s.read [s.position]) := prints_read_one (by omega)
      by_cases hnil : text = []
      · subst hnil
        cases hout
        exact ⟨s.read [s.position], returns_of_zero h, hread⟩
      · obtain ⟨t, text', taken, used', printed, out', hround, hshort, rfl, rfl, hrest⟩ :=
          exists_round (s := s.read [s.position]) hnil h hlast hargs hout
        have hargs' : t.args = used' ++ rest := by
          have htaken := hround.prints.args
          rw [read_args, hargs, List.append_assoc] at htaken
          exact (List.append_cancel_left htaken).symm
        obtain ⟨u, hreturns, hprints⟩ := ih text'.length (by omega) text' hround.holds hround.ends hargs' hrest rfl
        have hne : fmt s.position ≠ 0 := by
          obtain ⟨c, text, rfl⟩ := List.exists_cons_of_ne_nil hnil
          exact h.1 ▸ h.2.1
        exact ⟨u, hreturns.step hne hround.steps, (hread.trans hround.prints).trans hprints⟩

end

/-- What a call of `vprintf` does: it returns, takes the arguments of the conversions
and leaves the others, prints the text and counts it, and does not read beyond the
end of the format. -/
structure Printed (fmt : Nat → Byte) (last : Nat) (used rest : List PrintArg) (out : List Byte) (result : Int)
    (t : Printing) : Prop where
  returns : ∃ enough, ∀ fuel, enough ≤ fuel → vprintf fuel fmt (used ++ rest) = some (result, t)
  emitted : t.emitted = out
  args : t.args = rest
  reads : ∀ i ∈ t.reads, i ≤ last
  count : out.length ≤ intMax → result = out.length

theorem vprintf_printed {fmt : Nat → Byte} {text out : List Byte} {used : List PrintArg} (rest : List PrintArg)
    (hfmt : HoldsText fmt 0 text) (hout : Renders (parseFormat text) used out) :
    ∃ result t, Printed fmt text.length used rest out result t := by
  obtain ⟨t, hreturns, hprints⟩ := vprintfLoop_renders (s := { args := used ++ rest }) text hfmt
    (Nat.zero_add text.length) rfl hout
  refine ⟨_, t, hreturns, ?_, ?_, ?_, ?_⟩
  · rw [hprints.emitted]
    rfl
  · exact (List.append_cancel_left hprints.args).symm
  · intro i hi
    rcases hprints.reads i hi with hi | hi
    · cases hi
    · exact hi
  · intro hlength
    have hlt : t.written < 2 ^ 64 := hprints.written_lt (Nat.two_pow_pos 64)
    have hwritten : t.written = out.length := by
      have hwrap := hprints.written
      rw [wrap_of_lt hlt, Nat.zero_add] at hwrap
      rw [hwrap]
      apply wrap_of_lt
      unfold intMax at hlength
      omega
    rw [hwritten, if_neg (Nat.not_lt.mpr hlength)]

/-- For every format that ends with a NUL and every list of arguments that match its
conversions, with any others behind them, `vprintf` does what the grammar says. -/
theorem vprintf_follows_grammar (fmt : Nat → Byte) (len : Nat) (hend : fmt len = 0) (hchars : ∀ i < len, fmt i ≠ 0)
    (used rest : List PrintArg) (out : List Byte) (hout : Renders (parseFormat ((List.range len).map fmt)) used out) :
    ∃ result t, Printed fmt len used rest out result t := by
  have hfmt : HoldsText fmt 0 ((List.range len).map fmt) := by
    rw [List.range_eq_range']
    exact holdsText_of_terminated (by rwa [Nat.zero_add]) fun i hi => by
      rw [Nat.zero_add]
      exact hchars i hi
  have hlength : ((List.range len).map fmt).length = len := by rw [List.length_map, List.length_range]
  obtain ⟨result, t, hprinted⟩ := vprintf_printed rest hfmt hout
  rw [hlength] at hprinted
  exact ⟨result, t, hprinted⟩

/-- The characters of a literal, followed by NULs. -/
def cLiteral (cs : List Char) : Nat → Byte := fun i => byteOf (cs.getD i '\x00')

/-- An escape, a number, an unknown specifier, a string and a `%` at the end. -/
def mixedFormat : Nat → Byte := cLiteral ['%', '%', '%', 'x', '%', 'z', '%', 's', '%']

theorem vprintf_follows_grammar_mixed : ∃ result t, Printed mixedFormat 9
    [.word 255, .str (cLiteral ['a', 'b'])] [.int 3] (byteOf '%' :: ((convertHex 255).text ++
      byteOf 'z' :: ([byteOf 'a', byteOf 'b'] ++ []))) result t := by
  refine vprintf_follows_grammar mixedFormat 9 (by decide) (by decide) _ _ _ ?_
  have hpieces : parseFormat ((List.range 9).map mixedFormat) =
      [.text (byteOf '%'), .conversion .hex, .text (byteOf 'z'), .conversion .string] := by decide
  rw [hpieces]
  exact .text (.conversion (.hex 255) (.text (.conversion (.string ⟨rfl, by decide, rfl, by decide, rfl⟩) .nil)))

end DavOS
