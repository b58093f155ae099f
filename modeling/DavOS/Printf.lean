import DavOS.CString
import DavOS.MachineWord
import DavOS.NumberText

/-! `printf.cpp`: the formatted output of `kpp`. A `const char*` is the sequence of
characters from its address on. Each loop over one runs with fuel: `none` stands for
a loop that goes on, and for a `va_arg` that finds no argument of its type. -/
namespace DavOS
open MachineWord NumberText

/-! ### Numbers -/

/-- The local array `str` of a number conversion, its index `str_start`, and the
indices that have been stored to so far. -/
structure NumberBuffer where
  str : Int → Byte := fun _ => 0
  start : Int := 127
  stored : List Int := []

namespace NumberBuffer

def store (b : NumberBuffer) (c : Byte) : NumberBuffer :=
  { b with str := Function.update b.str b.start c, stored := b.stored ++ [b.start] }

def push (b : NumberBuffer) (c : Byte) : NumberBuffer := { b.store c with start := b.start - 1 }

/-- What is printed: from one behind `str_start` to the end of the array. -/
def text (b : NumberBuffer) : List Byte :=
  let strStart := b.start + 1
  (List.range (128 - strStart).toNat).map fun (i : Nat) => b.str (strStart + i)

/-- Every index stored to is one of the array, and so is where printing starts, or one behind its end. -/
structure InBounds (b : NumberBuffer) : Prop where
  stored : ∀ i ∈ b.stored, 0 ≤ i ∧ i < 128
  printed : 0 ≤ b.start + 1 ∧ b.start + 1 ≤ 128

end NumberBuffer

/-- `while (num > 0)`: the digits of a number, last one first. -/
def digitLoop (base : Nat) (hbase : 1 < base) (digit : Nat → Byte) (num : Int) (b : NumberBuffer) : NumberBuffer :=
  if 0 < num then digitLoop base hbase digit (num / base) (b.push (digit (num % base).toNat)) else b
termination_by num.toNat
decreasing_by
  rename_i hpos
  have hlt : num / base < num := Int.ediv_lt_self_of_pos_of_ne_one hpos (by omega)
  omega

def decimalDigit (digit : Nat) : Byte := BitVec.ofNat 8 (digit + '0'.toNat)

/-- The table `hex`. -/
def hexDigit (digit : Nat) : Byte :=
  byteOf (['0', '1', '2', '3', '4', '5', '6', '7', '8', '9', 'a', 'b', 'c', 'd', 'e', 'f'].getD digit '\x00')

/-- `%d`: a number below zero does not enter the loop. -/
def convertDecimal (num : BitVec 32) : NumberBuffer :=
  let b : NumberBuffer := {}
  if num.toInt = 0 then b.push (byteOf '0') else digitLoop 10 (by decide) decimalDigit num.toInt b

/-- `%x` and `%p`: the last character of the array is set to 127 first. -/
def convertHex (num : BitVec 64) : NumberBuffer :=
  let b := NumberBuffer.store {} 127
  if num.toNat = 0 then b.push (byteOf '0') else digitLoop 16 (by decide) hexDigit num.toNat b

/-! ### The format -/

/-- An argument, as `va_arg` takes it: an `int`, a `const char*` or an `unsigned long long`. -/
inductive PrintArg where
  | int (n : BitVec 32)
  | str (s : Nat → Byte)
  | word (m : BitVec 64)

/-- `strlen` with `i` characters counted. -/
def strlenFrom (s : Nat → Byte) (i : Nat) : Nat → Option Nat
  | 0 => none
  | fuel + 1 => if s i ≠ 0 then strlenFrom s (i + 1) fuel else some i

def strlen (fuel : Nat) (s : Nat → Byte) : Option Nat := strlenFrom s 0 fuel

/-- The state of `vprintf`: where `format` points, the arguments that are left, the
characters given to `putchar`, their count, and the characters of the format read. -/
structure Printing where
  position : Nat := 0
  args : List PrintArg
  emitted : List Byte := []
  written : Nat := 0
  reads : List Nat := []

namespace Printing

def putchar (s : Printing) (ic : Nat) : Int × Printing := (ic, { s with emitted := s.emitted ++ [BitVec.ofNat 8 ic] })

def print (s : Printing) : List Byte → Bool × Printing
  | [] => (true, s)
  | c :: cs => if (s.putchar c.toNat).1 = -1 then (false, (s.putchar c.toNat).2) else print (s.putchar c.toNat).2 cs

def read (s : Printing) (indices : List Nat) : Printing := { s with reads := s.reads ++ indices }

def advance (s : Printing) (n : Nat) : Printing := { s with position := s.position + n }

def take (s : Printing) (args : List PrintArg) : Printing := { s with args := args }

/-- Print and, unless that fails, count. -/
def printCounted (s : Printing) (data : List Byte) : Bool × Printing :=
  let (ok, s) := s.print data
  if ok then (true, { s with written := wrap (s.written + data.length) }) else (false, s)

end Printing

def percent : Byte := byteOf '%'

/-- `chars_to_print`: up to the next `%` or the end of the format. -/
def charsToPrint (fmt : Nat → Byte) (position n : Nat) : Nat → Option Nat
  | 0 => none
  | fuel + 1 =>
      if fmt (position + n) ≠ 0 ∧ fmt (position + n) ≠ percent then charsToPrint fmt position (n + 1) fuel else some n

/-- Print until the next format specifier or the end of the string. -/
def printRun (fuel : Nat) (fmt : Nat → Byte) (s : Printing) : Option (Bool × Printing) :=
  (charsToPrint fmt s.position 1 fuel).map fun n =>
    -- the loop tests one character after the other, then `print` reads them again
    let s := s.read (List.range' (s.position + 1) n ++ List.range' s.position n)
    let (ok, t) := s.printCounted ((List.range' s.position n).map fmt)
    (ok, if ok then t.advance n else t)

/-- The branch for regular characters and the escaped `%`, of which the first is consumed. -/
def printLiteral (fuel : Nat) (fmt : Nat → Byte) (s : Printing) : Option (Bool × Printing) :=
  printRun fuel fmt (if fmt s.position = percent then s.advance 1 else s)

/-- What a specifier does, with `format` pointing to it: an unknown one stays where it is. -/
def convertSpecifier (fuel : Nat) (specifier : Byte) (s : Printing) : Option (Bool × Printing) :=
  if specifier = byteOf 'c' then
    match s.args with
    -- variable arguments are promoted to `int`; `%c` prints the low byte
    | .int n :: args => some (((s.advance 1).take args).printCounted [n.setWidth 8])
    | _ => none
  else if specifier = byteOf 's' then
    match s.args with
    | .str str :: args =>
        (strlen fuel str).map fun len => ((s.advance 1).take args).printCounted ((List.range len).map str)
    | _ => none
  else if specifier = byteOf 'd' then
    match s.args with
    | .int num :: args => some (((s.advance 1).take args).printCounted (convertDecimal num).text)
    | _ => none
  else if specifier = byteOf 'x' ∨ specifier = byteOf 'p' then
    match s.args with
    | .word num :: args => some (((s.advance 1).take args).printCounted (convertHex num).text)
    | _ => none
  else some (true, s)

/-- The branch for format specifiers, whose `%` is consumed. -/
def printSpecifier (fuel : Nat) (fmt : Nat → Byte) (s : Printing) : Option (Bool × Printing) :=
  let s := s.advance 1
  convertSpecifier fuel (fmt s.position) (s.read [s.position])

/-- One round of the loop, behind the test of its condition. -/
def vprintfStep (fuel : Nat) (fmt : Nat → Byte) (s : Printing) : Option (Bool × Printing) :=
  let first := fmt s.position
  -- the second character is read only behind a `%`
  let s := s.read (if first = percent then [s.position, s.position + 1] else [s.position])
  if first ≠ percent ∨ fmt (s.position + 1) = percent then printLiteral fuel fmt s else printSpecifier fuel fmt s

def intMax : Nat := 2 ^ 31 - 1

def vprintfLoop (fmt : Nat → Byte) : Nat → Printing → Option (Int × Printing)
  | 0, _ => none
  | fuel + 1, s =>
      let s := s.read [s.position]
      if fmt s.position = 0 then some (if intMax < s.written then -1 else s.written, s)
      else
        match vprintfStep fuel fmt s with
        | none => none
        | some (false, s) => some (-1, s)
        | some (true, s) => vprintfLoop fmt fuel s

/-- What `vprintf` returns, and the state in which it returns. -/
def vprintf (fuel : Nat) (fmt : Nat → Byte) (args : List PrintArg) : Option (Int × Printing) :=
  vprintfLoop fmt fuel { args := args }

end DavOS
