import Mathlib.Data.List.Basic
import Mathlib.Logic.Function.Basic
import Nascent.Lib.Bytes

/-!
# The console

`kprintf`, `print_to_console`, and `clear_screen` of `src/sys/kprintf.c`, and `write_to_console` of
`src/sys/syscalls.c`. The video memory is a function from offsets to bytes, two bytes for a cell, and a
row has 160 bytes. The first 24 rows are the screen. `array_pointer` and the offsets are small, so they
are natural numbers.

`print_to_console` scrolls once, at its start. Its loop moves on by one more character after a control
character. The fields `stores` and `taken` are not in the source and nothing depends on them: they have
the offsets at which the loop has stored characters, and the characters that it has looked at.
-/

namespace Nascent

open Bytes (Byte)

/-- The first offset behind the screen, `160*24`. -/
def screenEnd : ℕ := 3840

/-- The offset of the last row, `160*23`. -/
def lastRow : ℕ := 3680

/-- The character `\n`. -/
def lineFeed : Byte := 10

/-- The character `\r`. -/
def carriageReturn : Byte := 13

/-- The character that a blank cell has. -/
def space : Byte := 32

/-- The console. -/
structure Console where
  /-- The bytes from the address `0xb8000` on. -/
  video : ℕ → Byte
  /-- `array_pointer`. -/
  arrayPointer : ℕ
  /-- The offsets of the characters so far. -/
  stores : List ℕ
  /-- The characters so far. -/
  taken : List Byte

namespace Console

variable (c : Console)

/-- `clear_screen`. -/
def clearScreen : Console :=
  { c with video := (List.range 1920).foldl (fun v k => Function.update v (2 * k) space) c.video }

/-- The first loop of `print_to_console`, from the second row to the first cell behind the screen, and
the second loop, which clears the last row. -/
def scrollVideo (video : ℕ → Byte) : ℕ → Byte :=
  (List.range 80).foldl (fun v k => Function.update v (lastRow + 2 * k) space)
    ((List.range 1841).foldl (fun v k => Function.update v (2 * k) (v (160 + 2 * k))) video)

/-- The start of `print_to_console`. -/
def scroll : Console :=
  if screenEnd ≤ c.arrayPointer then
    { c with video := scrollVideo c.video, arrayPointer := lastRow }
  else c

/-- What the loop of `print_to_console` does for a character. -/
def putChar (b : Byte) : Console :=
  if b = lineFeed then
    { c with arrayPointer := 160 * (c.arrayPointer / 160 + 1), taken := c.taken ++ [b] }
  else if b = carriageReturn then
    { c with arrayPointer := 160 * (c.arrayPointer / 160), taken := c.taken ++ [b] }
  else
    { c with
      video := Function.update c.video c.arrayPointer b
      arrayPointer := c.arrayPointer + 2
      stores := c.stores ++ [c.arrayPointer]
      taken := c.taken ++ [b] }

/-- The loop of `print_to_console`. The flag says that the last character was a control character, for
which the loop has moved on by one more character. -/
def printLoop : List Byte → Bool → Console → Console
  | [], _, c => c
  | _ :: bs, true, c => printLoop bs false c
  | b :: bs, false, c => printLoop bs (decide (b = lineFeed ∨ b = carriageReturn)) (c.putChar b)

/-- `print_to_console`, with what is in `OUTPUT_BUFFER`. -/
def printToConsole (buffer : List Byte) : Console := printLoop buffer false c.scroll

/-- The conversions of `kprintf`: `c`, `d`, `x`, `s`, and `p`. -/
def isConversion (f : Byte) : Bool := f == 99 || f == 100 || f == 120 || f == 115 || f == 112

/-- The loop of `kprintf`. An argument is given by the characters that its conversion writes: a
character, a string, or the digits of a number. -/
def format : List Byte → List (List Byte) → List Byte
  | [], _ => []
  | [f], _ => [f]
  | f :: f' :: fs, args =>
    if f = 37 ∧ isConversion f' then args.headD [] ++ format fs args.tail
    else f :: format (f' :: fs) args

/-- `kprintf`. -/
def kprintf (stringToFormat : List Byte) (args : List (List Byte)) : Console :=
  c.printToConsole (format stringToFormat args)

/-- `write_to_console`. -/
def writeToConsole (buffer : List Byte) : Console := buffer.foldl (fun c b => c.kprintf [37, 99] [[b]]) c

/-! ## One character -/

variable {c}

/-- `kprintf("%c", b)` scrolls and takes one character. -/
theorem kprintf_char (b : Byte) : c.kprintf [37, 99] [[b]] = c.scroll.putChar b := by
  have hformat : format [37, 99] [[b]] = [b] := rfl
  rw [kprintf, hformat, printToConsole, printLoop, printLoop]

/-- `kprintf("%s", s)` takes the characters of the string. -/
theorem kprintf_string (s : List Byte) : c.kprintf [37, 115] [s] = c.printToConsole s := by
  have hformat : format [37, 115] [s] = s := List.append_nil s
  rw [kprintf, hformat]

theorem writeToConsole_cons (b : Byte) (bs : List Byte) :
    c.writeToConsole (b :: bs) = (c.scroll.putChar b).writeToConsole bs := by
  rw [writeToConsole, List.foldl_cons, kprintf_char]
  rfl

/-- There is no scrolling above the end of the screen. -/
theorem scroll_of_lt (h : c.arrayPointer < screenEnd) : c.scroll = c := if_neg (Nat.not_le.mpr h)

theorem scroll_of_le (h : screenEnd ≤ c.arrayPointer) :
    c.scroll = { c with video := scrollVideo c.video, arrayPointer := lastRow } := if_pos h

/-- The place of the next character is on the screen after scrolling. -/
theorem arrayPointer_scroll_lt : c.scroll.arrayPointer < screenEnd := by
  rw [scroll]
  split
  · exact Nat.lt_of_sub_eq_succ rfl
  · rename_i h
    exact Nat.not_le.mp h

end Console

end Nascent
