import MicroJava.Arithmetic
import MicroJava.Text.Blank
import MicroJava.Text.Decimal

/-! # Reading numbers from the input

White space, then perhaps a minus sign, then decimal digits. The value wraps around, as it is meant
to; the count of the digits is a word as well. -/

namespace MicroJava.Numeral

/-- Digits as they are read. -/
structure Tally where
  /-- The number they denote, modulo 2^32. -/
  value : Int32 := 0
  /-- How many there are, modulo 2^32. -/
  count : Int32 := 0
  /-- The count has left the range of a word. -/
  overflowed : Bool := false
  deriving DecidableEq, Repr

/-- One more digit. -/
def Tally.next (t : Tally) (c : Char) : Tally where
  value := t.value * 10 + Int32.ofNat (Decimal.digitValue c)
  count := t.count + 1
  overflowed := t.overflowed || overflows (t.count.toInt + 1)

/-- All of a run of digits. -/
def tally (digits : List Char) : Tally := digits.foldl Tally.next {}

/-- What was found in front of the input. -/
structure Found where
  /-- Nothing where no digit was counted. -/
  number : Option Int32
  /-- The count of the digits has left the range of a word. -/
  overflowed : Bool
  /-- The input behind it. Without digits, too, what was passed over is gone. -/
  rest : List Char
  deriving DecidableEq, Repr

/-- A number without a sign. -/
def unsigned (input : List Char) : Found :=
  let t := tally (input.takeWhile Char.isDigit)
  { number := if t.count = 0 then none else some t.value
    overflowed := t.overflowed
    rest := input.dropWhile Char.isDigit }

/-- A number behind white space, perhaps with a sign. -/
def read (input : List Char) : Found :=
  match input.dropWhile Text.isBlank with
  | '-' :: rest =>
      let found := unsigned rest
      { found with number := found.number.map (-·) }
  | rest => unsigned rest

end MicroJava.Numeral
