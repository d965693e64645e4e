/-! # Decimal numbers

Writing numbers in decimal, reading runs of digits, and the two ways of filling up a field. -/

namespace MicroJava.Decimal

/-- The character of a digit below ten. -/
def digit (n : Nat) : Char := Char.ofNat ('0'.toNat + n)

/-- The value of a digit. -/
def digitValue (c : Char) : Nat := c.toNat - '0'.toNat

/-- The digits of a number, most significant first. -/
def digits (n : Nat) : List Char :=
  if n < 10 then [digit n] else digits (n / 10) ++ [digit (n % 10)]
termination_by n
decreasing_by omega

/-- The number that a run of digits denotes. -/
def value (cs : List Char) : Nat := cs.foldl (fun n c => 10 * n + digitValue c) 0

def ofNat (n : Nat) : String := String.ofList (digits n)

def ofInt (n : Int) : String := if n < 0 then "-" ++ ofNat n.natAbs else ofNat n.natAbs

/-- Fills up with `c` on the left. -/
def fill (c : Char) (width : Nat) (s : String) : String :=
  String.ofList (List.replicate (width - s.length) c) ++ s

/-- Sets text against the right edge of a field. -/
def alignRight (width : Nat) (s : String) : String := fill ' ' width s

/-- A number with leading zeros. -/
def padded (width n : Nat) : String := fill '0' width (ofNat n)

end MicroJava.Decimal
