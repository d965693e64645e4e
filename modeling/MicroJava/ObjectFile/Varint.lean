/-! # Numbers of variable length

A number is written in base 128, least significant digit first, and every byte but the last has its
high bit set. A reader allows a fixed number of bytes, and the last of these only up to a bound, so
that the value fits its field; zero digits at the end are accepted. -/

namespace MicroJava

/-- Why stored bytes cannot be read. -/
inductive FormatError where
  /-- The header is not there. -/
  | badMagic
  | endOfData
  /-- A number goes on past its field. -/
  | badVarint
  deriving DecidableEq, Repr

/-- The bytes a number may take. -/
structure VarintField where
  /-- Bytes allowed behind the first. -/
  more : Nat
  /-- Bound on the last byte allowed. -/
  lastBound : Nat

namespace Varint

/-- A field of 16 bits. -/
def short : VarintField := ⟨2, 3⟩

/-- A field of 64 bits. -/
def long : VarintField := ⟨9, 1⟩

def encode (n : Nat) : List UInt8 :=
  if n < 128 then [UInt8.ofNat n]
  else UInt8.ofNat (n % 128 + 128) :: encode (n / 128)
termination_by n
decreasing_by omega

/-- Reads a number with at most `more` bytes behind the first. -/
def decodeWithin (lastBound : Nat) :
    (more : Nat) → List UInt8 → Except FormatError (Nat × List UInt8)
  | _, [] => .error .endOfData
  | 0, b :: rest =>
      if b.toNat < 128 ∧ b.toNat ≤ lastBound then .ok (b.toNat, rest) else .error .badVarint
  | more + 1, b :: rest =>
      if b.toNat < 128 then .ok (b.toNat, rest)
      else
        match decodeWithin lastBound more rest with
        | .error e => .error e
        | .ok (high, rest) => .ok (b.toNat - 128 + 128 * high, rest)

/-- The number at the front of the bytes, and the bytes behind it. -/
def decode (field : VarintField) (bytes : List UInt8) : Except FormatError (Nat × List UInt8) :=
  decodeWithin field.lastBound field.more bytes

end Varint

end MicroJava
