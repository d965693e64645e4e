import MicroJava.BigEndian
import MicroJava.Instruction

/-! # Byte encoding of instructions

An opcode byte, then the immediates. Frame slots 0 to 3 and the constants -1 to 5 have opcodes of
their own, and the encoding always takes them. -/

namespace MicroJava.Instruction

/-- The bytes of one instruction, in its shortest form. -/
def encode : Instruction → List UInt8
  | load slot => if slot < 4 then [2 + slot] else [1, slot]
  | store slot => if slot < 4 then [7 + slot] else [6, slot]
  | getStatic adr => 11 :: BigEndian.ofAddress adr
  | putStatic adr => 12 :: BigEndian.ofAddress adr
  | getField adr => 13 :: BigEndian.ofAddress adr
  | putField adr => 14 :: BigEndian.ofAddress adr
  | const value =>
      if value = -1 then [21]
      else if 0 ≤ value ∧ value ≤ 5 then [15 + value.toUInt32.toUInt8]
      else 22 :: BigEndian.ofWord value
  | arith .add => [23]
  | arith .sub => [24]
  | arith .mul => [25]
  | arith .div => [26]
  | arith .rem => [27]
  | neg => [28]
  | new fields => 31 :: BigEndian.ofAddress fields
  | newArray .byte => [32, 0]
  | newArray .word => [32, 1]
  | loadElem .word => [33]
  | storeElem .word => [34]
  | loadElem .byte => [35]
  | storeElem .byte => [36]
  | arrayLength => [37]
  | pop => [38]
  | jump target => 39 :: BigEndian.ofAddress target
  | jumpIf rel target => UInt8.ofNat (40 + rel.index) :: BigEndian.ofAddress target
  | call target => 46 :: BigEndian.ofAddress target
  | ret => [47]
  | enter params locals => [48, params, locals]
  | exit => [49]
  | read => [50]
  | print => [51]
  | readChar => [52]
  | printChar => [53]
  | trap code => [54, code]

/-- Number of bytes the encoding takes. -/
def size (i : Instruction) : Nat := i.encode.length

/-- The bytes of a sequence of instructions, one after the other. -/
def encodeAll (is : List Instruction) : List UInt8 := is.flatMap encode

end MicroJava.Instruction
