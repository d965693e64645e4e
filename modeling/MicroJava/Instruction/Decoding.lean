import MicroJava.BigEndian
import MicroJava.Instruction

/-! # Decoding instructions

A table gives the layout of the immediates behind each opcode. Decoding looks the opcode up and
reads as many bytes as the layout asks for, so it fails in two ways only: the opcode is not in the
table, or the code ends too early. -/

namespace MicroJava

/-- How the bytes behind an opcode are read. -/
inductive Layout where
  | plain (result : Instruction)
  | byte (make : UInt8 → Instruction)
  | twoBytes (make : UInt8 → UInt8 → Instruction)
  | address (make : UInt16 → Instruction)
  | word (make : Int32 → Instruction)

namespace Layout

/-- Number of bytes behind the opcode. -/
def width : Layout → Nat
  | plain _ => 0
  | byte _ => 1
  | twoBytes _ => 2
  | address _ => 2
  | word _ => 4

/-- Reads the immediates, where `at? k` is the byte `k` places behind the opcode. -/
def read (at? : Nat → Option UInt8) : Layout → Option Instruction
  | plain result => some result
  | byte make => return make (← at? 1)
  | twoBytes make => return make (← at? 1) (← at? 2)
  | address make => return make (BigEndian.toAddress (← at? 1) (← at? 2))
  | word make => return make (BigEndian.toWord (← at? 1) (← at? 2) (← at? 3) (← at? 4))

/-- The layout of every defined opcode. -/
def ofOpcode? (opcode : UInt8) : Option Layout :=
  match opcode.toNat with
  | 1 => some (byte .load)
  | 2 => some (plain (.load 0))
  | 3 => some (plain (.load 1))
  | 4 => some (plain (.load 2))
  | 5 => some (plain (.load 3))
  | 6 => some (byte .store)
  | 7 => some (plain (.store 0))
  | 8 => some (plain (.store 1))
  | 9 => some (plain (.store 2))
  | 10 => some (plain (.store 3))
  | 11 => some (address .getStatic)
  | 12 => some (address .putStatic)
  | 13 => some (address .getField)
  | 14 => some (address .putField)
  | 15 => some (plain (.const 0))
  | 16 => some (plain (.const 1))
  | 17 => some (plain (.const 2))
  | 18 => some (plain (.const 3))
  | 19 => some (plain (.const 4))
  | 20 => some (plain (.const 5))
  | 21 => some (plain (.const (-1)))
  | 22 => some (word .const)
  | 23 => some (plain (.arith .add))
  | 24 => some (plain (.arith .sub))
  | 25 => some (plain (.arith .mul))
  | 26 => some (plain (.arith .div))
  | 27 => some (plain (.arith .rem))
  | 28 => some (plain .neg)
  | 31 => some (address .new)
  | 32 => some (byte fun size => .newArray (if size = 0 then .byte else .word))
  | 33 => some (plain (.loadElem .word))
  | 34 => some (plain (.storeElem .word))
  | 35 => some (plain (.loadElem .byte))
  | 36 => some (plain (.storeElem .byte))
  | 37 => some (plain .arrayLength)
  | 38 => some (plain .pop)
  | 39 => some (address .jump)
  | 40 => some (address (.jumpIf .eq))
  | 41 => some (address (.jumpIf .ne))
  | 42 => some (address (.jumpIf .lt))
  | 43 => some (address (.jumpIf .le))
  | 44 => some (address (.jumpIf .gt))
  | 45 => some (address (.jumpIf .ge))
  | 46 => some (address .call)
  | 47 => some (plain .ret)
  | 48 => some (twoBytes .enter)
  | 49 => some (plain .exit)
  | 50 => some (plain .read)
  | 51 => some (plain .print)
  | 52 => some (plain .readChar)
  | 53 => some (plain .printChar)
  | 54 => some (byte .trap)
  | _ => none

end Layout

inductive DecodeError where
  | unknownOpcode (opcode : UInt8) (pc : Nat)
  /-- The instruction at `pc` runs past the end of the code. -/
  | truncated (pc : Nat)
  deriving DecidableEq, Repr

def DecodeError.text : DecodeError → String
  | unknownOpcode opcode pc => "unknown opcode " ++ toString opcode.toNat ++ " at " ++ toString pc
  | truncated pc => "truncated instruction at " ++ toString pc

namespace Instruction

/-- The instruction at `pc` and the address behind it. -/
def decode (code : Array UInt8) (pc : Nat) : Except DecodeError (Instruction × Nat) :=
  match code[pc]? with
  | none => .error (.truncated pc)
  | some opcode =>
      match Layout.ofOpcode? opcode with
      | none => .error (.unknownOpcode opcode pc)
      | some layout =>
          match layout.read fun k => code[pc + k]? with
          | none => .error (.truncated pc)
          | some i => .ok (i, pc + 1 + layout.width)

/-- Appends the instructions from `pc` on to `done`, each with its address. One unit of `fuel` is
spent per instruction. -/
def decodeFrom (code : Array UInt8) :
    (fuel pc : Nat) → Array (Nat × Instruction) → Except DecodeError (Array (Nat × Instruction))
  | 0, _, done => .ok done
  | fuel + 1, pc, done =>
      if pc < code.size then
        match decode code pc with
        | .error e => .error e
        | .ok (i, next) => decodeFrom code fuel next (done.push (pc, i))
      else
        .ok done

/-- All instructions of the code with their addresses. No instruction is empty, so there are at
most as many as there are bytes. -/
def decodeAll (code : Array UInt8) : Except DecodeError (Array (Nat × Instruction)) :=
  decodeFrom code code.size 0 #[]

end Instruction

end MicroJava
