import MicroJava.Arithmetic
import MicroJava.Comparison

/-! # Instructions of the stack machine

One constructor per operation, with its immediates. Jump and call targets are absolute code
addresses; frame slots fit a byte, all other addresses two. -/

namespace MicroJava

/-- Width of an array element. -/
inductive ElemSize where
  | byte
  | word
  deriving DecidableEq, Repr, Inhabited

inductive Instruction where
  /-- Push a frame slot. -/
  | load (slot : UInt8)
  /-- Pop into a frame slot. -/
  | store (slot : UInt8)
  | getStatic (adr : UInt16)
  | putStatic (adr : UInt16)
  /-- Replace the object on top by one of its fields. -/
  | getField (adr : UInt16)
  /-- Pop a value and an object and set the field. -/
  | putField (adr : UInt16)
  | const (value : Int32)
  | arith (op : Arithmetic)
  | neg
  /-- Allocate an object with that many fields. -/
  | new (fields : UInt16)
  /-- Replace the length on top by a fresh array. -/
  | newArray (size : ElemSize)
  | loadElem (size : ElemSize)
  | storeElem (size : ElemSize)
  | arrayLength
  | pop
  | jump (target : UInt16)
  /-- Pop `b`, then `a`, and jump when `a rel b`. -/
  | jumpIf (rel : Comparison) (target : UInt16)
  | call (target : UInt16)
  | ret
  /-- Open a frame and move the arguments into its first slots. -/
  | enter (params locals : UInt8)
  | exit
  | read
  | print
  | readChar
  | printChar
  | trap (code : UInt8)
  deriving DecidableEq, Repr, Inhabited

namespace Instruction

/-- Trap code of a value-returning method that ran off its end. -/
def missingReturn : UInt8 := 1

/-- The address a jump or call may continue at. -/
def target? : Instruction → Option UInt16
  | jump t | jumpIf _ t | call t => some t
  | _ => none

end Instruction

end MicroJava
