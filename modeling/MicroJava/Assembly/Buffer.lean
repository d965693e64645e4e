import MicroJava.Assembly.Operand
import MicroJava.Instruction.Encoding
import MicroJava.ObjectFile

/-! # The code buffer

Instructions are only ever appended; the one change to bytes already written is to point a jump to
the current address. What does not fit its field is clipped, and code beyond the 16-bit address
space is kept, but either leaves a mark on the buffer. -/

namespace MicroJava

structure CodeBuffer where
  bytes : Array UInt8 := #[]
  mainPc : Option UInt16 := none
  overflowed : Bool := false
  deriving Inhabited

/-- The largest address. -/
def maxAddress : Nat := 65535

/-- The nearest address to a number. -/
def clampAddress (n : Nat) : UInt16 := UInt16.ofNat (min n maxAddress)

/-- Code that is being written. -/
abbrev Emit := StateM CodeBuffer

namespace CodeBuffer

/-- Address of the next instruction. -/
def pc (b : CodeBuffer) : UInt16 := clampAddress b.bytes.size

def append (b : CodeBuffer) (i : Instruction) : CodeBuffer :=
  let bytes := b.bytes.appendList i.encode
  { b with bytes, overflowed := b.overflowed || decide (maxAddress < bytes.size) }

/-- Overwrites the two bytes at `adr`, if both are there. -/
def patch (b : CodeBuffer) (adr target : UInt16) : CodeBuffer :=
  let i := adr.toNat
  if i + 1 < b.bytes.size then
    let high := UInt8.ofNat (target.toNat / 256)
    let low := UInt8.ofNat (target.toNat % 256)
    { b with bytes := (b.bytes.setIfInBounds i high).setIfInBounds (i + 1) low }
  else b

/-- The finished object file. -/
def toObject (b : CodeBuffer) (dataSize : Nat) : ObjectFile :=
  { dataSize := clampAddress dataSize, mainPc := b.mainPc.getD 0, code := b.bytes }

end CodeBuffer

namespace Emit

/-- Appends one instruction and gives its address. -/
def instruction (i : Instruction) : Emit UInt16 := fun b => (b.pc, b.append i)

/-- Clips a number to a byte. -/
def fitByte (n : Nat) : Emit UInt8 := fun b =>
  if n ≤ 255 then (UInt8.ofNat n, b) else (255, { b with overflowed := true })

/-- Clips a number to an address. -/
def fitAddress (n : Nat) : Emit UInt16 := fun b =>
  if n ≤ maxAddress then (UInt16.ofNat n, b) else (65535, { b with overflowed := true })

/-- Array elements of type `char` take a byte each. -/
def elemSize (ty : Ty) : ElemSize := if ty = .char then .byte else .word

/-- Leaves the value of the operand on the stack. -/
def load (x : Operand) : ExceptT OperandError Emit Operand := do
  match x.place with
  | .stack | .unknown => return x
  | .method _ => throw .methodAsValue
  | .constant value => discard <| instruction (.const value)
  | .frame slot => discard <| instruction (.load (← fitByte slot))
  | .global adr => discard <| instruction (.getStatic (← fitAddress adr))
  | .field adr => discard <| instruction (.getField (← fitAddress adr))
  | .element => discard <| instruction (.loadElem (elemSize x.ty))
  return .onStack x.ty

/-- Pops the top of the stack into the location. -/
def store (x : Operand) : ExceptT OperandError Emit Unit := do
  match x.place with
  | .unknown => return
  | .constant _ => throw .assignToConstant
  | .method _ => throw .assignToMethod
  | .stack => throw .assignToExpression
  | .frame slot => discard <| instruction (.store (← fitByte slot))
  | .global adr => discard <| instruction (.putStatic (← fitAddress adr))
  | .field adr => discard <| instruction (.putField (← fitAddress adr))
  | .element => discard <| instruction (.storeElem (elemSize x.ty))

/-- Loads the source and stores it in the destination. -/
def assign (dest source : Operand) : ExceptT OperandError Emit Operand := do
  let source ← load source
  store dest
  return source

/-- The address of the target field of the jump at `adr`. -/
def targetField (adr : UInt16) : UInt16 := clampAddress (adr.toNat + 1)

/-- A jump taken when the comparison fails, still without target. Gives the place of the target. -/
def jumpUnless (rel : Comparison) : Emit UInt16 :=
  return targetField (← instruction (.jumpIf rel.negation 0))

/-- An unconditional jump. Gives the place of its target. -/
def jump (target : UInt16) : Emit UInt16 :=
  return targetField (← instruction (.jump target))

/-- Points the jump whose target stands at `adr` to the current address. -/
def land (adr : UInt16) : Emit Unit := modify fun b => b.patch adr b.pc

/-- Entry of a method. -/
def enter (params frame : Nat) : Emit UInt16 := do
  let params ← fitByte params
  let locals ← fitByte frame
  instruction (.enter params locals)

def leave : Emit Unit := do
  discard <| instruction .exit
  discard <| instruction .ret

/-- Failure of a method that ends without returning its value. -/
def missingReturn : Emit Unit := discard <| instruction (.trap Instruction.missingReturn)

def newArray (elem : Ty) : Emit Unit := discard <| instruction (.newArray (elemSize elem))

def newObject (fields : Nat) : Emit Unit := do
  discard <| instruction (.new (← fitAddress fields))

def setMain (pc : UInt16) : Emit Unit := modify fun b => { b with mainPc := some pc }

end Emit

end MicroJava
