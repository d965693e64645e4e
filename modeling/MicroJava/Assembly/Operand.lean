import MicroJava.Names.Entity

/-! # Operands

The value or location an expression stands for while its code is being laid down. A location is
loaded only when its value is needed. -/

namespace MicroJava

/-- Where the value of an operand is. -/
inductive Place where
  | constant (value : Int32)
  /-- A slot of the running method's frame. -/
  | frame (slot : Nat)
  | global (adr : Nat)
  /-- A field; the object is on the stack. -/
  | field (adr : Nat)
  /-- An array element; the array and the index are on the stack. -/
  | element
  | method (id : EntityId)
  /-- The value itself is on the stack. -/
  | stack
  /-- Left by a reported mistake; no code belongs to it. -/
  | unknown
  deriving DecidableEq, Repr

structure Operand where
  place : Place
  ty : Ty
  deriving DecidableEq, Repr

namespace Operand

def constant (value : Int32) (ty : Ty) : Operand := ⟨.constant value, ty⟩

def onStack (ty : Ty) : Operand := ⟨.stack, ty⟩

def unknown : Operand := ⟨.unknown, .error⟩

end Operand

/-- Why an operand has no value or takes none. -/
inductive OperandError where
  | methodAsValue
  | assignToConstant
  | assignToMethod
  | assignToExpression
  deriving DecidableEq, Repr

def OperandError.text : OperandError → String
  | methodAsValue => "method name cannot be used as a value"
  | assignToConstant => "cannot assign to a constant"
  | assignToMethod => "cannot assign to a method"
  | assignToExpression => "cannot assign to an expression"

end MicroJava
