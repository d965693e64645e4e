import Mathlib.Algebra.GroupWithZero.Nat
import MicroJava.Instruction.Encoding
import MicroJava.ObjectFile
import MicroJava.Proofs.Resolved.Tree

/-! # Generating code from resolved programs

Two passes over the tree. The first finds the number of bytes of every part, which no address has an
influence on; the second writes the instructions in order, with each target computed from those
numbers. Nothing is left open and nothing is changed afterwards. -/

namespace MicroJava.Resolved

/-- Number of bytes of a sequence of instructions. -/
def codeSize (is : List Instruction) : Nat := (Instruction.encodeAll is).length

def addressOf (n : Nat) : UInt16 := UInt16.ofNat n

def slotOf (n : Nat) : UInt8 := UInt8.ofNat n

/-- Array elements of type `char` take a byte each. -/
def widthOfElem (ty : Ty) : ElemSize := if ty = .char then .byte else .word

/-- What the code of a part depends on besides its tree. -/
structure Layout where
  /-- Number of fields of a class. -/
  fieldCount : ClassId → Nat
  /-- Entry address of a method. -/
  entry : Nat → Nat

/-- The value of an expression that is known at once. -/
def Expr.constant? : Expr → Option Int32
  | .constant v => some v
  | .negate e => e.constant?.map (-·)
  | _ => none

/-- The instruction that pushes what a location holds. -/
def Location.fetch : Location → Instruction
  | .frame slot => .load (slotOf slot)
  | .global adr => .getStatic (addressOf adr)
  | .field _ adr => .getField (addressOf adr)
  | .element _ _ elem => .loadElem (widthOfElem elem)

/-- The instruction that pops a value into a location. -/
def Location.store : Location → Instruction
  | .frame slot => .store (slotOf slot)
  | .global adr => .putStatic (addressOf adr)
  | .field _ adr => .putField (addressOf adr)
  | .element _ _ elem => .storeElem (widthOfElem elem)

def Textual.reads : Textual → Instruction
  | number => .read
  | char => .readChar

def Textual.prints : Textual → Instruction
  | number => .print
  | char => .printChar

/-- Bytes of a jump. -/
def jumpSize : Nat := 3

/-- Bytes of a call. -/
def callSize : Nat := 3

/-- Bytes of a method's entry. -/
def entrySize : Nat := 3

/-! ## Sizes -/

mutual

/-- Bytes that bring a location's object and index to the stack. -/
def Location.accessSize : Location → Nat
  | .frame _ | .global _ => 0
  | .field object _ => object.size
  | .element array index _ => array.size + index.size

def Expr.size : Expr → Nat
  | .constant v => (Instruction.const v).size
  | .value source => source.accessSize + source.fetch.size
  | .call _ args => argsSize args + callSize
  | .convert operand => operand.size
  | .length array => array.size + Instruction.arrayLength.size
  | .newObject _ => (Instruction.new 0).size
  | .newArray elem n => n.size + (Instruction.newArray (widthOfElem elem)).size
  | .negate operand =>
      match operand.constant? with
      | some v => (Instruction.const (-v)).size
      | none => operand.size + Instruction.neg.size
  | .binary op left right => left.size + right.size + (Instruction.arith op).size

def argsSize : List Expr → Nat
  | [] => 0
  | arg :: rest => arg.size + argsSize rest

end

def Condition.size (c : Condition) : Nat := c.left.size + c.right.size

/-- The end of a method with the given result type: a method without result returns, any other has
to have returned before. -/
def ending (result : Ty) : List Instruction :=
  if result = .void then [.exit, .ret] else [.trap Instruction.missingReturn]

mutual

def Stmt.size : Stmt → Nat
  | .assign target value => target.accessSize + value.size + target.store.size
  | .perform _ args => argsSize args + callSize
  | .discard call => call.size + Instruction.pop.size
  | .ifThen cond body => cond.size + jumpSize + body.size
  | .ifElse cond body alternative =>
      cond.size + jumpSize + body.size + jumpSize + alternative.size
  | .loop cond body => cond.size + jumpSize + body.size + jumpSize
  | .ret (some value) => value.size + Instruction.exit.size + Instruction.ret.size
  | .ret none => Instruction.exit.size + Instruction.ret.size
  | .read form target => target.accessSize + form.reads.size + target.store.size
  | .print form value width => value.size + (Instruction.const width).size + form.prints.size
  | .block body => stmtsSize body
  | .empty => 0

def stmtsSize : List Stmt → Nat
  | [] => 0
  | s :: rest => s.size + stmtsSize rest

end

def Method.size (m : Method) : Nat := entrySize + stmtsSize m.body + codeSize (ending m.result)

/-! ## Code -/

mutual

/-- Brings a location's object and index to the stack. -/
def Location.access (layout : Layout) : Location → List Instruction
  | .frame _ | .global _ => []
  | .field object _ => object.code layout
  | .element array index _ => array.code layout ++ index.code layout

/-- Leaves the value of an expression on the stack. -/
def Expr.code (layout : Layout) : Expr → List Instruction
  | .constant v => [.const v]
  | .value source => source.access layout ++ [source.fetch]
  | .call method args => argsCode layout args ++ [.call (addressOf (layout.entry method))]
  | .convert operand => operand.code layout
  | .length array => array.code layout ++ [.arrayLength]
  | .newObject cls => [.new (addressOf (layout.fieldCount cls))]
  | .newArray elem n => n.code layout ++ [.newArray (widthOfElem elem)]
  | .negate operand =>
      match operand.constant? with
      | some v => [.const (-v)]
      | none => operand.code layout ++ [.neg]
  | .binary op left right => left.code layout ++ right.code layout ++ [.arith op]

/-- Leaves the values of the arguments on the stack, the last one on top. -/
def argsCode (layout : Layout) : List Expr → List Instruction
  | [] => []
  | arg :: rest => arg.code layout ++ argsCode layout rest

end

def Condition.code (layout : Layout) (c : Condition) : List Instruction :=
  c.left.code layout ++ c.right.code layout

mutual

/-- The code of a statement that starts at the given address. -/
def Stmt.code (layout : Layout) (start : Nat) : Stmt → List Instruction
  | .assign target value => target.access layout ++ value.code layout ++ [target.store]
  | .perform method args => argsCode layout args ++ [.call (addressOf (layout.entry method))]
  | .discard call => call.code layout ++ [.pop]
  | .ifThen cond body =>
      let inside := start + cond.size + jumpSize
      cond.code layout ++ [.jumpIf cond.rel.negation (addressOf (inside + body.size))] ++
        body.code layout inside
  | .ifElse cond body alternative =>
      let inside := start + cond.size + jumpSize
      let other := inside + body.size + jumpSize
      cond.code layout ++ [.jumpIf cond.rel.negation (addressOf other)] ++
        body.code layout inside ++ [.jump (addressOf (other + alternative.size))] ++
        alternative.code layout other
  | .loop cond body =>
      let inside := start + cond.size + jumpSize
      cond.code layout ++
        [.jumpIf cond.rel.negation (addressOf (inside + body.size + jumpSize))] ++
        body.code layout inside ++ [.jump (addressOf start)]
  | .ret (some value) => value.code layout ++ [.exit, .ret]
  | .ret none => [.exit, .ret]
  | .read form target => target.access layout ++ [form.reads, target.store]
  | .print form value width => value.code layout ++ [.const width, form.prints]
  | .block body => stmtsCode layout start body
  | .empty => []

def stmtsCode (layout : Layout) (start : Nat) : List Stmt → List Instruction
  | [] => []
  | s :: rest => s.code layout start ++ stmtsCode layout (start + s.size) rest

end

def Method.code (layout : Layout) (start : Nat) (m : Method) : List Instruction :=
  .enter (slotOf m.params.length) (slotOf m.frame.length) ::
    (stmtsCode layout (start + entrySize) m.body ++ ending m.result)

def methodsCode (layout : Layout) (start : Nat) : List Method → List Instruction
  | [] => []
  | m :: rest => m.code layout start ++ methodsCode layout (start + m.size) rest

namespace Program

/-- Methods follow each other in declaration order. -/
def entry (P : Program) (method : Nat) : Nat := ((P.methods.take method).map Method.size).sum

def layout (P : Program) : Layout := ⟨fun cls => (P.fields cls).length, P.entry⟩

def code (P : Program) : List Instruction := methodsCode P.layout 0 P.methods

/-- Address of the method where a run starts. -/
def mainEntry (P : Program) : Nat := P.entry (P.main?.getD 0)

/-- The object file of a program. -/
def object (P : Program) : ObjectFile where
  dataSize := addressOf P.globals.length
  mainPc := addressOf P.mainEntry
  code := (Instruction.encodeAll P.code).toArray

end Program

end MicroJava.Resolved
