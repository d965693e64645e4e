import MicroJava.Compile.Pass

/-! # Compiling expressions

Code for an expression is written from left to right. A designator or constant yields an operand
that is loaded only when it is used; a selector first loads what it selects from. After a mistake
the operand is unknown, which every later check accepts. -/

namespace MicroJava.Check

/-- The field of an object of type `base`. -/
def selectField (base : Ty) (field : Option String) : Check Operand := do
  match base, field with
  | .error, _ => return .unknown
  | .object cls, some name =>
      match ← fieldOf cls name with
      | .error e =>
          report (.name e)
          return .unknown
      | .ok id =>
          let e ← entityOf id
          match e.kind with
          | .var adr _ => return ⟨.field adr, e.ty⟩
          | _ => return .unknown
  | .object _, none => return .unknown
  | _, _ =>
      report .notAnObject
      return .unknown

/-- The element of the loaded array `x`. -/
def selectElement (x index : Operand) : Check Operand := do
  match x.ty with
  | .array elem =>
      unless index.ty.isInt do report .indexNonInt
      discard <| load index
      return ⟨.element, elem⟩
  | .error => return .unknown
  | _ =>
      report .notAnArray
      return .unknown

/-- An arithmetic instruction on two loaded operands. -/
def arithmetic (op : Arithmetic) (x y : Operand) : Check Operand := do
  if x.ty.isInt && y.ty.isInt then
    emit (.arith op)
    return .onStack .int
  else
    report .operandsNonInt
    return .unknown

/-- A minus sign in front of `x`; constants are negated at once. -/
def negated (x : Operand) : Check Operand := do
  if x.ty.isInt then
    match x.place with
    | .constant value => return .constant (-value) x.ty
    | _ =>
        let x ← load x
        emit .neg
        return .onStack x.ty
  else
    report .negateNonInt
    return .unknown

/-- The type that the name behind `new` denotes, if it denotes one. -/
def allocatedType (name : String) : Check (Option Ty) := do
  let id ← resolve name
  return (← entityOf id).namedType?

/-- A fresh object of the named type. -/
def allocateObject (named : Option Ty) : Check Operand := do
  match named with
  | some (.object cls) =>
      emitting (Emit.newObject (← classOf cls).fields.size)
      return .onStack (.object cls)
  | some .error => return .unknown
  | _ =>
      report .classExpected
      return .unknown

/-- The method that `x` denotes, if it denotes one. -/
def calleeOf (x : Operand) : Check (Option Callee) := do
  match x.place with
  | .method id => return (← entityOf id).callee?
  | _ => return none

/-- Whether as many arguments are given as the method has parameters. -/
def checkCount (given wanted : Nat) : Check Unit := do
  if wanted < given then report .tooManyArguments
  else if given < wanted then report .tooFewArguments

/-- The instruction that performs a call, once the arguments are loaded. -/
def emitCall (callee : Callee) : Check Unit := do
  match callee.builtin with
  | some .ord | some .chr => return
  | some .len => emit .arrayLength
  | none => emit (.call callee.address)

/-- A call of `x`, from the opening parenthesis on, where `args` compiles the arguments against the
parameter types and `count` is their number. -/
def callWith (x : Operand) (args : List Ty → Check Unit) (count : Nat) (rparen : Mark) :
    Check Operand := do
  consume
  match ← calleeOf x with
  | some callee =>
      args (← paramTypes callee)
      checkCount count callee.paramCount
      require .rparen rparen
      emitCall callee
      return .onStack x.ty
  | none =>
      unless x.place = .unknown do report .notAMethod
      args []
      require .rparen rparen
      return .unknown

/-- Whether a loaded argument fits the parameter in front of `formals`, if there is one. -/
def checkArgument (y : Operand) (formals : List Ty) : Check Unit := do
  match formals with
  | formal :: _ => unless y.ty.assignableTo formal do report .argumentMismatch
  | [] => return

mutual

/-- The operand a designator stands for. -/
def designator : Designator → Check Operand
  | .missing => do
      requireName none
      return .unknown
  | .name n => do
      consume
      operandFor (← resolve n)
  | .field base f => do
      let x ← designator base
      let x ← load x
      consume
      requireName f
      selectField x.ty f
  | .index base i rbracket => do
      let x ← designator base
      let x ← load x
      consume
      let index ← expr i
      require .rbracket rbracket
      selectElement x index

/-- The operand an expression stands for. -/
def expr : Expr → Check Operand
  | .number value => do
      consume
      return .constant value .int
  | .char value => do
      consume
      return .constant value .char
  | .value source => designator source
  | .call callee args rparen => do
      let x ← designator callee
      let result ← callWith x (fun formals => arguments args formals) args.length rparen
      if result.ty = .void then
        report .voidAsValue
        return .unknown
      return result
  | .newNothing => do
      consume
      requireName none
      return .unknown
  | .newObject cls => do
      consume
      consume
      allocateObject (← allocatedType cls)
  | .newArray elem size rbracket => do
      consume
      consume
      let named ← allocatedType elem
      consume
      if named.isNone then report .typeExpected
      let n ← expr size
      unless n.ty.isInt do report .sizeNonInt
      discard <| load n
      require .rbracket rbracket
      let elem := named.getD .error
      emitting (Emit.newArray elem)
      return .onStack (.array elem)
  | .paren inner rparen => do
      consume
      let x ← expr inner
      require .rparen rparen
      return x
  | .negate operand => do
      consume
      negated (← expr operand)
  | .binary op left right => do
      let x ← expr left
      consume
      let x ← load x
      let y ← expr right
      let y ← load y
      arithmetic op x y
  | .missing => do
      report .factorStart
      return .unknown

/-- Loads the arguments one after the other, each checked against its parameter. -/
def arguments : List Expr → List Ty → Check Unit
  | [], _ => return
  | arg :: rest, formals => do
      let y ← expr arg
      let y ← load y
      checkArgument y formals
      unless rest.isEmpty do consume
      arguments rest formals.tail

end

/-- Loads both sides of a condition and gives its operator. -/
def condition (c : Condition) : Check Comparison := do
  let x ← load (← expr c.left)
  match c.rel with
  | some _ => consume
  | none => report .relopExpected
  let rel := c.rel.getD .eq
  let y ← load (← expr c.right)
  if !x.ty.compatible y.ty then report .comparisonMismatch
  else if (x.ty.isReference || y.ty.isReference) && !rel.isEquality then report .unordered
  return rel

end MicroJava.Check
