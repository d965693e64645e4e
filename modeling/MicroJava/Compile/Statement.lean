import MicroJava.Compile.Expression

/-! # Compiling statements

A forward jump is written without a target and pointed to its place once the code in between is
there. -/

namespace MicroJava.Check

/-- `x = y`, both compiled. -/
def assignment (x y : Operand) : Check Unit := do
  if y.ty.assignableTo x.ty then
    match ← emitting (Emit.assign x y).run with
    | .ok _ => return
    | .error e => report (.operand e)
  else
    report .assignmentMismatch

/-- The result of a call statement is thrown away. -/
def dropResult (x : Operand) : Check Unit := do
  if x.place = .stack && x.ty != .void then emit .pop

/-- The value of a return statement in a method with the given result type. -/
def returnValue (result : Ty) : Option Expr → Check Unit
  | some e => do
      let x ← load (← expr e)
      if result = .void then report .valueFromVoid
      else unless x.ty.assignableTo result do report .resultMismatch
  | none => do
      unless result = .void do report .resultMissing

/-- Reads a value into the location `x`. -/
def readInto (x : Operand) : Check Unit := do
  match x.ty with
  | .int => readWith .read
  | .char => readWith .readChar
  | .error => return
  | _ => report .notReadable
where
  readWith (i : Instruction) : Check Unit := do
    emit i
    match ← emitting (Emit.store x).run with
    | .ok _ => return
    | .error e => report (.operand e)

/-- The instruction that prints values of a type. -/
def printInstruction (ty : Ty) : Check (Option Instruction) := do
  match ty with
  | .int => return some .print
  | .char => return some .printChar
  | .error => return none
  | _ =>
      report .notPrintable
      return none

/-- The field width of a print statement, zero if none is given. -/
def printWidth : WidthSpec → Check Int32
  | .none => return 0
  | .missing => do
      consume
      report (.expected .number)
      return 0
  | .given width => do
      consume
      consume
      return width

mutual

/-- A statement of a method with the given result type. -/
def stmt (result : Ty) : Stmt → Check Unit
  | .assign target value semicolon => do
      let x ← designator target
      consume
      let y ← expr value
      assignment x y
      require .semicolon semicolon
  | .call callee args rparen semicolon => do
      let x ← designator callee
      dropResult (← callWith x (fun formals => arguments args formals) args.length rparen)
      require .semicolon semicolon
  | .idle target semicolon => do
      discard <| designator target
      report .idleStatement
      require .semicolon semicolon
  | .ifThen lparen cond rparen body => do
      consume
      require .lparen lparen
      let skip ← emitting (Emit.jumpUnless (← condition cond))
      require .rparen rparen
      stmt result body
      emitting (Emit.land skip)
  | .ifElse lparen cond rparen body alternative => do
      consume
      require .lparen lparen
      let skip ← emitting (Emit.jumpUnless (← condition cond))
      require .rparen rparen
      stmt result body
      consume
      let finish ← emitting (Emit.jump 0)
      emitting (Emit.land skip)
      stmt result alternative
      emitting (Emit.land finish)
  | .loop lparen cond rparen body => do
      consume
      let top := (← get).code.pc
      require .lparen lparen
      let leave ← emitting (Emit.jumpUnless (← condition cond))
      require .rparen rparen
      stmt result body
      discard <| emitting (Emit.jump top)
      emitting (Emit.land leave)
  | .ret value semicolon => do
      consume
      returnValue result value
      emitting Emit.leave
      require .semicolon semicolon
  | .read lparen target rparen semicolon => do
      consume
      require .lparen lparen
      readInto (← designator target)
      require .rparen rparen
      require .semicolon semicolon
  | .print lparen value width rparen semicolon => do
      consume
      require .lparen lparen
      let x ← expr value
      let instruction ← printInstruction x.ty
      let width ← printWidth width
      if let some i := instruction then
        discard <| load x
        emit (.const width)
        emit i
      require .rparen rparen
      require .semicolon semicolon
  | .block body rbrace => do
      consume
      stmts result body
      require .rbrace rbrace
  | .empty => consume
  | .junk skipped semicolon next => do
      report .statementStart
      consumeMany skipped
      if semicolon then consume
      resync
      stmt result next
  | .missing => return

/-- The statements of a block. -/
def stmts (result : Ty) : List Stmt → Check Unit
  | [] => return
  | s :: rest => do
      stmt result s
      stmts result rest

end

end MicroJava.Check
