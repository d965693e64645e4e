import MicroJava.Assembly.Buffer
import MicroJava.Compile.Problem
import MicroJava.Names.Table
import MicroJava.Source.Upcoming
import MicroJava.Tree.Basic

/-! # The compilation pass

The pass walks the tree in source order. It moves along the tokens the tree was read from, keeps
the names in scope, writes code and notes in a log what it meets. Problems are noted at the token
in view and never stop the pass. Entities and classes are referred to by handle; a handle that leads
nowhere would leave a mark on the pass. -/

namespace MicroJava

/-- What the pass notes. -/
inductive LogEntry where
  | consumed
  | resynced
  | problem (problem : Problem) (pos : Position)
  /-- A literal that has just come into view is malformed. -/
  | issue (issue : LiteralIssue) (pos : Position)
  deriving DecidableEq, Repr

structure Pass where
  upcoming : Upcoming
  log : Array LogEntry
  names : NameTable
  code : CodeBuffer
  /-- Set once a handle has led nowhere. -/
  astray : Bool := false

namespace Pass

/-- The notes about a token that comes into view. -/
def arrival (t : Token) (log : Array LogEntry) : Array LogEntry :=
  match t.issue with
  | some issue => (log.push .consumed).push (.issue issue t.pos)
  | none => log.push .consumed

/-- The first token is in view and nothing has been declared. -/
def start (up : Upcoming) : Pass :=
  { upcoming := up, log := arrival up.ahead #[], names := .initial, code := {} }

end Pass

/-- A part of the pass. -/
abbrev Check := StateM Pass

namespace Check

/-- Moves on to the next token. -/
def consume : Check Unit := fun p =>
  let upcoming := p.upcoming.advance
  ((), { p with upcoming, log := Pass.arrival upcoming.ahead p.log })

/-- Moves on by several tokens. -/
def consumeMany : Nat → Check Unit
  | 0 => return
  | n + 1 => do
      consume
      consumeMany n

/-- Notes a problem at the token in view. -/
def report (problem : Problem) : Check Unit := fun p =>
  ((), { p with log := p.log.push (.problem problem p.upcoming.ahead.pos) })

/-- Notes that reading starts afresh behind skipped tokens. -/
def resync : Check Unit := fun p => ((), { p with log := p.log.push .resynced })

/-- Passes a demanded token, or reports that it is missing. -/
def require (k : TokenKind) : Mark → Check Unit
  | .found => consume
  | .missing => report (.expected k)

/-- Passes a demanded name, or reports that it is missing. -/
def requireName : Option String → Check Unit
  | some _ => consume
  | none => report (.expected .ident)

/-- Writes code. -/
def emitting {α : Type} (act : Emit α) : Check α := fun p =>
  let (a, code) := act p.code
  (a, { p with code })

/-- Writes one instruction. -/
def emit (i : Instruction) : Check Unit := discard <| emitting (Emit.instruction i)

/-- Reads the name table. -/
def names : Check NameTable := return (← get).names

/-- Works on the name table. -/
def naming {α : Type} (act : NameTable → α × NameTable) : Check α := fun p =>
  let (a, names) := act p.names
  (a, { p with names })

/-- Changes the name table. -/
def modifyNames (f : NameTable → NameTable) : Check Unit := naming fun t => ((), f t)

/-- Looks something up by handles; `inside` tells whether they all lead somewhere. -/
def following {α : Type} (inside : NameTable → Bool) (read : NameTable → α) : Check α := fun p =>
  (read p.names, { p with astray := p.astray || !inside p.names })

/-- What a handle stands for. -/
def entityOf (id : EntityId) : Check Entity := following (·.hasEntity id) (·.entity id)

/-- The class that a handle stands for. -/
def classOf (cls : ClassId) : Check ClassInfo := following (·.hasClass cls) (·.classInfo cls)

/-- A field of a class. -/
def fieldOf (cls : ClassId) (name : String) : Check (Except NameError EntityId) :=
  following (·.hasFields cls) (·.findField cls name)

/-- Types of the parameters of a method. -/
def paramTypes (callee : Callee) : Check (List Ty) :=
  following (·.hasParams callee) (·.paramTypes callee)

/-- Gives a constant its value. -/
def setConstant (id : EntityId) (value : Int32) : Check Unit := do
  discard <| entityOf id
  modifyNames fun t => t.setConstant id value

/-- Completes a method. -/
def setCallee (id : EntityId) (callee : Callee) : Check Unit := do
  discard <| entityOf id
  modifyNames fun t => t.setCallee id callee

/-- Makes the names of the innermost scope the fields of the class. -/
def setFields (cls : ClassId) : Check Unit := do
  discard <| classOf cls
  modifyNames fun t => t.setFields cls

/-- The entity of a successful look-up; otherwise the problem is noted and the unknown entity takes
its place. -/
def orUnknown : Except NameError EntityId → Check EntityId
  | .ok id => return id
  | .error e => do
      report (.name e)
      return NameTable.unknownId

/-- Declares a name in the innermost scope. -/
def declare (form : Form) (name : String) (ty : Ty) : Check EntityId := do
  orUnknown (← naming fun t => t.insert form name ty)

/-- Finds what a name stands for. -/
def resolve (name : String) : Check EntityId := do
  orUnknown ((← names).find name)

/-- The operand that an entity stands for. -/
def operandFor (id : EntityId) : Check Operand := do
  let e ← entityOf id
  match e.kind with
  | .constant value => return ⟨.constant value, e.ty⟩
  | .var adr 0 => return ⟨.global adr, e.ty⟩
  | .var adr _ => return ⟨.frame adr, e.ty⟩
  | .method _ => return ⟨.method id, e.ty⟩
  | .unknown => return .unknown
  | .typeName | .program =>
      report .noValue
      return .unknown

/-- Leaves the value of the operand on the stack. An operand without value is reported and becomes
unknown. -/
def load (x : Operand) : Check Operand := do
  match ← emitting (Emit.load x).run with
  | .ok x => return x
  | .error e =>
      report (.operand e)
      return .unknown

/-- Runs a part of the pass in a scope of its own. -/
def inScope {α : Type} (act : Check α) : Check α := do
  modifyNames NameTable.openScope
  let a ← act
  modifyNames NameTable.closeScope
  return a

end Check

end MicroJava
