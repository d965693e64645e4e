import MicroJava.Compile.Statement

/-! # Compiling declarations

Global variables and fields only take up slots; methods bring code. -/

namespace MicroJava.Check

/-- The type that a reference denotes. -/
def typeRef : TypeRef → Check Ty
  | .missing => do
      requireName none
      return .error
  | .named name brackets => do
      consume
      let id ← resolve name
      let ty ← orExpected (← entityOf id).namedType?
      match brackets with
      | none => return ty
      | some rbracket =>
          consume
          require .rbracket rbracket
          return .array ty
where
  orExpected : Option Ty → Check Ty
    | some ty => return ty
    | none => do
        report .typeExpected
        return .error

/-- Declares a name, if there is one. -/
def declareName (form : Form) (ty : Ty) (name : Option String) : Check EntityId := do
  requireName name
  match name with
  | some n => declare form n ty
  | none => return NameTable.unknownId

/-- Declares variables, each behind a comma. -/
def moreVars (ty : Ty) : List (Option String) → Check Unit
  | [] => return
  | name :: rest => do
      consume
      discard <| declareName .var ty name
      moreVars ty rest

def varDecl (d : VarDecl) : Check Unit := do
  let ty ← typeRef d.type
  discard <| declareName .var ty d.first
  moreVars ty d.others
  require .semicolon d.semicolon

def varDecls : List VarDecl → Check Unit
  | [] => return
  | d :: rest => do
      varDecl d
      varDecls rest

/-- The type of a literal. -/
def literalType : Literal → Ty
  | .number _ => .int
  | .char _ => .char

/-- What a constant of the given type lacks if its literal has another type. -/
def constantProblem : Ty → Problem
  | .int => .numberConstantExpected
  | .char => .charConstantExpected
  | _ => .constantType

/-- The value of a constant. -/
def constantValue (ty : Ty) (id : EntityId) : Option Literal → Check Unit
  | some lit => do
      unless (literalType lit).assignableTo ty do report (constantProblem ty)
      consume
      setConstant id lit.value
  | none => do
      report .constantExpected
      discard <| entityOf id

def constDecl (d : ConstDecl) : Check Unit := do
  consume
  let ty ← typeRef d.type
  let id ← declareName .constant ty d.name
  require .assign d.assign
  constantValue ty id d.value
  require .semicolon d.semicolon

/-- A class is declared before its fields, so they can be of its type. -/
def classDecl (d : ClassDecl) : Check Unit := do
  consume
  requireName d.name
  let cls ← naming fun t => t.newClass (d.name.getD "???")
  if let some n := d.name then
    discard <| declare .typeName n (.object cls)
  inScope do
    require .lbrace d.lbrace
    varDecls d.fields
    setFields cls
    require .rbrace d.rbrace

def declaration : Declaration → Check Unit
  | .const d => constDecl d
  | .cls d => classDecl d
  | .vars d => varDecl d
  | .junk skipped semicolon => do
      report .declarationStart
      consumeMany skipped
      if semicolon then consume
      resync

def declarations : List Declaration → Check Unit
  | [] => return
  | d :: rest => do
      declaration d
      declarations rest

def param (p : Param) : Check Unit := do
  let ty ← typeRef p.type
  discard <| declareName .var ty p.name

/-- Parameters, with commas between them. -/
def params : List Param → Check Unit
  | [] => return
  | p :: rest => do
      param p
      unless rest.isEmpty do consume
      params rest

def resultType : ResultType → Check Ty
  | .void => do
      consume
      return .void
  | .type t => typeRef t

/-- The method where a program starts. -/
def mainName : String := "main"

/-- The rules for the method where a program starts. -/
def checkMain (result : Ty) (paramCount : Nat) : Check Unit := do
  unless result = .void do report .mainNotVoid
  unless paramCount = 0 do report .mainHasParameters

/-- The largest frame. -/
def maxLocals : Nat := 255

/-- The end of a method's code. -/
def methodEnd (result : Ty) : Check Unit :=
  if result = .void then emitting Emit.leave else emitting Emit.missingReturn

/-- Whether a program starts with this method. -/
def isMain (m : Method) : Bool := m.name == some mainName

def methodBody (m : Method) (result : Ty) : Check Unit := do
  require .lbrace m.lbrace
  stmts result m.body
  require .rbrace m.rbrace
  methodEnd result

/-- The code of a method whose parameters are declared. The entry address is known before the body
is compiled, so a method can call itself. -/
def methodCode (m : Method) (result : Ty) (id : EntityId) (paramCount : Nat) : Check Unit := do
  varDecls m.locals
  let scope := (← names).current
  if maxLocals < scope.varCount then report .tooManyLocals
  let address ← emitting (Emit.enter paramCount scope.varCount)
  setCallee id { paramCount, locals := scope.locals, address }
  if isMain m then emitting (Emit.setMain address)
  methodBody m result

def method (m : Method) : Check Unit := do
  let result ← resultType m.result
  let id ← declareName .method result m.name
  inScope do
    require .lparen m.lparen
    params m.params
    let paramCount := (← names).current.varCount
    if isMain m then checkMain result paramCount
    require .rparen m.rparen
    methodCode m result id paramCount

def methods : List Method → Check Unit
  | [] => return
  | m :: rest => do
      method m
      methods rest

/-- Compiles the whole program and gives the number of its global variables. -/
def program (p : Program) : Check Nat := do
  require .kwProgram p.keyword
  discard <| declareName .program .void p.name
  let globals ← inScope do
    declarations p.declarations
    require .lbrace p.lbrace
    methods p.methods
    require .rbrace p.rbrace
    if (← get).code.mainPc.isNone then report .mainMissing
    return (← names).current.varCount
  if p.ended = .missing then report .textAfterProgram
  return globals

end MicroJava.Check
