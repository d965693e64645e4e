import MicroJava.Proofs.Resolved.Tree

/-! # Resolving names

From a tree as it was read to a resolved program. Scopes are lists of names with what they stand
for, searched from the inside outwards. Whatever breaks a rule of the language has no resolution:
an unknown or repeated name, a wrong type, a wrong number of arguments. -/

namespace MicroJava.Resolved

/-- What a name can stand for. -/
inductive Binding where
  | constant (value : Int32) (ty : Ty)
  | global (adr : Nat) (ty : Ty)
  | frame (slot : Nat) (ty : Ty)
  | typeName (ty : Ty)
  | method (index : Nat)
  | builtin (routine : Builtin)
  | program
  deriving DecidableEq, Repr

structure Scope where
  /-- The latest declaration first. -/
  bindings : List (String × Binding) := []
  /-- The variables among them, in the order of their slots. -/
  vars : List (String × Ty) := []

/-- What is known at a point of the text. -/
structure Env where
  inner : Scope
  /-- From the inside outwards. -/
  outer : List Scope
  /-- Fields of the classes declared so far. -/
  classes : List (List (String × Ty))
  /-- Signatures of the methods declared so far. -/
  signatures : List Signature

def signatureOf : Builtin → Signature
  | .ord => ⟨[.char], .int⟩
  | .chr => ⟨[.int], .char⟩
  | .len => ⟨[.array .void], .int⟩

namespace Env

/-- The names that are always there. -/
def predeclared : Scope where
  bindings := [("int", .typeName .int), ("char", .typeName .char), ("ord", .builtin .ord),
    ("chr", .builtin .chr), ("len", .builtin .len)]

def initial : Env := ⟨predeclared, [], [], []⟩

def lookup (env : Env) (name : String) : Option Binding :=
  (env.inner :: env.outer).findSome? fun scope => scope.bindings.lookup name

/-- Enters a scope of its own. -/
def nested (env : Env) : Env := { env with inner := {}, outer := env.inner :: env.outer }

/-- Declares a name that the innermost scope does not have yet. -/
def declare (env : Env) (name : String) (binding : Binding) : Option Env :=
  if (env.inner.bindings.lookup name).isSome then none
  else some { env with inner :=
    { env.inner with bindings := (name, binding) :: env.inner.bindings } }

/-- What the next variable of the innermost scope is bound to. Outside methods and classes
variables are global. -/
def nextVar (env : Env) (ty : Ty) : Binding :=
  if env.outer.length ≤ 1 then .global env.inner.vars.length ty
  else .frame env.inner.vars.length ty

def declareVar (env : Env) (name : String) (ty : Ty) : Option Env := do
  let declared ← env.declare name (env.nextVar ty)
  return { declared with inner :=
    { declared.inner with vars := env.inner.vars ++ [(name, ty)] } }

/-- Number and type of a field. -/
def field? (env : Env) (cls : ClassId) (name : String) : Option (Nat × Ty) := do
  let fields ← env.classes[cls.index]?
  let adr ← fields.findIdx? fun field => field.1 == name
  let field ← fields[adr]?
  return (adr, field.2)

end Env

/-- Something that can be called. -/
inductive Routine where
  | method (index : Nat)
  | builtin (routine : Builtin)
  deriving DecidableEq, Repr

/-- The value of a call. -/
def Routine.apply : Routine → List Expr → Option Expr
  | .method index, args => some (.call index args)
  | .builtin .len, [arg] => some (.length arg)
  | .builtin _, [arg] => some (.convert arg)
  | .builtin _, _ => none

/-- What a designator refers to. -/
inductive Referent where
  | constant (value : Int32)
  | place (location : Location)
  | routine (callee : Routine) (params : List Ty)

namespace Referent

/-- Its value, if it has one. -/
def value? : Referent → Option Expr
  | constant v => some (.constant v)
  | place loc => some (.value loc)
  | routine _ _ => none

/-- What a binding refers to, and its type. The type of a method is that of its result. -/
def ofBinding (env : Env) : Binding → Option (Referent × Ty)
  | .constant v ty => some (.constant v, ty)
  | .global adr ty => some (.place (.global adr), ty)
  | .frame slot ty => some (.place (.frame slot), ty)
  | .method index => do
      let signature ← env.signatures[index]?
      return (.routine (.method index) signature.params, signature.result)
  | .builtin b => some (.routine (.builtin b) (signatureOf b).params, (signatureOf b).result)
  | .typeName _ | .program => none

end Referent

/-! ## Expressions -/

/-- The type that a name denotes. -/
def Env.type? (env : Env) (name : String) : Option Ty :=
  match env.lookup name with
  | some (.typeName ty) => some ty
  | _ => none

/-- A value of a certain type, required to be there. -/
def required (ty wanted : Ty) (e : Expr) : Option Expr := if ty = wanted then some e else none

mutual

def resolveDesignator (env : Env) : MicroJava.Designator → Option (Referent × Ty)
  | .missing => none
  | .name n => do Referent.ofBinding env (← env.lookup n)
  | .field base f => do
      let (x, ty) ← resolveDesignator env base
      let object ← x.value?
      match ty, f with
      | .object cls, some name =>
          let (adr, fieldTy) ← env.field? cls name
          return (.place (.field object adr), fieldTy)
      | _, _ => none
  | .index base i _ => do
      let (x, ty) ← resolveDesignator env base
      let array ← x.value?
      let (index, indexTy) ← resolveExpr env i
      match ty with
      | .array elem =>
          let index ← required indexTy .int index
          return (.place (.element array index elem), elem)
      | _ => none

def resolveExpr (env : Env) : MicroJava.Expr → Option (Expr × Ty)
  | .number v => some (.constant v, .int)
  | .char v => some (.constant v, .char)
  | .value source => do
      let (x, ty) ← resolveDesignator env source
      return (← x.value?, ty)
  | .call callee args _ => do
      let (x, ty) ← resolveDesignator env callee
      match x with
      | .routine r params =>
          let args ← resolveArguments env args params
          if ty = .void then none else return (← r.apply args, ty)
      | _ => none
  | .newNothing => none
  | .newObject name => do
      match ← env.type? name with
      | .object cls =>
          if (env.classes.getD cls.index []).length ≤ maxFields then
            return (.newObject cls, .object cls)
          else none
      | _ => none
  | .newArray name size _ => do
      let elem ← env.type? name
      let (n, ty) ← resolveExpr env size
      let n ← required ty .int n
      return (.newArray elem n, .array elem)
  | .paren inner _ => resolveExpr env inner
  | .negate operand => do
      let (x, ty) ← resolveExpr env operand
      let x ← required ty .int x
      return (.negate x, .int)
  | .binary op left right => do
      let (x, xTy) ← resolveExpr env left
      let (y, yTy) ← resolveExpr env right
      let x ← required xTy .int x
      let y ← required yTy .int y
      return (.binary op x y, .int)
  | .missing => none

/-- As many arguments as there are parameters, each of a type that fits. -/
def resolveArguments (env : Env) : List MicroJava.Expr → List Ty → Option (List Expr)
  | [], [] => some []
  | arg :: rest, formal :: formals => do
      let (e, ty) ← resolveExpr env arg
      if ty.assignableTo formal then return e :: (← resolveArguments env rest formals) else none
  | _, _ => none

end

/-- Both sides have one type, and references are only compared for equality. -/
def resolveCondition (env : Env) (c : MicroJava.Condition) : Option Condition := do
  let (x, xTy) ← resolveExpr env c.left
  let rel ← c.rel
  let (y, yTy) ← resolveExpr env c.right
  if xTy = yTy ∧ (xTy.isReference → rel.isEquality) then return ⟨x, rel, y⟩ else none

/-! ## Statements -/

/-- How values of a type are read and printed. -/
def Textual.of? : Ty → Option Textual
  | .int => some .number
  | .char => some .char
  | _ => none

def resolvePlace (env : Env) (d : MicroJava.Designator) : Option (Location × Ty) := do
  match ← resolveDesignator env d with
  | (.place loc, ty) => return (loc, ty)
  | _ => none

/-- A call statement. The result, if the routine has one, is thrown away. -/
def Routine.perform : Routine → Ty → List Expr → Option Stmt
  | .method index, .void, args => some (.perform index args)
  | r, _, args => do return .discard (← r.apply args)

/-- The value of a return statement fits the result type of the method. -/
def resolveReturn (env : Env) (result : Ty) : Option MicroJava.Expr → Option (Option Expr)
  | some e => do
      let (x, ty) ← resolveExpr env e
      if result = .void then none else return some (← required ty result x)
  | none => if result = .void then some none else none

def widthOf : WidthSpec → Option Int32
  | .none => some 0
  | .missing => none
  | .given width => some width

mutual

/-- A statement of a method with the given result type. -/
def resolveStmt (env : Env) (result : Ty) : MicroJava.Stmt → Option Stmt
  | .assign target value _ => do
      let (loc, ty) ← resolvePlace env target
      let (x, xTy) ← resolveExpr env value
      return .assign loc (← required xTy ty x)
  | .call callee args _ _ => do
      let (x, ty) ← resolveDesignator env callee
      match x with
      | .routine r params =>
          r.perform ty (← resolveArguments env args params)
      | _ => none
  | .idle _ _ => none
  | .ifThen _ cond _ body => do
      return .ifThen (← resolveCondition env cond) (← resolveStmt env result body)
  | .ifElse _ cond _ body alternative => do
      let c ← resolveCondition env cond
      return .ifElse c (← resolveStmt env result body) (← resolveStmt env result alternative)
  | .loop _ cond _ body => do
      return .loop (← resolveCondition env cond) (← resolveStmt env result body)
  | .ret value _ => do return .ret (← resolveReturn env result value)
  | .read _ target _ _ => do
      let (loc, ty) ← resolvePlace env target
      return .read (← Textual.of? ty) loc
  | .print _ value width _ _ => do
      let (x, ty) ← resolveExpr env value
      return .print (← Textual.of? ty) x (← widthOf width)
  | .block body _ => do return .block (← resolveStmts env result body)
  | .empty | .missing => some .empty
  | .junk _ _ _ => none

def resolveStmts (env : Env) (result : Ty) : List MicroJava.Stmt → Option (List Stmt)
  | [] => some []
  | s :: rest => do return (← resolveStmt env result s) :: (← resolveStmts env result rest)

end

/-! ## Declarations -/

def resolveType (env : Env) : TypeRef → Option Ty
  | .missing => none
  | .named name none => env.type? name
  | .named name (some _) => do return .array (← env.type? name)

def declareVars (env : Env) (ty : Ty) : List (Option String) → Option Env
  | [] => some env
  | none :: _ => none
  | some name :: rest => do declareVars (← env.declareVar name ty) ty rest

def resolveVarDecl (env : Env) (d : VarDecl) : Option Env := do
  declareVars env (← resolveType env d.type) (d.first :: d.others)

def resolveVarDecls (env : Env) : List VarDecl → Option Env
  | [] => some env
  | d :: rest => do resolveVarDecls (← resolveVarDecl env d) rest

/-- A constant has the type of its literal. -/
def resolveLiteral : Ty → Literal → Option Int32
  | .int, .number v => some v
  | .char, .char v => some v
  | _, _ => none

def resolveConstDecl (env : Env) (d : ConstDecl) : Option Env := do
  let ty ← resolveType env d.type
  let value ← resolveLiteral ty (← d.value)
  env.declare (← d.name) (.constant value ty)

/-- The class is known to its own fields. -/
def resolveClassDecl (env : Env) (d : ClassDecl) : Option Env := do
  let env ← env.declare (← d.name) (.typeName (.object ⟨env.classes.length⟩))
  let inside ← resolveVarDecls env.nested d.fields
  return { env with classes := env.classes ++ [inside.inner.vars] }

def resolveDeclaration (env : Env) : Declaration → Option Env
  | .const d => resolveConstDecl env d
  | .cls d => resolveClassDecl env d
  | .vars d => resolveVarDecl env d
  | .junk _ _ => none

def resolveDeclarations (env : Env) : List Declaration → Option Env
  | [] => some env
  | d :: rest => do resolveDeclarations (← resolveDeclaration env d) rest

def resolveParams (env : Env) : List Param → Option Env
  | [] => some env
  | p :: rest => do
      resolveParams (← env.declareVar (← p.name) (← resolveType env p.type)) rest

def resolveResult (env : Env) : ResultType → Option Ty
  | .void => some .void
  | .type t => resolveType env t

/-- The main method neither takes nor returns anything. -/
def mainFits (name : String) (signature : Signature) : Bool :=
  name != Program.mainName || (signature.result == .void && signature.params.isEmpty)

/-- The largest frame. -/
def maxFrame : Nat := 255

/-- The method is known to its own body. -/
def resolveMethod (env : Env) (m : MicroJava.Method) : Option (Method × Env) := do
  let result ← resolveResult env m.result
  let name ← m.name
  let env ← env.declare name (.method env.signatures.length)
  let inside ← resolveParams env.nested m.params
  let signature : Signature := ⟨inside.inner.vars.map Prod.snd, result⟩
  let inside ← resolveVarDecls inside m.locals
  if mainFits name signature && decide (inside.inner.vars.length ≤ maxFrame) then
    let signatures := env.signatures ++ [signature]
    let body ← resolveStmts { inside with signatures } result m.body
    let locals := (inside.inner.vars.map Prod.snd).drop signature.params.length
    return ({ toSignature := signature, name, locals, body }, { env with signatures })
  else none

def resolveMethods (env : Env) : List MicroJava.Method → Option (List Method × Env)
  | [] => some ([], env)
  | m :: rest => do
      let (method, env) ← resolveMethod env m
      let (methods, env) ← resolveMethods env rest
      return (method :: methods, env)

/-- The resolved program of a tree. It has a main method. -/
def resolveProgram (p : MicroJava.Program) : Option Program := do
  let env ← Env.initial.declare (← p.name) .program
  let env ← resolveDeclarations env.nested p.declarations
  let (methods, env) ← resolveMethods env p.methods
  let program : Program :=
    { globals := env.inner.vars.map Prod.snd
      classes := env.classes.map fun fields => fields.map Prod.snd
      methods }
  if program.main?.isSome then some program else none

end MicroJava.Resolved
