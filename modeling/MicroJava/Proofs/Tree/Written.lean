import MicroJava.Source.Token
import MicroJava.Tree.Basic

/-! # Trees written out again

What a tree keeps of the tokens it was read from, in their order: the kinds of the signs and words,
the spellings of the names and the values of the literals. A token that was missing is not written,
and of skipped tokens a tree keeps the number only, so nothing is written for them. -/

namespace MicroJava

/-- A token without its place. -/
inductive Face where
  /-- An operator, a bracket, a separator or a reserved word. -/
  | sign (kind : TokenKind)
  | name (spelling : String)
  | number (value : Int32)
  | char (value : Int32)
  deriving DecidableEq, Repr

/-- What a token is, wherever it stands. -/
def Token.face (t : Token) : Face :=
  match t.kind with
  | .ident => .name t.text
  | .number => .number t.value
  | .charConst => .char t.value
  | k => .sign k

namespace Face

/-- A name that is there or not. -/
def named : Option String → List Face
  | some n => [.name n]
  | none => []

@[simp] theorem named_some (n : String) : named (some n) = [.name n] := rfl

/-- A part that is written in one way or another, if it is there. -/
def optional {α : Type} (written : α → List Face) : Option α → List Face
  | some a => written a
  | none => []

/-- The comma behind an item, unless it is the last one. -/
def comma {α : Type} : List α → List Face
  | [] => []
  | _ :: _ => [.sign .comma]

end Face

open Face

/-- The sign of an operation. -/
def Arithmetic.kind : Arithmetic → TokenKind
  | .add => .plus
  | .sub => .minus
  | .mul => .times
  | .div => .slash
  | .rem => .percent

/-- The sign of a comparison. -/
def Comparison.kind : Comparison → TokenKind
  | .eq => .equal
  | .ne => .notEqual
  | .lt => .less
  | .le => .lessEqual
  | .gt => .greater
  | .ge => .greaterEqual

/-- A demanded sign, if it was there. -/
def Mark.written (kind : TokenKind) : Mark → List Face
  | .found => [.sign kind]
  | .missing => []

def TypeRef.written : TypeRef → List Face
  | .missing => []
  | .named n none => [.name n]
  | .named n (some rbracket) => .name n :: .sign .lbracket :: rbracket.written .rbracket

/-- Names of variables, each behind a comma. -/
def otherNamesWritten (names : List (Option String)) : List Face :=
  names.flatMap fun n => .sign .comma :: named n

def VarDecl.written (d : VarDecl) : List Face :=
  d.type.written ++ (named d.first ++ (otherNamesWritten d.others ++ d.semicolon.written .semicolon))

def Literal.written : Literal → List Face
  | .number v => [.number v]
  | .char v => [.char v]

def ConstDecl.written (d : ConstDecl) : List Face :=
  .sign .kwFinal :: (d.type.written ++ (named d.name ++ (d.assign.written .assign ++
    (optional Literal.written d.value ++ d.semicolon.written .semicolon))))

def ClassDecl.written (d : ClassDecl) : List Face :=
  .sign .kwClass :: (named d.name ++ (d.lbrace.written .lbrace ++
    (d.fields.flatMap VarDecl.written ++ d.rbrace.written .rbrace)))

def Declaration.written : Declaration → List Face
  | .const d => d.written
  | .cls d => d.written
  | .vars d => d.written
  | .junk .. => []

mutual

@[simp] def Designator.written : Designator → List Face
  | .missing => []
  | .name n => [.name n]
  | .field base f => base.written ++ .sign .period :: named f
  | .index base i rbracket =>
      base.written ++ .sign .lbracket :: (i.written ++ rbracket.written .rbracket)

@[simp] def Expr.written : Expr → List Face
  | .number v => [.number v]
  | .char v => [.char v]
  | .value source => source.written
  | .call callee args rparen =>
      callee.written ++ .sign .lparen :: (Expr.writtenAll args ++ rparen.written .rparen)
  | .newNothing => [.sign .kwNew]
  | .newObject cls => [.sign .kwNew, .name cls]
  | .newArray elem size rbracket =>
      .sign .kwNew :: .name elem :: .sign .lbracket :: (size.written ++ rbracket.written .rbracket)
  | .paren inner rparen => .sign .lparen :: (inner.written ++ rparen.written .rparen)
  | .negate operand => .sign .minus :: operand.written
  | .binary op left right => left.written ++ .sign op.kind :: right.written
  | .missing => []

/-- Expressions with commas between them. -/
@[simp] def Expr.writtenAll : List Expr → List Face
  | [] => []
  | arg :: rest => arg.written ++ (comma rest ++ Expr.writtenAll rest)

end

/-- Behind the first expression, every other has a comma in front of it. -/
theorem Expr.writtenAll_cons (first : Expr) (rest : List Expr) :
    Expr.writtenAll (first :: rest) =
      first.written ++ rest.flatMap fun arg => .sign .comma :: arg.written := by
  induction rest generalizing first with
  | nil => simp [comma]
  | cons next rest ih => rw [Expr.writtenAll, ih, comma, List.flatMap_cons]; rfl

def Condition.written (c : Condition) : List Face :=
  c.left.written ++ (optional (fun rel => [.sign rel.kind]) c.rel ++ c.right.written)

def WidthSpec.written : WidthSpec → List Face
  | .none => []
  | .missing => [.sign .comma]
  | .given width => [.sign .comma, .number width]

/-- A condition between its parentheses. -/
def Condition.guardWritten (lparen : Mark) (c : Condition) (rparen : Mark) : List Face :=
  lparen.written .lparen ++ (c.written ++ rparen.written .rparen)

mutual

@[simp] def Stmt.written : Stmt → List Face
  | .assign target value semicolon =>
      target.written ++ .sign .assign :: (value.written ++ semicolon.written .semicolon)
  | .call callee args rparen semicolon =>
      callee.written ++ .sign .lparen :: (Expr.writtenAll args ++
        (rparen.written .rparen ++ semicolon.written .semicolon))
  | .idle target semicolon => target.written ++ semicolon.written .semicolon
  | .ifThen lparen cond rparen body =>
      .sign .kwIf :: (cond.guardWritten lparen rparen ++ body.written)
  | .ifElse lparen cond rparen body alternative =>
      .sign .kwIf :: (cond.guardWritten lparen rparen ++
        (body.written ++ .sign .kwElse :: alternative.written))
  | .loop lparen cond rparen body =>
      .sign .kwWhile :: (cond.guardWritten lparen rparen ++ body.written)
  | .ret none semicolon => .sign .kwReturn :: semicolon.written .semicolon
  | .ret (some value) semicolon =>
      .sign .kwReturn :: (value.written ++ semicolon.written .semicolon)
  | .read lparen target rparen semicolon =>
      .sign .kwRead :: (lparen.written .lparen ++ (target.written ++
        (rparen.written .rparen ++ semicolon.written .semicolon)))
  | .print lparen value width rparen semicolon =>
      .sign .kwPrint :: (lparen.written .lparen ++ (value.written ++ (width.written ++
        (rparen.written .rparen ++ semicolon.written .semicolon))))
  | .block body rbrace => .sign .lbrace :: (Stmt.writtenAll body ++ rbrace.written .rbrace)
  | .empty => [.sign .semicolon]
  | .junk _ _ next => next.written
  | .missing => []

/-- One statement behind the other. -/
@[simp] def Stmt.writtenAll : List Stmt → List Face
  | [] => []
  | s :: rest => s.written ++ Stmt.writtenAll rest

end

theorem Stmt.writtenAll_eq_flatMap (body : List Stmt) :
    Stmt.writtenAll body = body.flatMap Stmt.written := by
  induction body with
  | nil => rw [Stmt.writtenAll, List.flatMap_nil]
  | cons s rest ih => rw [Stmt.writtenAll, List.flatMap_cons, ih]

def ResultType.written : ResultType → List Face
  | .void => [.sign .kwVoid]
  | .type t => t.written

def Param.written (q : Param) : List Face := q.type.written ++ named q.name

/-- Parameters with commas between them. -/
def Param.writtenAll : List Param → List Face
  | [] => []
  | q :: rest => q.written ++ (comma rest ++ Param.writtenAll rest)

/-- Behind the first parameter, every other has a comma in front of it. -/
theorem Param.writtenAll_cons (first : Param) (rest : List Param) :
    Param.writtenAll (first :: rest) =
      first.written ++ rest.flatMap fun q => .sign .comma :: q.written := by
  induction rest generalizing first with
  | nil => simp [Param.writtenAll, comma]
  | cons next rest ih => rw [Param.writtenAll, ih, comma, List.flatMap_cons]; rfl

def Method.written (m : Method) : List Face :=
  m.result.written ++ (named m.name ++ (m.lparen.written .lparen ++ (Param.writtenAll m.params ++
    (m.rparen.written .rparen ++ (m.locals.flatMap VarDecl.written ++ (m.lbrace.written .lbrace ++
      (Stmt.writtenAll m.body ++ m.rbrace.written .rbrace)))))))

def Program.written (p : Program) : List Face :=
  p.keyword.written .kwProgram ++ (named p.name ++ (p.declarations.flatMap Declaration.written ++
    (p.lbrace.written .lbrace ++ (p.methods.flatMap Method.written ++ p.rbrace.written .rbrace))))

end MicroJava
