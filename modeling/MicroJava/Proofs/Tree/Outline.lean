import MicroJava.Tree.Basic

/-! # Outlines of trees

What a tree says of the text it was read from, apart from its structure: how many tokens it stands
for, in how many places something was not as the grammar demands, and which names it holds in which
order. -/

namespace MicroJava

/-- What a name is there for. -/
inductive Role where
  | declared
  /-- Found by searching the scopes. -/
  | used
  /-- Found among the fields of an object. -/
  | selected
  deriving DecidableEq, Repr

@[ext] structure Outline where
  /-- How often the next token is asked for. -/
  tokens : Nat := 0
  /-- Places that break a rule of the grammar. -/
  gaps : Nat := 0
  names : List (Role × String) := []
  deriving DecidableEq, Repr

namespace Outline

instance : Append Outline :=
  ⟨fun o o' => ⟨o.tokens + o'.tokens, o.gaps + o'.gaps, o.names ++ o'.names⟩⟩

def nil : Outline := {}

def token : Outline := { tokens := 1 }

def gap : Outline := { gaps := 1 }

/-- A name, or the place where it is missing. -/
def ident (role : Role) : Option String → Outline
  | some name => { tokens := 1, names := [(role, name)] }
  | none => gap

/-- Tokens that were passed over, and perhaps a semicolon behind them. -/
def passed (skipped : Nat) (semicolon : Bool) : Outline :=
  { tokens := if semicolon then skipped + 1 else skipped, gaps := 1 }

/-- A token in front of something that is there or not. -/
def present {α : Type} : Option α → Outline
  | some _ => token
  | none => gap

/-- The comma behind an item, unless it is the last one. -/
def comma {α : Type} : List α → Outline
  | [] => nil
  | _ :: _ => token

variable (o o' : Outline)

@[simp] theorem tokens_append : (o ++ o').tokens = o.tokens + o'.tokens := rfl

@[simp] theorem gaps_append : (o ++ o').gaps = o.gaps + o'.gaps := rfl

@[simp] theorem names_append : (o ++ o').names = o.names ++ o'.names := rfl

@[simp] theorem tokens_nil : nil.tokens = 0 := rfl

@[simp] theorem gaps_nil : nil.gaps = 0 := rfl

@[simp] theorem names_nil : nil.names = [] := rfl

@[simp] theorem tokens_token : token.tokens = 1 := rfl

@[simp] theorem gaps_token : token.gaps = 0 := rfl

@[simp] theorem names_token : token.names = [] := rfl

@[simp] theorem tokens_gap : gap.tokens = 0 := rfl

@[simp] theorem gaps_gap : gap.gaps = 1 := rfl

@[simp] theorem append_nil : o ++ nil = o := by
  ext1 <;> simp

@[simp] theorem nil_append : nil ++ o = o := by
  ext1 <;> simp

theorem append_assoc (o o' o'' : Outline) : o ++ o' ++ o'' = o ++ (o' ++ o'') := by
  ext1 <;> simp [Nat.add_assoc]

end Outline

open Outline

def Mark.outline : Mark → Outline
  | .found => token
  | .missing => gap

def TypeRef.outline : TypeRef → Outline
  | .missing => gap
  | .named name none => ident .used (some name)
  | .named name (some rbracket) => ident .used (some name) ++ (token ++ rbracket.outline)

/-- Names of variables, each behind a comma. -/
def otherNames : List (Option String) → Outline
  | [] => nil
  | name :: rest => token ++ (ident .declared name ++ otherNames rest)

def VarDecl.outline (d : VarDecl) : Outline :=
  d.type.outline ++ (ident .declared d.first ++ (otherNames d.others ++ d.semicolon.outline))

/-- One outline behind the other. -/
def Outline.concat {α : Type} (outline : α → Outline) : List α → Outline
  | [] => nil
  | a :: rest => outline a ++ concat outline rest

def ConstDecl.outline (d : ConstDecl) : Outline :=
  token ++ (d.type.outline ++ (ident .declared d.name ++ (d.assign.outline ++
    (present d.value ++ d.semicolon.outline))))

def ClassDecl.outline (d : ClassDecl) : Outline :=
  token ++ (ident .declared d.name ++ (d.lbrace.outline ++
    (concat VarDecl.outline d.fields ++ d.rbrace.outline)))

def Declaration.outline : Declaration → Outline
  | .const d => d.outline
  | .cls d => d.outline
  | .vars d => d.outline
  | .junk skipped semicolon => passed skipped semicolon

mutual

@[simp] def Designator.outline : Designator → Outline
  | .missing => gap
  | .name n => ident .used (some n)
  | .field base f => base.outline ++ (token ++ ident .selected f)
  | .index base i rbracket => base.outline ++ (token ++ (i.outline ++ rbracket.outline))

@[simp] def Expr.outline : Expr → Outline
  | .number _ => token
  | .char _ => token
  | .value source => source.outline
  | .call callee args rparen =>
      callee.outline ++ (token ++ (Expr.outlines args ++ rparen.outline))
  | .newNothing => token ++ gap
  | .newObject cls => token ++ ident .used (some cls)
  | .newArray elem size rbracket =>
      token ++ (ident .used (some elem) ++ (token ++ (size.outline ++ rbracket.outline)))
  | .paren inner rparen => token ++ (inner.outline ++ rparen.outline)
  | .negate operand => token ++ operand.outline
  | .binary _ left right => left.outline ++ (token ++ right.outline)
  | .missing => gap

/-- Expressions with commas between them. -/
@[simp] def Expr.outlines : List Expr → Outline
  | [] => nil
  | arg :: rest => arg.outline ++ (comma rest ++ Expr.outlines rest)

end

/-- Behind the first item, every item has a comma in front of it. -/
theorem Expr.outlines_cons (first : Expr) (rest : List Expr) :
    Expr.outlines (first :: rest) = first.outline ++ concat (token ++ Expr.outline ·) rest := by
  induction rest generalizing first with
  | nil => simp [comma, concat]
  | cons next rest ih => rw [Expr.outlines, ih, concat, comma, Outline.append_assoc]

def Condition.outline (c : Condition) : Outline :=
  c.left.outline ++ (present c.rel ++ c.right.outline)

def WidthSpec.outline : WidthSpec → Outline
  | .none => nil
  | .missing => token ++ gap
  | .given _ => token ++ token

mutual

@[simp] def Stmt.outline : Stmt → Outline
  | .assign target value semicolon =>
      target.outline ++ (token ++ (value.outline ++ semicolon.outline))
  | .call callee args rparen semicolon =>
      callee.outline ++ (token ++ (Expr.outlines args ++ (rparen.outline ++ semicolon.outline)))
  | .idle target semicolon => target.outline ++ (gap ++ semicolon.outline)
  | .ifThen lparen cond rparen body =>
      token ++ (lparen.outline ++ (cond.outline ++ (rparen.outline ++ body.outline)))
  | .ifElse lparen cond rparen body alternative =>
      token ++ (lparen.outline ++ (cond.outline ++ (rparen.outline ++
        (body.outline ++ (token ++ alternative.outline)))))
  | .loop lparen cond rparen body =>
      token ++ (lparen.outline ++ (cond.outline ++ (rparen.outline ++ body.outline)))
  | .ret none semicolon => token ++ semicolon.outline
  | .ret (some value) semicolon => token ++ (value.outline ++ semicolon.outline)
  | .read lparen target rparen semicolon =>
      token ++ (lparen.outline ++ (target.outline ++ (rparen.outline ++ semicolon.outline)))
  | .print lparen value width rparen semicolon =>
      token ++ (lparen.outline ++ (value.outline ++ (width.outline ++
        (rparen.outline ++ semicolon.outline))))
  | .block body rbrace => token ++ (Stmt.outlines body ++ rbrace.outline)
  | .empty => token
  | .junk skipped semicolon next => passed skipped semicolon ++ next.outline
  | .missing => nil

/-- One statement behind the other. -/
@[simp] def Stmt.outlines : List Stmt → Outline
  | [] => nil
  | s :: rest => s.outline ++ Stmt.outlines rest

end

theorem Stmt.outlines_eq_concat (body : List Stmt) :
    Stmt.outlines body = concat Stmt.outline body := by
  induction body with
  | nil => rw [Stmt.outlines, concat]
  | cons s rest ih => rw [Stmt.outlines, concat, ih]

def ResultType.outline : ResultType → Outline
  | .void => token
  | .type t => t.outline

def Param.outline (q : Param) : Outline := q.type.outline ++ ident .declared q.name

/-- Parameters with commas between them. -/
def Param.outlines : List Param → Outline
  | [] => nil
  | q :: rest => q.outline ++ (comma rest ++ Param.outlines rest)

theorem Param.outlines_cons (first : Param) (rest : List Param) :
    Param.outlines (first :: rest) = first.outline ++ concat (token ++ Param.outline ·) rest := by
  induction rest generalizing first with
  | nil => simp [Param.outlines, comma, concat]
  | cons next rest ih => rw [Param.outlines, ih, concat, comma, Outline.append_assoc]

def Method.outline (m : Method) : Outline :=
  m.result.outline ++ (ident .declared m.name ++ (m.lparen.outline ++ (Param.outlines m.params ++
    (m.rparen.outline ++ (concat VarDecl.outline m.locals ++ (m.lbrace.outline ++
      (Stmt.outlines m.body ++ m.rbrace.outline)))))))

def Program.outline (p : Program) : Outline :=
  p.keyword.outline ++ (ident .declared p.name ++ (concat Declaration.outline p.declarations ++
    (p.lbrace.outline ++ (concat Method.outline p.methods ++ (p.rbrace.outline ++
      (if p.ended = .missing then gap else nil))))))

end MicroJava
