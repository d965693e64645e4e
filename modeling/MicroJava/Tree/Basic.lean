import MicroJava.Arithmetic
import MicroJava.Comparison

/-! # Program trees

The tree of any text at all, not only of correct programs: where the grammar demands a token, the
tree records whether it was there, and where nothing fits, what was passed over. A tree holds no
places; walking it in order against the tokens it was read from gives every node its place. -/

namespace MicroJava

/-- Whether a token that the grammar demands was there. If it was missing, nothing was consumed in
its stead. -/
inductive Mark where
  | found
  | missing
  deriving DecidableEq, Repr, Inhabited

/-- `ident ["[" "]"]`. -/
inductive TypeRef where
  | missing
  /-- With brackets, `brackets` tells whether the closing one was there. -/
  | named (name : String) (brackets : Option Mark)
  deriving DecidableEq, Repr, Inhabited

/-- `Type ident {"," ident} ";"`, where any of the names may be missing. -/
structure VarDecl where
  type : TypeRef
  first : Option String
  others : List (Option String)
  semicolon : Mark
  deriving DecidableEq, Repr, Inhabited

inductive Literal where
  | number (value : Int32)
  | char (value : Int32)
  deriving DecidableEq, Repr

def Literal.value : Literal → Int32
  | number v | char v => v

/-- `"final" Type ident "=" (number | charConst) ";"`. -/
structure ConstDecl where
  type : TypeRef
  name : Option String
  assign : Mark
  value : Option Literal
  semicolon : Mark
  deriving DecidableEq, Repr

/-- `"class" ident "{" {VarDecl} "}"`. -/
structure ClassDecl where
  name : Option String
  lbrace : Mark
  fields : List VarDecl
  rbrace : Mark
  deriving DecidableEq, Repr

inductive Declaration where
  | const (decl : ConstDecl)
  | cls (decl : ClassDecl)
  | vars (decl : VarDecl)
  /-- No declaration starts here: `skipped` tokens are passed over, and then perhaps a semicolon. -/
  | junk (skipped : Nat) (semicolon : Bool)
  deriving DecidableEq, Repr

mutual

/-- `ident {"." ident | "[" Expr "]"}`. -/
inductive Designator where
  | missing
  | name (name : String)
  | field (base : Designator) (field : Option String)
  | index (base : Designator) (index : Expr) (rbracket : Mark)

/-- Sums, products and factors. -/
inductive Expr where
  | number (value : Int32)
  | char (value : Int32)
  | value (source : Designator)
  | call (callee : Designator) (args : List Expr) (rparen : Mark)
  /-- `new` without a name behind it. -/
  | newNothing
  | newObject (cls : String)
  | newArray (elem : String) (size : Expr) (rbracket : Mark)
  | paren (inner : Expr) (rparen : Mark)
  | negate (operand : Expr)
  | binary (op : Arithmetic) (left right : Expr)
  /-- No factor starts here. -/
  | missing

end

instance : Inhabited Expr := ⟨.missing⟩

instance : Inhabited Designator := ⟨.missing⟩

/-- `Expr Relop Expr`. -/
structure Condition where
  left : Expr
  rel : Option Comparison
  right : Expr
  deriving Inhabited

/-- `["," number]` in a print statement. -/
inductive WidthSpec where
  | none
  | missing
  | given (width : Int32)
  deriving DecidableEq, Repr

inductive Stmt where
  | assign (target : Designator) (value : Expr) (semicolon : Mark)
  | call (callee : Designator) (args : List Expr) (rparen semicolon : Mark)
  /-- Neither assigned to nor called. -/
  | idle (target : Designator) (semicolon : Mark)
  | ifThen (lparen : Mark) (cond : Condition) (rparen : Mark) (body : Stmt)
  | ifElse (lparen : Mark) (cond : Condition) (rparen : Mark) (body alternative : Stmt)
  | loop (lparen : Mark) (cond : Condition) (rparen : Mark) (body : Stmt)
  | ret (value : Option Expr) (semicolon : Mark)
  | read (lparen : Mark) (target : Designator) (rparen semicolon : Mark)
  | print (lparen : Mark) (value : Expr) (width : WidthSpec) (rparen semicolon : Mark)
  | block (body : List Stmt) (rbrace : Mark)
  | empty
  /-- No statement starts here: `skipped` tokens are passed over, then perhaps a semicolon, and
  what follows is read instead. -/
  | junk (skipped : Nat) (semicolon : Bool) (next : Stmt)
  /-- Nothing, behind skipped tokens. -/
  | missing

instance : Inhabited Stmt := ⟨.missing⟩

/-- What a method returns. -/
inductive ResultType where
  | void
  | type (type : TypeRef)
  deriving DecidableEq, Repr, Inhabited

/-- `Type ident`, in a parameter list. -/
structure Param where
  type : TypeRef
  name : Option String
  deriving DecidableEq, Repr, Inhabited

/-- `(Type | "void") ident "(" [Param {"," Param}] ")" {VarDecl} "{" {Statement} "}"`. -/
structure Method where
  result : ResultType
  name : Option String
  lparen : Mark
  params : List Param
  rparen : Mark
  locals : List VarDecl
  lbrace : Mark
  body : List Stmt
  rbrace : Mark
  deriving Inhabited

/-- `"program" ident {Declaration} "{" {Method} "}"`, and then the end of the text. -/
structure Program where
  keyword : Mark
  name : Option String
  declarations : List Declaration
  lbrace : Mark
  methods : List Method
  rbrace : Mark
  ended : Mark
  deriving Inhabited

end MicroJava
