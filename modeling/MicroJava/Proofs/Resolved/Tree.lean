import MicroJava.Names.Entity
import MicroJava.Tree.Basic

/-! # Resolved programs

The tree of a correct program, with every name replaced by what it stands for: a constant by its
value, a variable by its place, a method by its number in declaration order, a class by its handle.
Nothing in it refers to text, and no code has been chosen yet. -/

namespace MicroJava.Resolved

mutual

/-- A place that holds a value. -/
inductive Location where
  | frame (slot : Nat)
  | global (adr : Nat)
  | field (object : Expr) (adr : Nat)
  /-- The type is that of the element. -/
  | element (array index : Expr) (elem : Ty)

inductive Expr where
  | constant (value : Int32)
  | value (source : Location)
  /-- A call of a method that returns a value. -/
  | call (method : Nat) (args : List Expr)
  /-- Between numbers and characters, in either direction. -/
  | convert (operand : Expr)
  | length (array : Expr)
  | newObject (cls : ClassId)
  | newArray (elem : Ty) (size : Expr)
  | negate (operand : Expr)
  | binary (op : Arithmetic) (left right : Expr)

end

structure Condition where
  left : Expr
  rel : Comparison
  right : Expr

/-- How a value is read or printed. -/
inductive Textual where
  | number
  | char
  deriving DecidableEq, Repr

inductive Stmt where
  | assign (target : Location) (value : Expr)
  /-- A call of a method that returns nothing. -/
  | perform (method : Nat) (args : List Expr)
  /-- A call whose result is thrown away. -/
  | discard (call : Expr)
  | ifThen (cond : Condition) (body : Stmt)
  | ifElse (cond : Condition) (body alternative : Stmt)
  | loop (cond : Condition) (body : Stmt)
  | ret (value : Option Expr)
  | read (form : Textual) (target : Location)
  | print (form : Textual) (value : Expr) (width : Int32)
  | block (body : List Stmt)
  | empty

/-- What a caller has to know of a method. -/
structure Signature where
  params : List Ty
  result : Ty
  deriving DecidableEq, Repr, Inhabited

structure Method extends Signature where
  name : String
  /-- Types of the variables behind the parameters. -/
  locals : List Ty
  body : List Stmt

/-- Types of the words of a method's frame. -/
def Method.frame (m : Method) : List Ty := m.params ++ m.locals

/-- The largest number of fields that an object can have. -/
def maxFields : Nat := 65535

structure Program where
  /-- Types of the global variables. -/
  globals : List Ty
  /-- Types of the fields of each class. -/
  classes : List (List Ty)
  methods : List Method

namespace Program

/-- The method where a run starts. -/
def mainName : String := "main"

/-- The number of the method where a run starts. -/
def main? (P : Program) : Option Nat := P.methods.findIdx? fun m => m.name == mainName

/-- Types of the fields of a class. -/
def fields (P : Program) (cls : ClassId) : List Ty := P.classes.getD cls.index []

end Program

end MicroJava.Resolved
