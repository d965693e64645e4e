import MicroJava.Ty

/-! # Declared things

What a name can stand for. Entities live in a table and are referred to by handle, so that a
method can be completed after its name has been declared. -/

namespace MicroJava

/-- Handle of an entity. -/
structure EntityId where
  index : Nat
  deriving DecidableEq, Repr, Inhabited

/-- Methods that are always there and never compile to a call. -/
inductive Builtin where
  | ord
  | chr
  | len
  deriving DecidableEq, Repr

namespace Builtin

def name : Builtin → String
  | ord => "ord"
  | chr => "chr"
  | len => "len"

/-- The type of the result. -/
def result : Builtin → Ty
  | ord | len => .int
  | chr => .char

/-- The name of the only parameter. -/
def paramName : Builtin → String
  | ord => "ch"
  | chr => "i"
  | len => "arr"

/-- The type of the only parameter; any array will do for its length. -/
def paramType : Builtin → Ty
  | ord => .char
  | chr => .int
  | len => .array .void

end Builtin

/-- What a call needs to know of a method. -/
structure Callee where
  paramCount : Nat := 0
  /-- The variables of its frame in declaration order, the parameters first. -/
  locals : Array EntityId := #[]
  /-- Entry address. -/
  address : UInt16 := 0
  builtin : Option Builtin := none
  deriving DecidableEq, Repr, Inhabited

namespace Callee

/-- Handles of the parameters. -/
def paramIds (c : Callee) : List EntityId := c.locals.toList.take c.paramCount

/-- Types of the parameters as far as they can be told without a table, which is so for the
predeclared methods. -/
def params (c : Callee) : List Ty := c.builtin.toList.map Builtin.paramType

end Callee

/-- The ways of declaring a name. -/
inductive Form where
  | constant
  | var
  | typeName
  | method
  | program
  deriving DecidableEq, Repr

inductive EntityKind where
  | constant (value : Int32)
  /-- Level 0 is global storage; deeper down a variable is a frame slot or a field. -/
  | var (adr level : Nat)
  | typeName
  | method (callee : Callee)
  | program
  /-- Stands in for a name that could not be declared or resolved. -/
  | unknown
  deriving DecidableEq, Repr, Inhabited

structure Entity where
  name : String
  kind : EntityKind
  ty : Ty
  deriving DecidableEq, Repr, Inhabited

namespace Entity

/-- The entity behind every failed declaration and look-up. -/
def unknown : Entity := ⟨"???", .unknown, .error⟩

def callee? (e : Entity) : Option Callee :=
  match e.kind with
  | .method callee => some callee
  | _ => none

/-- The type a name denotes, if it denotes one at all. -/
def namedType? (e : Entity) : Option Ty :=
  match e.kind with
  | .typeName => some e.ty
  | .unknown => some .error
  | _ => none

end Entity

/-- A class and its fields in declaration order. -/
structure ClassInfo where
  name : String
  fields : Array EntityId
  deriving DecidableEq, Repr, Inhabited

/-- Why a name cannot be declared or found. -/
inductive NameError where
  | declaredTwice (name : String)
  | notDeclared (name : String)
  | notAField (field cls : String)
  deriving DecidableEq, Repr

def NameError.text : NameError → String
  | declaredTwice name => name ++ " declared twice"
  | notDeclared name => name ++ " not declared"
  | notAField field cls => field ++ " is not a field of " ++ cls

end MicroJava
