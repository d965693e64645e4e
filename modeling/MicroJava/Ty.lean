/-! # Types

`error` stands in for whatever type a reported mistake left unknown. Every check accepts it, so
that one mistake is reported once. -/

namespace MicroJava

/-- Names a declared class; classes are the same only if their handles are. -/
structure ClassId where
  index : Nat
  deriving DecidableEq, Repr, Inhabited

inductive Ty where
  /-- The result of a method that returns no value. -/
  | void
  | int
  | char
  | array (elem : Ty)
  | object (cls : ClassId)
  | error
  deriving DecidableEq, Repr, Inhabited

namespace Ty

def isReference : Ty → Bool
  | array _ | object _ => true
  | _ => false

def isError : Ty → Bool
  | error => true
  | _ => false

/-- Integers, and the type that stands in for anything. -/
def isInt : Ty → Bool
  | int | error => true
  | _ => false

def elem? : Ty → Option Ty
  | array elem => some elem
  | _ => none

/-- Whether values of the two types may be compared. -/
def compatible : Ty → Ty → Bool
  | error, _ => true
  | _, error => true
  | array a, array b => compatible a b
  | a, b => decide (a = b)

/-- Whether a value of the first type may be stored in a place of the second. The array of `void`
is a place for every array. -/
def assignableTo : Ty → Ty → Bool
  | array _, array void => true
  | a, b => compatible a b

end Ty

end MicroJava
