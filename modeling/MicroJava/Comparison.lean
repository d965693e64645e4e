/-! # Relational operators

The six comparisons of two machine words, in the order of their conditional jumps. -/

namespace MicroJava

inductive Comparison where
  | eq
  | ne
  | lt
  | le
  | gt
  | ge
  deriving DecidableEq, Repr, Inhabited

namespace Comparison

/-- Every operator, in jump order. -/
def all : List Comparison := [eq, ne, lt, le, gt, ge]

/-- Place of the operator in jump order. -/
def index : Comparison → Nat
  | eq => 0
  | ne => 1
  | lt => 2
  | le => 3
  | gt => 4
  | ge => 5

/-- The operator that holds exactly when the given one does not. -/
def negation : Comparison → Comparison
  | eq => ne
  | ne => eq
  | lt => ge
  | le => gt
  | gt => le
  | ge => lt

/-- References can only be compared by these. -/
def isEquality : Comparison → Bool
  | eq | ne => true
  | _ => false

/-- Signed comparison of two words. -/
def holds (rel : Comparison) (a b : Int32) : Bool :=
  match rel with
  | eq => a == b
  | ne => a != b
  | lt => decide (a < b)
  | le => decide (a ≤ b)
  | gt => decide (b < a)
  | ge => decide (b ≤ a)

@[simp] theorem negation_negation (rel : Comparison) : rel.negation.negation = rel := by
  cases rel <;> rfl

end Comparison

end MicroJava
