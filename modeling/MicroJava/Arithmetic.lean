/-! # Word arithmetic

The five binary operations on 32-bit words. All of them wrap around; division and remainder
truncate toward zero and have no value for a zero divisor. -/

namespace MicroJava

inductive Arithmetic where
  | add
  | sub
  | mul
  | div
  | rem
  deriving DecidableEq, Repr, Inhabited

/-- The value of `a op b`, or nothing when it divides by zero. -/
def Arithmetic.eval (op : Arithmetic) (a b : Int32) : Option Int32 :=
  match op with
  | add => some (a + b)
  | sub => some (a - b)
  | mul => some (a * b)
  | div => if b = 0 then none else some (a / b)
  | rem => if b = 0 then none else some (a % b)

/-- No word is this number. A calculation that arrives at it wraps around, or it stops the program
where overflow is checked. -/
def overflows (n : Int) : Bool := (Int32.ofInt n).toInt != n

end MicroJava
