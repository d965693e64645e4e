import MicroJava.Instruction.Decoding
import MicroJava.Machine.Heap

/-! # Faults

Why a run stops before its end, and the wording. -/

namespace MicroJava

inductive Fault where
  | decode (error : DecodeError)
  | pcOutOfRange (pc : Nat)
  | stackUnderflow (pc : Nat)
  | stackOverflow (limit : Nat)
  | callDepth (limit : Nat)
  | stepLimit (limit : Nat)
  | noFrame (pc : Nat)
  | noLocal (slot pc : Nat)
  | noGlobal (adr pc : Nat)
  | access (error : AccessError) (pc : Nat)
  | divisionByZero (pc : Nat)
  | negativeSize (size : Int32) (pc : Nat)
  | endOfInput (pc : Nat)
  | trap (code : UInt8) (pc : Nat)
  deriving DecidableEq, Repr

namespace Fault

def invalid (what : String) (index pc : Nat) : String :=
  "invalid " ++ what ++ " " ++ toString index ++ " at " ++ toString pc

def text : Fault → String
  | decode error => error.text
  | pcOutOfRange pc => "pc " ++ toString pc ++ " is outside the code"
  | stackUnderflow pc => "stack underflow at " ++ toString pc
  | stackOverflow limit => "stack size limit exceeded (" ++ toString limit ++ ")"
  | callDepth limit =>
      "call depth limit exceeded (" ++ toString limit ++ ") - possible infinite recursion"
  | stepLimit limit => "execution step limit exceeded (" ++ toString limit ++ ")"
  | noFrame pc => "no frame for local access at " ++ toString pc
  | noLocal slot pc => invalid "local" slot pc
  | noGlobal adr pc => invalid "global" adr pc
  | access .nullReference pc => "null reference at " ++ toString pc
  | access .wrongObject pc => "wrong kind of object at " ++ toString pc
  | access (.noField adr) pc => invalid "field" adr pc
  | access (.outOfBounds index length) pc =>
      "index " ++ toString index.toInt ++ " out of bounds for length " ++ toString length ++
        " at " ++ toString pc
  | divisionByZero pc => "division by zero at " ++ toString pc
  | negativeSize size pc => "negative array size " ++ toString size.toInt ++ " at " ++ toString pc
  | endOfInput pc => "end of input at " ++ toString pc
  | trap code pc =>
      "trap " ++ toString code.toNat ++ " at " ++ toString pc ++
        (if code = Instruction.missingReturn then ": function ended without return" else "")

end Fault

end MicroJava
