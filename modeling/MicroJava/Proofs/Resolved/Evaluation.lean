import Mathlib.Algebra.GroupWithZero.Nat
import MicroJava.Proofs.Resolved.Tree
import MicroJava.Text.Blank

/-! # Evaluating resolved programs

The meaning of a program, read off its tree: no instructions, no stack, no addresses. Operands are
evaluated from left to right, and the object and index of a place before whatever is stored there.
Values are words or references; a reference is nothing or the number of an object, and arithmetic on
references has no meaning. Words are calculated with as the integers they stand for. Recursion and
loops are bounded by fuel; a run that had enough of it does not depend on how much. -/

namespace MicroJava.Resolved

/-- Fewer than 2^31 objects can be told apart. -/
def maxObjects : Nat := 2147483647

/-- The number of an object. -/
abbrev ObjectId := Fin maxObjects

inductive Value where
  | word (w : Int32)
  | ref (object : Option ObjectId)
  deriving DecidableEq, Repr

/-- The value of a variable that has not been assigned to. -/
def zeroOf : Ty → Value
  | .array _ | .object _ => .ref none
  | _ => .word 0

inductive Obj where
  | record (cls : ClassId) (fields : Array Value)
  /-- An array of anything but characters. -/
  | cells (elem : Ty) (elems : Array Value)
  | chars (elems : Array UInt8)
  deriving DecidableEq, Repr

namespace Obj

/-- The length of an array. -/
def length? : Obj → Option Nat
  | record _ _ => none
  | cells _ elems => some elems.size
  | chars elems => some elems.size

/-- An element of an array. -/
def get? : Obj → Nat → Option Value
  | record _ _, _ => none
  | cells _ elems, k => elems[k]?
  | chars elems, k => elems[k]?.map fun b => .word (Int32.ofNat b.toNat)

/-- A character in an array keeps its code modulo 256. -/
def charByte (w : Int32) : UInt8 := UInt8.ofNat (w.toUInt32.toNat % 256)

/-- An array with an element replaced. Only words fit among characters. -/
def put : Obj → Nat → Value → Option Obj
  | record _ _, _, _ => none
  | cells elem elems, k, v => some (.cells elem (elems.setIfInBounds k v))
  | chars elems, k, .word x => some (.chars (elems.setIfInBounds k (charByte x)))
  | chars _, _, .ref _ => none

end Obj

/-! ## Words -/

namespace Word

/-- The value of `a op b`, if it does not divide by zero. A quotient is cut off toward zero, and
whatever is too large wraps around. -/
def calculate (op : Arithmetic) (a b : Int32) : Option Int32 :=
  match op with
  | .add => some (.ofInt (a.toInt + b.toInt))
  | .sub => some (.ofInt (a.toInt - b.toInt))
  | .mul => some (.ofInt (a.toInt * b.toInt))
  | .div => if b.toInt = 0 then none else some (.ofInt (a.toInt.tdiv b.toInt))
  | .rem => if b.toInt = 0 then none else some (.ofInt (a.toInt.tmod b.toInt))

/-- Whether `a rel b` is true. -/
def related (rel : Comparison) (a b : Int32) : Bool :=
  match rel with
  | .eq => decide (a.toInt = b.toInt)
  | .ne => decide (a.toInt ≠ b.toInt)
  | .lt => decide (a.toInt < b.toInt)
  | .le => decide (a.toInt ≤ b.toInt)
  | .gt => decide (a.toInt > b.toInt)
  | .ge => decide (a.toInt ≥ b.toInt)

/-- The number in front of a text, and the text behind it. White space comes before it, and perhaps
a minus sign. Its digits are counted modulo 2^32, and where none are counted there is no number. -/
def scan (text : List Char) : Option Int × List Char :=
  let signed := text.dropWhile Text.isBlank
  let negative := signed.head? = some '-'
  let unsigned := if negative then signed.tail else signed
  let digits := unsigned.takeWhile Char.isDigit
  let value : Int := Nat.ofDigitChars 10 digits 0
  let number := if negative then -value else value
  (if 2 ^ 32 ∣ digits.length then none else some number, unsigned.dropWhile Char.isDigit)

/-- The character that a word is the code of, or a question mark. -/
def character (w : Int32) : Char :=
  if 0 ≤ w.toInt ∧ w.toInt.toNat.isValidChar then Char.ofNat w.toInt.toNat else '?'

/-- A text at the right edge of a field. A field is never wider than 255. -/
def inField (width : Int32) (text : String) : String :=
  String.ofList (List.replicate ((min width.toInt 255).toNat - text.length) ' ') ++ text

end Word

/-- Everything a program can change. -/
structure World where
  globals : Array Value
  heap : Array Obj
  /-- Variables of the running method. -/
  frame : Array Value
  input : List Char
  output : String
  deriving DecidableEq, Repr

/-- What can go wrong in a correct program. -/
inductive Failure where
  | divisionByZero
  | nullReference
  | outOfBounds (index : Int32) (length : Nat)
  | negativeSize (size : Int32)
  | endOfInput
  /-- A method ended without returning its value. -/
  | missingReturn
  deriving DecidableEq, Repr

/-- Why an evaluation does not go on. -/
inductive Stop where
  | failure (failure : Failure)
  /-- The operation has no meaning for these operands. -/
  | stuck
  /-- There is no number for another object. -/
  | exhausted
  | outOfFuel
  deriving DecidableEq, Repr

abbrev Eval := EStateM Stop World

namespace Eval

def fail {α : Type} (f : Failure) : Eval α := throw (.failure f)

def stuck {α : Type} : Eval α := throw .stuck

/-- The value, if there is one. -/
def orStuck {α : Type} : Option α → Eval α
  | some a => return a
  | none => stuck

def word : Value → Eval Int32
  | .word w => return w
  | .ref _ => stuck

/-- The number of an object, and the object. -/
def dereference : Value → Eval (Nat × Obj)
  | .word _ => stuck
  | .ref none => fail .nullReference
  | .ref (some i) => return (i.val, ← orStuck (← get).heap[i.val]?)

/-- Creates an object. -/
def allocate (o : Obj) : Eval Value := do
  let heap := (← get).heap
  if h : heap.size < maxObjects then
    modify fun w => { w with heap := w.heap.push o }
    return .ref (some ⟨heap.size, h⟩)
  else
    throw .exhausted

def replace (i : Nat) (o : Obj) : Eval Unit :=
  modify fun w => { w with heap := w.heap.setIfInBounds i o }

/-- The place in an array of the given length that an index points to. -/
def position (index : Int32) (length : Nat) : Eval Nat :=
  if 0 ≤ index.toInt ∧ index.toInt < length then return index.toInt.toNat
  else fail (.outOfBounds index length)

/-- An array of the given length whose elements have not been assigned to. -/
def blankArray (elem : Ty) (length : Nat) : Obj :=
  if elem = .char then .chars (Array.replicate length 0)
  else .cells elem (Array.replicate length (zeroOf elem))

/-- References are the same or not; only words have an order. -/
def compare (rel : Comparison) : Value → Value → Eval Bool
  | .word a, .word b => return Word.related rel a b
  | .ref a, .ref b =>
      match rel with
      | .eq => return decide (a = b)
      | .ne => return decide (a ≠ b)
      | _ => stuck
  | _, _ => stuck

def print (text : String) : Eval Unit := modify fun w => { w with output := w.output ++ text }

def readValue : Textual → Eval Value
  | .number => do
      let (number, rest) := Word.scan (← get).input
      modify fun w => { w with input := rest }
      match number with
      | some n => return .word (.ofInt n)
      | none => fail .endOfInput
  | .char => do
      match (← get).input with
      | c :: rest =>
          modify fun w => { w with input := rest }
          return .word (Int32.ofNat c.toNat)
      | [] => fail .endOfInput

/-- The text of a value in a field of the given width. -/
def printed (form : Textual) (w width : Int32) : String :=
  match form with
  | .number => Word.inField width (toString w.toInt)
  | .char => Word.inField width (Word.character w).toString

end Eval

/-- A place whose object and index have been evaluated. -/
inductive Slot where
  | frame (slot : Nat)
  | global (adr : Nat)
  | field (object : Value) (adr : Nat)
  | element (array index : Value)

namespace Slot

open Eval

def read : Slot → Eval Value
  | frame slot => do orStuck (← get).frame[slot]?
  | global adr => do orStuck (← get).globals[adr]?
  | field object adr => do
      match ← dereference object with
      | (_, .record _ fields) => orStuck fields[adr]?
      | _ => stuck
  | element array index => do
      let index ← word index
      let (_, o) ← dereference array
      let length ← orStuck o.length?
      orStuck (o.get? (← position index length))

def write (v : Value) : Slot → Eval Unit
  | frame slot => do
      if slot < (← get).frame.size then
        modify fun w => { w with frame := w.frame.setIfInBounds slot v }
      else stuck
  | global adr => do
      if adr < (← get).globals.size then
        modify fun w => { w with globals := w.globals.setIfInBounds adr v }
      else stuck
  | field object adr => do
      match ← dereference object with
      | (i, .record cls fields) =>
          if adr < fields.size then replace i (.record cls (fields.setIfInBounds adr v)) else stuck
      | _ => stuck
  | element array index => do
      let index ← word index
      let (i, o) ← dereference array
      let length ← orStuck o.length?
      replace i (← orStuck (o.put (← position index length) v))

end Slot

/-- What a call does: the method's number and the arguments in, the result out. -/
abbrev CallRule := Nat → List Value → Eval (Option Value)

section Expressions

variable (P : Program) (calls : CallRule)

open Eval

mutual

/-- Evaluates the object and the index of a location. -/
def Location.locate : Location → Eval Slot
  | .frame slot => return .frame slot
  | .global adr => return .global adr
  | .field object adr => return .field (← object.eval) adr
  | .element array index _ => return .element (← array.eval) (← index.eval)

def Expr.eval : Expr → Eval Value
  | .constant v => return .word v
  | .value source => do (← source.locate).read
  | .call method args => do orStuck (← calls method (← evalArgs args))
  | .convert operand => operand.eval
  | .length array => do
      let (_, o) ← dereference (← array.eval)
      return .word (Int32.ofNat (← orStuck o.length?))
  | .newObject cls =>
      if (P.fields cls).length ≤ maxFields then
        allocate (.record cls ((P.fields cls).map zeroOf).toArray)
      else stuck
  | .newArray elem size => do
      let n ← word (← size.eval)
      if n.toInt < 0 then fail (.negativeSize n) else allocate (blankArray elem n.toInt.toNat)
  | .negate operand => return .word (.ofInt (-(← word (← operand.eval)).toInt))
  | .binary op left right => do
      let a ← word (← left.eval)
      let b ← word (← right.eval)
      match Word.calculate op a b with
      | some v => return .word v
      | none => fail .divisionByZero

def evalArgs : List Expr → Eval (List Value)
  | [] => return []
  | arg :: rest => return (← arg.eval) :: (← evalArgs rest)

end

def Condition.eval (c : Condition) : Eval Bool := do
  let a ← c.left.eval P calls
  let b ← c.right.eval P calls
  compare c.rel a b

end Expressions

/-- How a statement ends. -/
inductive Signal where
  | proceed
  | returned (value : Option Value)
  deriving DecidableEq, Repr

/-- Repeats a body while a condition holds, at most as many times as there is fuel. -/
def repeatWhile (cond : Eval Bool) (body : Eval Signal) : (fuel : Nat) → Eval Signal
  | 0 => throw .outOfFuel
  | fuel + 1 => do
      if ← cond then
        match ← body with
        | .proceed => repeatWhile cond body fuel
        | signal => return signal
      else return .proceed

section Statements

variable (P : Program) (calls : CallRule) (fuel : Nat)

open Eval

mutual

def Stmt.eval : Stmt → Eval Signal
  | .assign target value => do
      let slot ← target.locate P calls
      slot.write (← value.eval P calls)
      return .proceed
  | .perform method args => do
      match ← calls method (← evalArgs P calls args) with
      | none => return .proceed
      | some _ => stuck
  | .discard call => do
      let _ ← call.eval P calls
      return .proceed
  | .ifThen cond body => do
      if ← cond.eval P calls then body.eval else return .proceed
  | .ifElse cond body alternative => do
      if ← cond.eval P calls then body.eval else alternative.eval
  | .loop cond body => repeatWhile (cond.eval P calls) body.eval fuel
  | .ret (some value) => return .returned (some (← value.eval P calls))
  | .ret none => return .returned none
  | .read form target => do
      let slot ← target.locate P calls
      slot.write (← readValue form)
      return .proceed
  | .print form value width => do
      let w ← word (← value.eval P calls)
      print (printed form w width)
      return .proceed
  | .block body => evalStmts body
  | .empty => return .proceed

def evalStmts : List Stmt → Eval Signal
  | [] => return .proceed
  | s :: rest => do
      match ← s.eval with
      | .proceed => evalStmts rest
      | signal => return signal

end

end Statements

/-- The variables of a method that is called with the given arguments. -/
def Method.fresh (m : Method) (args : List Value) : Array Value :=
  (args ++ m.locals.map zeroOf).toArray

/-- What a method gives back, from how its body ended. -/
def Method.outcome (m : Method) : Signal → Eval (Option Value)
  | .returned v => return v
  | .proceed => if m.result = .void then return none else Eval.fail .missingReturn

/-- Runs a method on its arguments. -/
def Method.activate (P : Program) (calls : CallRule) (fuel : Nat) (m : Method) (args : List Value) :
    Eval (Option Value) := do
  modify fun w => { w with frame := m.fresh args }
  m.outcome (← evalStmts P calls fuel m.body)

/-- Calls a method. The caller's variables are back when it returns. -/
def Program.call (P : Program) : (fuel : Nat) → CallRule
  | 0, _, _ => throw .outOfFuel
  | fuel + 1, index, args => do
      let m ← Eval.orStuck P.methods[index]?
      if args.length = m.params.length then
        let caller := (← get).frame
        let value ← m.activate P (P.call fuel) fuel args
        modify fun w => { w with frame := caller }
        return value
      else Eval.stuck

/-- The world before a program runs. -/
def Program.start (P : Program) (input : String) : World where
  globals := (P.globals.map zeroOf).toArray
  heap := #[]
  frame := #[]
  input := input.toList
  output := ""

/-- Runs a program on an input text. -/
def Program.evaluate (P : Program) (input : String) (fuel : Nat) :
    EStateM.Result Stop World (Option Value) :=
  (do P.call fuel (← Eval.orStuck P.main?) []) (P.start input)

/-! ## Fuel -/

/-- The second evaluation does what the first one does, unless that one runs out of fuel. -/
def Eval.Extends {α : Type} (a b : Eval α) : Prop :=
  ∀ w, (∃ w', a w = .error .outOfFuel w') ∨ b w = a w

namespace Eval.Extends

variable {α β : Type} {a a' : Eval α} {f f' : α → Eval β}

theorem refl (a : Eval α) : Extends a a := fun _ => .inr rfl

theorem outOfFuel (b : Eval α) : Extends (throw .outOfFuel) b := fun w => .inl ⟨w, rfl⟩

theorem bind (ha : Extends a a') (hf : ∀ x, Extends (f x) (f' x)) :
    Extends (a >>= f) (a' >>= f') := by
  intro w
  change (∃ w', EStateM.bind a f w = _) ∨ EStateM.bind a' f' w = EStateM.bind a f w
  rcases ha w with ⟨w', h⟩ | h
  · exact .inl ⟨w', by rw [EStateM.bind, h]⟩
  · rw [EStateM.bind, EStateM.bind, h]
    cases a w with
    | ok x w' => exact hf x w'
    | error e w' => exact .inr rfl

/-- What follows an evaluation that stays as it is. -/
theorem andThen (a : Eval α) (hf : ∀ x, Extends (f x) (f' x)) : Extends (a >>= f) (a >>= f') :=
  (refl a).bind hf

/-- An evaluation in front of what stays as it is. -/
theorem before (ha : Extends a a') (f : α → Eval β) : Extends (a >>= f) (a' >>= f) :=
  ha.bind fun x => refl (f x)

end Eval.Extends

section Fuel

open Eval (Extends)

/-- Each call of the first rule, as far as its fuel lasts. -/
def CallsExtend (calls calls' : CallRule) : Prop :=
  ∀ index args, Extends (calls index args) (calls' index args)

variable {P : Program} {calls calls' : CallRule} {fuel fuel' : Nat}

mutual

theorem Location.locate_extends (hcalls : CallsExtend calls calls') : (loc : Location) →
    Extends (loc.locate P calls) (loc.locate P calls')
  | .frame _ | .global _ => by
      rw [Location.locate, Location.locate]
      exact .refl _
  | .field object _ => by
      rw [Location.locate, Location.locate]
      exact (Expr.eval_extends hcalls object).before _
  | .element array index _ => by
      rw [Location.locate, Location.locate]
      exact (Expr.eval_extends hcalls array).bind fun _ => (Expr.eval_extends hcalls index).before _

theorem Expr.eval_extends (hcalls : CallsExtend calls calls') : (e : Expr) →
    Extends (e.eval P calls) (e.eval P calls')
  | .constant _ | .newObject _ => by
      rw [Expr.eval, Expr.eval]
      exact .refl _
  | .value source => by
      rw [Expr.eval, Expr.eval]
      exact (Location.locate_extends hcalls source).before _
  | .call method args => by
      rw [Expr.eval, Expr.eval]
      exact (evalArgs_extends hcalls args).bind fun vs => (hcalls method vs).before _
  | .convert operand => by
      rw [Expr.eval, Expr.eval]
      exact Expr.eval_extends hcalls operand
  | .length operand | .newArray _ operand | .negate operand => by
      rw [Expr.eval, Expr.eval]
      exact (Expr.eval_extends hcalls operand).before _
  | .binary _ left right => by
      rw [Expr.eval, Expr.eval]
      refine (Expr.eval_extends hcalls left).bind fun _ => .andThen _ fun _ => ?_
      exact (Expr.eval_extends hcalls right).before _

theorem evalArgs_extends (hcalls : CallsExtend calls calls') : (args : List Expr) →
    Extends (evalArgs P calls args) (evalArgs P calls' args)
  | [] => by
      rw [evalArgs, evalArgs]
      exact .refl _
  | arg :: rest => by
      rw [evalArgs, evalArgs]
      exact (Expr.eval_extends hcalls arg).bind fun _ => (evalArgs_extends hcalls rest).before _

end

theorem Condition.eval_extends (hcalls : CallsExtend calls calls') (c : Condition) :
    Extends (c.eval P calls) (c.eval P calls') :=
  (Expr.eval_extends hcalls c.left).bind fun _ => (Expr.eval_extends hcalls c.right).before _

theorem repeatWhile_extends {cond cond' : Eval Bool} {body body' : Eval Signal}
    (hcond : Extends cond cond') (hbody : Extends body body') {n n' : Nat} (hn : n ≤ n') :
    Extends (repeatWhile cond body n) (repeatWhile cond' body' n') := by
  induction n generalizing n' with
  | zero => exact .outOfFuel _
  | succ n ih =>
      obtain ⟨n', rfl⟩ := Nat.exists_eq_add_of_lt (Nat.lt_of_succ_le hn)
      rw [repeatWhile, repeatWhile]
      refine hcond.bind fun holds => ?_
      cases holds with
      | false => exact .refl _
      | true =>
          refine hbody.bind fun signal => ?_
          cases signal with
          | proceed => exact ih (Nat.le_add_right n n')
          | returned _ => exact .refl _

mutual

theorem Stmt.eval_extends (hcalls : CallsExtend calls calls') (hfuel : fuel ≤ fuel') : (s : Stmt) →
    Extends (s.eval P calls fuel) (s.eval P calls' fuel')
  | .assign target value => by
      rw [Stmt.eval, Stmt.eval]
      refine (Location.locate_extends hcalls target).bind fun _ => ?_
      exact (Expr.eval_extends hcalls value).before _
  | .perform method args => by
      rw [Stmt.eval, Stmt.eval]
      exact (evalArgs_extends hcalls args).bind fun vs => (hcalls method vs).before _
  | .discard call => by
      rw [Stmt.eval, Stmt.eval]
      exact (Expr.eval_extends hcalls call).before _
  | .ifThen cond body => by
      rw [Stmt.eval, Stmt.eval]
      refine (cond.eval_extends hcalls).bind fun holds => ?_
      cases holds with
      | false => exact .refl _
      | true => exact Stmt.eval_extends hcalls hfuel body
  | .ifElse cond body alternative => by
      rw [Stmt.eval, Stmt.eval]
      refine (cond.eval_extends hcalls).bind fun holds => ?_
      cases holds with
      | false => exact Stmt.eval_extends hcalls hfuel alternative
      | true => exact Stmt.eval_extends hcalls hfuel body
  | .loop cond body => by
      rw [Stmt.eval, Stmt.eval]
      exact repeatWhile_extends (cond.eval_extends hcalls) (Stmt.eval_extends hcalls hfuel body) hfuel
  | .ret (some value) => by
      rw [Stmt.eval, Stmt.eval]
      exact (Expr.eval_extends hcalls value).before _
  | .read _ target => by
      rw [Stmt.eval, Stmt.eval]
      exact (Location.locate_extends hcalls target).before _
  | .print _ value _ => by
      rw [Stmt.eval, Stmt.eval]
      exact (Expr.eval_extends hcalls value).before _
  | .block body => by
      rw [Stmt.eval, Stmt.eval]
      exact evalStmts_extends hcalls hfuel body
  | .ret none | .empty => by
      rw [Stmt.eval, Stmt.eval]
      exact .refl _

theorem evalStmts_extends (hcalls : CallsExtend calls calls') (hfuel : fuel ≤ fuel') :
    (ss : List Stmt) → Extends (evalStmts P calls fuel ss) (evalStmts P calls' fuel' ss)
  | [] => by
      rw [evalStmts, evalStmts]
      exact .refl _
  | s :: rest => by
      rw [evalStmts, evalStmts]
      refine (Stmt.eval_extends hcalls hfuel s).bind fun signal => ?_
      cases signal with
      | proceed => exact evalStmts_extends hcalls hfuel rest
      | returned _ => exact .refl _

end

end Fuel

end MicroJava.Resolved
