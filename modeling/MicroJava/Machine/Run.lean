import MicroJava.Machine.Basic
import MicroJava.Machine.Numeral

/-! # Running code

A step counts itself, decodes the instruction at the current address and carries it out. A run
starts at `main` and ends when the outermost method returns. -/

namespace MicroJava

/-- Where a run goes on. -/
inductive Control where
  | goto (pc : Nat)
  | halt
  deriving DecidableEq, Repr

namespace Exec

/-- The widest field that is filled up. -/
def maxPrintWidth : Nat := 255

/-- The field width that a word asks for. -/
def fieldWidth (w : Int32) : Nat := min w.toInt.toNat maxPrintWidth

/-- The character that a word denotes, or a question mark. -/
def charOf (w : Int32) : Char :=
  let n := w.toUInt32.toNat
  if n.isValidChar then Char.ofNat n else '?'

def binary (limits : Limits) (op : Arithmetic) (pc : Nat) : Exec Unit := do
  let b ← pop pc
  let a ← pop pc
  match op.eval a b with
  | some value => push limits value
  | none => throw (.divisionByZero pc)

/-- A zero-filled array. -/
def newArray (limits : Limits) (size : ElemSize) (pc : Nat) : Exec Unit := do
  let n ← pop pc
  if n < 0 then throw (.negativeSize n pc)
  let length := n.toInt.toNat
  match size with
  | .byte => push limits (← alloc (.bytes (Array.replicate length 0)))
  | .word => push limits (← alloc (.words (Array.replicate length 0)))

def readNumber (pc : Nat) : Exec Int32 := fun m =>
  let found := Numeral.read m.input
  let m := { m with input := found.rest }.noting found.overflowed
  match found.number with
  | some value => .ok value m
  | none => .error (.endOfInput pc) m

/-- Carries out the instruction at `pc`, where the next one is at `next`. -/
def execute (limits : Limits) (pc next : Nat) (i : Instruction) : Exec Control := do
  match i with
  | .load slot => push limits (← getLocal slot.toNat pc)
  | .store slot => setLocal slot.toNat pc (← pop pc)
  | .getStatic adr => push limits (← getGlobal adr.toNat pc)
  | .putStatic adr => setGlobal adr.toNat pc (← pop pc)
  | .getField adr =>
      let ref ← pop pc
      let slot ← onHeap ref pc fun h => h.field ref adr.toNat
      push limits (← readSlot slot)
  | .putField adr =>
      let value ← pop pc
      let ref ← pop pc
      let slot ← onHeap ref pc fun h => h.field ref adr.toNat
      writeSlot slot value
  | .const value => push limits value
  | .arith op => binary limits op pc
  | .neg => push limits (-(← pop pc))
  | .new fields => push limits (← alloc (.record (Array.replicate fields.toNat 0)))
  | .newArray size => newArray limits size pc
  | .loadElem _ =>
      let index ← pop pc
      let ref ← pop pc
      let slot ← onHeap ref pc fun h => h.element ref index
      push limits (← readSlot slot)
  | .storeElem _ =>
      let value ← pop pc
      let index ← pop pc
      let ref ← pop pc
      let slot ← onHeap ref pc fun h => h.element ref index
      writeSlot slot value
  | .arrayLength =>
      let ref ← pop pc
      let n ← onHeap ref pc fun h => h.length ref
      push limits (Int32.ofNat n)
  | .pop => discard <| pop pc
  | .jump target => return .goto target.toNat
  | .jumpIf rel target =>
      let b ← pop pc
      let a ← pop pc
      if rel.holds a b then return .goto target.toNat
  | .call target =>
      call limits next
      return .goto target.toNat
  | .ret =>
      match ← back with
      | some caller => return .goto caller
      | none => return .halt
  | .enter params locals => enter params.toNat (max locals.toNat params.toNat) pc
  | .exit => exit pc
  | .read => push limits (← readNumber pc)
  | .readChar => push limits (Int32.ofNat (← readChar pc).toNat)
  | .print =>
      let width ← pop pc
      let value ← pop pc
      print (Decimal.alignRight (fieldWidth width) (Decimal.ofInt value.toInt))
  | .printChar =>
      let width ← pop pc
      let value ← pop pc
      print (Decimal.alignRight (fieldWidth width) (charOf value).toString)
  | .trap code => throw (.trap code pc)
  return .goto next

/-- Counts an instruction, if one more is allowed. -/
def tick (limits : Limits) : Exec Unit := fun m =>
  let m := { m with steps := m.steps + 1 }
  match limits.steps with
  | some n => if n < m.steps then .error (.stepLimit n) m else .ok () m
  | none => .ok () m

/-- The instruction at `pc` and the address behind it. -/
def fetch (object : ObjectFile) (pc : Nat) : Exec (Instruction × Nat) := fun m =>
  match Instruction.decode object.code pc with
  | .ok found => .ok found { m with visits := m.visits.modify pc (· + 1) }
  | .error e =>
      if pc < object.code.size then .error (.decode e) m else .error (.pcOutOfRange pc) m

def step (object : ObjectFile) (limits : Limits) (pc : Nat) : Exec Control := do
  tick limits
  let (i, next) ← fetch object pc
  execute limits pc next i

/-- Runs at most `fuel` instructions from `pc` on. Gives the address reached if the program has not
ended by then. -/
def runFrom (object : ObjectFile) (limits : Limits) : (fuel pc : Nat) → Exec (Option Nat)
  | 0, pc => return some pc
  | fuel + 1, pc => do
      match ← step object limits pc with
      | .goto pc => runFrom object limits fuel pc
      | .halt => return none

/-- Runs from `main` on. -/
def run (object : ObjectFile) (limits : Limits) (fuel : Nat) : Exec (Option Nat) :=
  runFrom object limits fuel object.mainPc.toNat

/-- Runs from `main` to the end under a limit on the steps of all runs together; the limit also
bounds the fuel. -/
def runWithin (object : ObjectFile) (limits : Limits) (maxSteps : Nat) : Exec Unit := do
  let done := (← get).steps
  discard <| run object { limits with steps := some maxSteps } (maxSteps - done + 1)

end Exec

end MicroJava
