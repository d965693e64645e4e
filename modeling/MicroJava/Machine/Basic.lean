import MicroJava.Arithmetic
import MicroJava.Machine.Fault
import MicroJava.ObjectFile

/-! # The machine

A stack of words, frames with local variables, return addresses, global words and a heap. The state
outlives a run: a later run starts with everything the earlier one left behind. A fault keeps the
state as it was when the fault arose. -/

namespace MicroJava

structure Limits where
  /-- Return addresses at any time. -/
  callDepth : Nat := 1000
  /-- Words on the stack at any time. -/
  stack : Nat := 10000
  /-- Instructions in all runs together. -/
  steps : Option Nat := none
  deriving DecidableEq, Repr

structure Machine where
  globals : Array Int32
  heap : Heap
  stack : Array Int32
  /-- Local variables of the active methods, innermost first. -/
  frames : List (Array Int32)
  /-- Return addresses, innermost last. -/
  calls : Array Nat
  /-- Input not yet read. -/
  input : List Char
  output : String
  /-- How often the instruction at each address was executed. -/
  visits : Array Nat
  /-- Instructions started. -/
  steps : Nat
  /-- A reference or a count of digits has left the range of a word. A build that checks for
  overflow stops where that happens; any other goes on with the word that it wraps around to. -/
  overflowed : Bool
  deriving DecidableEq, Repr

namespace Machine

/-- The machine with a program loaded. -/
def load (object : ObjectFile) : Machine where
  globals := Array.replicate object.dataSize.toNat 0
  heap := #[]
  stack := #[]
  frames := []
  calls := #[]
  input := []
  output := ""
  visits := Array.replicate object.code.size 0
  steps := 0
  overflowed := false

def withInput (m : Machine) (text : String) : Machine := { m with input := text.toList }

/-- Remembers an overflow. -/
def noting (m : Machine) (overflow : Bool) : Machine :=
  { m with overflowed := m.overflowed || overflow }

end Machine

/-- A part of a run. -/
abbrev Exec := EStateM Fault Machine

namespace Exec

/-! ## Stack -/

def push (limits : Limits) (value : Int32) : Exec Unit := fun m =>
  if m.stack.size < limits.stack then .ok () { m with stack := m.stack.push value }
  else .error (.stackOverflow limits.stack) m

def pop (pc : Nat) : Exec Int32 := fun m =>
  match m.stack.back? with
  | some value => .ok value { m with stack := m.stack.pop }
  | none => .error (.stackUnderflow pc) m

/-! ## Variables -/

def getLocal (slot pc : Nat) : Exec Int32 := fun m =>
  match m.frames with
  | [] => .error (.noFrame pc) m
  | frame :: _ =>
      match frame[slot]? with
      | some value => .ok value m
      | none => .error (.noLocal slot pc) m

def setLocal (slot pc : Nat) (value : Int32) : Exec Unit := fun m =>
  match m.frames with
  | [] => .error (.noFrame pc) m
  | frame :: outer =>
      if slot < frame.size then
        .ok () { m with frames := frame.setIfInBounds slot value :: outer }
      else .error (.noLocal slot pc) m

def getGlobal (adr pc : Nat) : Exec Int32 := fun m =>
  match m.globals[adr]? with
  | some value => .ok value m
  | none => .error (.noGlobal adr pc) m

def setGlobal (adr pc : Nat) (value : Int32) : Exec Unit := fun m =>
  if adr < m.globals.size then .ok () { m with globals := m.globals.setIfInBounds adr value }
  else .error (.noGlobal adr pc) m

/-! ## Heap -/

def alloc (o : HeapObject) : Exec Int32 := fun m =>
  let (ref, heap) := m.heap.alloc o
  .ok ref { m with heap }

/-- Looks something up on the heap, where the reference is followed by subtracting one from it. -/
def onHeap {α : Type} (ref : Int32) (pc : Nat) (find : Heap → Except AccessError α) : Exec α :=
  fun m =>
    let m := m.noting (overflows (ref.toInt - 1))
    match find m.heap with
    | .ok a => .ok a m
    | .error e => .error (.access e pc) m

def readSlot (slot : HeapSlot) : Exec Int32 := return (← get).heap.read slot

def writeSlot (slot : HeapSlot) (value : Int32) : Exec Unit :=
  modify fun m => { m with heap := m.heap.write slot value }

/-! ## Frames and calls -/

/-- Opens a frame of `size` words whose first ones are the topmost `params` words of the stack. With
too few of them, those that are there are lost. -/
def enter (params size pc : Nat) : Exec Unit := fun m =>
  if params ≤ m.stack.size then
    let base := m.stack.size - params
    let args := m.stack.extract base m.stack.size
    .ok () { m with
      stack := m.stack.shrink base
      frames := (args ++ Array.replicate (size - params) 0) :: m.frames }
  else .error (.stackUnderflow pc) { m with stack := #[] }

def exit (pc : Nat) : Exec Unit := fun m =>
  match m.frames with
  | [] => .error (.noFrame pc) m
  | _ :: outer => .ok () { m with frames := outer }

def call (limits : Limits) (back : Nat) : Exec Unit := fun m =>
  if m.calls.size < limits.callDepth then .ok () { m with calls := m.calls.push back }
  else .error (.callDepth limits.callDepth) m

/-- The innermost return address; none when the outermost method returns. -/
def back : Exec (Option Nat) := fun m =>
  match m.calls.back? with
  | some pc => .ok (some pc) { m with calls := m.calls.pop }
  | none => .ok none m

/-! ## Input and output -/

def readChar (pc : Nat) : Exec Char := fun m =>
  match m.input with
  | [] => .error (.endOfInput pc) m
  | c :: rest => .ok c { m with input := rest }

def print (text : String) : Exec Unit := modify fun m => { m with output := m.output ++ text }

end Exec

end MicroJava
