import Mathlib.Logic.Relation
import MicroJava.Proofs.Machine.Unlimited

/-! # Runs that follow each other

A machine is given input and run any number of times, each run starting from what the earlier ones
left behind. Between two instructions of a run nothing else happens. -/

namespace MicroJava

/-- What a machine is about to do: nothing, or the instruction at an address. -/
inductive Stage where
  | idle
  | running (pc : Nat)
  deriving DecidableEq, Repr

namespace Stage

/-- Where a step leaves a machine. A fault ends the run. -/
def ofStep : EStateM.Result Fault Machine Control → Stage
  | .ok (.goto pc) _ => .running pc
  | .ok .halt _ | .error _ _ => .idle

/-- Where a run leaves a machine. It is still under way when its fuel is used up. -/
def ofRun : EStateM.Result Fault Machine (Option Nat) → Stage
  | .ok (some pc) _ => .running pc
  | .ok none _ | .error _ _ => .idle

end Stage

/-- A machine with the program it was loaded with and the input it was last given. -/
structure Situation where
  object : ObjectFile
  text : String
  stage : Stage
  machine : Machine

namespace Situation

open Exec (after)

/-- Before any input and any run. -/
def fresh (object : ObjectFile) : Situation := ⟨object, "", .idle, .load object⟩

/-- After the instruction at the given address. -/
def step (limits : Limits) (pc : Nat) (s : Situation) : Situation :=
  let result := Exec.step s.object limits pc s.machine
  { s with stage := .ofStep result, machine := after result }

/-- After at most so many instructions from the given address on. -/
def runFrom (limits : Limits) (fuel pc : Nat) (s : Situation) : Situation :=
  let result := Exec.runFrom s.object limits fuel pc s.machine
  { s with stage := .ofRun result, machine := after result }

/-- After at most so many instructions of a new run. -/
def run (limits : Limits) (fuel : Nat) (s : Situation) : Situation :=
  let result := Exec.run s.object limits fuel s.machine
  { s with stage := .ofRun result, machine := after result }

/-- New input and new runs come between runs; a run goes on by one instruction at a time. -/
inductive Move (limits : Limits) : Situation → Situation → Prop
  | input {s : Situation} (hs : s.stage = .idle) (text : String) :
      Move limits s { s with text, machine := s.machine.withInput text }
  | start {s : Situation} (hs : s.stage = .idle) :
      Move limits s { s with stage := .running s.object.mainPc.toNat }
  | step {s : Situation} {pc : Nat} (hs : s.stage = .running pc) : Move limits s (s.step limits pc)

/-- Any number of moves. -/
abbrev Reaches (limits : Limits) : Situation → Situation → Prop :=
  Relation.ReflTransGen (Move limits)

variable {limits : Limits} {s : Situation}

/-- A run goes on behind its first instruction, if that does not end it. -/
theorem runFrom_succ (limits : Limits) (fuel pc : Nat) (s : Situation) :
    s.runFrom limits (fuel + 1) pc =
      match (s.step limits pc).stage with
      | .running next => (s.step limits pc).runFrom limits fuel next
      | .idle => s.step limits pc := by
  simp only [runFrom, step, Exec.runFrom]
  cases hr : Exec.step s.object limits pc s.machine with
  | error f m' =>
      rw [bind_error hr]
      rfl
  | ok control m' =>
      rw [bind_ok hr]
      cases control with
      | goto next => rfl
      | halt => rfl

/-- A run takes one move for every instruction. -/
theorem reaches_runFrom (limits : Limits) (fuel : Nat) {pc : Nat} {s : Situation}
    (hs : s.stage = .running pc) : Reaches limits s (s.runFrom limits fuel pc) := by
  induction fuel generalizing pc s with
  | zero =>
      have hstay : s.runFrom limits 0 pc = s := by
        obtain ⟨object, text, stage, machine⟩ := s
        cases hs
        rfl
      rw [hstay]
  | succ fuel ih =>
      -- the first instruction is a move; the rest of the run starts where it leads
      refine .head (Move.step hs) ?_
      rw [runFrom_succ]
      split
      · next hstage => exact ih hstage
      · exact .refl

theorem reaches_run (hs : s.stage = .idle) (fuel : Nat) : Reaches limits s (s.run limits fuel) :=
  .head (Move.start hs) (reaches_runFrom limits fuel rfl)

end Situation

end MicroJava
