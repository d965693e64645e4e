import MicroJava.Source.Token

/-! # Reports

A reporter turns a stream of events into errors and warnings. Errors are throttled: after an error,
kept or dropped, or a resynchronisation, further errors are dropped until enough tokens have been
consumed. -/

namespace MicroJava

/-- A message about a place in the text. -/
structure Diagnostic (μ : Type) where
  message : μ
  pos : Position
  deriving DecidableEq, Repr

/-- `line L col C: message`, given the message's wording. -/
def Diagnostic.render {μ : Type} (wording : μ → String) (d : Diagnostic μ) : String :=
  "line " ++ toString d.pos.line ++ " col " ++ toString d.pos.column ++ ": " ++ wording d.message

/-- What the reporter is told. -/
inductive Event (μ : Type) where
  | consumed
  | resynced
  /-- Subject to the throttle. -/
  | error (d : Diagnostic μ)
  /-- Kept in any case, and invisible to the throttle. -/
  | unthrottled (d : Diagnostic μ)
  | warning (d : Diagnostic μ)
  deriving Repr

structure Reporter (μ : Type) where
  /-- Tokens that must separate two errors. -/
  minDistance : Nat
  /-- Tokens consumed since the last error or resynchronisation. -/
  distance : Nat
  errors : Array (Diagnostic μ)
  warnings : Array (Diagnostic μ)

namespace Reporter

variable {μ : Type}

/-- Nothing stands in the way of the first error. -/
def new (minDistance : Nat) : Reporter μ := ⟨minDistance, minDistance, #[], #[]⟩

/-- Whether an error would be kept now. -/
def keeps (r : Reporter μ) : Bool := decide (r.minDistance ≤ r.distance)

def record (r : Reporter μ) : Event μ → Reporter μ
  | .consumed => { r with distance := r.distance + 1 }
  | .resynced => { r with distance := 0 }
  | .error d =>
      if r.keeps then { r with errors := r.errors.push d, distance := 0 }
      else { r with distance := 0 }
  | .unthrottled d => { r with errors := r.errors.push d }
  | .warning d => { r with warnings := r.warnings.push d }

def recordAll (r : Reporter μ) (events : List (Event μ)) : Reporter μ := events.foldl record r

end Reporter

end MicroJava
