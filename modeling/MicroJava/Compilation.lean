import MicroJava.Compile.Declaration
import MicroJava.Report
import MicroJava.Tree.Reading

/-! # Compilation

Text to tokens, tokens to tree, tree to code and log, log to report. The options take part in the
last step only, so code never depends on them. -/

namespace MicroJava

structure Options where
  /-- Overflowing numbers are errors, not warnings. -/
  strictLiterals : Bool := false
  /-- Tokens that must be consumed after an error before the next one is reported. -/
  errorDistance : Nat := 3
  deriving DecidableEq, Repr

/-- What the reporter is told of a log entry. -/
def LogEntry.event (strictLiterals : Bool) : LogEntry → Event Problem
  | consumed => .consumed
  | resynced => .resynced
  | problem p pos => .error ⟨p, pos⟩
  | issue .numberOverflow pos =>
      if strictLiterals then .unthrottled ⟨.literal .numberOverflow, pos⟩
      else .warning ⟨.literal .numberOverflow, pos⟩
  | issue i pos => .unthrottled ⟨.literal i, pos⟩

/-- The outcome of the pass, before options decide what is reported. -/
structure Draft where
  log : List LogEntry
  code : CodeBuffer
  /-- Number of global variables. -/
  dataSize : Nat
  /-- Place of the token in view at the end. -/
  endPos : Position

namespace Draft

/-- Compiles the tokens to come. -/
def ofUpcoming (up : Upcoming) : Draft :=
  let (dataSize, pass) := (Check.program (Program.read up)).run (Pass.start up)
  { log := pass.log.toList, code := pass.code, dataSize, endPos := pass.upcoming.ahead.pos }

def ofString (source : String) : Draft :=
  ofUpcoming (Upcoming.ofTokens (TokenList.ofString source))

/-- Whether the program fits the address space. -/
def fits (t : Draft) : Bool := !t.code.overflowed && decide (t.dataSize ≤ maxAddress)

/-- The report under the given options. A program that is too large is reported when nothing else
is. -/
def report (t : Draft) (options : Options) : Reporter Problem :=
  let r := (Reporter.new options.errorDistance).recordAll
    (t.log.map (LogEntry.event options.strictLiterals))
  if !t.fits && r.errors.isEmpty then r.record (.unthrottled ⟨.tooLarge, t.endPos⟩) else r

end Draft

structure Compilation where
  errors : List (Diagnostic Problem)
  warnings : List (Diagnostic Problem)
  /-- The code as far as it goes, whatever was reported. -/
  code : ObjectFile

namespace Compilation

/-- The object file of a program without errors. -/
def object? (c : Compilation) : Option ObjectFile := if c.errors.isEmpty then some c.code else none

/-- The closing line of a failed compilation. -/
def failure? (c : Compilation) : Option String :=
  if c.errors.isEmpty then none
  else some ("compilation failed with " ++ toString c.errors.length ++ " error(s)")

end Compilation

/-- Compiles a program text. -/
def compile (source : String) (options : Options) : Compilation :=
  let draft := Draft.ofString source
  let r := draft.report options
  { errors := r.errors.toList
    warnings := r.warnings.toList
    code := draft.code.toObject draft.dataSize }

end MicroJava
