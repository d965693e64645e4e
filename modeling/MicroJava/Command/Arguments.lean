/-! # Command-line arguments

One source file, an optional output file and three flags. Nothing may be given twice, an option's
value may not look like an option unless it is attached, and `--` ends the options. -/

namespace MicroJava

structure Arguments where
  /-- The source file. -/
  input : String
  /-- The object file to write. -/
  output : Option String
  strictLiterals : Bool
  disasm : Bool
  run : Bool
  deriving DecidableEq, Repr

namespace Arguments

/-- What one word of the command line is. -/
inductive Word where
  | file (name : String)
  /-- The output option, perhaps with its value attached. -/
  | output (value : Option String)
  | strictLiterals
  | disasm
  | run
  | endOfOptions
  | invalid
  deriving DecidableEq, Repr

/-- A word that starts with two dashes. -/
def longOption (name : String) : Word :=
  match name with
  | "strict-literals" => .strictLiterals
  | "disasm" => .disasm
  | "run" => .run
  | "output" => .output none
  | _ =>
      match name.splitOn "=" with
      | "output" :: parts => .output (some ("=".intercalate parts))
      | _ => .invalid

def classify (word : String) : Word :=
  match word.toList with
  | ['-'] => .file word
  | ['-', '-'] => .endOfOptions
  | '-' :: '-' :: name => longOption (String.ofList name)
  | ['-', 'o'] => .output none
  | '-' :: 'o' :: '=' :: value => .output (some (String.ofList value))
  | '-' :: 'o' :: value => .output (some (String.ofList value))
  | '-' :: _ => .invalid
  | _ => .file word

/-- What has been given so far. -/
structure Given where
  input : Option String := none
  output : Option String := none
  strictLiterals : Bool := false
  disasm : Bool := false
  run : Bool := false

namespace Given

def addInput (g : Given) (name : String) : Option Given :=
  if g.input.isSome || name.isEmpty then none else some { g with input := some name }

def addOutput (g : Given) (name : String) : Option Given :=
  if g.output.isSome || name.isEmpty then none else some { g with output := some name }

def addStrictLiterals (g : Given) : Option Given :=
  if g.strictLiterals then none else some { g with strictLiterals := true }

def addDisasm (g : Given) : Option Given :=
  if g.disasm then none else some { g with disasm := true }

def addRun (g : Given) : Option Given :=
  if g.run then none else some { g with run := true }

/-- The source file must be there in the end. -/
def finish (g : Given) : Option Arguments :=
  g.input.map fun input => ⟨input, g.output, g.strictLiterals, g.disasm, g.run⟩

end Given

/-- Behind `--` every word is a file. -/
def files (words : List String) (g : Given) : Option Given := words.foldlM Given.addInput g

/-- Goes through the words; `awaited` is set behind an output option without its value. -/
def collect (awaited : Bool) : List String → Given → Option Given
  | [], g => if awaited then none else some g
  | word :: rest, g =>
      match awaited, classify word with
      | true, .file name => g.addOutput name >>= collect false rest
      | true, _ => none
      | false, .file name => g.addInput name >>= collect false rest
      | false, .output (some name) => g.addOutput name >>= collect false rest
      | false, .output none => collect true rest g
      | false, .strictLiterals => g.addStrictLiterals >>= collect false rest
      | false, .disasm => g.addDisasm >>= collect false rest
      | false, .run => g.addRun >>= collect false rest
      | false, .endOfOptions => files rest g
      | false, .invalid => none

/-- The arguments, or nothing if the command was not used correctly. -/
def parse (words : List String) : Option Arguments := do
  let g ← collect false words {}
  g.finish

end Arguments

end MicroJava
