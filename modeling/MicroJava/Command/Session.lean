import MicroJava.Command.Arguments
import MicroJava.Command.Path
import MicroJava.Compilation
import MicroJava.Instruction.Listing
import MicroJava.Machine.Run
import MicroJava.ObjectFile.Format

/-! # A session of the command

What the command does is a tree of requests to its surroundings, and every reply leads on to the
next request. What the surroundings are is left open: a file system, or a directory in memory. -/

namespace MicroJava

/-- Why a file or the input cannot be used. -/
inductive FileError where
  | notFound
  | isDirectory
  | notADirectory
  /-- The bytes are no text. -/
  | notText
  | other (reason : String)
  deriving DecidableEq, Repr

def FileError.text : FileError → String
  | notFound => "No such file or directory (os error 2)"
  | isDirectory => "Is a directory (os error 21)"
  | notADirectory => "Not a directory (os error 20)"
  | notText => "stream did not contain valid UTF-8"
  | other reason => reason

inductive Session where
  | readFile (path : String) (next : Except FileError String → Session)
  | writeFile (path : String) (content : List UInt8) (next : Except FileError Unit → Session)
  /-- The whole standard input. -/
  | readInput (next : Except FileError String → Session)
  /-- Run the program to its end or to a fault. -/
  | execute (object : ObjectFile) (input : String) (next : Machine → Option Fault → Session)
  | out (text : String) (next : Session)
  | err (text : String) (next : Session)
  | exit (code : UInt8)

namespace Session

/-- A final message about a failure. -/
def fail (message : String) : Session := err (message ++ "\n") (exit 1)

def usage : String :=
  "usage: microjava [-o FILE] [--strict-literals] [--disasm] [--run] [--] FILE.mj\n"

/-- The extension of source files. -/
def sourceExtension : String := "mj"

/-- The extension of object files. -/
def objectExtension : String := "obj"

/-- One line per diagnostic. -/
def diagnosticLines (label : String) (ds : List (Diagnostic Problem)) : String :=
  ds.foldl (fun out d => out ++ label ++ d.render Problem.text ++ "\n") ""

/-- Runs the program on the standard input. -/
def runProgram (object : ObjectFile) : Session :=
  readInput fun
    | .error e => fail ("Failed to read stdin: " ++ e.text)
    | .ok input =>
        execute object input fun m fault =>
          out m.output <|
            match fault with
            | some f => fail ("Runtime error: " ++ f.text)
            | none => exit 0

/-- Prints the listing. -/
def printListing (object : ObjectFile) (next : Session) : Session :=
  match Listing.ofObject object with
  | .ok listing => out listing.render next
  | .error e => err ("Disassembly failed: " ++ e.text ++ "\n") next

/-- Writes the object file, then lists and runs it if asked to. -/
def deliver (args : Arguments) (object : ObjectFile) : Session :=
  let path := args.output.getD (Path.withExtension args.input objectExtension)
  writeFile path object.toBytes fun
    | .error e => fail ("Failed to write '" ++ path ++ "': " ++ e.text)
    | .ok () =>
        let last := if args.run then runProgram object else exit 0
        if args.disasm then printListing object last else last

/-- Compiles the source text. -/
def build (args : Arguments) (source : String) : Session :=
  let c := compile source { strictLiterals := args.strictLiterals }
  err (diagnosticLines "-- warning: " c.warnings) <|
    err (diagnosticLines "-- " c.errors) <|
      match c.failure? with
      | some message => fail message
      | none => deliver args c.code

/-- What the command does with its arguments. -/
def ofArguments (args : Arguments) : Session :=
  if Path.extension? args.input = some sourceExtension then
    readFile args.input fun
      | .error e => fail ("Failed to read '" ++ args.input ++ "': " ++ e.text)
      | .ok source => build args source
  else
    fail ("Error: expected a .mj file, got " ++ args.input)

/-- What the command does with the words of its command line. -/
def ofWords (words : List String) : Session :=
  match Arguments.parse words with
  | some args => ofArguments args
  | none => err usage (exit 2)

end Session

end MicroJava
