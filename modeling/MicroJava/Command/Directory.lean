import MicroJava.Command.Session

/-! # A directory in memory

Sessions can be played against a single directory of files. A path leads to the directory itself, to
a place in it, or elsewhere, where nothing is known to be. -/

namespace MicroJava

/-- The files of a directory, each name once. -/
structure Directory where
  files : List (String × List UInt8)

namespace Directory

/-- How a path goes on behind the name of a file. -/
inductive Tail where
  | nothing
  | slash
  /-- A `.` component, which only a directory has. -/
  | dot
  deriving DecidableEq, Repr

/-- Where a path leads. -/
inductive Target where
  | directory
  | entry (name : String) (tail : Tail)
  /-- To something inside `name`. -/
  | inside (name : String)
  | elsewhere
  deriving DecidableEq, Repr

/-- How a path ends. -/
def tailOf (path : String) : Tail :=
  match path.toList.reverse.dropWhile (· == '/') with
  | '.' :: '/' :: _ => .dot
  | _ => if path.endsWith "/" then .slash else .nothing

def target (path : String) : Target :=
  let parts := Path.components path
  if parts.all (· == "..") then .directory
  else if path.startsWith "/" then .elsewhere
  else
    match parts with
    | [name] => .entry name (tailOf path)
    | name :: _ => if name = ".." then .elsewhere else .inside name
    | [] => .directory

def find? (d : Directory) (name : String) : Option (List UInt8) := d.files.lookup name

/-- A file that is not a directory is in the way, or nothing is there. -/
def blocked (d : Directory) (name : String) : FileError :=
  if (d.find? name).isSome then .notADirectory else .notFound

def read (d : Directory) (path : String) : Except FileError (List UInt8) :=
  match target path with
  | .directory => .error .isDirectory
  | .elsewhere => .error .notFound
  | .inside name => .error (d.blocked name)
  | .entry name .nothing =>
      match d.find? name with
      | some content => .ok content
      | none => .error .notFound
  | .entry name _ => .error (d.blocked name)

/-- Replaces a file or adds it at the end. -/
def put (d : Directory) (name : String) (content : List UInt8) : Directory :=
  if (d.find? name).isSome then
    ⟨d.files.map fun f => if f.1 == name then (name, content) else f⟩
  else ⟨d.files ++ [(name, content)]⟩

def write (d : Directory) (path : String) (content : List UInt8) : Except FileError Directory :=
  match target path with
  | .directory => .error .isDirectory
  | .elsewhere => .error .notFound
  | .inside name => .error (d.blocked name)
  | .entry name .nothing => .ok (d.put name content)
  | .entry _ .slash => .error .isDirectory
  | .entry name .dot => .error (d.blocked name)

end Directory

/-- The text that bytes encode. -/
def decodeText (bytes : List UInt8) : Except FileError String :=
  match String.fromUTF8? (ByteArray.mk bytes.toArray) with
  | some text => .ok text
  | none => .error .notText

/-- What a session leaves behind. -/
structure Transcript where
  exitCode : UInt8
  out : String
  err : String
  directory : Directory

namespace Session

/-- Plays a session in a directory with the given standard input. Nothing comes of it if a program
does not end within `fuel` instructions. -/
def play (fuel : Nat) (input : List UInt8) :
    Session → (out err : String) → Directory → Option Transcript
  | readFile path next, o, e, d => play fuel input (next (d.read path >>= decodeText)) o e d
  | writeFile path content next, o, e, d =>
      match d.write path content with
      | .ok d => play fuel input (next (.ok ())) o e d
      | .error reason => play fuel input (next (.error reason)) o e d
  | readInput next, o, e, d => play fuel input (next (decodeText input)) o e d
  | execute object text next, o, e, d =>
      match Exec.run object {} fuel ((Machine.load object).withInput text) with
      | .ok none m => play fuel input (next m none) o e d
      | .ok (some _) _ => none
      | .error fault m => play fuel input (next m (some fault)) o e d
  | out text next, o, e, d => play fuel input next (o ++ text) e d
  | err text next, o, e, d => play fuel input next o (e ++ text) d
  | exit code, o, e, d => some ⟨code, o, e, d⟩

end Session

end MicroJava
