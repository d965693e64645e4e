import MicroJava.Command.Session

/-! # The command

Plays a session against the file system and the standard streams. -/

namespace MicroJava

/-- The operating system's reason for refusing a file. Its error codes come with either sign. -/
def fileError : IO.Error → FileError
  | .noFileOrDirectory .. => .notFound
  | .inappropriateType _ code _ =>
      if code.toInt32.toInt.natAbs = 21 then .isDirectory else .notADirectory
  | e => .other (toString e)

/-- The text that bytes encode. -/
def textOfBytes (bytes : ByteArray) : Except FileError String :=
  match String.fromUTF8? bytes with
  | some text => .ok text
  | none => .error .notText

/-- Runs a program to its end, a bounded number of instructions at a time. -/
partial def runToEnd (object : ObjectFile) (pc : Nat) (m : Machine) : Machine × Option Fault :=
  match Exec.runFrom object {} 1000000 pc m with
  | .ok none m => (m, none)
  | .ok (some pc) m => runToEnd object pc m
  | .error fault m => (m, some fault)

/-- Plays a session and gives its exit code. -/
def play : Session → IO UInt8
  | .readFile path next => do
      let content ← (IO.FS.readBinFile path).toBaseIO
      match content with
      | .ok bytes => play (next (textOfBytes bytes))
      | .error e => play (next (.error (fileError e)))
  | .writeFile path content next => do
      let written ← (IO.FS.writeBinFile path (ByteArray.mk content.toArray)).toBaseIO
      match written with
      | .ok () => play (next (.ok ()))
      | .error e => play (next (.error (fileError e)))
  | .readInput next => do
      let content ← (do (← IO.getStdin).readBinToEnd : IO ByteArray).toBaseIO
      match content with
      | .ok bytes => play (next (textOfBytes bytes))
      | .error e => play (next (.error (fileError e)))
  | .execute object input next =>
      let (m, fault) := runToEnd object object.mainPc.toNat ((Machine.load object).withInput input)
      play (next m fault)
  | .out text next => do
      IO.print text
      play next
  | .err text next => do
      IO.eprint text
      play next
  | .exit code => return code

end MicroJava

def main (words : List String) : IO UInt32 := do
  let code ← MicroJava.play (MicroJava.Session.ofWords words)
  return code.toUInt32
