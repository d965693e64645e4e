import Std.Data.TreeSet
import MicroJava.Instruction.Decoding
import MicroJava.ObjectFile
import MicroJava.Text.Decimal

/-! # Listings

An object file as text: one line per instruction with its address. Targets of jumps and calls are
marked and set off by a rule, and the entry of `main` has a label of its own. -/

namespace MicroJava

namespace Instruction

def jumpName : Comparison → String
  | .eq => "JEQ"
  | .ne => "JNE"
  | .lt => "JLT"
  | .le => "JLE"
  | .gt => "JGT"
  | .ge => "JGE"

def arithName : Arithmetic → String
  | .add => "ADD"
  | .sub => "SUB"
  | .mul => "MUL"
  | .div => "DIV"
  | .rem => "REM"

/-- The address of a jump target. -/
def arrow (target : UInt16) : String := "→ " ++ Decimal.padded 4 target.toNat

/-- An instruction with its immediates. -/
def text : Instruction → String
  | load slot => "LOAD        " ++ Decimal.ofNat slot.toNat
  | store slot => "STORE       " ++ Decimal.ofNat slot.toNat
  | getStatic adr => "GETSTATIC   " ++ Decimal.ofNat adr.toNat
  | putStatic adr => "PUTSTATIC   " ++ Decimal.ofNat adr.toNat
  | getField adr => "GETFIELD    " ++ Decimal.ofNat adr.toNat
  | putField adr => "PUTFIELD    " ++ Decimal.ofNat adr.toNat
  | const value => "CONST       " ++ Decimal.ofInt value.toInt
  | arith op => arithName op
  | neg => "NEG"
  | new fields => "NEW         " ++ Decimal.ofNat fields.toNat ++ "      ; fields"
  | newArray .byte => "NEWARRAY    char"
  | newArray .word => "NEWARRAY    word"
  | loadElem .word => "ALOAD"
  | storeElem .word => "ASTORE"
  | loadElem .byte => "BALOAD"
  | storeElem .byte => "BASTORE"
  | arrayLength => "ARRAYLENGTH"
  | pop => "POP"
  | jump target => "JMP         " ++ arrow target
  | jumpIf rel target => jumpName rel ++ "         " ++ arrow target
  | call target => "CALL        " ++ arrow target
  | ret => "RETURN"
  | enter params locals =>
      "ENTER       " ++ Decimal.ofNat params.toNat ++ " " ++ Decimal.ofNat locals.toNat ++
        "    ; params, frame"
  | exit => "EXIT"
  | read => "READ"
  | print => "PRINT"
  | readChar => "BREAD"
  | printChar => "BPRINT"
  | trap code => "TRAP        " ++ Decimal.ofNat code.toNat

end Instruction

/-- One instruction of a listing. -/
structure ListingLine where
  address : Nat
  instruction : Instruction
  /-- Whether `main` starts here. -/
  isMain : Bool
  /-- Whether some jump or call goes here. -/
  isTarget : Bool
  deriving DecidableEq, Repr

namespace ListingLine

/-- The line in front of the instruction, if there is one. -/
def heading (line : ListingLine) : String :=
  if line.isMain then "main:\n"
  else if line.isTarget then "      ┌──────────────────────────────────\n"
  else ""

def render (line : ListingLine) : String :=
  line.heading ++ Decimal.padded 4 line.address ++ (if line.isTarget then " ► " else "   ") ++
    line.instruction.text ++ "\n"

end ListingLine

structure Listing where
  codeSize : Nat
  dataSize : UInt16
  mainPc : UInt16
  lines : List ListingLine
  deriving DecidableEq, Repr

namespace Listing

/-- The addresses that jumps and calls go to. -/
def targets (is : Array (Nat × Instruction)) : Std.TreeSet Nat :=
  is.foldl (fun found entry =>
    match entry.2.target? with
    | some t => found.insert t.toNat
    | none => found) ∅

def ofObject (object : ObjectFile) : Except DecodeError Listing := do
  let is ← Instruction.decodeAll object.code
  let marked := targets is
  return {
    codeSize := object.code.size
    dataSize := object.dataSize
    mainPc := object.mainPc
    lines := is.toList.map fun (pc, i) =>
      ⟨pc, i, pc == object.mainPc.toNat, marked.contains pc⟩ }

def header (l : Listing) : String :=
  "; code " ++ Decimal.ofNat l.codeSize ++ " bytes, data " ++ Decimal.ofNat l.dataSize.toNat ++
    " words, main at " ++ Decimal.padded 4 l.mainPc.toNat ++ "\n"

def render (l : Listing) : String :=
  l.lines.foldl (fun out line => out ++ line.render) l.header

end Listing

end MicroJava
