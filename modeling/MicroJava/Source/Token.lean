/-! # Tokens

Kinds of tokens with their display names and the classes the grammar decides by, and tokens with
their place in the text. -/

namespace MicroJava

/-- A place in the text: lines count from one, columns from zero. -/
structure Position where
  line : Nat
  column : Nat
  deriving DecidableEq, Repr, Inhabited

namespace Position

def start : Position := ⟨1, 0⟩

/-- The place behind one character. -/
def step (pos : Position) (c : Char) : Position :=
  if c = '\n' then ⟨pos.line + 1, 0⟩ else ⟨pos.line, pos.column + 1⟩

/-- The place behind a run of characters. -/
def advance (pos : Position) (cs : List Char) : Position := cs.foldl step pos

end Position

inductive TokenKind where
  /-- A character that starts no token. -/
  | illegal
  | ident
  | number
  | charConst
  | plus
  | minus
  | times
  | slash
  | percent
  | equal
  | notEqual
  | less
  | lessEqual
  | greater
  | greaterEqual
  | assign
  | semicolon
  | comma
  | period
  | lparen
  | rparen
  | lbracket
  | rbracket
  | lbrace
  | rbrace
  | kwClass
  | kwElse
  | kwFinal
  | kwIf
  | kwNew
  | kwPrint
  | kwProgram
  | kwRead
  | kwReturn
  | kwVoid
  | kwWhile
  | eof
  deriving DecidableEq, Repr, Inhabited

namespace TokenKind

/-- The reserved words. -/
def keywords : List (String × TokenKind) :=
  [("class", kwClass), ("else", kwElse), ("final", kwFinal), ("if", kwIf), ("new", kwNew),
    ("print", kwPrint), ("program", kwProgram), ("read", kwRead), ("return", kwReturn),
    ("void", kwVoid), ("while", kwWhile)]

/-- The kind of a reserved word. -/
def keyword? (spelling : String) : Option TokenKind := keywords.lookup spelling

/-- The name that messages use. -/
def name : TokenKind → String
  | illegal => "none"
  | ident => "identifier"
  | number => "number"
  | charConst => "char constant"
  | plus => "+"
  | minus => "-"
  | times => "*"
  | slash => "/"
  | percent => "%"
  | equal => "=="
  | notEqual => "!="
  | less => "<"
  | lessEqual => "<="
  | greater => ">"
  | greaterEqual => ">="
  | assign => "="
  | semicolon => ";"
  | comma => ","
  | period => "."
  | lparen => "("
  | rparen => ")"
  | lbracket => "["
  | rbracket => "]"
  | lbrace => "\x7b"
  | rbrace => "\x7d"
  | kwClass => "class"
  | kwElse => "else"
  | kwFinal => "final"
  | kwIf => "if"
  | kwNew => "new"
  | kwPrint => "print"
  | kwProgram => "program"
  | kwRead => "read"
  | kwReturn => "return"
  | kwVoid => "void"
  | kwWhile => "while"
  | eof => "eof"

def startsExpr : TokenKind → Bool
  | ident | number | charConst | kwNew | lparen | minus => true
  | _ => false

def startsStatement : TokenKind → Bool
  | ident | kwIf | kwWhile | kwRead | kwReturn | kwPrint | lbrace | semicolon => true
  | _ => false

end TokenKind

/-- What is wrong with a literal. The token is produced all the same, with value zero. -/
inductive LiteralIssue where
  | numberOverflow
  | emptyChar
  | invalidEscape (c : Char)
  | invalidChar
  | unterminatedChar
  deriving DecidableEq, Repr

def LiteralIssue.text : LiteralIssue → String
  | numberOverflow => "number overflow"
  | emptyChar => "empty char constant"
  | invalidEscape c => "invalid escape sequence in char constant: \\" ++ c.toString
  | invalidChar => "invalid char constant"
  | unterminatedChar => "unterminated char constant"

structure Token where
  kind : TokenKind
  pos : Position
  /-- Spelling of an identifier or keyword. -/
  text : String
  /-- Value of a number or char constant. -/
  value : Int32
  issue : Option LiteralIssue
  deriving DecidableEq, Repr, Inhabited

end MicroJava
