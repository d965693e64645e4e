import MicroJava.Source.Token
import MicroJava.Text.Decimal

/-! # From text to tokens

Reading a token skips trivia, then takes the longest lexeme that the first character announces.
Trivia are characters up to the blank and comments from `//` to the end of the line. A lexeme
never crosses a line, and every lexeme has at least one character. -/

namespace MicroJava

/-- What one lexeme says, apart from its place. -/
structure Lexeme where
  kind : TokenKind
  text : String := ""
  value : Int32 := 0
  issue : Option LiteralIssue := none
  /-- The characters taken. -/
  taken : List Char
  /-- The characters behind them. -/
  rest : List Char
  deriving Inhabited

namespace Lexeme

/-- Blanks and control characters. -/
def isBlank (c : Char) : Bool := decide (c ≤ ' ')

def isNameStart (c : Char) : Bool := c.isAlpha

def isNamePart (c : Char) : Bool := c.isAlphanum || c == '_'

/-- An identifier or keyword. -/
def word (cs : List Char) : Lexeme :=
  let taken := cs.takeWhile isNamePart
  let text := String.ofList taken
  { kind := (TokenKind.keyword? text).getD .ident, text, taken, rest := cs.dropWhile isNamePart }

/-- The largest number that a literal may denote. -/
def maxNumber : Nat := 2147483647

/-- A run of digits. -/
def numeral (cs : List Char) : Lexeme :=
  let taken := cs.takeWhile Char.isDigit
  let rest := cs.dropWhile Char.isDigit
  let n := Decimal.value taken
  if n ≤ maxNumber then { kind := .number, value := Int32.ofNat n, taken, rest }
  else { kind := .number, issue := some .numberOverflow, taken, rest }

/-- The value of the text between two quotes. -/
def charValue : List Char → Except LiteralIssue Char
  | [] => .error .emptyChar
  | [c] => if c = '\\' then .error .invalidChar else .ok c
  | ['\\', letter] =>
      match letter with
      | 't' => .ok '\t'
      | 'r' => .ok '\r'
      | 'n' => .ok '\n'
      | _ => .error (.invalidEscape letter)
  | _ => .error .invalidChar

def insideQuotes (c : Char) : Bool := c != '\'' && c != '\n'

/-- A char constant, from behind its opening quote. -/
def quoted (cs : List Char) : Lexeme :=
  let content := cs.takeWhile insideQuotes
  match cs.dropWhile insideQuotes with
  | '\'' :: rest =>
      let taken := '\'' :: content ++ ['\'']
      match charValue content with
      | .ok c => { kind := .charConst, value := Int32.ofNat c.toNat, taken, rest }
      | .error issue => { kind := .charConst, issue := some issue, taken, rest }
  | rest =>
      { kind := .charConst, issue := some .unterminatedChar, taken := '\'' :: content, rest }

/-- The kind of a mark of two characters. -/
def pair? : Char → Char → Option TokenKind
  | '=', '=' => some .equal
  | '!', '=' => some .notEqual
  | '<', '=' => some .lessEqual
  | '>', '=' => some .greaterEqual
  | _, _ => none

/-- The kind of a mark of one character. -/
def single : Char → TokenKind
  | '+' => .plus
  | '-' => .minus
  | '*' => .times
  | '/' => .slash
  | '%' => .percent
  | '=' => .assign
  | '<' => .less
  | '>' => .greater
  | ';' => .semicolon
  | ',' => .comma
  | '.' => .period
  | '(' => .lparen
  | ')' => .rparen
  | '[' => .lbracket
  | ']' => .rbracket
  | '{' => .lbrace
  | '}' => .rbrace
  | _ => .illegal

/-- An operator or punctuation mark, two characters long where that is one. -/
def mark (c : Char) (cs : List Char) : Lexeme :=
  match cs with
  | [] => { kind := single c, taken := [c], rest := [] }
  | d :: rest =>
      match pair? c d with
      | some kind => { kind, taken := [c, d], rest }
      | none => { kind := single c, taken := [c], rest := cs }

/-- The lexeme at the front of `c :: cs`, which does not start with trivia. -/
def read (c : Char) (cs : List Char) : Lexeme :=
  if isNameStart c then word (c :: cs)
  else if c.isDigit then numeral (c :: cs)
  else if c = '\'' then quoted cs
  else mark c cs

end Lexeme

/-- The text still to be read and its place. -/
structure Cursor where
  rest : List Char
  pos : Position

namespace Cursor

def ofString (source : String) : Cursor := ⟨source.toList, .start⟩

/-- Skips blanks and comments; `inComment` is set between `//` and the end of the line. -/
def skipTrivia (inComment : Bool) : List Char → Position → Cursor
  | [], pos => ⟨[], pos⟩
  | c :: cs, pos =>
      if inComment then skipTrivia (c != '\n') cs (pos.step c)
      else if Lexeme.isBlank c then skipTrivia false cs (pos.step c)
      else if c = '/' ∧ cs.head? = some '/' then skipTrivia true cs (pos.step c)
      else ⟨c :: cs, pos⟩

/-- The next token and the cursor behind it. At the end of the text this is the end mark, again
and again. -/
def next (cur : Cursor) : Token × Cursor :=
  let here := skipTrivia false cur.rest cur.pos
  match here.rest with
  | [] => (⟨.eof, here.pos, "", 0, none⟩, here)
  | c :: cs =>
      let lex := Lexeme.read c cs
      (⟨lex.kind, here.pos, lex.text, lex.value, lex.issue⟩,
        ⟨lex.rest, here.pos.advance lex.taken⟩)

/-- Appends the tokens up to the end mark to `done`, at most `fuel` of them before the mark. -/
def collect : (fuel : Nat) → Cursor → Array Token → Array Token × Token
  | 0, cur, done => (done, cur.next.1)
  | fuel + 1, cur, done =>
      let (token, cur) := cur.next
      if token.kind = .eof then (done, token) else collect fuel cur (done.push token)

end Cursor

/-- The tokens of a text: those before the end mark, and the end mark itself. -/
structure TokenList where
  tokens : List Token
  endMark : Token

namespace TokenList

/-- Every token takes a character, so there are at most as many as the text is long. -/
def ofString (source : String) : TokenList :=
  let cur := Cursor.ofString source
  let (tokens, endMark) := cur.collect cur.rest.length #[]
  ⟨tokens.toList, endMark⟩

/-- All tokens, the end mark last. -/
def all (ts : TokenList) : List Token := ts.tokens ++ [ts.endMark]

/-- The issues of the literals, in order, with their places. -/
def issues (ts : TokenList) : List (LiteralIssue × Position) :=
  ts.tokens.filterMap fun t => t.issue.map (·, t.pos)

end TokenList

/-- A text that is read token by token, with the issues met and not yet handed out. -/
structure Lexer where
  cursor : Cursor
  pending : Array (LiteralIssue × Position)

namespace Lexer

def ofString (source : String) : Lexer := ⟨.ofString source, #[]⟩

def next (lexer : Lexer) : Token × Lexer :=
  let (token, cursor) := lexer.cursor.next
  match token.issue with
  | some issue => (token, ⟨cursor, lexer.pending.push (issue, token.pos)⟩)
  | none => (token, ⟨cursor, lexer.pending⟩)

/-- Hands out the issues met since the last time. -/
def takeIssues (lexer : Lexer) : Array (LiteralIssue × Position) × Lexer :=
  (lexer.pending, ⟨lexer.cursor, #[]⟩)

end Lexer

end MicroJava
