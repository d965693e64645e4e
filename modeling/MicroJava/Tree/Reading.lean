import MicroJava.Source.Upcoming
import MicroJava.Tree.Basic

/-! # Reading program trees

Recursive descent with one token in view. Reading never fails: a demanded token that is not in view
is marked as missing and left alone, and a token that starts nothing is skipped up to the next place
where something can start. Which tokens are consumed depends on kinds only.

A rule that nests is given the reader of what is nested in it, and `expr` and `stmt` tie the knot
with a bound on the depth. Something nested always starts behind a token of its own, and so does
every round of a loop, so the number of tokens bounds both. A bound that is met all the same leaves
a mark. -/

namespace MicroJava

/-- How far reading has come. -/
@[ext] structure Reading extends Upcoming where
  /-- How often the next token has been asked for. -/
  shifts : Nat := 0
  /-- Set once a loop or the depth has met its bound. -/
  exhausted : Bool := false

namespace Reading

/-- The first token is in view. -/
def start (up : Upcoming) : Reading := { toUpcoming := up }

/-- Consumes the token in view. -/
def advance (r : Reading) : Reading :=
  { r with toUpcoming := r.toUpcoming.advance, shifts := r.shifts + 1 }

end Reading

/-- Takes tokens from the front. -/
abbrev Reader := StateM Reading

namespace Reader

/-- Kind of the token in view. -/
def kind : Reader TokenKind := return (← get).kind

/-- Consumes the token in view. -/
def shift : Reader Unit := modify Reading.advance

/-- Gives up at a bound, with what has been read so far. -/
def exhaust {α : Type} (a : α) : Reader α := do
  modify fun r => { r with exhausted := true }
  return a

/-- Consumes the token in view if it is of the demanded kind. -/
def demand (k : TokenKind) : Reader Mark := do
  if (← kind) = k then
    shift
    return .found
  else
    return .missing

/-- Consumes the token in view if it is of the given kind, and tells whether it was. -/
def accept (k : TokenKind) : Reader Bool := do
  if (← kind) = k then
    shift
    return true
  else
    return false

/-- The name in view, if there is one. -/
def name : Reader (Option String) := do
  let t := (← get).ahead
  if t.kind = .ident then
    shift
    return some t.text
  else
    return none

/-- The value of the token in view, which is consumed. -/
def value : Reader Int32 := do
  let t := (← get).ahead
  shift
  return t.value

/-- Consumes tokens up to one where `stop` holds and counts them into `count`. -/
def skipTo (stop : TokenKind → Bool) : (fuel count : Nat) → Reader Nat
  | 0, count => exhaust count
  | fuel + 1, count => do
      if stop (← kind) then return count
      shift
      skipTo stop fuel (count + 1)

/-- Reads items as long as `more` holds of the kind in view. -/
def many {α : Type} (more : TokenKind → Bool) (item : Reader α) :
    (fuel : Nat) → Array α → Reader (List α)
  | 0, done => exhaust done.toList
  | fuel + 1, done => do
      if more (← kind) then
        many more item fuel (done.push (← item))
      else
        return done.toList

/-- Reads items, each behind a comma. -/
def behindCommas {α : Type} (item : Reader α) : (fuel : Nat) → Array α → Reader (List α)
  | 0, done => exhaust done.toList
  | fuel + 1, done => do
      if ← accept .comma then
        behindCommas item fuel (done.push (← item))
      else
        return done.toList

/-- One item or more, with commas between them. -/
def commaSeparated {α : Type} (fuel : Nat) (item : Reader α) : Reader (List α) := do
  let first ← item
  behindCommas item fuel #[first]

/-! ## Expressions -/

/-- Selectors behind the designator read so far. -/
def selectors (expr : Reader Expr) : (fuel : Nat) → Designator → Reader Designator
  | 0, base => exhaust base
  | fuel + 1, base => do
      match ← kind with
      | .period =>
          shift
          selectors expr fuel (.field base (← name))
      | .lbracket =>
          shift
          let index ← expr
          selectors expr fuel (.index base index (← demand .rbracket))
      | _ => return base

def designator (fuel : Nat) (expr : Reader Expr) : Reader Designator := do
  match ← name with
  | some n => selectors expr fuel (.name n)
  | none => return .missing

/-- Arguments of a call, from the opening parenthesis on. -/
def arguments (fuel : Nat) (expr : Reader Expr) : Reader (List Expr × Mark) := do
  shift
  let args ← if (← kind).startsExpr then commaSeparated fuel expr else pure []
  return (args, ← demand .rparen)

/-- What follows `new`. -/
def allocation (expr : Reader Expr) : Reader Expr := do
  shift
  match ← name with
  | none => return .newNothing
  | some n =>
      if ← accept .lbracket then
        let size ← expr
        return .newArray n size (← demand .rbracket)
      else
        return .newObject n

def factor (fuel : Nat) (expr : Reader Expr) : Reader Expr := do
  match ← kind with
  | .ident =>
      let x ← designator fuel expr
      if (← kind) = .lparen then
        let (args, rparen) ← arguments fuel expr
        return .call x args rparen
      else
        return .value x
  | .number => return .number (← value)
  | .charConst => return .char (← value)
  | .kwNew => allocation expr
  | .lparen =>
      shift
      let inner ← expr
      return .paren inner (← demand .rparen)
  | _ => return .missing

/-- Further operands behind `left`, grouped to the left. -/
def operators (op? : TokenKind → Option Arithmetic) (operand : Reader Expr) :
    (fuel : Nat) → Expr → Reader Expr
  | 0, left => exhaust left
  | fuel + 1, left => do
      match op? (← kind) with
      | some op =>
          shift
          let right ← operand
          operators op? operand fuel (.binary op left right)
      | none => return left

def productOp? : TokenKind → Option Arithmetic
  | .times => some .mul
  | .slash => some .div
  | .percent => some .rem
  | _ => none

def sumOp? : TokenKind → Option Arithmetic
  | .plus => some .add
  | .minus => some .sub
  | _ => none

def term (fuel : Nat) (expr : Reader Expr) : Reader Expr := do
  operators productOp? (factor fuel expr) fuel (← factor fuel expr)

/-- The first term of a sum, perhaps behind a minus sign. -/
def signedTerm (fuel : Nat) (expr : Reader Expr) : Reader Expr := do
  if ← accept .minus then
    return .negate (← term fuel expr)
  else
    term fuel expr

/-- A sum, given the reader of the expressions nested in it. -/
def sum (fuel : Nat) (expr : Reader Expr) : Reader Expr := do
  operators sumOp? (term fuel expr) fuel (← signedTerm fuel expr)

/-- An expression nested at most `fuel` deep. -/
def expr : (fuel : Nat) → Reader Expr
  | 0 => exhaust .missing
  | fuel + 1 => sum fuel (expr fuel)

def relop? : TokenKind → Option Comparison
  | .equal => some .eq
  | .notEqual => some .ne
  | .less => some .lt
  | .lessEqual => some .le
  | .greater => some .gt
  | .greaterEqual => some .ge
  | _ => none

def relop : Reader (Option Comparison) := do
  match relop? (← kind) with
  | some rel =>
      shift
      return some rel
  | none => return none

def condition (expr : Reader Expr) : Reader Condition := do
  let left ← expr
  let rel ← relop
  let right ← expr
  return ⟨left, rel, right⟩

/-! ## Statements -/

/-- A statement that starts with a designator. -/
def designatorStmt (fuel : Nat) (expr : Reader Expr) : Reader Stmt := do
  let x ← designator fuel expr
  match ← kind with
  | .assign =>
      shift
      let y ← expr
      return .assign x y (← demand .semicolon)
  | .lparen =>
      let (args, rparen) ← arguments fuel expr
      return .call x args rparen (← demand .semicolon)
  | _ => return .idle x (← demand .semicolon)

/-- What follows `if`. -/
def conditional (expr : Reader Expr) (stmt : Reader Stmt) : Reader Stmt := do
  shift
  let lparen ← demand .lparen
  let cond ← condition expr
  let rparen ← demand .rparen
  let body ← stmt
  if ← accept .kwElse then
    return .ifElse lparen cond rparen body (← stmt)
  else
    return .ifThen lparen cond rparen body

/-- What follows `while`. -/
def repetition (expr : Reader Expr) (stmt : Reader Stmt) : Reader Stmt := do
  shift
  let lparen ← demand .lparen
  let cond ← condition expr
  let rparen ← demand .rparen
  return .loop lparen cond rparen (← stmt)

/-- What follows `return`. -/
def returnStmt (expr : Reader Expr) : Reader Stmt := do
  shift
  let value ← if (← kind).startsExpr then some <$> expr else pure none
  return .ret value (← demand .semicolon)

/-- What follows `read`. -/
def readStmt (fuel : Nat) (expr : Reader Expr) : Reader Stmt := do
  shift
  let lparen ← demand .lparen
  let target ← designator fuel expr
  let rparen ← demand .rparen
  return .read lparen target rparen (← demand .semicolon)

def widthSpec : Reader WidthSpec := do
  if ← accept .comma then
    if (← kind) = .number then
      return .given (← value)
    else
      return .missing
  else
    return .none

/-- What follows `print`. -/
def printStmt (expr : Reader Expr) : Reader Stmt := do
  shift
  let lparen ← demand .lparen
  let value ← expr
  let width ← widthSpec
  let rparen ← demand .rparen
  return .print lparen value width rparen (← demand .semicolon)

/-- A block goes on up to its closing brace or the end of the text. -/
def inBlock : TokenKind → Bool
  | .rbrace | .eof => false
  | _ => true

/-- The statements of a block, from behind its opening brace, and the closing brace. -/
def blockBody (fuel : Nat) (stmt : Reader Stmt) : Reader (List Stmt × Mark) := do
  let body ← many inBlock stmt fuel #[]
  return (body, ← demand .rbrace)

/-- The statement that starts with the token in view, if one does. -/
def startedStmt (fuel : Nat) (expr : Reader Expr) (stmt : Reader Stmt) : Reader Stmt := do
  match ← kind with
  | .ident => designatorStmt fuel expr
  | .kwIf => conditional expr stmt
  | .kwWhile => repetition expr stmt
  | .kwReturn => returnStmt expr
  | .kwRead => readStmt fuel expr
  | .kwPrint => printStmt expr
  | .lbrace =>
      shift
      let (body, rbrace) ← blockBody fuel stmt
      return .block body rbrace
  | .semicolon =>
      shift
      return .empty
  | _ => return .missing

/-- Skipping in front of a statement ends here. -/
def stopsStmtSkip (k : TokenKind) : Bool := k.startsStatement || !inBlock k

/-- A statement, given the readers of what is nested in it. -/
def stmtWith (fuel : Nat) (expr : Reader Expr) (stmt : Reader Stmt) : Reader Stmt := do
  if (← kind).startsStatement then
    startedStmt fuel expr stmt
  else
    shift
    let skipped ← skipTo stopsStmtSkip fuel 1
    let semicolon ← accept .semicolon
    return .junk skipped semicolon (← startedStmt fuel expr stmt)

/-- A statement nested at most `fuel` deep. -/
def stmt : (fuel : Nat) → Reader Stmt
  | 0 => exhaust .missing
  | fuel + 1 => stmtWith fuel (expr fuel) (stmt fuel)

/-! ## Declarations -/

def typeRef : Reader TypeRef := do
  match ← name with
  | none => return .missing
  | some n =>
      if ← accept .lbracket then
        return .named n (some (← demand .rbracket))
      else
        return .named n none

def varDecl (fuel : Nat) : Reader VarDecl := do
  let type ← typeRef
  let first ← name
  let others ← behindCommas name fuel #[]
  return ⟨type, first, others, ← demand .semicolon⟩

/-- Declarations of variables, as long as there are any. -/
def varDecls (fuel : Nat) : Reader (List VarDecl) :=
  many (· == .ident) (varDecl fuel) fuel #[]

def literal : Reader (Option Literal) := do
  match ← kind with
  | .number => return some (.number (← value))
  | .charConst => return some (.char (← value))
  | _ => return none

/-- What follows `final`. -/
def constDecl : Reader ConstDecl := do
  shift
  let type ← typeRef
  let n ← name
  let assign ← demand .assign
  let value ← literal
  return ⟨type, n, assign, value, ← demand .semicolon⟩

/-- What follows `class`. -/
def classDecl (fuel : Nat) : Reader ClassDecl := do
  shift
  let n ← name
  let lbrace ← demand .lbrace
  let fields ← varDecls fuel
  return ⟨n, lbrace, fields, ← demand .rbrace⟩

/-- Declarations go on up to the opening brace of the methods or the end of the text. -/
def inDeclarations : TokenKind → Bool
  | .lbrace | .eof => false
  | _ => true

/-- Skipping in front of a declaration ends here. -/
def stopsDeclSkip : TokenKind → Bool
  | .kwFinal | .kwClass | .lbrace | .semicolon | .eof => true
  | _ => false

def declaration (fuel : Nat) : Reader Declaration := do
  match ← kind with
  | .kwFinal => return .const (← constDecl)
  | .kwClass => return .cls (← classDecl fuel)
  | .ident => return .vars (← varDecl fuel)
  | _ =>
      shift
      let skipped ← skipTo stopsDeclSkip fuel 1
      return .junk skipped (← accept .semicolon)

def param : Reader Param := do
  let type ← typeRef
  return ⟨type, ← name⟩

def method (fuel : Nat) : Reader Method := do
  let result ← if ← accept .kwVoid then pure .void else .type <$> typeRef
  let n ← name
  let lparen ← demand .lparen
  let params ← if (← kind) = .ident then commaSeparated fuel param else pure []
  let rparen ← demand .rparen
  let locals ← varDecls fuel
  let lbrace ← demand .lbrace
  let (body, rbrace) ← blockBody fuel (stmt fuel)
  return ⟨result, n, lparen, params, rparen, locals, lbrace, body, rbrace⟩

def startsMethod : TokenKind → Bool
  | .ident | .kwVoid => true
  | _ => false

def program (fuel : Nat) : Reader Program := do
  let keyword ← demand .kwProgram
  let n ← name
  let declarations ← many inDeclarations (declaration fuel) fuel #[]
  let lbrace ← demand .lbrace
  let methods ← many startsMethod (method fuel) fuel #[]
  let rbrace ← demand .rbrace
  let ended := if (← kind) = .eof then .found else .missing
  return ⟨keyword, n, declarations, lbrace, methods, rbrace, ended⟩

end Reader

/-- Reads the tokens to come. Each of them allows one more round of a loop and one more level. -/
def Upcoming.read (up : Upcoming) : Program × Reading :=
  (Reader.program (up.later.length + 1)).run (.start up)

/-- The tree of the tokens to come. -/
def Program.read (up : Upcoming) : Program := up.read.1

end MicroJava
