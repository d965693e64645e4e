import MicroJava.Source.Lexing

/-! # Tokens still to come

The token in view and those behind it. The end mark stays in view however often it is consumed, so
there is always a next token. -/

namespace MicroJava

structure Upcoming where
  /-- The token in view. -/
  ahead : Token
  /-- The tokens behind it. -/
  later : List Token

namespace Upcoming

def ofTokens (ts : TokenList) : Upcoming :=
  match ts.tokens with
  | [] => ⟨ts.endMark, []⟩
  | t :: rest => ⟨t, rest ++ [ts.endMark]⟩

/-- Kind of the token in view. -/
def kind (up : Upcoming) : TokenKind := up.ahead.kind

/-- Consumes the token in view, unless nothing is behind it. -/
def advance : Upcoming → Upcoming
  | ⟨t, []⟩ => ⟨t, []⟩
  | ⟨_, t :: rest⟩ => ⟨t, rest⟩

end Upcoming

end MicroJava
