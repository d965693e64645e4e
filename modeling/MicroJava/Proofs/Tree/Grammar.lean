import MicroJava.Source.Token

/-! # The grammar

The rules of the language as data, and the sequences of token kinds that they derive. Nothing here
knows of reading: a sequence may be derived in several ways, as is one with an `else` that fits two
conditionals. -/

namespace MicroJava

inductive Nonterminal where
  | program
  | constDecl
  | classDecl
  | varDecl
  | type
  | methodDecl
  | formPars
  | block
  | statement
  | designator
  | actPars
  | condition
  | relop
  | expr
  | term
  | factor
  deriving DecidableEq, Repr

/-- The right-hand side of a rule. -/
inductive Ebnf where
  | token (kind : TokenKind)
  | rule (n : Nonterminal)
  | seq (parts : List Ebnf)
  | alt (choices : List Ebnf)
  /-- Once or not at all. -/
  | opt (part : Ebnf)
  /-- Any number of times. -/
  | many (part : Ebnf)

open Ebnf in
/-- The rules of the language. -/
def grammar : Nonterminal → Ebnf
  | .program =>
      seq [token .kwProgram, token .ident,
        many (alt [rule .constDecl, rule .classDecl, rule .varDecl]),
        token .lbrace, many (rule .methodDecl), token .rbrace]
  | .constDecl =>
      seq [token .kwFinal, rule .type, token .ident, token .assign,
        alt [token .number, token .charConst], token .semicolon]
  | .classDecl =>
      seq [token .kwClass, token .ident, token .lbrace, many (rule .varDecl), token .rbrace]
  | .varDecl =>
      seq [rule .type, token .ident, many (seq [token .comma, token .ident]), token .semicolon]
  | .type => seq [token .ident, opt (seq [token .lbracket, token .rbracket])]
  | .methodDecl =>
      seq [alt [rule .type, token .kwVoid], token .ident, token .lparen, opt (rule .formPars),
        token .rparen, many (rule .varDecl), rule .block]
  | .formPars =>
      seq [rule .type, token .ident, many (seq [token .comma, rule .type, token .ident])]
  | .block => seq [token .lbrace, many (rule .statement), token .rbrace]
  | .statement =>
      alt [
        seq [rule .designator, alt [seq [token .assign, rule .expr], rule .actPars],
          token .semicolon],
        seq [token .kwIf, token .lparen, rule .condition, token .rparen, rule .statement,
          opt (seq [token .kwElse, rule .statement])],
        seq [token .kwWhile, token .lparen, rule .condition, token .rparen, rule .statement],
        seq [token .kwReturn, opt (rule .expr), token .semicolon],
        seq [token .kwRead, token .lparen, rule .designator, token .rparen, token .semicolon],
        seq [token .kwPrint, token .lparen, rule .expr, opt (seq [token .comma, token .number]),
          token .rparen, token .semicolon],
        rule .block,
        token .semicolon]
  | .designator =>
      seq [token .ident, many (alt [seq [token .period, token .ident],
        seq [token .lbracket, rule .expr, token .rbracket]])]
  | .actPars =>
      seq [token .lparen, opt (seq [rule .expr, many (seq [token .comma, rule .expr])]),
        token .rparen]
  | .condition => seq [rule .expr, rule .relop, rule .expr]
  | .relop =>
      alt [token .equal, token .notEqual, token .less, token .lessEqual, token .greater,
        token .greaterEqual]
  | .expr =>
      seq [opt (token .minus), rule .term,
        many (seq [alt [token .plus, token .minus], rule .term])]
  | .term =>
      seq [rule .factor,
        many (seq [alt [token .times, token .slash, token .percent], rule .factor])]
  | .factor =>
      alt [
        seq [rule .designator, opt (rule .actPars)],
        token .number,
        token .charConst,
        seq [token .kwNew, token .ident, opt (seq [token .lbracket, rule .expr, token .rbracket])],
        seq [token .lparen, rule .expr, token .rparen]]

/-- The token kinds in a sequence that the rules allow for a right-hand side. -/
inductive Derives : Ebnf → List TokenKind → Prop
  | token (kind : TokenKind) : Derives (.token kind) [kind]
  | rule {n : Nonterminal} {v : List TokenKind} : Derives (grammar n) v → Derives (.rule n) v
  | nil : Derives (.seq []) []
  | cons {part : Ebnf} {parts : List Ebnf} {u v : List TokenKind} :
      Derives part u → Derives (.seq parts) v → Derives (.seq (part :: parts)) (u ++ v)
  | alt {choice : Ebnf} {choices : List Ebnf} {v : List TokenKind} :
      choice ∈ choices → Derives choice v → Derives (.alt choices) v
  | absent {part : Ebnf} : Derives (.opt part) []
  | present {part : Ebnf} {v : List TokenKind} : Derives part v → Derives (.opt part) v
  | stop {part : Ebnf} : Derives (.many part) []
  | more {part : Ebnf} {u v : List TokenKind} :
      Derives part u → Derives (.many part) v → Derives (.many part) (u ++ v)

namespace Derives

variable {part : Ebnf} {parts choices : List Ebnf} {v : List TokenKind}

theorem token_iff {k : TokenKind} : Derives (.token k) v ↔ v = [k] := by
  constructor
  · rintro ⟨⟩
    rfl
  · rintro rfl
    exact .token k

theorem rule_iff {n : Nonterminal} : Derives (.rule n) v ↔ Derives (grammar n) v := by
  constructor
  · rintro ⟨⟩
    assumption
  · exact .rule

theorem seq_nil_iff : Derives (.seq []) v ↔ v = [] := by
  constructor
  · rintro ⟨⟩
    rfl
  · rintro rfl
    exact .nil

theorem seq_cons_iff : Derives (.seq (part :: parts)) v ↔
    ∃ u w, Derives part u ∧ Derives (.seq parts) w ∧ v = u ++ w := by
  constructor
  · rintro ⟨⟩
    exact ⟨_, _, ‹_›, ‹_›, rfl⟩
  · rintro ⟨u, w, hu, hw, rfl⟩
    exact .cons hu hw

theorem seq_one_iff : Derives (.seq [part]) v ↔ Derives part v := by
  constructor
  · intro h
    obtain ⟨u, w, hu, hw, rfl⟩ := seq_cons_iff.1 h
    rw [seq_nil_iff.1 hw, List.append_nil]
    exact hu
  · intro h
    exact seq_cons_iff.2 ⟨v, [], h, .nil, (List.append_nil v).symm⟩

theorem seq_token_iff {k : TokenKind} : Derives (.seq (.token k :: parts)) v ↔
    ∃ w, Derives (.seq parts) w ∧ v = k :: w := by
  constructor
  · intro h
    obtain ⟨u, w, hu, hw, rfl⟩ := seq_cons_iff.1 h
    rw [token_iff.1 hu]
    exact ⟨w, hw, rfl⟩
  · rintro ⟨w, hw, rfl⟩
    exact .cons (.token k) hw

theorem alt_iff : Derives (.alt choices) v ↔ ∃ choice ∈ choices, Derives choice v := by
  constructor
  · rintro ⟨⟩
    exact ⟨_, ‹_›, ‹_›⟩
  · rintro ⟨choice, hmem, h⟩
    exact .alt hmem h

theorem opt_iff : Derives (.opt part) v ↔ v = [] ∨ Derives part v := by
  constructor
  · rintro (_ | h)
    · exact .inl rfl
    · exact .inr ‹_›
  · rintro (rfl | h)
    · exact .absent
    · exact .present h

theorem many_iff : Derives (.many part) v ↔
    v = [] ∨ ∃ u w, Derives part u ∧ Derives (.many part) w ∧ v = u ++ w := by
  constructor
  · rintro (_ | _)
    · exact .inl rfl
    · exact .inr ⟨_, _, ‹_›, ‹_›, rfl⟩
  · rintro (rfl | ⟨u, w, hu, hw, rfl⟩)
    · exact .stop
    · exact .more hu hw

theorem seq_append {parts' : List Ebnf} {w : List TokenKind} (h : Derives (.seq parts) v)
    (h' : Derives (.seq parts') w) : Derives (.seq (parts ++ parts')) (v ++ w) := by
  induction parts generalizing v with
  | nil =>
      obtain rfl := seq_nil_iff.1 h
      exact h'
  | cons part parts ih =>
      obtain ⟨u, v, hu, hv, rfl⟩ := seq_cons_iff.1 h
      rw [List.append_assoc]
      exact .cons hu (ih hv)

end Derives

end MicroJava
