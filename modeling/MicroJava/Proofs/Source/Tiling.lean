import Mathlib.Data.List.Induction
import MicroJava.Proofs.Source.Wording

/-! # The text call by call

Every call of the lexer takes the next stretch of the text: trivia first, and then one lexeme. The
stretches follow one another without gap or overlap until the text is used up. So the place of a
token can be read off the text in front of its lexeme, and behind the last lexeme the end mark comes
again and again. -/

namespace MicroJava

/-! ## Places -/

namespace Position

/-- The place behind a text, counted out: its line breaks, and the characters behind the last. -/
def behind (cs : List Char) : Position :=
  ⟨1 + cs.count '\n', (cs.reverse.takeWhile (· != '\n')).length⟩

theorem behind_concat (cs : List Char) (c : Char) : behind (cs ++ [c]) = (behind cs).step c := by
  by_cases hc : c = '\n'
  · subst hc
    simp [behind, step, Nat.add_assoc]
  · simp [behind, step, hc]

theorem start_advance (cs : List Char) : start.advance cs = behind cs := by
  induction cs using List.reverseRecOn with
  | nil => rfl
  | append_singleton cs c ih =>
      calc
        start.advance (cs ++ [c]) = (start.advance cs).step c := advance_append start cs [c]
        _ = (behind cs).step c := by rw [ih]
        _ = behind (cs ++ [c]) := (behind_concat cs c).symm

theorem behind_advance (cs cs' : List Char) : (behind cs).advance cs' = behind (cs ++ cs') := by
  rw [← start_advance, ← start_advance, advance_append]

end Position

/-! ## Trivia -/

/-- Blanks and comments in front of `rest`. A comment goes on to the end of its line or of the
text. -/
inductive Trivia (rest : List Char) : List Char → Prop
  | nil : Trivia rest []
  | blank {c : Char} {gap : List Char} (hc : c ≤ ' ') (h : Trivia rest gap) : Trivia rest (c :: gap)
  | comment {line gap : List Char} (hline : '\n' ∉ line)
      (hend : ∀ c ∈ (gap ++ rest).head?, c = '\n') (h : Trivia rest gap) :
      Trivia rest ('/' :: '/' :: (line ++ gap))

/-- The text starts with neither a blank nor a comment. -/
def Bare (cs : List Char) : Prop :=
  (∀ c ∈ cs.head?, ¬ c ≤ ' ') ∧ ¬ ['/', '/'] <+: cs

namespace Cursor

theorem skipTrivia_blank_cons {c : Char} (hc : c ≤ ' ') (cs : List Char) (pos : Position) :
    skipTrivia false (c :: cs) pos = skipTrivia false cs (pos.step c) := by
  have hgap : ∀ d ∈ [c], d ≤ ' ' := by simpa using hc
  exact skipTrivia_blank hgap cs pos

/-- Behind two slashes reading goes on at the end of the line, or is at the end of the text. -/
theorem skipTrivia_slashes {line : List Char} (h : '\n' ∉ line) (pos : Position) :
    skipTrivia false ('/' :: '/' :: line) pos = ⟨[], pos.advance ('/' :: '/' :: line)⟩ ∧
      ∀ tail, skipTrivia false ('/' :: '/' :: (line ++ '\n' :: tail)) pos =
        skipTrivia false ('\n' :: tail) (pos.advance ('/' :: '/' :: line)) := by
  have hslash : '\n' ∉ '/' :: line := by simpa using h
  constructor
  · exact skipTrivia_comment hslash (pos.step '/')
  · intro tail
    calc
      skipTrivia false ('/' :: '/' :: (line ++ '\n' :: tail)) pos =
          skipTrivia true ('/' :: line ++ '\n' :: tail) (pos.step '/') := rfl
      _ = skipTrivia false tail ((pos.advance ('/' :: '/' :: line)).step '\n') := by
        rw [skipTrivia_newline, skipTrivia_comment hslash]
        rfl
      _ = skipTrivia false ('\n' :: tail) (pos.advance ('/' :: '/' :: line)) :=
        (skipTrivia_blank_cons (by decide) tail _).symm

theorem skipTrivia_bare {cs : List Char} (h : Bare cs) (pos : Position) :
    skipTrivia false cs pos = ⟨cs, pos⟩ := by
  cases cs with
  | nil => rfl
  | cons c cs =>
      have hblank : Lexeme.isBlank c = false := decide_eq_false (h.1 c rfl)
      have hcomment : ¬ (c = '/' ∧ cs.head? = some '/') := by
        rintro ⟨rfl, hhead⟩
        obtain ⟨cs, rfl⟩ := List.head?_eq_some_iff.1 hhead
        exact h.2 ⟨cs, rfl⟩
      simp [skipTrivia, hblank, hcomment]

/-- What is skipped is trivia, and what is reached is not. -/
theorem exists_gap (cs : List Char) (pos : Position) : ∃ gap here, cs = gap ++ here ∧
    Trivia here gap ∧ Bare here ∧ skipTrivia false cs pos = ⟨here, pos.advance gap⟩ := by
  induction hn : cs.length using Nat.strongRecOn generalizing cs pos with
  | ind n ih =>
      subst hn
      by_cases hbare : Bare cs
      · exact ⟨[], cs, rfl, .nil, hbare, skipTrivia_bare hbare pos⟩
      by_cases hslashes : ['/', '/'] <+: cs
      · obtain ⟨behind, rfl⟩ := hslashes
        by_cases hline : '\n' ∈ behind
        · obtain ⟨line, tail, rfl, hfree⟩ := List.eq_append_cons_of_mem hline
          obtain ⟨gap, here, htail, htrivia, hhere, hskip⟩ :=
            ih ('\n' :: tail).length (by simp; omega) ('\n' :: tail)
              (pos.advance ('/' :: '/' :: line)) rfl
          refine ⟨'/' :: '/' :: (line ++ gap), here, ?_, ?_, hhere, ?_⟩
          · simp [htail]
          · apply Trivia.comment hfree ?_ htrivia
            rw [← htail]
            rintro c ⟨⟩
            rfl
          · refine ((skipTrivia_slashes hfree pos).2 tail).trans (hskip.trans ?_)
            rw [← Position.advance_append]
            rfl
        · have hcomment : Trivia [] ('/' :: '/' :: (behind ++ [])) := .comment hline nofun .nil
          rw [List.append_nil] at hcomment
          exact ⟨'/' :: '/' :: behind, [], by simp, hcomment, ⟨nofun, by simp⟩,
            (skipTrivia_slashes hline pos).1⟩
      · -- neither bare nor a comment: the text starts with a blank
        obtain ⟨c, hc, hle⟩ : ∃ c ∈ cs.head?, c ≤ ' ' := by
          by_contra hnone
          refine hbare ⟨fun c hc hle => hnone ⟨c, hc, hle⟩, hslashes⟩
        obtain ⟨tail, rfl⟩ := List.head?_eq_some_iff.1 hc
        obtain ⟨gap, here, rfl, htrivia, hhere, hskip⟩ :=
          ih tail.length (by simp) tail (pos.step c) rfl
        exact ⟨c :: gap, here, rfl, .blank hle htrivia, hhere,
          (skipTrivia_blank_cons hle _ pos).trans hskip⟩

end Cursor

/-! ## One call -/

namespace Lexeme

/-- The lexeme at the front of a text without trivia there; nothing is left at the end. -/
def front : List Char → Lexeme
  | [] => { kind := .eof, taken := [], rest := [] }
  | c :: cs => read c cs

theorem front_taken_append_rest (cs : List Char) : (front cs).taken ++ (front cs).rest = cs := by
  cases cs with
  | nil => rfl
  | cons c cs => exact taken_append_rest c cs

theorem front_kind_eq_eof_iff (cs : List Char) : (front cs).kind = .eof ↔ (front cs).taken = [] := by
  cases cs with
  | nil => exact ⟨fun _ => rfl, fun _ => rfl⟩
  | cons c cs =>
      constructor
      · intro hk
        exact absurd hk (kind_read c cs)
      · intro ht
        exact absurd ht (taken_ne_nil c cs)

theorem front_of_eof {cs : List Char} (h : (front cs).kind = .eof) : cs = [] := by
  cases cs with
  | nil => rfl
  | cons c cs => exact absurd h (kind_read c cs)

theorem kind_single (c : Char) : single c ∈ TokenKind.illegal :: TokenKind.marks := by
  unfold single
  split <;> decide

theorem kind_pair? {c d : Char} {kind : TokenKind} (h : pair? c d = some kind) :
    kind ∈ TokenKind.illegal :: TokenKind.marks := by
  unfold pair? at h
  split at h <;> cases h <;> decide

theorem kind_mark (c : Char) (cs : List Char) :
    (mark c cs).kind ∈ TokenKind.illegal :: TokenKind.marks := by
  unfold mark
  split
  · exact kind_single c
  · split
    · next hpair => exact kind_pair? hpair
    · exact kind_single c

/-- The first character decides how a lexeme is read. -/
theorem read_cases (c : Char) (cs : List Char) :
    read c cs = word (c :: cs) ∨ c.isDigit ∧ read c cs = numeral (c :: cs) ∨
      c = '\'' ∧ read c cs = quoted cs ∨ read c cs = mark c cs := by
  unfold read
  split
  · exact .inl rfl
  · split
    · next hdigit => exact .inr (.inl ⟨hdigit, rfl⟩)
    · split
      · next hquote => exact .inr (.inr (.inl ⟨hquote, rfl⟩))
      · exact .inr (.inr (.inr rfl))

/-- A name is spelt as it is written. -/
theorem front_text {cs : List Char}
    (h : (front cs).kind = .ident ∨ (front cs).kind ∈ TokenKind.reserved) :
    (front cs).text = String.ofList (front cs).taken := by
  cases cs with
  | nil => exact absurd h (by decide)
  | cons c cs =>
      change (read c cs).kind = .ident ∨ (read c cs).kind ∈ TokenKind.reserved at h
      change (read c cs).text = String.ofList (read c cs).taken
      rcases read_cases c cs with hread | ⟨-, hread⟩ | ⟨-, hread⟩ | hread
      · rw [hread]
        rfl
      · rw [hread, (numeral_eq _).1] at h
        exact absurd h (by decide)
      · rw [hread, (quoted_eq cs).1] at h
        exact absurd h (by decide)
      · have hmarks : ∀ kind ∈ TokenKind.illegal :: TokenKind.marks,
            ¬ (kind = .ident ∨ kind ∈ TokenKind.reserved) := by decide
        rw [hread] at h
        exact absurd h (hmarks _ (kind_mark c cs))

end Lexeme

/-- What a call does: it passes trivia, takes the lexeme behind, and places the token there. -/
theorem Cursor.next_eq (cur : Cursor) : ∃ gap here, cur.rest = gap ++ here ∧ Trivia here gap ∧
    Bare here ∧ cur.next = ((Lexeme.front here).toToken (cur.pos.advance gap),
      ⟨(Lexeme.front here).rest, cur.pos.advance (gap ++ (Lexeme.front here).taken)⟩) := by
  obtain ⟨gap, here, hrest, htrivia, hbare, hskip⟩ := exists_gap cur.rest cur.pos
  refine ⟨gap, here, hrest, htrivia, hbare, ?_⟩
  cases here with
  | nil =>
      rw [next_of_nil hskip, Position.advance_append]
      rfl
  | cons c cs =>
      rw [next_of_cons hskip, Position.advance_append]
      rfl

namespace Lexer

@[simp] theorem next_fst (lexer : Lexer) : lexer.next.1 = lexer.cursor.next.1 := by
  simp only [next]
  split <;> rfl

@[simp] theorem cursor_next (lexer : Lexer) : lexer.next.2.cursor = lexer.cursor.next.2 := by
  simp only [next]
  split <;> rfl

/-- The next call takes `gap`, which is all the trivia there is, and then `lexeme`. -/
structure Takes (lexer : Lexer) (gap lexeme : List Char) : Prop where
  split : lexer.cursor.rest = gap ++ (lexeme ++ lexer.next.2.cursor.rest)
  trivia : Trivia (lexeme ++ lexer.next.2.cursor.rest) gap
  bare : Bare (lexeme ++ lexer.next.2.cursor.rest)

theorem exists_takes (lexer : Lexer) : ∃ gap here, lexer.Takes gap (Lexeme.front here).taken ∧
    lexer.next.1 = (Lexeme.front here).toToken (lexer.cursor.pos.advance gap) ∧
    lexer.next.2.cursor = ⟨(Lexeme.front here).rest,
      lexer.cursor.pos.advance (gap ++ (Lexeme.front here).taken)⟩ := by
  obtain ⟨gap, here, hrest, htrivia, hbare, hnext⟩ := lexer.cursor.next_eq
  have hcursor := congrArg Prod.snd hnext
  rw [← cursor_next] at hcursor
  have hhere : (Lexeme.front here).taken ++ lexer.next.2.cursor.rest = here := by
    rw [hcursor]
    exact Lexeme.front_taken_append_rest here
  refine ⟨gap, here, ⟨?_, ?_, ?_⟩, ?_, hcursor⟩
  · rw [hhere, hrest]
  · rwa [hhere]
  · rwa [hhere]
  · rw [next_fst, hnext]

/-- At the end of the text the lexer stays as it is. -/
theorem next_of_eof {lexer : Lexer} (h : lexer.next.1.kind = .eof) :
    lexer.next.2.cursor.rest = [] ∧ lexer.next.2.next = lexer.next := by
  obtain ⟨gap, here, -, -, -, hnext⟩ := lexer.cursor.next_eq
  rw [next_fst, hnext] at h
  obtain rfl : here = [] := Lexeme.front_of_eof h
  have hstep : lexer.next = ((Lexeme.front []).toToken (lexer.cursor.pos.advance gap),
      ⟨⟨[], lexer.cursor.pos.advance (gap ++ [])⟩, lexer.pending⟩) := by
    simp only [next, hnext]
    rfl
  rw [hstep, List.append_nil]
  exact ⟨rfl, rfl⟩

/-! ## Call after call -/

/-- The lexer after so many calls. -/
def after (lexer : Lexer) : Nat → Lexer
  | 0 => lexer
  | n + 1 => (lexer.after n).next.2

/-- The token that a call hands out, where the first call has number zero. -/
def token (lexer : Lexer) (n : Nat) : Token := (lexer.after n).next.1

theorem after_next (lexer : Lexer) (n : Nat) : lexer.next.2.after n = lexer.after (n + 1) := by
  induction n with
  | zero => rfl
  | succ n ih => exact congrArg (·.next.2) ih

theorem token_next (lexer : Lexer) (n : Nat) : lexer.next.2.token n = lexer.token (n + 1) := by
  rw [token, after_next, token]

theorem token_zero (lexer : Lexer) : lexer.token 0 = lexer.cursor.next.1 := lexer.next_fst

theorem rest_of_eof {lexer : Lexer} {n : Nat} (h : (lexer.token n).kind = .eof) :
    (lexer.after (n + 1)).cursor.rest = [] := (next_of_eof h).1

/-- The text is what was taken and what is left, and the place is the one behind what was taken. -/
theorem exists_before (source : String) (n : Nat) : ∃ before,
    source.toList = before ++ ((ofString source).after n).cursor.rest ∧
      ((ofString source).after n).cursor.pos = .behind before := by
  induction n with
  | zero => exact ⟨[], rfl, rfl⟩
  | succ n ih =>
      obtain ⟨before, hsource, hpos⟩ := ih
      obtain ⟨gap, here, htakes, -, hcursor⟩ := ((ofString source).after n).exists_takes
      refine ⟨before ++ (gap ++ (Lexeme.front here).taken), ?_, ?_⟩
      · rw [hsource, htakes.split]
        simp only [after, List.append_assoc]
      · calc
          ((ofString source).after n).next.2.cursor.pos =
              (Position.behind before).advance (gap ++ (Lexeme.front here).taken) := by
            rw [hcursor, hpos]
          _ = .behind (before ++ (gap ++ (Lexeme.front here).taken)) :=
            Position.behind_advance before _

/-- What a call takes, and the token that it hands out for it. -/
theorem exists_call (source : String) (n : Nat) : ∃ before gap here,
    source.toList = before ++ ((ofString source).after n).cursor.rest ∧
      ((ofString source).after n).Takes gap (Lexeme.front here).taken ∧
      (ofString source).token n =
        (Lexeme.front here).toToken (.behind (before ++ gap)) ∧
      ((ofString source).after (n + 1)).cursor.rest = (Lexeme.front here).rest := by
  obtain ⟨before, hsource, hpos⟩ := exists_before source n
  obtain ⟨gap, here, htakes, htoken, hcursor⟩ := ((ofString source).after n).exists_takes
  refine ⟨before, gap, here, hsource, htakes, ?_, ?_⟩
  · rw [token, htoken, hpos, Position.behind_advance]
  · exact congrArg (·.rest) hcursor

end Lexer

/-- Every token but the end mark takes a character. -/
theorem Cursor.Reads.length_le {cur : Cursor} {ts : List Token} {last : Token}
    (h : Reads cur ts last) : ts.length ≤ cur.rest.length := by
  induction h with
  | done => exact Nat.zero_le _
  | @token cur cur' t last ts h hk hr ih =>
      have hcases := cur.next_cases
      rw [h] at hcases
      exact Nat.lt_of_le_of_lt ih (hcases.resolve_left hk).2

/-- The calls hand out the tokens one by one, and then the end mark. -/
theorem Cursor.Reads.token_after {lexer : Lexer} {ts : List Token} {last : Token}
    (h : Reads lexer.cursor ts last) :
    (List.range (ts.length + 1)).map lexer.token = ts ++ [last] := by
  generalize hcur : lexer.cursor = cur at h
  induction h generalizing lexer with
  | done h hk => simp [Lexer.token_zero, hcur, h]
  | @token cur cur' t last ts h hk hr ih =>
      have hbehind : lexer.next.2.cursor = cur' := by rw [Lexer.cursor_next, hcur, h]
      have hfirst : lexer.token 0 = t := by rw [Lexer.token_zero, hcur, h]
      have hshift : lexer.token ∘ Nat.succ = lexer.next.2.token :=
        funext fun k => (lexer.token_next k).symm
      rw [List.length_cons, List.range_succ_eq_map, List.map_cons, List.map_map, hfirst, hshift,
        ih hbehind, List.cons_append]

/-- The token stands for a lexeme behind the text `before`. -/
structure Token.Spans (t : Token) (before lexeme : List Char) : Prop where
  place : t.pos = .behind before
  eof_iff : t.kind = .eof ↔ lexeme = []
  text : t.kind = .ident ∨ t.kind ∈ TokenKind.reserved → t.text = String.ofList lexeme

theorem Token.spans_of_front {t : Token} {before here : List Char}
    (h : t = (Lexeme.front here).toToken (.behind before)) :
    t.Spans before (Lexeme.front here).taken := by
  subst h
  exact ⟨rfl, Lexeme.front_kind_eq_eof_iff here, Lexeme.front_text⟩

theorem Cursor.Reads.kind_of_mem {cur : Cursor} {ts : List Token} {last : Token}
    (h : Reads cur ts last) : ∀ t ∈ ts, t.kind ≠ .eof := by
  induction h with
  | done => exact List.forall_mem_nil _
  | token _ hk _ ih => exact List.forall_mem_cons.2 ⟨hk, ih⟩

namespace Lexer

/-- The calls hand out the tokens of the text one by one. -/
theorem token_after (source : String) :
    (List.range ((TokenList.ofString source).tokens.length + 1)).map
      (ofString source).token = (TokenList.ofString source).all :=
  (TokenList.reads_ofString source).token_after

theorem kind_after {source : String} {k : Nat} (hk : k < (TokenList.ofString source).tokens.length) :
    ((ofString source).token k).kind ≠ .eof := by
  have hget := congrArg (·[k]?) (token_after source)
  simp only [TokenList.all, List.getElem?_append_left hk, List.getElem?_map,
    List.getElem?_range (Nat.lt_succ_of_lt hk), Option.map_some] at hget
  exact (TokenList.reads_ofString source).kind_of_mem _ (List.mem_of_getElem? hget.symm)

theorem kind_after_tokens (source : String) :
    ((ofString source).token (TokenList.ofString source).tokens.length).kind = .eof := by
  have hlast := congrArg List.getLast? (token_after source)
  simp only [TokenList.all, List.range_succ, List.map_append, List.map_cons, List.map_nil,
    List.getLast?_concat, Option.some.injEq] at hlast
  rw [hlast]
  exact (TokenList.reads_ofString source).kind_last

/-- Once the end mark has come, every further call leaves the lexer alone. -/
theorem next_after_of_eof {lexer : Lexer} {n : Nat} (h : (lexer.token n).kind = .eof) {k : Nat}
    (hk : n ≤ k) : (lexer.after k).next = (lexer.after n).next := by
  induction k, hk using Nat.le_induction with
  | base => rfl
  | succ k hk ih =>
      calc
        (lexer.after k).next.2.next = (lexer.after n).next.2.next := by rw [ih]
        _ = (lexer.after n).next := (next_of_eof h).2

/-- The end mark stands behind the whole text. -/
theorem next_of_eof_after {source : String} {n : Nat}
    (h : ((ofString source).token n).kind = .eof) :
    (ofString source).token n = ⟨.eof, .behind source.toList, "", 0, none⟩ := by
  obtain ⟨before, gap, here, hsource, htakes, htoken, -⟩ := exists_call source n
  have hfront : (Lexeme.front here).kind = .eof := by rwa [htoken] at h
  obtain rfl : here = [] := Lexeme.front_of_eof hfront
  have htext : source.toList = before ++ gap := by
    rw [hsource, htakes.split, (next_of_eof h).1]
    simp [Lexeme.front]
  rw [htoken, htext]
  rfl

/-- The calls cut the text into stretches of trivia and lexeme, one behind the other, and every
token says where its lexeme stands and how it is spelt. There are no more lexemes than characters.
Then the text is used up, and from there on the end mark stands behind it and nothing changes. -/
theorem tiling (source : String) :
    (∀ n, ∃ before gap lexeme,
      source.toList = before ++ ((ofString source).after n).cursor.rest ∧
        ((ofString source).after n).Takes gap lexeme ∧
        ((ofString source).token n).Spans (before ++ gap) lexeme) ∧
      ∃ n ≤ source.length,
        (∀ k < n, ((ofString source).token k).kind ≠ .eof) ∧
          ((ofString source).after (n + 1)).cursor.rest = [] ∧
          ∀ k ≥ n, ((ofString source).after k).next =
            (⟨.eof, .behind source.toList, "", 0, none⟩, (ofString source).after (n + 1)) := by
  refine ⟨?_, (TokenList.ofString source).tokens.length, ?_, ?_, ?_, ?_⟩
  · intro n
    obtain ⟨before, gap, here, hsource, htakes, htoken, -⟩ := exists_call source n
    exact ⟨before, gap, _, hsource, htakes, Token.spans_of_front htoken⟩
  · rw [← String.length_toList]
    exact (TokenList.reads_ofString source).length_le
  · intro k hk
    exact kind_after hk
  · exact rest_of_eof (kind_after_tokens source)
  · intro k hk
    have heof := kind_after_tokens source
    rw [next_after_of_eof heof hk, ← next_of_eof_after heof, token, after]

theorem tiling_commented :
    ((ofString "a //\n 07").token 1).pos = ⟨2, 1⟩ ∧
      (∃ before gap lexeme,
        "a //\n 07".toList = before ++ ((ofString "a //\n 07").after 1).cursor.rest ∧
          ((ofString "a //\n 07").after 1).Takes gap lexeme ∧
          ((ofString "a //\n 07").token 1).Spans (before ++ gap) lexeme) ∧
      (ofString "a //\n 07").token 2 = ⟨.eof, ⟨2, 3⟩, "", 0, none⟩ ∧
      ((ofString "a //\n 07").after 3).next = ((ofString "a //\n 07").after 2).next := by
  obtain ⟨hcalls, n, -, hkinds, -, hend⟩ := tiling "a //\n 07"
  have htwo : ((ofString "a //\n 07").token 2).kind = .eof := by decide +kernel
  have hn : n ≤ 2 := by
    by_contra hlt
    exact hkinds 2 (Nat.not_le.1 hlt) htwo
  have hplace : Position.behind "a //\n 07".toList = ⟨2, 3⟩ := by decide +kernel
  refine ⟨by decide +kernel, hcalls 1, ?_, ?_⟩
  · rw [token, hend 2 hn, hplace]
  · rw [hend 3 (Nat.le_succ_of_le hn), hend 2 hn]

end Lexer

end MicroJava
