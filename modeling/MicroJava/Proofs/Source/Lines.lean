import Mathlib.Data.List.TakeWhile
import MicroJava.Proofs.Source.Tokens

/-! # Texts line by line

Every reader treats the end of a line as it treats the end of the text. So a text can be cut at any
line break, and its tokens are those of the two parts, the second part's further down by the lines
of the first. -/

namespace MicroJava

/-! ## Further down -/

/-- So many lines further down. -/
def Position.down (lines : Nat) (pos : Position) : Position := { pos with line := pos.line + lines }

def Token.down (lines : Nat) (t : Token) : Token := { t with pos := t.pos.down lines }

def Cursor.down (lines : Nat) (cur : Cursor) : Cursor := { cur with pos := cur.pos.down lines }

namespace Position

theorem step_down (lines : Nat) (pos : Position) (c : Char) :
    (pos.down lines).step c = (pos.step c).down lines := by
  simp only [step, down]
  split
  · rw [Nat.add_right_comm]
  · rfl

theorem advance_down (lines : Nat) (pos : Position) (cs : List Char) :
    (pos.down lines).advance cs = (pos.advance cs).down lines := by
  induction cs generalizing pos with
  | nil => rfl
  | cons c cs ih =>
      change ((pos.down lines).step c).advance cs = ((pos.step c).advance cs).down lines
      rw [step_down, ih]

theorem line_advance (pos : Position) (cs : List Char) :
    (pos.advance cs).line = pos.line + cs.count '\n' := by
  induction cs generalizing pos with
  | nil => rfl
  | cons c cs ih =>
      change ((pos.step c).advance cs).line = _
      rw [ih, List.count_cons, step]
      split
      · next hc => simp [hc, Nat.add_assoc, Nat.add_comm 1]
      · next hc => simp [hc]

theorem advance_append (pos : Position) (cs cs' : List Char) :
    pos.advance (cs ++ cs') = (pos.advance cs).advance cs' :=
  List.foldl_append

end Position

namespace Cursor

theorem skipTrivia_down (lines : Nat) (inComment : Bool) (cs : List Char) (pos : Position) :
    skipTrivia inComment cs (pos.down lines) = (skipTrivia inComment cs pos).down lines := by
  induction cs generalizing inComment pos with
  | nil => rfl
  | cons c cs ih =>
      simp only [skipTrivia, Position.step_down]
      split
      · exact ih _ _
      · split
        · exact ih _ _
        · split
          · exact ih _ _
          · rfl

theorem next_down (lines : Nat) (cur : Cursor) :
    (cur.down lines).next = (cur.next.1.down lines, cur.next.2.down lines) := by
  have hskip := skipTrivia_down lines false cur.rest cur.pos
  cases hs : skipTrivia false cur.rest cur.pos with
  | mk rest pos =>
      rw [hs] at hskip
      cases rest with
      | nil =>
          rw [next_of_nil hs]
          exact next_of_nil hskip
      | cons c cs =>
          have hnext : (cur.down lines).next = _ := next_of_cons hskip
          rw [next_of_cons hs, hnext, Position.advance_down]
          rfl

/-- What is read does not depend on the line where reading starts. -/
theorem Reads.down {cur : Cursor} {ts : List Token} {last : Token} (h : Reads cur ts last)
    (lines : Nat) : Reads (cur.down lines) (ts.map (Token.down lines)) (last.down lines) := by
  induction h with
  | done h hk => exact .done (by rw [next_down, h]) hk
  | token h hk hr ih => exact .token (by rw [next_down, h]) hk ih

/-! ## Where the text ends -/

theorem advance_skipTrivia (inComment : Bool) (cs : List Char) (pos : Position) :
    (skipTrivia inComment cs pos).pos.advance (skipTrivia inComment cs pos).rest =
      pos.advance cs := by
  induction cs generalizing inComment pos with
  | nil => rfl
  | cons c cs ih =>
      rw [skipTrivia]
      split
      · exact ih _ _
      · split
        · exact ih _ _
        · split
          · exact ih _ _
          · rfl

/-- No character is lost between a token and the next. -/
theorem advance_next (cur : Cursor) :
    cur.next.2.pos.advance cur.next.2.rest = cur.pos.advance cur.rest ∧
      (cur.next.1.kind = .eof → cur.next.1.pos = cur.pos.advance cur.rest) := by
  have hskip := advance_skipTrivia false cur.rest cur.pos
  cases hs : skipTrivia false cur.rest cur.pos with
  | mk rest pos =>
      rw [hs] at hskip
      cases rest with
      | nil =>
          rw [next_of_nil hs]
          exact ⟨hskip, fun _ => hskip⟩
      | cons c cs =>
          rw [next_of_cons hs]
          refine ⟨?_, fun heof => absurd heof (Lexeme.kind_read c cs)⟩
          rw [← hskip, ← Lexeme.taken_append_rest c cs]
          exact (Position.advance_append ..).symm

theorem Reads.pos_last {cur : Cursor} {ts : List Token} {last : Token} (h : Reads cur ts last) :
    last.pos = cur.pos.advance cur.rest := by
  induction h with
  | @done cur cur' last h hk =>
      have hend := cur.advance_next.2
      rw [h] at hend
      exact hend hk
  | @token cur cur' t last ts h hk hr ih =>
      have hbehind := cur.advance_next.1
      rw [h] at hbehind
      exact ih.trans hbehind

end Cursor

/-! ## Line breaks -/

namespace Lexeme

theorem takeWhile_append {p : Char → Bool} {tail : List Char} (h : ∀ c ∈ tail.head?, p c = false)
    (cs : List Char) : (cs ++ tail).takeWhile p = cs.takeWhile p := by
  induction cs with
  | nil =>
      cases tail with
      | nil => rfl
      | cons c tail => exact List.takeWhile_cons_of_neg (by simp [h c rfl])
  | cons c cs ih => simp only [List.cons_append, List.takeWhile_cons, ih]

theorem dropWhile_append {p : Char → Bool} {tail : List Char} (h : ∀ c ∈ tail.head?, p c = false)
    (cs : List Char) : (cs ++ tail).dropWhile p = cs.dropWhile p ++ tail := by
  induction cs with
  | nil =>
      cases tail with
      | nil => rfl
      | cons c tail => exact List.dropWhile_cons_of_neg (by simp [h c rfl])
  | cons c cs ih =>
      simp only [List.cons_append, List.dropWhile_cons, ih]
      split <;> rfl

/-- The lexeme with more text behind it. -/
def before (tail : List Char) (lex : Lexeme) : Lexeme := { lex with rest := lex.rest ++ tail }

theorem word_newline (cs tail : List Char) :
    word (cs ++ '\n' :: tail) = (word cs).before ('\n' :: tail) := by
  have hstop : ∀ c ∈ ('\n' :: tail).head?, isNamePart c = false := by rintro c ⟨⟩; rfl
  simp only [word, takeWhile_append hstop, dropWhile_append hstop]
  rfl

theorem numeral_newline (cs tail : List Char) :
    numeral (cs ++ '\n' :: tail) = (numeral cs).before ('\n' :: tail) := by
  have hstop : ∀ c ∈ ('\n' :: tail).head?, Char.isDigit c = false := by rintro c ⟨⟩; rfl
  simp only [numeral, takeWhile_append hstop, dropWhile_append hstop]
  split <;> rfl

theorem quoted_newline (cs tail : List Char) :
    quoted (cs ++ '\n' :: tail) = (quoted cs).before ('\n' :: tail) := by
  have hstop : ∀ c ∈ ('\n' :: tail).head?, insideQuotes c = false := by rintro c ⟨⟩; rfl
  simp only [quoted, takeWhile_append hstop, dropWhile_append hstop]
  cases cs.dropWhile insideQuotes with
  | nil => rfl
  | cons d rest =>
      by_cases hd : d = '\''
      · subst hd
        cases charValue (cs.takeWhile insideQuotes) <;> rfl
      · simp [hd, before]

theorem pair?_of_ne {c d : Char} (h : d ≠ '=') : pair? c d = none := by
  unfold pair?
  split
  case h_5 => rfl
  all_goals exact absurd rfl h

theorem mark_newline (c : Char) (cs tail : List Char) :
    mark c (cs ++ '\n' :: tail) = (mark c cs).before ('\n' :: tail) := by
  cases cs with
  | nil =>
      have hpair : pair? c '\n' = none := pair?_of_ne (by decide)
      simp [mark, hpair, before]
  | cons d cs =>
      simp only [mark, List.cons_append]
      split <;> rfl

theorem read_newline (c : Char) (cs tail : List Char) :
    read c (cs ++ '\n' :: tail) = (read c cs).before ('\n' :: tail) := by
  unfold read
  split
  · exact word_newline (c :: cs) tail
  · split
    · exact numeral_newline (c :: cs) tail
    · split
      · exact quoted_newline cs tail
      · exact mark_newline c cs tail

theorem newline_not_mem_takeWhile {p : Char → Bool} (h : p '\n' = false) (cs : List Char) :
    '\n' ∉ cs.takeWhile p := by
  intro hmem
  rw [List.mem_takeWhile_imp hmem] at h
  cases h

theorem newline_not_mem_quoted (cs : List Char) : '\n' ∉ (quoted cs).taken := by
  have hcontent : '\n' ∉ cs.takeWhile insideQuotes := newline_not_mem_takeWhile rfl cs
  unfold quoted
  dsimp only
  split
  · split <;> simp [hcontent]
  · simp [hcontent]

theorem newline_not_mem_mark {c : Char} (hc : c ≠ '\n') (cs : List Char) :
    '\n' ∉ (mark c cs).taken := by
  unfold mark
  split
  · simpa using hc.symm
  · next d rest =>
      split
      · next kind hpair =>
          have hd : d ≠ '\n' := by
            rintro rfl
            cases (pair?_of_ne (by decide)).symm.trans hpair
          simp [hc.symm, hd.symm]
      · simpa using hc.symm

/-- A lexeme stays on its line. -/
theorem newline_not_mem_taken {c : Char} (hc : c ≠ '\n') (cs : List Char) :
    '\n' ∉ (read c cs).taken := by
  unfold read
  split
  · exact newline_not_mem_takeWhile rfl _
  · split
    · rw [(numeral_eq _).2.1]
      exact newline_not_mem_takeWhile rfl _
    · split
      · exact newline_not_mem_quoted cs
      · exact newline_not_mem_mark hc cs

end Lexeme

namespace Cursor

/-- The cursor with more text at the end. -/
def before (tail : List Char) (cur : Cursor) : Cursor := { cur with rest := cur.rest ++ tail }

/-- The end of a line ends a comment and is skipped itself. -/
theorem skipTrivia_newline (inComment : Bool) (cs tail : List Char) (pos : Position) :
    skipTrivia inComment (cs ++ '\n' :: tail) pos =
      match skipTrivia inComment cs pos with
      | ⟨[], pos'⟩ => skipTrivia false tail (pos'.step '\n')
      | ⟨c :: rest, pos'⟩ => ⟨c :: rest ++ '\n' :: tail, pos'⟩ := by
  induction cs generalizing inComment pos with
  | nil => cases inComment <;> rfl
  | cons c cs ih =>
      have hhead : (cs ++ '\n' :: tail).head? = some '/' ↔ cs.head? = some '/' := by
        cases cs <;> simp
      simp only [List.cons_append, skipTrivia, hhead]
      split
      · exact ih _ _
      · split
        · exact ih _ _
        · split
          · exact ih _ _
          · rfl

/-- A comment goes on to the end of its line. -/
theorem skipTrivia_comment {line : List Char} (h : '\n' ∉ line) (pos : Position) :
    skipTrivia true line pos = ⟨[], pos.advance line⟩ := by
  induction line generalizing pos with
  | nil => rfl
  | cons c line ih =>
      rw [List.mem_cons, not_or] at h
      obtain ⟨hc, hline⟩ := h
      have hcomment : (c != '\n') = true := bne_iff_ne.2 (Ne.symm hc)
      rw [skipTrivia, if_pos rfl, hcomment]
      exact ih hline (pos.step c)

/-- Where the text in front is at its end, reading goes on behind the line break. -/
theorem next_newline_of_eof {cur cur' : Cursor} {last : Token} (h : cur.next = (last, cur'))
    (hk : last.kind = .eof) (tail : List Char) :
    (cur.before ('\n' :: tail)).next = (⟨tail, last.pos.step '\n'⟩ : Cursor).next := by
  have hskip := skipTrivia_newline false cur.rest tail cur.pos
  cases hs : skipTrivia false cur.rest cur.pos with
  | mk rest pos =>
      cases rest with
      | nil =>
          rw [hs] at hskip
          obtain ⟨rfl, -⟩ := Prod.mk.inj ((next_of_nil hs).symm.trans h)
          simp only [next, before, hskip]
      | cons c cs =>
          obtain ⟨rfl, -⟩ := Prod.mk.inj ((next_of_cons hs).symm.trans h)
          exact absurd hk (Lexeme.kind_read c cs)

theorem next_newline_of_ne {cur cur' : Cursor} {t : Token} (h : cur.next = (t, cur'))
    (hk : t.kind ≠ .eof) (tail : List Char) :
    (cur.before ('\n' :: tail)).next = (t, cur'.before ('\n' :: tail)) := by
  have hskip := skipTrivia_newline false cur.rest tail cur.pos
  cases hs : skipTrivia false cur.rest cur.pos with
  | mk rest pos =>
      cases rest with
      | nil =>
          obtain ⟨rfl, -⟩ := Prod.mk.inj ((next_of_nil hs).symm.trans h)
          exact absurd rfl hk
      | cons c cs =>
          rw [hs] at hskip
          have hskip' : skipTrivia false (cur.before ('\n' :: tail)).rest
              (cur.before ('\n' :: tail)).pos = ⟨c :: (cs ++ '\n' :: tail), pos⟩ := hskip
          obtain ⟨rfl, rfl⟩ := Prod.mk.inj ((next_of_cons hs).symm.trans h)
          rw [next_of_cons hskip', Lexeme.read_newline]
          rfl

/-- The tokens in front of a line break and then those behind it. -/
theorem Reads.newline {cur : Cursor} {ts ts' : List Token} {last last' : Token} {tail : List Char}
    (h : Reads cur ts last) (h' : Reads ⟨tail, last.pos.step '\n'⟩ ts' last') :
    Reads (cur.before ('\n' :: tail)) (ts ++ ts') last' := by
  induction h with
  | done h hk => exact h'.of_next_eq (next_newline_of_eof h hk tail)
  | token h hk hr ih => exact .token (next_newline_of_ne h hk tail) hk (ih h')

end Cursor

namespace TokenList

/-- The lines that a text takes up in front of what follows on a new line. -/
def height (source : String) : Nat := 1 + source.toList.count '\n'

theorem pos_newline (source : String) :
    (ofString source).endMark.pos.step '\n' = Position.start.down (height source) := by
  have hline := Position.line_advance Position.start source.toList
  have hpos : (ofString source).endMark.pos = Position.start.advance source.toList :=
    (reads_ofString source).pos_last
  rw [hpos, Position.step, if_pos rfl, hline, Position.down, height, Nat.add_comm 1, Nat.add_assoc]
  rfl

theorem issues_down (lines : Nat) (ts : TokenList) (last : Token) :
    (⟨ts.tokens.map (Token.down lines), last⟩ : TokenList).issues =
      ts.issues.map (Prod.map id (Position.down lines)) := by
  simp only [issues, List.filterMap_map, List.map_filterMap]
  congr 1
  funext t
  simp [Token.down, Function.comp_def]

/-- A text can be cut at any line break: its tokens and issues are those of the part in front, and
then those of the part behind, which stand further down by the lines of the first. No lexeme and no
comment goes on behind the end of its line. -/
theorem ofString_newline (s s' : String) :
    (ofString (s ++ "\n" ++ s')).tokens =
        (ofString s).tokens ++ (ofString s').tokens.map (Token.down (height s)) ∧
      (ofString (s ++ "\n" ++ s')).endMark = (ofString s').endMark.down (height s) ∧
      (ofString (s ++ "\n" ++ s')).issues =
        (ofString s).issues ++ (ofString s').issues.map (Prod.map id (Position.down (height s))) ∧
      (∀ c cs, c ≠ '\n' → '\n' ∉ (Lexeme.read c cs).taken) ∧
      ∀ line tail pos, '\n' ∉ line → Cursor.skipTrivia true (line ++ '\n' :: tail) pos =
        Cursor.skipTrivia false tail ((pos.advance line).step '\n') := by
  have hbehind : (Cursor.ofString s').down (height s) =
      ⟨s'.toList, (ofString s).endMark.pos.step '\n'⟩ := by
    rw [pos_newline]
    rfl
  have hboth := (reads_ofString s).newline (hbehind ▸ (reads_ofString s').down (height s))
  have hcursor : (Cursor.ofString s).before ('\n' :: s'.toList) =
      Cursor.ofString (s ++ "\n" ++ s') := by
    simp [Cursor.before, Cursor.ofString]
  rw [hcursor] at hboth
  rw [hboth.ofString_eq]
  refine ⟨rfl, rfl, ?_, fun c cs hc => Lexeme.newline_not_mem_taken hc cs, ?_⟩
  · rw [← issues_down _ _ (ofString s').endMark]
    exact List.filterMap_append
  · intro line tail pos hline
    rw [Cursor.skipTrivia_newline, Cursor.skipTrivia_comment hline]

theorem ofString_newline_slashes :
    (ofString ("a = '/" ++ "\n" ++ "/ b")).tokens.map (·.kind) =
        [.ident, .assign, .charConst, .slash, .ident] ∧
      (ofString ("a = '/" ++ "\n" ++ "/ b")).issues = [(.unterminatedChar, ⟨1, 4⟩)] := by
  obtain ⟨htokens, -, hissues, -⟩ := ofString_newline "a = '/" "/ b"
  rw [htokens, hissues]
  decide +kernel

end TokenList

end MicroJava
