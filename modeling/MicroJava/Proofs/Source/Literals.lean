import MicroJava.Proofs.Source.Tiling

/-! # What literals say

A number says the value of its digits and a char constant the character between its quotes. Where
they cannot, they say zero, and the lexer keeps an issue that names the reason and the place. The
issues that it hands out at the end are those of the malformed literals, in their order. -/

namespace MicroJava

/-! ## Numbers -/

namespace Lexeme

theorem exists_digit {c : Char} (h : c.isDigit) : ∃ d : Fin 10, Decimal.digit d.val = c := by
  rw [isDigit_iff] at h
  refine ⟨⟨c.toNat - 48, by omega⟩, ?_⟩
  have hcode : '0'.toNat + (c.toNat - 48) = c.toNat := by
    change 48 + (c.toNat - 48) = c.toNat
    omega
  rw [Decimal.digit, hcode, Char.ofNat_toNat]

theorem exists_digits {cs : List Char} (h : ∀ c ∈ cs, c.isDigit) :
    ∃ digits : List (Fin 10), digits.map (fun d : Fin 10 => Decimal.digit d.val) = cs := by
  induction cs with
  | nil => exact ⟨[], rfl⟩
  | cons c cs ih =>
      obtain ⟨d, rfl⟩ := exists_digit (h c (List.mem_cons_self ..))
      obtain ⟨digits, rfl⟩ := ih fun d hd => h d (List.mem_cons_of_mem _ hd)
      exact ⟨d :: digits, rfl⟩

theorem not_of_mem_head?_dropWhile {p : Char → Bool} {cs : List Char} :
    ∀ c ∈ (cs.dropWhile p).head?, p c = false := by
  intro c hc
  have hstop := List.head?_dropWhile_not p cs
  rw [Option.mem_def.1 hc] at hstop
  exact hstop

end Lexeme

/-! ## Char constants -/

/-- The text between the quotes of a char constant stands for a character. -/
inductive CharText : List Char → Char → Prop
  | plain {c : Char} (h : c ≠ '\\') : CharText [c] c
  | escape (e : Escape) : CharText ['\\', e.letter] e.char

namespace CharText

/-- What is wrong with a text between quotes that stands for no character. -/
def flaw : List Char → LiteralIssue
  | [] => .emptyChar
  | ['\\', c] => .invalidEscape c
  | _ => .invalidChar

theorem charValue_of_escape {c : Char} (h : ∀ e : Escape, c ≠ e.letter) :
    Lexeme.charValue ['\\', c] = .error (flaw ['\\', c]) := by
  rw [Lexeme.charValue, flaw]
  · exact h .tab
  · exact h .carriageReturn
  · exact h .lineFeed

theorem charValue_of_ne {a : Char} (ha : a ≠ '\\') (c : Char) :
    Lexeme.charValue [a, c] = .error (flaw [a, c]) := by
  rw [Lexeme.charValue, flaw] <;> simp [ha]

theorem charValue_of_long (a b c : Char) (cs : List Char) :
    Lexeme.charValue (a :: b :: c :: cs) = .error (flaw (a :: b :: c :: cs)) := by
  rw [Lexeme.charValue, flaw] <;> simp

/-- A text between quotes is read as the character it stands for, and refused if there is none. -/
theorem charValue_cases (content : List Char) :
    (∃ c, CharText content c ∧ Lexeme.charValue content = .ok c) ∨
      (∀ c, ¬ CharText content c) ∧ Lexeme.charValue content = .error (flaw content) := by
  match content with
  | [] => exact .inr ⟨nofun, rfl⟩
  | [c] =>
      by_cases hc : c = '\\'
      · subst hc
        exact .inr ⟨by rintro c ⟨h⟩; exact h rfl, rfl⟩
      · exact .inl ⟨c, .plain hc, if_neg hc⟩
  | [a, c] =>
      by_cases ha : a = '\\'
      · subst ha
        by_cases hc : ∃ e : Escape, c = e.letter
        · obtain ⟨e, rfl⟩ := hc
          exact .inl ⟨e.char, .escape e, by cases e <;> rfl⟩
        · rw [not_exists] at hc
          exact .inr ⟨by rintro d ⟨⟩; exact hc _ rfl, charValue_of_escape hc⟩
      · exact .inr ⟨by rintro d ⟨⟩; exact ha rfl, charValue_of_ne ha c⟩
  | a :: b :: c :: cs => exact .inr ⟨nofun, charValue_of_long a b c cs⟩

end CharText

/-! ## What a lexeme says -/

/-- The value that a lexeme of some kind in front of `rest` says, and what is wrong with it. -/
inductive Says (rest : List Char) : TokenKind → List Char → Int → Option LiteralIssue → Prop
  | number {digits : List (Fin 10)} (hne : digits ≠ []) (hend : ∀ c ∈ rest.head?, c.isDigit = false)
      (hle : numberOf digits ≤ 2147483647) :
      Says rest .number (digits.map fun d : Fin 10 => Decimal.digit d.val) (numberOf digits) none
  | overflow {digits : List (Fin 10)} (hne : digits ≠ [])
      (hend : ∀ c ∈ rest.head?, c.isDigit = false) (hlt : 2147483647 < numberOf digits) :
      Says rest .number (digits.map fun d : Fin 10 => Decimal.digit d.val) 0
        (some .numberOverflow)
  | char {content : List Char} {c : Char} (hinside : ∀ d ∈ content, d ≠ '\'' ∧ d ≠ '\n')
      (hc : CharText content c) : Says rest .charConst ('\'' :: content ++ ['\'']) c.toNat none
  | malformed {content : List Char} (hinside : ∀ d ∈ content, d ≠ '\'' ∧ d ≠ '\n')
      (hc : ∀ c, ¬ CharText content c) :
      Says rest .charConst ('\'' :: content ++ ['\'']) 0 (some (CharText.flaw content))
  /-- The line or the text ends before the closing quote. -/
  | unterminated {content : List Char} (hinside : ∀ d ∈ content, d ≠ '\'' ∧ d ≠ '\n')
      (hend : ∀ c ∈ rest.head?, c = '\n') :
      Says rest .charConst ('\'' :: content) 0 (some .unterminatedChar)
  | other {kind : TokenKind} {lexeme : List Char} (hnumber : kind ≠ .number)
      (hchar : kind ≠ .charConst) : Says rest kind lexeme 0 none

namespace Lexeme

/-- The lexeme says what its characters do. -/
def Exact (lex : Lexeme) : Prop := Says lex.rest lex.kind lex.taken lex.value.toInt lex.issue

theorem exact_numeral {c : Char} (hc : c.isDigit) (cs : List Char) : (numeral (c :: cs)).Exact := by
  have hall : ∀ d ∈ (c :: cs).takeWhile Char.isDigit, d.isDigit := fun d => List.mem_takeWhile_imp
  obtain ⟨digits, hdigits⟩ := exists_digits hall
  have hvalue : Decimal.value ((c :: cs).takeWhile Char.isDigit) = numberOf digits := by
    rw [← hdigits, value_digits]
  have hne : digits ≠ [] := by
    rintro rfl
    simp [hc] at hdigits
  have hend : ∀ d ∈ ((c :: cs).dropWhile Char.isDigit).head?, d.isDigit = false :=
    not_of_mem_head?_dropWhile
  unfold numeral
  dsimp only
  rw [hvalue, ← hdigits]
  split
  · next hle =>
      have hcode : (Int32.ofNat (numberOf digits)).toInt = numberOf digits :=
        Int32.toInt_ofNat_of_lt (Nat.lt_succ_of_le hle)
      simp only [Exact, hcode]
      exact .number hne hend hle
  · next hle => exact .overflow hne hend (Nat.not_le.1 hle)

theorem toInt_code (c : Char) : (Int32.ofNat c.toNat).toInt = c.toNat := by
  apply Int32.toInt_ofNat_of_lt
  rcases c.valid with hlt | ⟨-, hlt⟩ <;> exact Nat.lt_trans hlt (by decide)

theorem exact_quoted (cs : List Char) : (quoted cs).Exact := by
  have hinside : ∀ d ∈ cs.takeWhile insideQuotes, d ≠ '\'' ∧ d ≠ '\n' := by
    intro d hd
    simpa [insideQuotes] using List.mem_takeWhile_imp hd
  have hstop : ∀ d ∈ (cs.dropWhile insideQuotes).head?, insideQuotes d = false :=
    not_of_mem_head?_dropWhile
  unfold quoted
  dsimp only
  split
  · rcases CharText.charValue_cases (cs.takeWhile insideQuotes) with ⟨c, hc, hread⟩ | ⟨hnone, hread⟩
    · simp only [hread, Exact, toInt_code]
      exact .char hinside hc
    · simp only [hread]
      exact .malformed hinside hnone
  · next hopen =>
      apply Says.unterminated hinside
      intro d hd
      -- reading stopped at a quote or at the end of the line, and there is no quote
      obtain ⟨rest, hrest⟩ := List.head?_eq_some_iff.1 hd
      have hquote : d ≠ '\'' := by
        rintro rfl
        exact hopen rest hrest
      simpa [insideQuotes, hquote] using hstop d hd

theorem kind_word_mem (cs : List Char) : (word cs).kind ∈ TokenKind.ident :: TokenKind.reserved := by
  have htable : ∀ entry ∈ TokenKind.keywords,
      entry.2 ∈ TokenKind.ident :: TokenKind.reserved := by decide
  change (TokenKind.keyword? (String.ofList (cs.takeWhile isNamePart))).getD .ident ∈ _
  cases h : TokenKind.keyword? (String.ofList (cs.takeWhile isNamePart)) with
  | none => exact List.mem_cons_self ..
  | some kind =>
      obtain ⟨before, after, heq, -⟩ := List.lookup_eq_some_iff.1 h
      apply htable (String.ofList (cs.takeWhile isNamePart), kind)
      simp [heq]

theorem exact_word (cs : List Char) : (word cs).Exact := by
  have hkinds : ∀ kind ∈ TokenKind.ident :: TokenKind.reserved,
      kind ≠ .number ∧ kind ≠ .charConst := by decide
  obtain ⟨hnumber, hchar⟩ := hkinds _ (kind_word_mem cs)
  exact .other hnumber hchar

theorem exact_mark (c : Char) (cs : List Char) : (mark c cs).Exact := by
  have hkinds : ∀ kind ∈ TokenKind.illegal :: TokenKind.marks,
      kind ≠ .number ∧ kind ≠ .charConst := by decide
  obtain ⟨hnumber, hchar⟩ := hkinds _ (kind_mark c cs)
  have hvalue : (mark c cs).value = 0 ∧ (mark c cs).issue = none := by
    unfold mark
    split
    · exact ⟨rfl, rfl⟩
    · split <;> exact ⟨rfl, rfl⟩
  rw [Exact, hvalue.1, hvalue.2]
  exact .other hnumber hchar

/-- Whatever stands at the front of a text is read for what it says. -/
theorem exact_front (here : List Char) : (front here).Exact := by
  cases here with
  | nil => exact .other (by decide) (by decide)
  | cons c cs =>
      change (read c cs).Exact
      rcases read_cases c cs with hread | ⟨hc, hread⟩ | ⟨-, hread⟩ | hread
      · rw [hread]
        exact exact_word _
      · rw [hread]
        exact exact_numeral hc cs
      · rw [hread]
        exact exact_quoted cs
      · rw [hread]
        exact exact_mark c cs

end Lexeme

/-! ## Issues -/

/-- The issue of a token, with its place. -/
def Token.remark? (t : Token) : Option (LiteralIssue × Position) := t.issue.map (·, t.pos)

namespace Lexer

theorem pending_next (lexer : Lexer) :
    lexer.next.2.pending.toList = lexer.pending.toList ++ lexer.next.1.remark?.toList := by
  simp only [next, Token.remark?]
  split
  · next issue hissue => simp [hissue]
  · next hissue => simp [hissue]

/-- The issues not yet handed out are those of the tokens so far. -/
theorem pending_after (lexer : Lexer) (n : Nat) : (lexer.after n).pending.toList =
    lexer.pending.toList ++ ((List.range n).map lexer.token).filterMap Token.remark? := by
  induction n with
  | zero => simp [after]
  | succ n ih =>
      have hlast : ([n].map lexer.token).filterMap Token.remark? = (lexer.token n).remark?.toList := by
        cases h : (lexer.token n).remark? <;> simp [h]
      rw [List.range_succ, List.map_append, List.filterMap_append, ← List.append_assoc, ← ih, hlast]
      exact pending_next (lexer.after n)

/-- The end mark has no issue, so behind it the issues are those of the tokens in front of it. -/
theorem issues_of_eof {source : String} {n : Nat} (h : ((ofString source).token n).kind = .eof) :
    ((ofString source).after (n + 1)).takeIssues.1.toList =
      ((List.range n).map (ofString source).token).filterMap Token.remark? := by
  have hend : ((ofString source).token n).remark? = none := by
    rw [next_of_eof_after h]
    rfl
  calc
    ((ofString source).after (n + 1)).pending.toList =
        ((List.range (n + 1)).map (ofString source).token).filterMap Token.remark? :=
      pending_after (ofString source) (n + 1)
    _ = ((List.range n).map (ofString source).token).filterMap Token.remark? := by
      rw [List.range_succ, List.map_append, List.filterMap_append, List.map_singleton,
        List.filterMap_cons_none hend, List.filterMap_nil, List.append_nil]

/-- Every token says what its lexeme does, and up to the end mark the lexer keeps one issue for each
malformed literal, in order and at the literal's place, and no other. -/
theorem literals_exact (source : String) :
    (∀ k, ∃ gap lexeme, ((ofString source).after k).Takes gap lexeme ∧
      Says ((ofString source).after (k + 1)).cursor.rest ((ofString source).token k).kind lexeme
        ((ofString source).token k).value.toInt ((ofString source).token k).issue) ∧
      ∃ n, (∀ k < n, ((ofString source).token k).kind ≠ .eof) ∧
        ((ofString source).token n).kind = .eof ∧
        ((ofString source).after (n + 1)).takeIssues.1.toList =
          ((List.range n).map (ofString source).token).filterMap Token.remark? := by
  constructor
  · intro k
    obtain ⟨before, gap, here, -, htakes, htoken, hrest⟩ := exists_call source k
    refine ⟨gap, _, htakes, ?_⟩
    rw [hrest, htoken]
    exact Lexeme.exact_front here
  · have heof := kind_after_tokens source
    exact ⟨_, fun k hk => kind_after hk, heof, issues_of_eof heof⟩

theorem literals_exact_malformed :
    ((ofString "7 '' 2147483648 '\\q' 'a").after 6).takeIssues.1.toList =
        [(.emptyChar, ⟨1, 2⟩), (.numberOverflow, ⟨1, 5⟩), (.invalidEscape 'q', ⟨1, 16⟩),
          (.unterminatedChar, ⟨1, 21⟩)] ∧
      ∃ gap lexeme, ((ofString "7 '' 2147483648 '\\q' 'a").after 2).Takes gap lexeme ∧
        Says ((ofString "7 '' 2147483648 '\\q' 'a").after 3).cursor.rest .number lexeme 0
          (some .numberOverflow) := by
  obtain ⟨hsaid, n, hkinds, heof, hissues⟩ := literals_exact "7 '' 2147483648 '\\q' 'a"
  have hfive : ((ofString "7 '' 2147483648 '\\q' 'a").token 5).kind = .eof := by decide +kernel
  have hfirst : ∀ k < 5, ((ofString "7 '' 2147483648 '\\q' 'a").token k).kind ≠ .eof := by
    decide +kernel
  obtain rfl : n = 5 := by
    apply Nat.le_antisymm
    · exact Nat.not_lt.1 fun hlt => hkinds 5 hlt hfive
    · exact Nat.not_lt.1 fun hlt => hfirst n hlt heof
  refine ⟨?_, ?_⟩
  · rw [hissues]
    decide +kernel
  · have htoken : (ofString "7 '' 2147483648 '\\q' 'a").token 2 =
        ⟨.number, ⟨1, 5⟩, "", 0, some .numberOverflow⟩ := by decide +kernel
    have htwo := hsaid 2
    rwa [htoken] at htwo

end Lexer

end MicroJava
