import Mathlib.Data.Nat.Digits.Defs
import MicroJava.Proofs.Source.Lines

/-! # Texts as they are written

A text can be written down as a sequence of spellings with blanks between them. Reading it gives
back one token for every spelling. -/

namespace MicroJava

/-! ## Spellings -/

namespace TokenKind

/-- The kinds of the reserved words. -/
def reserved : List TokenKind :=
  [kwClass, kwElse, kwFinal, kwIf, kwNew, kwPrint, kwProgram, kwRead, kwReturn, kwVoid, kwWhile]

/-- The kinds of operators and punctuation marks. -/
def marks : List TokenKind :=
  [plus, minus, times, slash, percent, equal, notEqual, less, lessEqual, greater, greaterEqual,
    assign, semicolon, comma, period, lparen, rparen, lbracket, rbracket, lbrace, rbrace]

end TokenKind

/-- The characters that are written behind a backslash. -/
inductive Escape where
  | tab
  | carriageReturn
  | lineFeed
  deriving DecidableEq, Repr

namespace Escape

def letter : Escape → Char
  | tab => 't'
  | carriageReturn => 'r'
  | lineFeed => 'n'

/-- The character that is meant. -/
def char : Escape → Char
  | tab => '\t'
  | carriageReturn => '\r'
  | lineFeed => '\n'

end Escape

/-- The number with the given digits, the most significant first. -/
def numberOf (digits : List (Fin 10)) : Nat := Nat.ofDigits 10 (digits.reverse.map Fin.val)

/-- One way of writing a token. -/
inductive Spelling where
  | name (first : Char) (others : List Char) (hfirst : first.isAlpha)
      (hothers : ∀ c ∈ others, c.isAlphanum ∨ c = '_')
      (hfree : ∀ kind ∈ TokenKind.reserved, kind.name ≠ String.ofList (first :: others))
  | reserved (kind : TokenKind) (h : kind ∈ TokenKind.reserved)
  /-- Leading zeros do not matter. -/
  | numeral (digits : List (Fin 10)) (hne : digits ≠ []) (hle : numberOf digits ≤ 2147483647)
  | char (c : Char) (hquote : c ≠ '\'') (hslash : c ≠ '\\') (hline : c ≠ '\n')
  | escape (e : Escape)
  | mark (kind : TokenKind) (h : kind ∈ TokenKind.marks)

/-- What a token says, apart from its place. -/
structure Meaning where
  kind : TokenKind
  text : String := ""
  value : Int32 := 0
  deriving DecidableEq, Repr

def Token.meaning (t : Token) : Meaning := ⟨t.kind, t.text, t.value⟩

namespace Spelling

def chars : Spelling → List Char
  | name first others _ _ _ => first :: others
  | reserved kind _ => kind.name.toList
  | numeral digits _ _ => digits.map fun d : Fin 10 => Decimal.digit d.val
  | char c _ _ _ => ['\'', c, '\'']
  | escape e => ['\'', '\\', e.letter, '\'']
  | mark kind _ => kind.name.toList

def meaning : Spelling → Meaning
  | name first others _ _ _ => { kind := .ident, text := String.ofList (first :: others) }
  | reserved kind _ => { kind, text := kind.name }
  | numeral digits _ _ => { kind := .number, value := Int32.ofNat (numberOf digits) }
  | char c _ _ _ => { kind := .charConst, value := Int32.ofNat c.toNat }
  | escape e => { kind := .charConst, value := Int32.ofNat e.char.toNat }
  | mark kind _ => { kind }

end Spelling

/-- A run of blanks. -/
structure Gap where
  chars : List Char
  blank : ∀ c ∈ chars, c ≤ ' '

/-- Spellings with blanks around them, at least one between any two. -/
structure Wording where
  lead : Gap
  /-- Each spelling with the blanks behind it. -/
  items : List (Spelling × Gap)
  apart : ∀ item ∈ items.dropLast, item.2.chars ≠ []

namespace Wording

def itemChars (items : List (Spelling × Gap)) : List Char :=
  items.flatMap fun item => item.1.chars ++ item.2.chars

def text (w : Wording) : String := String.ofList (w.lead.chars ++ itemChars w.items)

end Wording

/-! ## Reading one spelling -/

namespace Lexeme

/-- Nothing follows, or a blank does. -/
def Ends (tail : List Char) : Prop := ∀ c ∈ tail.head?, c ≤ ' '

theorem isAlpha_iff (c : Char) :
    c.isAlpha ↔ 65 ≤ c.toNat ∧ c.toNat ≤ 90 ∨ 97 ≤ c.toNat ∧ c.toNat ≤ 122 := by
  have hupper : c.isUpper ↔ 65 ≤ c.toNat ∧ c.toNat ≤ 90 := decide_eq_true_iff
  have hlower : c.isLower ↔ 97 ≤ c.toNat ∧ c.toNat ≤ 122 :=
    Bool.and_eq_true_iff.trans (and_congr decide_eq_true_iff decide_eq_true_iff)
  have halpha : c.isAlpha ↔ c.isUpper ∨ c.isLower := Bool.or_eq_true_iff
  rw [halpha, hupper, hlower]

theorem isDigit_iff (c : Char) : c.isDigit ↔ 48 ≤ c.toNat ∧ c.toNat ≤ 57 :=
  Bool.and_eq_true_iff.trans (and_congr decide_eq_true_iff decide_eq_true_iff)

theorem isDigit_of_le {c : Char} (h : c ≤ ' ') : c.isDigit = false := by
  have hval : c.toNat ≤ 32 := h
  rw [← Bool.not_eq_true, isDigit_iff]
  omega

theorem isNamePart_of_le {c : Char} (h : c ≤ ' ') : isNamePart c = false := by
  have hval : c.toNat ≤ 32 := h
  have halpha : c.isAlpha = false := by
    rw [← Bool.not_eq_true, isAlpha_iff]
    omega
  have hscore : c ≠ '_' := by
    rintro rfl
    exact absurd h (by decide)
  simp [isNamePart, Char.isAlphanum, halpha, isDigit_of_le h, hscore]

theorem isDigit_of_isAlpha {c : Char} (h : c.isAlpha) : c.isDigit = false := by
  rw [isAlpha_iff] at h
  rw [← Bool.not_eq_true, isDigit_iff]
  omega

/-- The characters make up one lexeme that says so much, whatever follows behind a blank. -/
structure Stands (chars : List Char) (m : Meaning) : Prop where
  exists_read : ∃ c cs, chars = c :: cs ∧ ¬ c ≤ ' ' ∧ ∀ tail, Ends tail →
    (c = '/' → (cs ++ tail).head? ≠ some '/') ∧
      read c (cs ++ tail) = ⟨m.kind, m.text, m.value, none, c :: cs, tail⟩

theorem stands_word {c : Char} {cs : List Char} (hc : c.isAlpha)
    (hcs : ∀ d ∈ cs, d.isAlphanum ∨ d = '_') :
    Stands (c :: cs) ⟨(TokenKind.keyword? (String.ofList (c :: cs))).getD .ident,
      String.ofList (c :: cs), 0⟩ := by
  have hpart : ∀ d ∈ c :: cs, isNamePart d = true := by
    intro d hd
    rcases List.mem_cons.1 hd with rfl | hd
    · simp [isNamePart, Char.isAlphanum, hc]
    · simpa [isNamePart] using hcs d hd
  refine ⟨c, cs, rfl, ?_, fun tail ht => ⟨?_, ?_⟩⟩
  · intro hle
    cases (isNamePart_of_le hle).symm.trans (hpart c (List.mem_cons_self ..))
  · rintro rfl
    exact absurd hc (by decide)
  · have hstop : ∀ d ∈ tail.head?, isNamePart d = false := fun d hd => isNamePart_of_le (ht d hd)
    have hstart : isNameStart c = true := hc
    simp only [read, hstart, if_true, word, ← List.cons_append, takeWhile_append hstop,
      dropWhile_append hstop, List.takeWhile_eq_self_iff.2 hpart, List.dropWhile_eq_nil_iff.2 hpart,
      List.nil_append]

theorem stands_numeral {chars : List Char} (hne : chars ≠ []) (hall : ∀ d ∈ chars, d.isDigit)
    (hle : Decimal.value chars ≤ maxNumber) :
    Stands chars ⟨.number, "", Int32.ofNat (Decimal.value chars)⟩ := by
  obtain ⟨c, cs, rfl⟩ := List.exists_cons_of_ne_nil hne
  have hc := hall c (List.mem_cons_self ..)
  have hstart : isNameStart c = false := by
    by_contra h
    cases (isDigit_of_isAlpha (Bool.not_eq_false _ ▸ h)).symm.trans hc
  refine ⟨c, cs, rfl, ?_, fun tail ht => ⟨?_, ?_⟩⟩
  · intro hle
    cases (isDigit_of_le hle).symm.trans hc
  · rintro rfl
    exact absurd hc (by decide)
  · have hstop : ∀ d ∈ tail.head?, d.isDigit = false := fun d hd => isDigit_of_le (ht d hd)
    simp only [read, hstart, hc, numeral, ← List.cons_append, takeWhile_append hstop,
      dropWhile_append hstop, List.takeWhile_eq_self_iff.2 hall, List.dropWhile_eq_nil_iff.2 hall,
      hle, List.nil_append, if_true, Bool.false_eq_true, if_false]

theorem stands_char {c : Char} (hquote : c ≠ '\'') (hslash : c ≠ '\\') (hline : c ≠ '\n') :
    Stands ['\'', c, '\''] ⟨.charConst, "", Int32.ofNat c.toNat⟩ := by
  have hinside : insideQuotes c = true := by simp [insideQuotes, hquote, hline]
  have hstop : insideQuotes '\'' = false := rfl
  have hvalue : charValue [c] = .ok c := if_neg hslash
  refine ⟨'\'', [c, '\''], rfl, by decide, fun tail ht => ⟨nofun, ?_⟩⟩
  have hquoted : quoted ([c, '\''] ++ tail) =
      ⟨.charConst, "", Int32.ofNat c.toNat, none, ['\'', c, '\''], tail⟩ := by
    simp [quoted, hinside, hstop, hvalue]
  exact hquoted

theorem stands_escape (e : Escape) :
    Stands ['\'', '\\', e.letter, '\''] ⟨.charConst, "", Int32.ofNat e.char.toNat⟩ := by
  refine ⟨'\'', ['\\', e.letter, '\''], rfl, by decide, fun tail ht => ⟨nofun, ?_⟩⟩
  cases e <;> rfl

/-- The character starts a mark and nothing else. -/
def startsMark (c : Char) : Bool :=
  !isBlank c && !isNameStart c && !c.isDigit && c != '\''

theorem read_of_startsMark {c : Char} (h : startsMark c) (cs : List Char) :
    read c cs = mark c cs := by
  simp only [startsMark, Bool.and_eq_true, Bool.not_eq_true', bne_iff_ne, ne_eq] at h
  simp [read, h]

theorem not_le_of_startsMark {c : Char} (h : startsMark c) : ¬ c ≤ ' ' := by
  simp only [startsMark, Bool.and_eq_true, Bool.not_eq_true', isBlank, decide_eq_false_iff_not] at h
  exact h.1.1.1

/-- The characters are a mark of the kind. -/
def isMark (kind : TokenKind) : List Char → Bool
  | [c] => startsMark c && single c = kind
  | [c, '='] => startsMark c && pair? c '=' = some kind
  | _ => false

theorem stands_mark {kind : TokenKind} {chars : List Char} (h : isMark kind chars) :
    Stands chars ⟨kind, "", 0⟩ := by
  unfold isMark at h
  split at h
  · next c =>
      simp only [Bool.and_eq_true, decide_eq_true_eq] at h
      obtain ⟨hc, rfl⟩ := h
      refine ⟨c, [], rfl, not_le_of_startsMark hc, fun tail ht => ⟨?_, ?_⟩⟩
      · rintro - hslash
        exact absurd (ht '/' hslash) (by decide)
      · rw [read_of_startsMark hc, List.nil_append]
        cases tail with
        | nil => rfl
        | cons d tail =>
            have hd : d ≠ '=' := by
              rintro rfl
              exact absurd (ht '=' rfl) (by decide)
            simp only [mark, pair?_of_ne hd]
  · next c =>
      simp only [Bool.and_eq_true, decide_eq_true_eq] at h
      obtain ⟨hc, hpair⟩ := h
      refine ⟨c, ['='], rfl, not_le_of_startsMark hc, fun tail _ => ⟨by simp, ?_⟩⟩
      simp [read_of_startsMark hc, mark, hpair]
  · cases h

theorem isMark_name : ∀ kind ∈ TokenKind.marks, isMark kind kind.name.toList := by decide

theorem keyword?_of_free {text : String} (h : ∀ kind ∈ TokenKind.reserved, kind.name ≠ text) :
    TokenKind.keyword? text = none := by
  have htable : ∀ entry ∈ TokenKind.keywords,
      entry.2 ∈ TokenKind.reserved ∧ entry.2.name = entry.1 := by decide
  rw [TokenKind.keyword?, List.lookup_eq_none_iff]
  intro entry hentry
  obtain ⟨hmem, hname⟩ := htable entry hentry
  rw [bne_iff_ne, ← hname]
  exact (h _ hmem).symm

theorem stands_reserved {kind : TokenKind} (h : kind ∈ TokenKind.reserved) :
    Stands kind.name.toList ⟨kind, kind.name, 0⟩ := by
  have htable : ∀ kind ∈ TokenKind.reserved, kind.name.toList ≠ [] ∧
      kind.name.toList.all Char.isAlpha ∧ TokenKind.keyword? kind.name = some kind := by decide
  obtain ⟨hne, hall, hkeyword⟩ := htable kind h
  have halpha : ∀ c ∈ kind.name.toList, c.isAlpha := List.all_eq_true.1 hall
  obtain ⟨c, cs, hchars⟩ := List.exists_cons_of_ne_nil hne
  have hname : String.ofList (c :: cs) = kind.name := by rw [← hchars, String.ofList_toList]
  rw [hchars] at halpha ⊢
  have hparts : ∀ d ∈ cs, d.isAlphanum ∨ d = '_' := fun d hd =>
    .inl (by simp [Char.isAlphanum, halpha d (List.mem_cons_of_mem _ hd)])
  have hword := stands_word (halpha c (List.mem_cons_self ..)) hparts
  rwa [hname, hkeyword] at hword

end Lexeme

theorem value_digits (digits : List (Fin 10)) :
    Decimal.value (digits.map fun d : Fin 10 => Decimal.digit d.val) = numberOf digits := by
  have hdigit : ∀ d : Fin 10, Decimal.digitValue (Decimal.digit d.val) = d.val := by decide
  rw [Decimal.value, numberOf, List.foldl_map, Nat.ofDigits_eq_foldr, List.map_reverse,
    List.foldr_reverse, List.foldl_map]
  simp only [hdigit, Nat.cast_id, Nat.add_comm]

namespace Spelling

/-- Every spelling is read as what it means. -/
theorem stands (s : Spelling) : Lexeme.Stands s.chars s.meaning := by
  cases s with
  | name first others hfirst hothers hfree =>
      have hword := Lexeme.stands_word hfirst hothers
      rwa [Lexeme.keyword?_of_free hfree] at hword
  | reserved kind h => exact Lexeme.stands_reserved h
  | numeral digits hne hle =>
      have hdigit : ∀ d : Fin 10, (Decimal.digit d.val).isDigit := by decide
      have hall : ∀ c ∈ digits.map (fun d : Fin 10 => Decimal.digit d.val), c.isDigit := by
        intro c hc
        obtain ⟨d, -, rfl⟩ := List.mem_map.1 hc
        exact hdigit d
      have hvalue := value_digits digits
      have hnumeral := Lexeme.stands_numeral (by simpa using hne) hall (hvalue ▸ hle)
      rwa [hvalue] at hnumeral
  | char c hquote hslash hline => exact Lexeme.stands_char hquote hslash hline
  | escape e => exact Lexeme.stands_escape e
  | mark kind h => exact Lexeme.stands_mark (Lexeme.isMark_name kind h)

end Spelling

/-! ## Reading a wording -/

namespace Cursor

theorem skipTrivia_blank {gap : List Char} (h : ∀ c ∈ gap, c ≤ ' ') (cs : List Char)
    (pos : Position) :
    skipTrivia false (gap ++ cs) pos = skipTrivia false cs (pos.advance gap) := by
  induction gap generalizing pos with
  | nil => rfl
  | cons c gap ih =>
      have hc : Lexeme.isBlank c = true := decide_eq_true (h c (List.mem_cons_self ..))
      simp only [List.cons_append, skipTrivia, hc, if_true, Bool.false_eq_true, if_false]
      exact ih (fun d hd => h d (List.mem_cons_of_mem _ hd)) (pos.step c)

/-- The next token is what the spelling behind the blanks means. -/
theorem next_spelling (gap : Gap) (s : Spelling) {tail : List Char} (ht : Lexeme.Ends tail)
    (pos : Position) : ∃ t pos', (⟨gap.chars ++ (s.chars ++ tail), pos⟩ : Cursor).next =
      (t, ⟨tail, pos'⟩) ∧ t.kind ≠ .eof ∧ t.meaning = s.meaning ∧ t.issue = none := by
  obtain ⟨c, cs, hchars, hc, hread⟩ := s.stands.exists_read
  obtain ⟨hslash, hlex⟩ := hread tail ht
  have hskip : skipTrivia false (gap.chars ++ (s.chars ++ tail)) pos =
      ⟨c :: (cs ++ tail), pos.advance gap.chars⟩ := by
    have hblank : Lexeme.isBlank c = false := decide_eq_false hc
    rw [skipTrivia_blank gap.blank, hchars, List.cons_append, skipTrivia, hblank,
      if_neg Bool.false_ne_true, if_neg Bool.false_ne_true,
      if_neg fun hcomment => hslash hcomment.1 hcomment.2]
  have hkind := Lexeme.kind_read c (cs ++ tail)
  have hnext : (⟨gap.chars ++ (s.chars ++ tail), pos⟩ : Cursor).next = _ := next_of_cons hskip
  rw [hlex] at hnext hkind
  exact ⟨_, _, hnext, hkind, rfl, rfl⟩

theorem reads_gap (gap : Gap) (pos : Position) : ∃ last, Reads ⟨gap.chars, pos⟩ [] last := by
  have hskip := skipTrivia_blank gap.blank [] pos
  rw [List.append_nil] at hskip
  have hnext : (⟨gap.chars, pos⟩ : Cursor).next = _ := next_of_nil hskip
  exact ⟨_, .done hnext rfl⟩

end Cursor

namespace Wording

theorem itemChars_cons (s : Spelling) (gap : Gap) (items : List (Spelling × Gap)) :
    itemChars ((s, gap) :: items) = s.chars ++ (gap.chars ++ itemChars items) := by
  rw [itemChars, List.flatMap_cons, List.append_assoc]
  rfl

/-- Behind a spelling there is a blank, or the text is at its end. -/
theorem ends_behind {s : Spelling} {gap : Gap} {items : List (Spelling × Gap)}
    (hapart : ∀ item ∈ ((s, gap) :: items).dropLast, item.2.chars ≠ []) :
    Lexeme.Ends (gap.chars ++ itemChars items) := by
  obtain ⟨chars, hblank⟩ := gap
  intro c hc
  cases chars with
  | cons d chars =>
      obtain rfl : d = c := Option.some.inj hc
      exact hblank d (List.mem_cons_self ..)
  | nil =>
      cases items with
      | nil => cases hc
      | cons item items => exact absurd rfl (hapart (s, ⟨[], hblank⟩) (List.mem_cons_self ..))

/-- From any place on, spellings are read one by one. -/
theorem exists_reads {items : List (Spelling × Gap)}
    (hapart : ∀ item ∈ items.dropLast, item.2.chars ≠ []) (gap : Gap) (pos : Position) :
    ∃ ts last, Cursor.Reads ⟨gap.chars ++ itemChars items, pos⟩ ts last ∧
      ts.map Token.meaning = items.map (·.1.meaning) ∧ ∀ t ∈ ts, t.issue = none := by
  induction items generalizing gap pos with
  | nil =>
      obtain ⟨last, hreads⟩ := Cursor.reads_gap gap pos
      refine ⟨[], last, ?_, rfl, by simp⟩
      rwa [itemChars, List.flatMap_nil, List.append_nil]
  | cons item items ih =>
      obtain ⟨s, behind⟩ := item
      obtain ⟨t, pos', hnext, hkind, hmeaning, hissue⟩ :=
        Cursor.next_spelling gap s (ends_behind hapart) pos
      have hrest : ∀ item ∈ items.dropLast, item.2.chars ≠ [] := by
        intro item hitem
        refine hapart item ?_
        cases items with
        | nil => cases hitem
        | cons next items => exact List.mem_cons_of_mem _ hitem
      obtain ⟨ts, last, hreads, hmeanings, hissues⟩ := ih hrest behind pos'
      refine ⟨t :: ts, last, ?_, ?_, ?_⟩
      · rw [itemChars_cons]
        exact .token hnext hkind hreads
      · rw [List.map_cons, List.map_cons, hmeaning, hmeanings]
      · intro u hu
        rcases List.mem_cons.1 hu with rfl | hu
        · exact hissue
        · exact hissues u hu

/-- Reading undoes writing: every spelling is read as one token that says what was meant, then comes
the end mark, and no literal has an issue. -/
theorem ofString_text (w : Wording) :
    (TokenList.ofString w.text).tokens.map Token.meaning = w.items.map (·.1.meaning) ∧
      (TokenList.ofString w.text).endMark.kind = .eof ∧
      (TokenList.ofString w.text).issues = [] := by
  obtain ⟨ts, last, hreads, hmeanings, hissues⟩ := exists_reads w.apart w.lead .start
  have hcursor : Cursor.ofString w.text = ⟨w.lead.chars ++ itemChars w.items, .start⟩ := by
    simp [Cursor.ofString, text]
  rw [← hcursor] at hreads
  rw [hreads.ofString_eq]
  refine ⟨hmeanings, hreads.kind_last, ?_⟩
  refine List.filterMap_eq_nil_iff.2 fun t ht => ?_
  rw [hissues t ht]
  rfl

/-- Spellings that come close to something else: a reserved word, a number that is too large, a
comment, a char constant without its quote. -/
def narrow : Wording where
  lead := ⟨['\t', '\n'], by simp⟩
  items :=
    [(.name 'i' ['f', '_'] (by decide) (by simp) (by decide), ⟨[' '], by simp⟩),
      (.mark .assign (by decide), ⟨['\n', ' '], by simp⟩),
      (.numeral [0, 2, 1, 4, 7, 4, 8, 3, 6, 4, 7] (by decide) (by decide), ⟨['\r'], by simp⟩),
      (.mark .slash (by decide), ⟨[' '], by simp⟩),
      (.mark .slash (by decide), ⟨[' '], by simp⟩),
      (.char ' ' (by decide) (by decide) (by decide), ⟨[' '], by simp⟩),
      (.escape .lineFeed, ⟨['\t'], by simp⟩),
      (.reserved .kwIf (by decide), ⟨[], by simp⟩)]
  apart := by decide

theorem ofString_text_narrow :
    (TokenList.ofString narrow.text).tokens.map Token.meaning =
        [⟨.ident, "if_", 0⟩, ⟨.assign, "", 0⟩, ⟨.number, "", 2147483647⟩, ⟨.slash, "", 0⟩,
          ⟨.slash, "", 0⟩, ⟨.charConst, "", 32⟩, ⟨.charConst, "", 10⟩, ⟨.kwIf, "if", 0⟩] ∧
      (TokenList.ofString narrow.text).issues = [] := by
  obtain ⟨hmeanings, -, hissues⟩ := ofString_text narrow
  exact ⟨hmeanings.trans (by decide +kernel), hissues⟩

end Wording

end MicroJava
