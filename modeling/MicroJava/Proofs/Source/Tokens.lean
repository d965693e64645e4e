import Mathlib.Data.List.Forall2
import MicroJava.Source.Upcoming

/-! # The tokens of a text

Every lexeme takes at least one character, so the text runs out before the bound on the number of
tokens does. The tokens still to come end with the end mark, and no other token among them is one.
-/

namespace MicroJava

namespace Lexeme

/-- The token that stands at a place. -/
def toToken (lex : Lexeme) (pos : Position) : Token :=
  ⟨lex.kind, pos, lex.text, lex.value, lex.issue⟩

theorem keyword?_ne_eof {text : String} {kind : TokenKind}
    (h : TokenKind.keyword? text = some kind) : kind ≠ .eof := by
  have hall : ∀ entry ∈ TokenKind.keywords, entry.2 ≠ .eof := by decide
  obtain ⟨before, after, heq, -⟩ := List.lookup_eq_some_iff.1 h
  exact hall (text, kind) (by simp [heq])

theorem kind_word (cs : List Char) : (word cs).kind ≠ .eof := by
  change (TokenKind.keyword? (String.ofList (cs.takeWhile isNamePart))).getD .ident ≠ .eof
  cases h : TokenKind.keyword? (String.ofList (cs.takeWhile isNamePart)) with
  | none => simp
  | some kind => exact keyword?_ne_eof h

theorem numeral_eq (cs : List Char) :
    (numeral cs).kind = .number ∧ (numeral cs).taken = cs.takeWhile Char.isDigit ∧
      (numeral cs).rest = cs.dropWhile Char.isDigit := by
  unfold numeral
  dsimp only
  split <;> exact ⟨rfl, rfl, rfl⟩

/-- A char constant ends with a quote, or else with the line or the text. -/
theorem quoted_eq (cs : List Char) :
    (quoted cs).kind = .charConst ∧ (∃ taken, (quoted cs).taken = '\'' :: taken) ∧
      (quoted cs).taken ++ (quoted cs).rest = '\'' :: cs := by
  have happ : cs.takeWhile insideQuotes ++ cs.dropWhile insideQuotes = cs :=
    List.takeWhile_append_dropWhile
  unfold quoted
  dsimp only
  split
  · next rest hrest =>
      rw [hrest] at happ
      split <;> exact ⟨rfl, ⟨_, rfl⟩, by simp [happ]⟩
  · exact ⟨rfl, ⟨_, rfl⟩, by simp⟩

theorem single_ne_eof (c : Char) : single c ≠ .eof := by
  unfold single
  split <;> decide

theorem pair?_ne_eof {c d : Char} {kind : TokenKind} (h : pair? c d = some kind) : kind ≠ .eof := by
  unfold pair? at h
  split at h <;> cases h <;> decide

theorem mark_eq (c : Char) (cs : List Char) :
    (mark c cs).kind ≠ .eof ∧ (∃ taken, (mark c cs).taken = c :: taken) ∧
      (mark c cs).taken ++ (mark c cs).rest = c :: cs := by
  unfold mark
  split
  · exact ⟨single_ne_eof c, ⟨_, rfl⟩, rfl⟩
  · split
    · next kind hpair => exact ⟨pair?_ne_eof hpair, ⟨_, rfl⟩, rfl⟩
    · exact ⟨single_ne_eof c, ⟨_, rfl⟩, rfl⟩

theorem kind_read (c : Char) (cs : List Char) : (read c cs).kind ≠ .eof := by
  unfold read
  split
  · exact kind_word _
  · split
    · rw [(numeral_eq _).1]
      decide
    · split
      · rw [(quoted_eq cs).1]
        decide
      · exact (mark_eq c cs).1

/-- What a lexeme takes and what it leaves make up the text. -/
theorem taken_append_rest (c : Char) (cs : List Char) :
    (read c cs).taken ++ (read c cs).rest = c :: cs := by
  unfold read
  split
  · exact List.takeWhile_append_dropWhile
  · split
    · rw [(numeral_eq _).2.1, (numeral_eq _).2.2]
      exact List.takeWhile_append_dropWhile
    · split
      · next hquote => rw [(quoted_eq cs).2.2, hquote]
      · exact (mark_eq c cs).2.2

theorem taken_ne_nil (c : Char) (cs : List Char) : (read c cs).taken ≠ [] := by
  unfold read
  split
  · next hc =>
      have hpart : isNamePart c = true := by simp_all [isNameStart, isNamePart, Char.isAlphanum]
      simp [word, hpart]
  · split
    · next hd => simp [(numeral_eq _).2.1, hd]
    · split
      · obtain ⟨taken, ht⟩ := (quoted_eq cs).2.1
        simp [ht]
      · obtain ⟨taken, ht⟩ := (mark_eq c cs).2.1
        simp [ht]

theorem length_rest_lt (c : Char) (cs : List Char) :
    (read c cs).rest.length < (c :: cs).length := by
  have hlen := congrArg List.length (taken_append_rest c cs)
  have hpos := List.length_pos_iff.2 (taken_ne_nil c cs)
  rw [List.length_append] at hlen
  omega

end Lexeme

namespace Cursor

theorem length_skipTrivia (inComment : Bool) (cs : List Char) (pos : Position) :
    (skipTrivia inComment cs pos).rest.length ≤ cs.length := by
  induction cs generalizing inComment pos with
  | nil => exact Nat.le_refl _
  | cons c cs ih =>
      rw [skipTrivia]
      split
      · exact Nat.le_succ_of_le (ih _ _)
      · split
        · exact Nat.le_succ_of_le (ih _ _)
        · split
          · exact Nat.le_succ_of_le (ih _ _)
          · exact Nat.le_refl _

theorem next_of_nil {cur : Cursor} {pos : Position}
    (h : skipTrivia false cur.rest cur.pos = ⟨[], pos⟩) :
    cur.next = (⟨.eof, pos, "", 0, none⟩, ⟨[], pos⟩) := by
  simp only [next, h]

theorem next_of_cons {cur : Cursor} {c : Char} {cs : List Char} {pos : Position}
    (h : skipTrivia false cur.rest cur.pos = ⟨c :: cs, pos⟩) :
    cur.next = ((Lexeme.read c cs).toToken pos,
      ⟨(Lexeme.read c cs).rest, pos.advance (Lexeme.read c cs).taken⟩) := by
  simp only [next, h, Lexeme.toToken]

/-- Either the text is at its end, or a token is taken from it. -/
theorem next_cases (cur : Cursor) :
    cur.next.1.kind = .eof ∨
      cur.next.1.kind ≠ .eof ∧ cur.next.2.rest.length < cur.rest.length := by
  have hskip := length_skipTrivia false cur.rest cur.pos
  unfold next
  dsimp only
  split
  · exact .inl rfl
  · next c cs hrest =>
      rw [hrest] at hskip
      exact .inr ⟨Lexeme.kind_read c cs, Nat.lt_of_lt_of_le (Lexeme.length_rest_lt c cs) hskip⟩

theorem collect_succ (n : Nat) (cur : Cursor) (done : Array Token) :
    cur.collect (n + 1) done =
      if cur.next.1.kind = .eof then (done, cur.next.1)
      else cur.next.2.collect n (done.push cur.next.1) := rfl

/-- A bound that is long enough has no say in what the tokens are. -/
theorem collect_eq {n m : Nat} {cur : Cursor} (hn : cur.rest.length ≤ n) (hm : cur.rest.length ≤ m)
    (done : Array Token) : cur.collect n done = cur.collect m done := by
  induction n generalizing m cur done with
  | zero =>
      cases m with
      | zero => rfl
      | succ m =>
          rcases cur.next_cases with heof | ⟨-, hlt⟩
          · rw [collect_succ, if_pos heof, collect]
          · omega
  | succ n ih =>
      rcases cur.next_cases with heof | ⟨hkind, hlt⟩
      · cases m with
        | zero => rw [collect_succ, if_pos heof, collect]
        | succ m => rw [collect_succ, collect_succ, if_pos heof, if_pos heof]
      · cases m with
        | zero => omega
        | succ m =>
            rw [collect_succ, collect_succ, if_neg hkind, if_neg hkind]
            exact ih (by omega) (by omega) _

theorem collect_spec {n : Nat} {cur : Cursor} (hn : cur.rest.length ≤ n) (done : Array Token) :
    (cur.collect n done).2.kind = .eof ∧
      ∃ new, (cur.collect n done).1.toList = done.toList ++ new ∧ ∀ t ∈ new, t.kind ≠ .eof := by
  induction n generalizing cur done with
  | zero =>
      rcases cur.next_cases with heof | ⟨-, hlt⟩
      · exact ⟨heof, [], by simp [collect], by simp⟩
      · omega
  | succ n ih =>
      rw [collect_succ]
      rcases cur.next_cases with heof | ⟨hkind, hlt⟩
      · rw [if_pos heof]
        exact ⟨heof, [], by simp, by simp⟩
      · rw [if_neg hkind]
        have hlen : cur.next.2.rest.length ≤ n := by omega
        obtain ⟨heof, new, hnew, hall⟩ := ih hlen (done.push cur.next.1)
        refine ⟨heof, cur.next.1 :: new, by simp [hnew], ?_⟩
        intro t ht
        rcases List.mem_cons.1 ht with rfl | ht
        · exact hkind
        · exact hall t ht

/-- From the cursor on the text reads as the tokens and then the end mark. -/
inductive Reads : Cursor → List Token → Token → Prop
  | done {cur cur' : Cursor} {last : Token} (h : cur.next = (last, cur'))
      (hk : last.kind = .eof) : Reads cur [] last
  | token {cur cur' : Cursor} {t last : Token} {ts : List Token} (h : cur.next = (t, cur'))
      (hk : t.kind ≠ .eof) (hr : Reads cur' ts last) : Reads cur (t :: ts) last

/-- What is read depends on the next token and on what is behind it. -/
theorem Reads.of_next_eq {cur cur' : Cursor} {ts : List Token} {last : Token}
    (hr : Reads cur' ts last) (h : cur.next = cur'.next) : Reads cur ts last := by
  cases hr with
  | done h' hk => exact .done (h.trans h') hk
  | token h' hk hr => exact .token (h.trans h') hk hr

theorem Reads.kind_last {cur : Cursor} {ts : List Token} {last : Token} (h : Reads cur ts last) :
    last.kind = .eof := by
  induction h with
  | done _ hk => exact hk
  | token _ _ _ ih => exact ih

theorem exists_reads (cur : Cursor) : ∃ ts last, Reads cur ts last := by
  induction hn : cur.rest.length using Nat.strongRecOn generalizing cur with
  | ind n ih =>
      rcases cur.next_cases with hk | ⟨hk, hlt⟩
      · exact ⟨[], _, .done rfl hk⟩
      · obtain ⟨ts, last, hr⟩ := ih _ (hn ▸ hlt) cur.next.2 rfl
        exact ⟨_, last, .token rfl hk hr⟩

theorem Reads.collect_eq {cur : Cursor} {ts : List Token} {last : Token} (h : Reads cur ts last)
    {n : Nat} (hn : cur.rest.length ≤ n) (done : Array Token) :
    cur.collect n done = (done ++ ts, last) := by
  induction h generalizing n done with
  | done h hk =>
      cases n with
      | zero => simp [collect, h]
      | succ n => simp [collect_succ, h, hk]
  | @token cur cur' t last ts h hk hr ih =>
      have hcases := cur.next_cases
      rw [h] at hcases
      have hlt : cur'.rest.length < cur.rest.length := (hcases.resolve_left hk).2
      cases n with
      | zero => omega
      | succ n =>
          rw [collect_succ, h, if_neg hk, ih (by omega)]
          simp

end Cursor

/-- Only the last token is an end mark. -/
def Closed (ts : List Token) : Prop :=
  ∃ before last, ts = before ++ [last] ∧ last.kind = .eof ∧ ∀ t ∈ before, t.kind ≠ .eof

theorem Closed.tail {t : Token} {ts : List Token} (h : Closed (t :: ts)) (hk : t.kind ≠ .eof) :
    Closed ts := by
  obtain ⟨before, last, heq, hlast, hall⟩ := h
  cases before with
  | nil =>
      obtain ⟨rfl, -⟩ := List.cons.inj heq
      exact absurd hlast hk
  | cons u before =>
      obtain ⟨-, rfl⟩ := List.cons.inj heq
      exact ⟨before, last, rfl, hlast, fun t ht => hall t (List.mem_cons_of_mem _ ht)⟩

theorem Closed.eq_nil {t : Token} {ts : List Token} (h : Closed (t :: ts)) (hk : t.kind = .eof) :
    ts = [] := by
  obtain ⟨before, last, heq, hlast, hall⟩ := h
  cases before with
  | nil => exact (List.cons.inj heq).2
  | cons u before =>
      obtain ⟨rfl, -⟩ := List.cons.inj heq
      exact absurd hk (hall t (List.mem_cons_self ..))

/-- Reading the whole text gives its tokens, and nothing else does. -/
theorem TokenList.reads_ofString (source : String) :
    (Cursor.ofString source).Reads (ofString source).tokens (ofString source).endMark := by
  obtain ⟨ts, last, h⟩ := (Cursor.ofString source).exists_reads
  have hcollect := h.collect_eq (Nat.le_refl _) #[]
  simpa [ofString, hcollect] using h

theorem Cursor.Reads.ofString_eq {source : String} {ts : List Token} {last : Token}
    (h : (Cursor.ofString source).Reads ts last) : TokenList.ofString source = ⟨ts, last⟩ := by
  have hcollect := h.collect_eq (Nat.le_refl _) #[]
  simp [TokenList.ofString, hcollect]

theorem TokenList.closed_ofString (source : String) : Closed (TokenList.ofString source).all := by
  obtain ⟨heof, new, hnew, hall⟩ :=
    Cursor.collect_spec (Nat.le_refl (Cursor.ofString source).rest.length) #[]
  have htokens : (TokenList.ofString source).tokens = new := hnew
  exact ⟨_, _, rfl, heof, fun t ht => hall t (htokens ▸ ht)⟩

theorem TokenList.kinds_ofString (source : String) :
    (TokenList.ofString source).all.map (·.kind) =
      (TokenList.ofString source).tokens.map (·.kind) ++ [.eof] := by
  obtain ⟨heof, -⟩ := Cursor.collect_spec (Nat.le_refl (Cursor.ofString source).rest.length) #[]
  rw [TokenList.all, List.map_append]
  exact congrArg (_ ++ [·]) heof

namespace Upcoming

/-- The token in view and all behind it. -/
def tokens (up : Upcoming) : List Token := up.ahead :: up.later

theorem tokens_ofTokens (ts : TokenList) : (ofTokens ts).tokens = ts.all := by
  unfold ofTokens TokenList.all
  split
  · next h => simp [tokens, h]
  · next h => simp [tokens, h]

theorem closed_ofString (source : String) : Closed (ofTokens (TokenList.ofString source)).tokens := by
  rw [tokens_ofTokens]
  exact TokenList.closed_ofString source

/-- All tokens but the end mark are in front of it. -/
theorem length_later_ofTokens (ts : TokenList) : (ofTokens ts).later.length = ts.tokens.length := by
  have hlen := congrArg List.length (tokens_ofTokens ts)
  simpa [tokens, TokenList.all] using hlen

theorem tokens_advance {up : Upcoming} (h : Closed up.tokens) (hk : up.kind ≠ .eof) :
    up.tokens = up.ahead :: up.advance.tokens := by
  obtain ⟨t, later⟩ := up
  cases later with
  | nil =>
      obtain ⟨before, last, heq, -⟩ := Closed.tail h hk
      simp at heq
  | cons u later => rfl

theorem advance_eof {up : Upcoming} (h : Closed up.tokens) (hk : up.kind = .eof) :
    up.advance = up := by
  obtain ⟨t, later⟩ := up
  obtain rfl : later = [] := Closed.eq_nil h hk
  rfl

/-- Two views on tokens that correspond still do so one token later. -/
theorem forall₂_advance {R : Token → Token → Prop} {up up' : Upcoming}
    (h : List.Forall₂ R up.tokens up'.tokens) :
    List.Forall₂ R up.advance.tokens up'.advance.tokens := by
  obtain ⟨t, later⟩ := up
  obtain ⟨t', later'⟩ := up'
  cases h with
  | cons hahead hlater =>
      cases hlater with
      | nil => exact .cons hahead .nil
      | cons hnext hrest => exact .cons hnext hrest

end Upcoming

end MicroJava
