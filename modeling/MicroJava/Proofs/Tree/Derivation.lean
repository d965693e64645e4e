import MicroJava.Proofs.Source.Tokens
import MicroJava.Proofs.Tree.Grammar
import MicroJava.Proofs.Tree.Outline
import MicroJava.Proofs.Tree.Written
import MicroJava.Tree.Reading

/-! # What is read is derived

Reading takes tokens from the front. If the tree has no gap, the rules of the grammar derive the
tokens that were taken, and the names of the tree are the identifiers among them. With or without
gaps, no more than twice as many tokens are asked for as are taken: the end mark is asked for once
more only where a statement should stand behind a token of its own. -/

namespace MicroJava

theorem Closed.of_append {ts ts' : List Token} (h : Closed (ts ++ ts')) (hne : ts' ≠ []) :
    Closed ts' := by
  induction ts with
  | nil => exact h
  | cons t ts ih =>
      by_cases hk : t.kind = .eof
      · have hnil := Closed.eq_nil h hk
        simp [hne] at hnil
      · exact ih (Closed.tail h hk)

/-- The spellings of the identifiers, in order. -/
def identifiers (ts : List Token) : List String :=
  ts.filterMap fun t => if t.kind = .ident then some t.text else none

@[simp] theorem identifiers_append (ts ts' : List Token) :
    identifiers (ts ++ ts') = identifiers ts ++ identifiers ts' := List.filterMap_append ..

/-- What the outline of a tree and its writing `fs` say of the tokens `ts` that the tree was read
from, and how they are derived if there is no gap. At most `slack` tokens were asked for beyond
twice those that are there. -/
structure Spans (slack : Nat) (o : Outline) (fs : List Face) (ts : List Token) (e : Ebnf) :
    Prop where
  tokens : o.tokens ≤ 2 * ts.length + slack
  derives : o.gaps = 0 → Derives e (ts.map (·.kind))
  names : o.gaps = 0 → o.names.map (·.2) = identifiers ts
  faces : o.gaps = 0 → fs = ts.map Token.face

namespace Spans

variable {s s' : Nat} {o o' : Outline} {fs fs' : List Face} {ts ts' : List Token} {e e' : Ebnf}
  {es : List Ebnf}

theorem imp (h : Spans s o fs ts e) (hd : ∀ v, Derives e v → Derives e' v) : Spans s o fs ts e' :=
  { h with derives := fun hg => hd _ (h.derives hg) }

theorem mono (h : Spans s o fs ts e) (hs : s ≤ s') : Spans s' o fs ts e :=
  { h with tokens := Nat.le_trans h.tokens (Nat.add_le_add_left hs _) }

theorem rule {n : Nonterminal} (h : Spans s o fs ts (grammar n)) : Spans s o fs ts (.rule n) :=
  h.imp fun _ => .rule

theorem alt {es : List Ebnf} (h : Spans s o fs ts e) (he : e ∈ es) : Spans s o fs ts (.alt es) :=
  h.imp fun _ => .alt he

/-- One of the forms that a rule allows. -/
theorem form {n : Nonterminal} {es : List Ebnf} (hn : grammar n = .alt es) (h : Spans s o fs ts e)
    (he : e ∈ es) : Spans s o fs ts (.rule n) :=
  rule (hn ▸ h.alt he)

theorem present (h : Spans s o fs ts e) : Spans s o fs ts (.opt e) := h.imp fun _ => .present

/-- Nothing was taken. -/
theorem empty (h : Derives e []) : Spans 0 .nil [] [] e :=
  ⟨Nat.le_refl _, fun _ => h, fun _ => rfl, fun _ => rfl⟩

theorem absent : Spans 0 .nil [] [] (.opt e) := empty .absent

theorem nil : Spans 0 .nil [] [] (.seq []) := empty .nil

theorem stop : Spans 0 .nil [] [] (.many e) := empty .stop

/-- One part behind the other. -/
theorem append (h : Spans s o fs ts e) (h' : Spans s' o' fs' ts' e')
    {e'' : Ebnf} (hd : ∀ u v, Derives e u → Derives e' v → Derives e'' (u ++ v)) :
    Spans (s + s') (o ++ o') (fs ++ fs') (ts ++ ts') e'' := by
  have hparts : (o ++ o').gaps = 0 → o.gaps = 0 ∧ o'.gaps = 0 := Nat.add_eq_zero_iff.1
  refine ⟨?_, fun hg => ?_, fun hg => ?_, fun hg => ?_⟩
  · have ht := h.tokens
    have ht' := h'.tokens
    simp only [Outline.tokens_append, List.length_append]
    omega
  · rw [List.map_append]
    exact hd _ _ (h.derives (hparts hg).1) (h'.derives (hparts hg).2)
  · simp [h.names (hparts hg).1, h'.names (hparts hg).2]
  · rw [h.faces (hparts hg).1, h'.faces (hparts hg).2, List.map_append]

theorem cons (h : Spans 0 o fs ts e) (h' : Spans s o' fs' ts' (.seq es)) :
    Spans s (o ++ o') (fs ++ fs') (ts ++ ts') (.seq (e :: es)) := by
  have happ := h.append h' fun _ _ => .cons
  rwa [Nat.zero_add] at happ

theorem cons_loose (h : Spans 1 o fs ts e) (h' : Spans 0 o' fs' ts' (.seq es)) :
    Spans 1 (o ++ o') (fs ++ fs') (ts ++ ts') (.seq (e :: es)) :=
  h.append h' fun _ _ => .cons

theorem join {es' : List Ebnf} (h : Spans 0 o fs ts (.seq es)) (h' : Spans s o' fs' ts' (.seq es')) :
    Spans s (o ++ o') (fs ++ fs') (ts ++ ts') (.seq (es ++ es')) := by
  have happ := h.append h' fun _ _ => Derives.seq_append
  rwa [Nat.zero_add] at happ

theorem more (h : Spans 0 o fs ts e) (h' : Spans 0 o' fs' ts' (.many e)) :
    Spans 0 (o ++ o') (fs ++ fs') (ts ++ ts') (.many e) :=
  h.append h' fun _ _ => .more

/-- The last part of a sequence. -/
theorem last (h : Spans s o fs ts e) : Spans s o fs ts (.seq [e]) := by
  have happ := h.append nil fun _ _ => Derives.cons
  simpa using happ

/-- A token that is no name. -/
theorem token {t : Token} {k : TokenKind} (hk : t.kind = k) (hi : k ≠ .ident) :
    Spans 0 .token [t.face] [t] (.token k) := by
  refine ⟨by simp, fun _ => hk ▸ .token k, fun _ => ?_, fun _ => rfl⟩
  simp [identifiers, hk, hi]

/-- A token that is nothing but its kind. -/
theorem sign {t : Token} {k : TokenKind} (hk : t.kind = k)
    (hs : k ∉ [TokenKind.ident, .number, .charConst]) :
    Spans 0 .token [.sign k] [t] (.token k) := by
  have hface : t.face = .sign k := by
    unfold Token.face
    split <;> simp_all
  exact hface ▸ token hk fun hi => hs (by simp [hi])

theorem number {t : Token} (hk : t.kind = .number) :
    Spans 0 .token [.number t.value] [t] (.token .number) := by
  have hface : t.face = .number t.value := by simp [Token.face, hk]
  exact hface ▸ token hk (by decide)

theorem char {t : Token} (hk : t.kind = .charConst) :
    Spans 0 .token [.char t.value] [t] (.token .charConst) := by
  have hface : t.face = .char t.value := by simp [Token.face, hk]
  exact hface ▸ token hk (by decide)

theorem ident {t : Token} (hk : t.kind = .ident) (role : Role) :
    Spans 0 (.ident role (some t.text)) (Face.named (some t.text)) [t] (.token .ident) := by
  refine ⟨by simp [Outline.ident], fun _ => hk ▸ .token .ident, fun _ => ?_, fun _ => ?_⟩
  · simp [Outline.ident, identifiers, hk]
  · simp [Face.named, Token.face, hk]

/-- A token of its own makes up for one that is asked for in vain. -/
theorem behind {t : Token} {k : TokenKind} (hk : t.kind = k)
    (hs : k ∉ [TokenKind.ident, .number, .charConst]) (h : Spans 1 o fs ts (.seq es)) :
    Spans 0 (.token ++ o) (.sign k :: fs) (t :: ts) (.seq (.token k :: es)) := by
  have happ := (sign hk hs).cons h
  refine { happ with tokens := ?_ }
  have ht := h.tokens
  simp only [Outline.tokens_append, Outline.tokens_token, List.length_cons]
  omega

/-- Where something is amiss, only the number of tokens counts. -/
theorem of_gap (ht : o.tokens ≤ 2 * ts.length + s) (hg : o.gaps ≠ 0) : Spans s o fs ts e :=
  ⟨ht, fun h => absurd h hg, fun h => absurd h hg, fun h => absurd h hg⟩

theorem gap : Spans 0 .gap fs [] e := of_gap (by simp) (by simp)

end Spans

namespace Reader

variable {α β : Type} {up : Reading}

/-- Reading takes tokens `ts` from the front and yields `a`, and `Q ts a` holds. -/
def Reads (r : Reader α) (up : Reading) (Q : List Token → α → Prop) : Prop :=
  ∃ ts, up.tokens = ts ++ (r up).2.tokens ∧ Q ts (r up).1

variable {Q P : List Token → α → Prop} {R : List Token → β → Prop}

theorem Reads.imp {r : Reader α} (h : Reads r up P) (hpq : ∀ ts a, P ts a → Q ts a) :
    Reads r up Q := by
  obtain ⟨ts, hts, hp⟩ := h
  exact ⟨ts, hts, hpq _ _ hp⟩

theorem Reads.pure {a : α} (h : Q [] a) : Reads (pure a) up Q := ⟨[], rfl, h⟩

theorem Reads.exhaust {a : α} (h : Q [] a) : Reads (exhaust a) up Q := ⟨[], rfl, h⟩

theorem Reads.bind {r : Reader α} {f : α → Reader β} (h : Reads r up P)
    (h' : ∀ ts a up', up.tokens = ts ++ up'.tokens → P ts a →
      Reads (f a) up' fun ts' b => R (ts ++ ts') b) : Reads (r >>= f) up R := by
  obtain ⟨ts, hts, hp⟩ := h
  obtain ⟨ts', hts', hr⟩ := h' ts _ _ hts hp
  exact ⟨ts ++ ts', by rw [hts, hts', List.append_assoc]; rfl, hr⟩

theorem Reads.map {r : Reader α} {f : α → β} (h : Reads r up fun ts a => R ts (f a)) :
    Reads (f <$> r) up R := by
  obtain ⟨ts, hts, hr⟩ := h
  exact ⟨ts, hts, hr⟩

/-- What is read depends on a condition, and what follows does not. -/
theorem Reads.choose {c : Prop} [Decidable c] {r r' : Reader α} {f : α → Reader β}
    (h : Reads (if c then r else r') up P)
    (h' : ∀ ts a up', up.tokens = ts ++ up'.tokens → P ts a →
      Reads (f a) up' fun ts' b => R (ts ++ ts') b) :
    Reads (if c then r >>= f else r' >>= f) up R := by
  have hbind := h.bind h'
  split
  · next hcond => simpa [hcond] using hbind
  · next hcond => simpa [hcond] using hbind

theorem Reads.kind {f : TokenKind → Reader α} (h : Reads (f up.kind) up Q) :
    Reads (Reader.kind >>= f) up Q := h

theorem Reads.get {f : Reading → Reader α} (h : Reads (f up) up Q) :
    Reads (MonadState.get >>= f) up Q := h

theorem Reads.shift {f : Unit → Reader α} (hc : Closed up.tokens) (hk : up.kind ≠ .eof)
    (h : Reads (f ()) up.advance fun ts a => Q (up.ahead :: ts) a) :
    Reads (Reader.shift >>= f) up Q := by
  obtain ⟨ts, hts, hq⟩ := h
  have htokens : up.tokens = up.ahead :: up.advance.tokens := Upcoming.tokens_advance hc hk
  exact ⟨up.ahead :: ts, by rw [htokens, hts]; rfl, hq⟩

/-- At the end of the text the end mark stays in view. -/
theorem tokens_advance_eof (hc : Closed up.tokens) (hk : up.kind = .eof) :
    up.advance.tokens = up.tokens :=
  congrArg Upcoming.tokens (Upcoming.advance_eof hc hk)

theorem Reads.shift_eof {f : Unit → Reader α} (hc : Closed up.tokens) (hk : up.kind = .eof)
    (h : Reads (f ()) up.advance Q) : Reads (Reader.shift >>= f) up Q := by
  obtain ⟨ts, hts, hq⟩ := h
  exact ⟨ts, (tokens_advance_eof hc hk).symm.trans hts, hq⟩

/-- Nothing is taken from the front of a closed list that would not leave it closed. -/
theorem closed_rest {up up' : Reading} {ts : List Token} (hc : Closed up.tokens)
    (h : up.tokens = ts ++ up'.tokens) : Closed up'.tokens :=
  Closed.of_append (h ▸ hc) (List.cons_ne_nil _ _)

theorem closed_advance (hc : Closed up.tokens) (hk : up.kind ≠ .eof) : Closed up.advance.tokens := by
  have htokens : up.tokens = [up.ahead] ++ up.advance.tokens := Upcoming.tokens_advance hc hk
  exact closed_rest hc htokens

theorem length_rest {up up' : Reading} {ts : List Token} (h : up.tokens = ts ++ up'.tokens) :
    ts.length + up'.later.length = up.later.length := by
  have hlen := congrArg List.length h
  simp only [Upcoming.tokens, List.length_append, List.length_cons] at hlen
  omega

theorem length_advance (hc : Closed up.tokens) (hk : up.kind ≠ .eof) :
    up.advance.later.length + 1 = up.later.length := by
  have htokens : up.tokens = [up.ahead] ++ up.advance.tokens := Upcoming.tokens_advance hc hk
  have hlen := length_rest htokens
  rw [List.length_singleton] at hlen
  omega

theorem reads_demand (hc : Closed up.tokens) {k : TokenKind} (hk : k ≠ .eof)
    (hs : k ∉ [TokenKind.ident, .number, .charConst]) :
    Reads (demand k) up fun ts mark => Spans 0 mark.outline (mark.written k) ts (.token k) := by
  refine .kind ?_
  split
  · next heq => exact .shift hc (heq ▸ hk) (.pure (.sign heq hs))
  · exact .pure .gap

/-- What it means for a token to be there or not. -/
def IfThere (k : TokenKind) (ts : List Token) (there : Bool) : Prop :=
  if there then ∃ t, ts = [t] ∧ t.kind = k else ts = []

theorem reads_accept (hc : Closed up.tokens) {k : TokenKind} (hk : k ≠ .eof) :
    Reads (accept k) up (IfThere k) := by
  refine .kind ?_
  split
  · next heq => exact .shift hc (heq ▸ hk) (.pure ⟨_, rfl, heq⟩)
  · exact .pure rfl

theorem reads_name (hc : Closed up.tokens) :
    Reads name up fun ts n => ∀ role, Spans 0 (.ident role n) (Face.named n) ts (.token .ident) := by
  refine .get ?_
  dsimp only
  split
  · next heq => exact .shift hc (by simp [Upcoming.kind, heq]) (.pure fun role => .ident heq role)
  · exact .pure fun _ => .gap

theorem reads_value (hc : Closed up.tokens) (hk : up.kind ≠ .eof) :
    Reads value up fun ts v => ts = [up.ahead] ∧ v = up.ahead.value :=
  .get (.shift hc hk (.pure ⟨rfl, rfl⟩))

/-! ## Loops -/

theorem reads_many {more : TokenKind → Bool} {item : Reader α} {outline : α → Outline}
    {written : α → List Face} {e : Ebnf} {n : Nat}
    (h : ∀ up, Closed up.tokens → up.later.length < n → more up.kind = true →
      Reads item up fun ts a => Spans 0 (outline a) (written a) ts e) (fuel : Nat) (done : Array α)
    (hc : Closed up.tokens) (hn : up.later.length < n) :
    Reads (many more item fuel done) up fun ts all => ∃ new, all = done.toList ++ new ∧
      Spans 0 (.concat outline new) (new.flatMap written) ts (.many e) := by
  induction fuel generalizing up done with
  | zero => exact .exhaust ⟨[], by simp, .stop⟩
  | succ fuel ih =>
      rw [many]
      refine .kind ?_
      split
      · next hmore =>
          refine (h up hc hn hmore).bind fun ts a up' hup ha => ?_
          have hn' := length_rest hup
          refine (ih (done.push a) (closed_rest hc hup) (by omega)).imp ?_
          rintro ts' all ⟨new, rfl, hnew⟩
          exact ⟨a :: new, by simp, ha.more hnew⟩
      · exact .pure ⟨[], by simp, .stop⟩

theorem reads_behindCommas {item : Reader α} {outline : α → Outline} {written : α → List Face}
    {e : Ebnf} {es : List Ebnf}
    (h : ∀ up, Closed up.tokens →
      Reads item up fun ts a => Spans 0 (outline a) (written a) ts (.seq (e :: es)))
    (fuel : Nat) (done : Array α) (hc : Closed up.tokens) :
    Reads (behindCommas item fuel done) up fun ts all => ∃ new, all = done.toList ++ new ∧
      Spans 0 (.concat (.token ++ outline ·) new) (new.flatMap fun a => .sign .comma :: written a) ts
        (.many (.seq (.token .comma :: e :: es))) := by
  induction fuel generalizing up done with
  | zero => exact .exhaust ⟨[], by simp, .stop⟩
  | succ fuel ih =>
      rw [behindCommas]
      refine (reads_accept hc (by decide)).bind fun ts there up' hup hthere => ?_
      cases there with
      | false =>
          obtain rfl : ts = [] := hthere
          exact .pure ⟨[], by simp, .stop⟩
      | true =>
          obtain ⟨t, rfl, ht⟩ := hthere
          have hc' := closed_rest hc hup
          refine (h up' hc').bind fun ts a up'' hup' ha => ?_
          refine (ih (done.push a) (closed_rest hc' hup')).imp ?_
          rintro ts' all ⟨new, rfl, hnew⟩
          refine ⟨a :: new, by simp, ?_⟩
          have hitem := (Spans.sign ht (by decide)).cons ha
          simpa [Outline.concat] using hitem.more hnew

/-- One item or more, with commas between them. -/
theorem reads_commaSeparated {item : Reader α} {outline : α → Outline} {written : α → List Face}
    {e : Ebnf} {es : List Ebnf}
    (h : ∀ up, Closed up.tokens →
      Reads item up fun ts a => Spans 0 (outline a) (written a) ts (.seq (e :: es)))
    (fuel : Nat) (hc : Closed up.tokens) :
    Reads (commaSeparated fuel item) up fun ts all => ∃ first new, all = first :: new ∧
      ∃ ts₁ ts₂, ts = ts₁ ++ ts₂ ∧ Spans 0 (outline first) (written first) ts₁ (.seq (e :: es)) ∧
        Spans 0 (.concat (.token ++ outline ·) new)
          (new.flatMap fun a => .sign .comma :: written a) ts₂
          (.many (.seq (.token .comma :: e :: es))) := by
  refine (h up hc).bind fun ts first up' hup hfirst => ?_
  refine (reads_behindCommas h fuel #[first] (closed_rest hc hup)).imp ?_
  rintro ts' all ⟨new, rfl, hnew⟩
  exact ⟨first, new, rfl, ts, ts', rfl, hfirst, hnew⟩

/-! ## Expressions -/

/-- What is expected of the reader of nested expressions. -/
def ReadsExpr (expr : Reader Expr) : Prop :=
  ∀ up, Closed up.tokens → Reads expr up fun ts e => Spans 0 e.outline e.written ts (.rule .expr)

theorem reads_selectors {expr : Reader Expr} (h : ReadsExpr expr) (fuel : Nat) (base : Designator)
    (hc : Closed up.tokens) :
    Reads (selectors expr fuel base) up fun ts d => ∃ o fs, d.outline = base.outline ++ o ∧
      d.written = base.written ++ fs ∧
        Spans 0 o fs ts (.many (.alt [.seq [.token .period, .token .ident],
          .seq [.token .lbracket, .rule .expr, .token .rbracket]])) := by
  induction fuel generalizing up base with
  | zero => exact .exhaust ⟨.nil, [], by simp, by simp, .stop⟩
  | succ fuel ih =>
      rw [selectors]
      refine .kind ?_
      split
      · next hk =>
          have hne : up.kind ≠ .eof := by simp [hk]
          have hc' := closed_advance hc hne
          refine .shift hc hne ((reads_name hc').bind fun ts f up' hup hf => ?_)
          refine (ih (.field base f) (closed_rest hc' hup)).imp ?_
          rintro ts' d ⟨o, fs, ho, hfs, hcov⟩
          refine ⟨.token ++ .ident .selected f ++ o, .sign .period :: Face.named f ++ fs, ?_, ?_, ?_⟩
          · simp [ho, Outline.append_assoc]
          · simp [hfs]
          · have hfield := (Spans.sign hk (by decide)).cons (hf .selected).last
            exact (hfield.alt (List.mem_cons_self ..)).more hcov
      · next hk =>
          have hne : up.kind ≠ .eof := by simp [hk]
          have hc' := closed_advance hc hne
          refine .shift hc hne ((h _ hc').bind fun ts i up' hup hi => ?_)
          have hc'' := closed_rest hc' hup
          refine (reads_demand hc'' (by decide) (by decide)).bind fun ts' mark up'' hup' hm => ?_
          refine (ih (.index base i mark) (closed_rest hc'' hup')).imp ?_
          rintro ts'' d ⟨o, fs, ho, hfs, hcov⟩
          refine ⟨.token ++ (i.outline ++ mark.outline) ++ o,
            .sign .lbracket :: (i.written ++ mark.written .rbracket) ++ fs, ?_, ?_, ?_⟩
          · simp [ho, Outline.append_assoc]
          · simp [hfs]
          · have hindex := (Spans.sign hk (by decide)).cons (hi.cons hm.last)
            have hall := (hindex.alt (List.mem_cons_of_mem _ (List.mem_cons_self ..))).more hcov
            simpa using hall
      · exact .pure ⟨.nil, [], by simp, by simp, .stop⟩

theorem reads_designator {expr : Reader Expr} (h : ReadsExpr expr) (fuel : Nat)
    (hc : Closed up.tokens) :
    Reads (designator fuel expr) up fun ts d =>
      Spans 0 d.outline d.written ts (.rule .designator) := by
  unfold designator
  refine (reads_name hc).bind fun ts n up' hup hn => ?_
  cases n with
  | some n =>
      refine (reads_selectors h fuel (.name n) (closed_rest hc hup)).imp ?_
      rintro ts' d ⟨o, fs, ho, hfs, hcov⟩
      rw [ho, hfs]
      exact ((hn .used).cons hcov.last).rule
  | none =>
      have hgap := (hn .used).tokens
      exact .pure (.of_gap (by simp) (by simp))

theorem reads_arguments {expr : Reader Expr} (h : ReadsExpr expr) (fuel : Nat)
    (hc : Closed up.tokens) (hk : up.kind = .lparen) :
    Reads (arguments fuel expr) up fun ts r =>
      Spans 0 (.token ++ (Expr.outlines r.1 ++ r.2.outline))
        (.sign .lparen :: (Expr.writtenAll r.1 ++ r.2.written .rparen)) ts (.rule .actPars) := by
  unfold arguments
  have hne : up.kind ≠ .eof := by simp [hk]
  have hc' := closed_advance hc hne
  refine .shift hc hne (.kind ?_)
  have hargs : Reads (if up.advance.kind.startsExpr then commaSeparated fuel expr else pure [])
      up.advance fun ts args => Spans 0 (Expr.outlines args) (Expr.writtenAll args) ts
        (.opt (.seq [.rule .expr, .many (.seq [.token .comma, .rule .expr])])) := by
    split
    · have hitem : ∀ up, Closed up.tokens →
          Reads expr up fun ts e => Spans 0 e.outline e.written ts (.seq [.rule .expr]) :=
        fun up hc => (h up hc).imp fun _ _ he => he.last
      refine (reads_commaSeparated hitem fuel hc').imp ?_
      rintro ts args ⟨first, new, rfl, ts₁, ts₂, rfl, hfirst, hnew⟩
      rw [Expr.outlines_cons, Expr.writtenAll_cons]
      exact (hfirst.join hnew.last).present
    · exact .pure .absent
  refine hargs.choose fun ts args up' hup hcov => ?_
  refine (reads_demand (closed_rest hc' hup) (by decide) (by decide)).bind
    fun ts' mark up'' hup' hm => ?_
  refine .pure ?_
  simpa using ((Spans.sign hk (by decide)).cons (hcov.cons hm.last)).rule

theorem reads_allocation {expr : Reader Expr} (h : ReadsExpr expr) (hc : Closed up.tokens)
    (hk : up.kind = .kwNew) :
    Reads (allocation expr) up fun ts e => Spans 0 e.outline e.written ts
      (.seq [.token .kwNew, .token .ident,
        .opt (.seq [.token .lbracket, .rule .expr, .token .rbracket])]) := by
  unfold allocation
  have hne : up.kind ≠ .eof := by simp [hk]
  have hc' := closed_advance hc hne
  have hnew : Spans 0 .token [.sign .kwNew] [up.ahead] (.token .kwNew) := .sign hk (by decide)
  refine .shift hc hne ((reads_name hc').bind fun ts n up' hup hn => ?_)
  have hc'' := closed_rest hc' hup
  cases n with
  | none =>
      refine .pure (.of_gap ?_ (by simp))
      simp only [Expr.outline, Outline.tokens_append, Outline.tokens_token, Outline.tokens_gap,
        List.length_cons]
      omega
  | some n =>
      refine (reads_accept hc'' (by decide)).bind fun ts' there up'' hup' hthere => ?_
      have hc₃ := closed_rest hc'' hup'
      cases there with
      | false =>
          obtain rfl : ts' = [] := hthere
          refine .pure ?_
          simpa using hnew.cons ((hn .used).cons Spans.absent.last)
      | true =>
          obtain ⟨t, rfl, ht⟩ := hthere
          refine (h _ hc₃).bind fun ts₃ size up₃ hup₃ hsize => ?_
          refine (reads_demand (closed_rest hc₃ hup₃) (by decide) (by decide)).bind
            fun ts₄ mark up₄ hup₄ hm => .pure ?_
          have hindex := ((Spans.sign ht (by decide)).cons (hsize.cons hm.last)).present
          simpa using hnew.cons ((hn .used).cons hindex.last)

theorem reads_factor {expr : Reader Expr} (h : ReadsExpr expr) (fuel : Nat)
    (hc : Closed up.tokens) :
    Reads (factor fuel expr) up fun ts e => Spans 0 e.outline e.written ts (.rule .factor) := by
  unfold factor
  refine .kind ?_
  split
  · refine (reads_designator h fuel hc).bind fun ts x up' hup hx => .kind ?_
    split
    · next hk =>
        refine (reads_arguments h fuel (closed_rest hc hup) hk).bind fun ts' r up'' hup' hr => ?_
        exact .pure (by
          simpa using
            ((hx.cons hr.present.last).alt (List.mem_cons_self ..)).rule)
    · have hplain : Spans 0 x.outline x.written ts
          (.seq [.rule .designator, .opt (.rule .actPars)]) := by
        simpa using hx.cons Spans.absent.last
      refine .pure ?_
      simpa using (hplain.alt (List.mem_cons_self ..)).rule
  · next hk =>
      refine (reads_value hc (by simp [hk])).bind fun ts v up' hup hv => .pure ?_
      obtain ⟨rfl, rfl⟩ := hv
      exact ((Spans.number hk).alt (by simp)).rule
  · next hk =>
      refine (reads_value hc (by simp [hk])).bind fun ts v up' hup hv => .pure ?_
      obtain ⟨rfl, rfl⟩ := hv
      exact ((Spans.char hk).alt (by simp)).rule
  · next hk => exact (reads_allocation h hc hk).imp fun ts e he => (he.alt (by simp)).rule
  · next hk =>
      have hne : up.kind ≠ .eof := by simp [hk]
      have hc' := closed_advance hc hne
      refine .shift hc hne ((h _ hc').bind fun ts inner up' hup hinner => ?_)
      refine (reads_demand (closed_rest hc' hup) (by decide) (by decide)).bind
        fun ts' mark up'' hup' hm => .pure ?_
      have hparen := (Spans.sign hk (by decide)).cons (hinner.cons hm.last)
      simpa using (hparen.alt (by simp)).rule
  · exact .pure (.of_gap (by simp) (by simp))

/-- The operators of one level, given by the kinds of their tokens. -/
theorem reads_operators {op? : TokenKind → Option Arithmetic} {operand : Reader Expr} {e e' : Ebnf}
    (hop : ∀ (t : Token) op, op? t.kind = some op →
      t.kind ≠ .eof ∧ Spans 0 .token [.sign op.kind] [t] e)
    (h : ∀ up, Closed up.tokens → Reads operand up fun ts x => Spans 0 x.outline x.written ts e')
    (fuel : Nat) (left : Expr) (hc : Closed up.tokens) :
    Reads (operators op? operand fuel left) up fun ts x => ∃ o fs, x.outline = left.outline ++ o ∧
      x.written = left.written ++ fs ∧ Spans 0 o fs ts (.many (.seq [e, e'])) := by
  induction fuel generalizing up left with
  | zero => exact .exhaust ⟨.nil, [], by simp, by simp, .stop⟩
  | succ fuel ih =>
      rw [operators]
      refine .kind ?_
      split
      · next op hk =>
          obtain ⟨hne, htoken⟩ := hop up.ahead op hk
          have hc' := closed_advance hc hne
          refine .shift hc hne ((h _ hc').bind fun ts right up' hup hright => ?_)
          refine (ih (.binary op left right) (closed_rest hc' hup)).imp ?_
          rintro ts' x ⟨o, fs, ho, hfs, hcov⟩
          refine ⟨.token ++ right.outline ++ o, .sign op.kind :: right.written ++ fs, ?_, ?_, ?_⟩
          · simp [ho, Outline.append_assoc]
          · simp [hfs]
          · exact (htoken.cons hright.last).more hcov
      · exact .pure ⟨.nil, [], by simp, by simp, .stop⟩

theorem reads_term {expr : Reader Expr} (h : ReadsExpr expr) (fuel : Nat) (hc : Closed up.tokens) :
    Reads (term fuel expr) up fun ts e => Spans 0 e.outline e.written ts (.rule .term) := by
  unfold term
  have hop : ∀ (t : Token) op, productOp? t.kind = some op → t.kind ≠ .eof ∧
      Spans 0 .token [.sign op.kind] [t]
        (.alt [.token .times, .token .slash, .token .percent]) := by
    intro t op ht
    unfold productOp? at ht
    split at ht <;> cases ht
    all_goals
      next hk => exact ⟨by simp [hk], (Spans.sign hk (by decide)).alt (by simp)⟩
  refine (reads_factor h fuel hc).bind fun ts left up' hup hleft => ?_
  refine (reads_operators hop (fun up hc => reads_factor h fuel hc) fuel left
    (closed_rest hc hup)).imp ?_
  rintro ts' x ⟨o, fs, ho, hfs, hcov⟩
  rw [ho, hfs]
  exact (hleft.cons hcov.last).rule

theorem reads_signedTerm {expr : Reader Expr} (h : ReadsExpr expr) (fuel : Nat)
    (hc : Closed up.tokens) :
    Reads (signedTerm fuel expr) up fun ts e =>
      Spans 0 e.outline e.written ts (.seq [.opt (.token .minus), .rule .term]) := by
  unfold signedTerm
  refine (reads_accept hc (by decide)).bind fun ts there up' hup hthere => ?_
  have hc' := closed_rest hc hup
  cases there with
  | true =>
      obtain ⟨t, rfl, ht⟩ := hthere
      refine (reads_term h fuel hc').bind fun ts' e up'' hup' he => .pure ?_
      simpa using (Spans.sign ht (by decide)).present.cons he.last
  | false =>
      obtain rfl : ts = [] := hthere
      exact (reads_term h fuel hc').imp fun ts' e he => by
        simpa using Spans.absent.cons he.last

theorem reads_sum {expr : Reader Expr} (h : ReadsExpr expr) (fuel : Nat) :
    ReadsExpr (sum fuel expr) := by
  intro up hc
  unfold sum
  have hop : ∀ (t : Token) op, sumOp? t.kind = some op → t.kind ≠ .eof ∧
      Spans 0 .token [.sign op.kind] [t] (.alt [.token .plus, .token .minus]) := by
    intro t op ht
    unfold sumOp? at ht
    split at ht <;> cases ht
    all_goals
      next hk => exact ⟨by simp [hk], (Spans.sign hk (by decide)).alt (by simp)⟩
  refine (reads_signedTerm h fuel hc).bind fun ts left up' hup hleft => ?_
  refine (reads_operators hop (fun up hc => reads_term h fuel hc) fuel left
    (closed_rest hc hup)).imp ?_
  rintro ts' x ⟨o, fs, ho, hfs, hcov⟩
  rw [ho, hfs]
  exact (hleft.join hcov.last).rule

theorem reads_expr (fuel : Nat) : ReadsExpr (expr fuel) := by
  induction fuel with
  | zero => exact fun up _ => .exhaust (.of_gap (by simp) (by simp))
  | succ fuel ih => exact reads_sum ih fuel

theorem reads_relop (hc : Closed up.tokens) :
    Reads relop up fun ts rel =>
      Spans 0 (.present rel) (Face.optional (fun rel => [.sign (Comparison.kind rel)]) rel) ts
        (.rule .relop) := by
  unfold relop
  refine .kind ?_
  split
  · next rel hk =>
      have htoken : up.kind ≠ .eof ∧
          Spans 0 .token [.sign rel.kind] [up.ahead] (.rule .relop) := by
        unfold relop? at hk
        split at hk <;> cases hk
        all_goals
          next hkind =>
            exact ⟨by simp [hkind], ((Spans.sign hkind (by decide)).alt (by simp)).rule⟩
      exact .shift hc htoken.1 (.pure htoken.2)
  · exact .pure .gap

theorem reads_condition {expr : Reader Expr} (h : ReadsExpr expr) (hc : Closed up.tokens) :
    Reads (condition expr) up fun ts c => Spans 0 c.outline c.written ts (.rule .condition) := by
  unfold condition
  refine (h up hc).bind fun ts left up₁ hup₁ hleft => ?_
  have hc₁ := closed_rest hc hup₁
  refine (reads_relop hc₁).bind fun ts' rel up₂ hup₂ hrel => ?_
  refine (h up₂ (closed_rest hc₁ hup₂)).bind fun ts'' right up₃ _ hright => .pure ?_
  simpa [Condition.outline, Condition.written] using (hleft.cons (hrel.cons hright.last)).rule

/-! ## Statements -/

/-- What is expected of the reader of nested statements, as long as fewer than `n` tokens are
behind the one in view. -/
def ReadsStmt (n : Nat) (stmt : Reader Stmt) : Prop :=
  ∀ up, Closed up.tokens → up.later.length < n → Reads stmt up fun ts s =>
    Spans 1 s.outline s.written ts (.rule .statement) ∧
      (up.kind ≠ .eof → Spans 0 s.outline s.written ts (.rule .statement))

theorem reads_designatorStmt {expr : Reader Expr} (h : ReadsExpr expr) (fuel : Nat)
    (hc : Closed up.tokens) :
    Reads (designatorStmt fuel expr) up fun ts s =>
      Spans 0 s.outline s.written ts (.rule .statement) := by
  unfold designatorStmt
  refine (reads_designator h fuel hc).bind fun ts x up' hup hx => .kind ?_
  have hc' := closed_rest hc hup
  split
  · next hk =>
      have hne : up'.kind ≠ .eof := by simp [hk]
      have hc'' := closed_advance hc' hne
      refine .shift hc' hne ((h _ hc'').bind fun ts' y up'' hup' hy => ?_)
      refine (reads_demand (closed_rest hc'' hup') (by decide) (by decide)).bind
        fun ts'' mark _ _ hm => .pure ?_
      have hassign : Spans 0 (.token ++ y.outline) (.sign .assign :: y.written) (up'.ahead :: ts')
          (.alt [.seq [.token .assign, .rule .expr], .rule .actPars]) :=
        ((Spans.sign hk (by decide)).cons hy.last).alt (List.mem_cons_self ..)
      have hall := (hx.cons (hassign.cons hm.last)).form (n := .statement) rfl (by simp)
      simpa [Outline.append_assoc] using hall
  · next hk =>
      refine (reads_arguments h fuel hc' hk).bind fun ts' r up'' hup' hr => ?_
      refine (reads_demand (closed_rest hc' hup') (by decide) (by decide)).bind
        fun ts'' mark _ _ hm => .pure ?_
      have hcall : Spans 0 (.token ++ (Expr.outlines r.1 ++ r.2.outline))
          (.sign .lparen :: (Expr.writtenAll r.1 ++ r.2.written .rparen)) ts'
          (.alt [.seq [.token .assign, .rule .expr], .rule .actPars]) :=
        hr.alt (List.mem_cons_of_mem _ (List.mem_cons_self ..))
      have hall := (hx.cons (hcall.cons hm.last)).form (n := .statement) rfl (by simp)
      simpa [Outline.append_assoc] using hall
  · refine (reads_demand hc' (by decide) (by decide)).bind fun ts' mark _ _ hm => .pure ?_
    have ht := hx.tokens
    have ht' := hm.tokens
    refine .of_gap ?_ (by simp)
    simp only [Stmt.outline, Outline.tokens_append, Outline.tokens_gap, List.length_append,
      List.length_nil]
    omega

/-- The condition of a statement in its parentheses. -/
theorem reads_guard {expr : Reader Expr} (h : ReadsExpr expr) {f : Mark → Condition → Mark → Reader α}
    (hc : Closed up.tokens)
    (h' : ∀ ts lparen cond rparen up', up.tokens = ts ++ up'.tokens →
      Spans 0 (lparen.outline ++ (Condition.outline cond ++ rparen.outline))
        (cond.guardWritten lparen rparen) ts
        (.seq [.token .lparen, .rule .condition, .token .rparen]) →
      Reads (f lparen cond rparen) up' fun ts' a => Q (ts ++ ts') a) :
    Reads (do
      let lparen ← demand .lparen
      let cond ← condition expr
      let rparen ← demand .rparen
      f lparen cond rparen) up Q := by
  refine (reads_demand hc (by decide) (by decide)).bind fun ts₁ lparen up₁ hup₁ hl => ?_
  have hc₁ := closed_rest hc hup₁
  refine (reads_condition h hc₁).bind fun ts₂ cond up₂ hup₂ hcond => ?_
  have hc₂ := closed_rest hc₁ hup₂
  refine (reads_demand hc₂ (by decide) (by decide)).bind fun ts₃ rparen up₃ hup₃ hr => ?_
  have hall := hl.cons (hcond.cons hr.last)
  refine (h' (ts₁ ++ (ts₂ ++ ts₃)) lparen cond rparen up₃ ?_ hall).imp fun ts a hq => ?_
  · rw [hup₁, hup₂, hup₃, List.append_assoc, List.append_assoc]
  · simpa using hq

theorem reads_conditional {expr : Reader Expr} {stmt : Reader Stmt} {n : Nat} (h : ReadsExpr expr)
    (hs : ReadsStmt n stmt) (hc : Closed up.tokens) (hn : up.later.length < n + 1)
    (hk : up.kind = .kwIf) :
    Reads (conditional expr stmt) up fun ts s =>
      Spans 0 s.outline s.written ts (.rule .statement) := by
  unfold conditional
  have hne : up.kind ≠ .eof := by simp [hk]
  have hc' := closed_advance hc hne
  have hlen := length_advance hc hne
  refine .shift hc hne (reads_guard h hc' fun ts lparen cond rparen up₁ hup₁ hguard => ?_)
  have hc₁ := closed_rest hc' hup₁
  have hn₁ := length_rest hup₁
  refine (hs up₁ hc₁ (by omega)).bind fun ts₁ body up₂ hup₂ hbody => ?_
  have hc₂ := closed_rest hc₁ hup₂
  have hn₂ := length_rest hup₂
  refine (reads_accept hc₂ (by decide)).bind fun ts₂ there up₃ hup₃ hthere => ?_
  cases there with
  | true =>
      obtain ⟨t, rfl, ht⟩ := hthere
      have hn₃ := length_rest hup₃
      simp only [List.length_singleton] at hn₃
      refine (hs up₃ (closed_rest hc₂ hup₃) (by omega)).bind fun ts₃ alternative _ _ halt => .pure ?_
      have helse := (Spans.behind ht (by decide) halt.1.last).present
      have hrest := hguard.join (hbody.1.cons_loose helse.last)
      have hall := (Spans.behind hk (by decide) hrest).form (n := .statement) rfl (by simp)
      simpa [Outline.append_assoc] using hall
  | false =>
      obtain rfl : ts₂ = [] := hthere
      refine .pure ?_
      have helse := Spans.absent (e := .seq [.token .kwElse, .rule .statement])
      have hrest := hguard.join (hbody.1.cons_loose helse.last)
      have hall := (Spans.behind hk (by decide) hrest).form (n := .statement) rfl (by simp)
      simpa [Outline.append_assoc] using hall

theorem reads_repetition {expr : Reader Expr} {stmt : Reader Stmt} {n : Nat} (h : ReadsExpr expr)
    (hs : ReadsStmt n stmt) (hc : Closed up.tokens) (hn : up.later.length < n + 1)
    (hk : up.kind = .kwWhile) :
    Reads (repetition expr stmt) up fun ts s =>
      Spans 0 s.outline s.written ts (.rule .statement) := by
  unfold repetition
  have hne : up.kind ≠ .eof := by simp [hk]
  have hc' := closed_advance hc hne
  have hlen := length_advance hc hne
  refine .shift hc hne (reads_guard h hc' fun ts lparen cond rparen up₁ hup₁ hguard => ?_)
  have hn₁ := length_rest hup₁
  refine (hs up₁ (closed_rest hc' hup₁) (by omega)).bind fun ts₁ body up₂ hup₂ hbody => .pure ?_
  have hrest := hguard.join hbody.1.last
  have hall := (Spans.behind hk (by decide) hrest).form (n := .statement) rfl (by simp)
  simpa [Outline.append_assoc] using hall

theorem reads_returnStmt {expr : Reader Expr} (h : ReadsExpr expr) (hc : Closed up.tokens)
    (hk : up.kind = .kwReturn) :
    Reads (returnStmt expr) up fun ts s =>
      Spans 0 s.outline s.written ts (.rule .statement) := by
  unfold returnStmt
  have hne : up.kind ≠ .eof := by simp [hk]
  have hc' := closed_advance hc hne
  have hvalue : Reads (if up.advance.kind.startsExpr then some <$> expr else pure none) up.advance
      fun ts value => ∃ o fs, Spans 0 o fs ts (.opt (.rule .expr)) ∧ ∀ semicolon,
        (Stmt.ret value semicolon).outline = .token ++ (o ++ semicolon.outline) ∧
          (Stmt.ret value semicolon).written =
            .sign .kwReturn :: (fs ++ semicolon.written .semicolon) := by
    split
    · refine .map ((h _ hc').imp fun ts e he => ⟨e.outline, e.written, he.present, fun _ => ?_⟩)
      exact ⟨by rw [Stmt.outline], by rw [Stmt.written]⟩
    · refine .pure ⟨.nil, [], .absent, fun _ => ?_⟩
      exact ⟨by rw [Stmt.outline, Outline.nil_append], by rw [Stmt.written, List.nil_append]⟩
  refine .shift hc hne (.kind (hvalue.choose fun ts value up₁ hup₁ hv => ?_))
  obtain ⟨o, fs, ho, hshape⟩ := hv
  refine (reads_demand (closed_rest hc' hup₁) (by decide) (by decide)).bind
    fun ts' mark _ _ hm => .pure ?_
  have hall := ((Spans.sign hk (by decide)).cons (ho.cons hm.last)).form (n := .statement) rfl
    (by simp)
  rw [(hshape mark).1, (hshape mark).2]
  simpa using hall

theorem reads_readStmt {expr : Reader Expr} (h : ReadsExpr expr) (fuel : Nat)
    (hc : Closed up.tokens) (hk : up.kind = .kwRead) :
    Reads (readStmt fuel expr) up fun ts s =>
      Spans 0 s.outline s.written ts (.rule .statement) := by
  unfold readStmt
  have hne : up.kind ≠ .eof := by simp [hk]
  have hc' := closed_advance hc hne
  refine .shift hc hne ((reads_demand hc' (by decide) (by decide)).bind
    fun ts₁ lparen up₁ hup₁ hl => ?_)
  have hc₁ := closed_rest hc' hup₁
  refine (reads_designator h fuel hc₁).bind fun ts₂ target up₂ hup₂ ht => ?_
  have hc₂ := closed_rest hc₁ hup₂
  refine (reads_demand hc₂ (by decide) (by decide)).bind fun ts₃ rparen up₃ hup₃ hr => ?_
  have hc₃ := closed_rest hc₂ hup₃
  refine (reads_demand hc₃ (by decide) (by decide)).bind fun ts₄ mark _ _ hm => .pure ?_
  have hall := ((Spans.sign hk (by decide)).cons (hl.cons (ht.cons (hr.cons hm.last)))).form
    (n := .statement) rfl (by simp)
  simpa using hall

theorem reads_widthSpec (hc : Closed up.tokens) :
    Reads widthSpec up fun ts w =>
      Spans 0 w.outline w.written ts (.opt (.seq [.token .comma, .token .number])) := by
  unfold widthSpec
  refine (reads_accept hc (by decide)).bind fun ts there up₁ hup₁ hthere => ?_
  have hc₁ := closed_rest hc hup₁
  cases there with
  | false =>
      obtain rfl : ts = [] := hthere
      exact .pure .absent
  | true =>
      obtain ⟨t, rfl, ht⟩ := hthere
      refine .kind ?_
      split
      · next hk =>
          refine (reads_value hc₁ (by simp [hk])).bind fun ts w _ _ hw => .pure ?_
          obtain ⟨rfl, rfl⟩ := hw
          exact ((Spans.sign ht (by decide)).cons (Spans.number hk).last).present
      · exact .pure (.of_gap (by simp [WidthSpec.outline]) (by simp [WidthSpec.outline]))

theorem reads_printStmt {expr : Reader Expr} (h : ReadsExpr expr) (hc : Closed up.tokens)
    (hk : up.kind = .kwPrint) :
    Reads (printStmt expr) up fun ts s =>
      Spans 0 s.outline s.written ts (.rule .statement) := by
  unfold printStmt
  have hne : up.kind ≠ .eof := by simp [hk]
  have hc' := closed_advance hc hne
  refine .shift hc hne ((reads_demand hc' (by decide) (by decide)).bind
    fun ts₁ lparen up₁ hup₁ hl => ?_)
  have hc₁ := closed_rest hc' hup₁
  refine (h up₁ hc₁).bind fun ts₂ value up₂ hup₂ hv => ?_
  have hc₂ := closed_rest hc₁ hup₂
  refine (reads_widthSpec hc₂).bind fun ts₃ width up₃ hup₃ hw => ?_
  have hc₃ := closed_rest hc₂ hup₃
  refine (reads_demand hc₃ (by decide) (by decide)).bind fun ts₄ rparen up₄ hup₄ hr => ?_
  have hc₄ := closed_rest hc₃ hup₄
  refine (reads_demand hc₄ (by decide) (by decide)).bind fun ts₅ mark _ _ hm => .pure ?_
  have hrest := hl.cons (hv.cons (hw.cons (hr.cons hm.last)))
  have hall := ((Spans.sign hk (by decide)).cons hrest).form (n := .statement) rfl (by simp)
  simpa using hall

theorem inBlock_eof {k : TokenKind} (h : inBlock k = true) : k ≠ .eof := by
  rintro rfl
  simp [inBlock] at h

theorem reads_blockBody {stmt : Reader Stmt} {n : Nat} (hs : ReadsStmt n stmt) (fuel : Nat)
    (hc : Closed up.tokens) (hn : up.later.length < n) :
    Reads (blockBody fuel stmt) up fun ts r => Spans 0 (Stmt.outlines r.1 ++ r.2.outline)
      (Stmt.writtenAll r.1 ++ r.2.written .rbrace) ts
      (.seq [.many (.rule .statement), .token .rbrace]) := by
  unfold blockBody
  have hitem : ∀ up, Closed up.tokens → up.later.length < n → inBlock up.kind = true →
      Reads stmt up fun ts s => Spans 0 s.outline s.written ts (.rule .statement) :=
    fun up hc hn hin => (hs up hc hn).imp fun ts s h => h.2 (inBlock_eof hin)
  refine (reads_many hitem fuel #[] hc hn).bind fun ts body up₁ hup₁ hbody => ?_
  obtain ⟨new, rfl, hcov⟩ := hbody
  refine (reads_demand (closed_rest hc hup₁) (by decide) (by decide)).bind
    fun ts' mark _ _ hm => .pure ?_
  rw [Stmt.outlines_eq_concat, Stmt.writtenAll_eq_flatMap]
  simpa using hcov.cons hm.last

/-- A statement that starts with the token in view; otherwise nothing is taken. -/
theorem reads_startedStmt {expr : Reader Expr} {stmt : Reader Stmt} {n : Nat} (h : ReadsExpr expr)
    (hs : ReadsStmt n stmt) (fuel : Nat) (hc : Closed up.tokens) (hn : up.later.length < n + 1) :
    Reads (startedStmt fuel expr stmt) up fun ts s =>
      if up.kind.startsStatement then Spans 0 s.outline s.written ts (.rule .statement)
      else s.outline = .nil ∧ ts = [] := by
  unfold startedStmt
  refine .kind ?_
  split
  · next hk => simpa [hk, TokenKind.startsStatement] using reads_designatorStmt h fuel hc
  · next hk => simpa [hk, TokenKind.startsStatement] using reads_conditional h hs hc hn hk
  · next hk => simpa [hk, TokenKind.startsStatement] using reads_repetition h hs hc hn hk
  · next hk => simpa [hk, TokenKind.startsStatement] using reads_returnStmt h hc hk
  · next hk => simpa [hk, TokenKind.startsStatement] using reads_readStmt h fuel hc hk
  · next hk => simpa [hk, TokenKind.startsStatement] using reads_printStmt h hc hk
  · next hk =>
      have hne : up.kind ≠ .eof := by simp [hk]
      have hlen := length_advance hc hne
      refine .shift hc hne ((reads_blockBody hs fuel (closed_advance hc hne) (by omega)).bind
        fun ts r _ _ hr => .pure ?_)
      have hblock := ((Spans.sign hk (by decide)).cons hr).rule (n := .block)
      simpa [hk, TokenKind.startsStatement] using
        hblock.form (n := .statement) rfl (by simp)
  · next hk =>
      have hempty := (Spans.sign hk (by decide)).form (n := .statement) rfl (by simp)
      refine .shift hc (by simp [hk]) (.pure ?_)
      simpa [hk, TokenKind.startsStatement] using hempty
  · next hk =>
      have hnot : up.kind.startsStatement = false := by
        unfold TokenKind.startsStatement
        split <;> simp_all
      exact .pure (by simp [hnot])

theorem reads_skipTo {stop : TokenKind → Bool} (hstop : stop .eof = true) (fuel count : Nat)
    (hc : Closed up.tokens) :
    Reads (skipTo stop fuel count) up fun ts c => c = count + ts.length := by
  induction fuel generalizing up count with
  | zero => exact .exhaust rfl
  | succ fuel ih =>
      rw [skipTo]
      refine .kind ?_
      split
      · exact .pure rfl
      · next hgo =>
          have hne : up.kind ≠ .eof := by
            rintro heof
            exact hgo (heof ▸ hstop)
          refine .shift hc hne ((ih (count + 1) (closed_advance hc hne)).imp ?_)
          rintro ts c rfl
          simp only [List.length_cons]
          omega

/-- Tokens that are passed over, and perhaps a semicolon behind them. -/
theorem reads_passed {stop : TokenKind → Bool} (hstop : stop .eof = true) {fuel count : Nat}
    {f : Nat → Bool → Reader α} (hc : Closed up.tokens)
    (h : ∀ ts skipped semicolon up', up.tokens = ts ++ up'.tokens →
      (Outline.passed skipped semicolon).tokens = count + ts.length →
      Reads (f skipped semicolon) up' fun ts' a => Q (ts ++ ts') a) :
    Reads (do
      let skipped ← skipTo stop fuel count
      let semicolon ← accept .semicolon
      f skipped semicolon) up Q := by
  refine (reads_skipTo hstop fuel count hc).bind fun ts c up₁ hup₁ hcount => ?_
  refine (reads_accept (closed_rest hc hup₁) (by decide)).bind fun ts' there up₂ hup₂ hthere => ?_
  have hup : up.tokens = ts ++ ts' ++ up₂.tokens := by rw [hup₁, hup₂, List.append_assoc]
  refine (h (ts ++ ts') c there up₂ hup ?_).imp fun ts'' a hq => by simpa using hq
  subst hcount
  cases there with
  | true =>
      obtain ⟨t, rfl, -⟩ := hthere
      simp [Outline.passed, Nat.add_assoc]
  | false =>
      obtain rfl : ts' = [] := hthere
      simp [Outline.passed]

/-- Behind the first token that starts no statement, others are passed over, and a statement follows.
The number of tokens is all that counts once something has been passed over. -/
theorem reads_junk {expr : Reader Expr} {stmt : Reader Stmt} {n : Nat} (h : ReadsExpr expr)
    (hs : ReadsStmt n stmt) (fuel : Nat) {up : Reading} (hc : Closed up.tokens)
    (hn : up.later.length < n + 1) :
    Reads (do
      let skipped ← skipTo stopsStmtSkip fuel 1
      let semicolon ← accept .semicolon
      return Stmt.junk skipped semicolon (← startedStmt fuel expr stmt)) up fun ts s =>
        s.outline.tokens ≤ 2 * ts.length + 1 ∧ s.outline.gaps ≠ 0 := by
  refine reads_passed rfl hc fun ts skipped semicolon up₁ hup₁ hpassed => ?_
  have hn₁ := length_rest hup₁
  refine (reads_startedStmt h hs fuel (closed_rest hc hup₁) (by omega)).bind
    fun ts' s _ _ hcov => .pure ?_
  have htokens : s.outline.tokens ≤ 2 * ts'.length := by
    split at hcov
    · exact hcov.tokens
    · simp [hcov.1]
  constructor
  · simp only [Stmt.outline, Outline.tokens_append, List.length_append, List.length_nil, hpassed]
    omega
  · simp [Outline.passed]

theorem reads_stmtWith {expr : Reader Expr} {stmt : Reader Stmt} {n : Nat} (h : ReadsExpr expr)
    (hs : ReadsStmt n stmt) (fuel : Nat) : ReadsStmt (n + 1) (stmtWith fuel expr stmt) := by
  intro up hc hn
  unfold stmtWith
  refine .kind ?_
  split
  · next hstarts =>
      refine (reads_startedStmt h hs fuel hc hn).imp fun ts s hcov => ?_
      rw [if_pos hstarts] at hcov
      exact ⟨hcov.mono (Nat.zero_le 1), fun _ => hcov⟩
  · by_cases heof : up.kind = .eof
    · have hsame := tokens_advance_eof hc heof
      have hlen := congrArg List.length hsame
      simp only [Upcoming.tokens, List.length_cons] at hlen
      refine .shift_eof hc heof ((reads_junk h hs fuel (hsame ▸ hc) (by omega)).imp ?_)
      rintro ts s ⟨ht, hg⟩
      exact ⟨.of_gap ht hg, fun hne => absurd heof hne⟩
    · have hlen := length_advance hc heof
      refine .shift hc heof ((reads_junk h hs fuel (closed_advance hc heof) (by omega)).imp ?_)
      rintro ts s ⟨ht, hg⟩
      have hcov : Spans 0 s.outline s.written (up.ahead :: ts) (.rule .statement) := by
        refine .of_gap ?_ hg
        simp only [List.length_cons]
        omega
      exact ⟨hcov.mono (Nat.zero_le 1), fun _ => hcov⟩

theorem reads_stmt (fuel : Nat) : ReadsStmt fuel (stmt fuel) := by
  induction fuel with
  | zero => exact fun up _ hn => absurd hn (Nat.not_lt_zero _)
  | succ fuel ih => exact reads_stmtWith (reads_expr fuel) ih fuel

/-! ## Declarations -/

theorem reads_typeRef (hc : Closed up.tokens) :
    Reads typeRef up fun ts r => Spans 0 r.outline r.written ts (.rule .type) := by
  unfold typeRef
  refine (reads_name hc).bind fun ts n up₁ hup₁ hn => ?_
  have hc₁ := closed_rest hc hup₁
  cases n with
  | none => exact .pure (.of_gap (by simp [TypeRef.outline]) (by simp [TypeRef.outline]))
  | some n =>
      refine (reads_accept hc₁ (by decide)).bind fun ts' there up₂ hup₂ hthere => ?_
      cases there with
      | true =>
          obtain ⟨t, rfl, ht⟩ := hthere
          refine (reads_demand (closed_rest hc₁ hup₂) (by decide) (by decide)).bind
            fun ts'' mark _ _ hm => .pure ?_
          have hbrackets := ((Spans.sign ht (by decide)).cons hm.last).present
          simpa [TypeRef.outline, TypeRef.written] using
            ((hn .used).cons hbrackets.last).rule (n := .type)
      | false =>
          obtain rfl : ts' = [] := hthere
          have hnone := Spans.absent (e := .seq [.token .lbracket, .token .rbracket])
          refine .pure ?_
          simpa [TypeRef.outline, TypeRef.written] using
            ((hn .used).cons hnone.last).rule (n := .type)

theorem otherNames_eq_concat (names : List (Option String)) :
    otherNames names = .concat (.token ++ .ident .declared ·) names := by
  induction names with
  | nil => rfl
  | cons n rest ih => rw [otherNames, Outline.concat, ih, Outline.append_assoc]

theorem reads_varDecl (fuel : Nat) (hc : Closed up.tokens) :
    Reads (varDecl fuel) up fun ts d => Spans 0 d.outline d.written ts (.rule .varDecl) := by
  unfold varDecl
  refine (reads_typeRef hc).bind fun ts₁ type up₁ hup₁ htype => ?_
  have hc₁ := closed_rest hc hup₁
  refine (reads_name hc₁).bind fun ts₂ first up₂ hup₂ hfirst => ?_
  have hc₂ := closed_rest hc₁ hup₂
  have hitem : ∀ up, Closed up.tokens →
      Reads name up fun ts n =>
        Spans 0 (.ident .declared n) (Face.named n) ts (.seq [.token .ident]) :=
    fun up hc => (reads_name hc).imp fun ts n hn => (hn .declared).last
  refine (reads_behindCommas hitem fuel #[] hc₂).bind fun ts₃ others up₃ hup₃ hothers => ?_
  obtain ⟨new, rfl, hnew⟩ := hothers
  refine (reads_demand (closed_rest hc₂ hup₃) (by decide) (by decide)).bind
    fun ts₄ mark _ _ hm => .pure ?_
  have hall := (htype.cons ((hfirst .declared).cons (hnew.cons hm.last))).rule (n := .varDecl)
  simpa [VarDecl.outline, VarDecl.written, otherNames_eq_concat, otherNamesWritten] using hall

theorem reads_varDecls (fuel : Nat) (hc : Closed up.tokens) :
    Reads (varDecls fuel) up fun ts ds =>
      Spans 0 (.concat VarDecl.outline ds) (ds.flatMap VarDecl.written) ts
        (.many (.rule .varDecl)) := by
  refine (reads_many (fun up hc _ _ => reads_varDecl fuel hc) fuel #[] hc
    (Nat.lt_succ_self _)).imp ?_
  rintro ts ds ⟨new, rfl, hnew⟩
  simpa using hnew

theorem reads_literal (hc : Closed up.tokens) :
    Reads literal up fun ts lit =>
      Spans 0 (.present lit) (Face.optional Literal.written lit) ts
        (.alt [.token .number, .token .charConst]) := by
  unfold literal
  refine .kind ?_
  split
  · next hk =>
      refine (reads_value hc (by simp [hk])).bind fun ts v _ _ hv => .pure ?_
      obtain ⟨rfl, rfl⟩ := hv
      exact (Spans.number hk).alt (by simp)
  · next hk =>
      refine (reads_value hc (by simp [hk])).bind fun ts v _ _ hv => .pure ?_
      obtain ⟨rfl, rfl⟩ := hv
      exact (Spans.char hk).alt (by simp)
  · exact .pure .gap

theorem reads_constDecl (hc : Closed up.tokens) (hk : up.kind = .kwFinal) :
    Reads constDecl up fun ts d => Spans 0 d.outline d.written ts (.rule .constDecl) := by
  unfold constDecl
  have hne : up.kind ≠ .eof := by simp [hk]
  have hc' := closed_advance hc hne
  refine .shift hc hne ((reads_typeRef hc').bind fun ts₁ type up₁ hup₁ htype => ?_)
  have hc₁ := closed_rest hc' hup₁
  refine (reads_name hc₁).bind fun ts₂ n up₂ hup₂ hn => ?_
  have hc₂ := closed_rest hc₁ hup₂
  refine (reads_demand hc₂ (by decide) (by decide)).bind fun ts₃ assign up₃ hup₃ hassign => ?_
  have hc₃ := closed_rest hc₂ hup₃
  refine (reads_literal hc₃).bind fun ts₄ value up₄ hup₄ hvalue => ?_
  refine (reads_demand (closed_rest hc₃ hup₄) (by decide) (by decide)).bind
    fun ts₅ mark _ _ hm => .pure ?_
  have hrest := htype.cons ((hn .declared).cons (hassign.cons (hvalue.cons hm.last)))
  simpa [ConstDecl.outline, ConstDecl.written] using
    ((Spans.sign hk (by decide)).cons hrest).rule (n := .constDecl)

theorem reads_classDecl (fuel : Nat) (hc : Closed up.tokens) (hk : up.kind = .kwClass) :
    Reads (classDecl fuel) up fun ts d => Spans 0 d.outline d.written ts (.rule .classDecl) := by
  unfold classDecl
  have hne : up.kind ≠ .eof := by simp [hk]
  have hc' := closed_advance hc hne
  refine .shift hc hne ((reads_name hc').bind fun ts₁ n up₁ hup₁ hn => ?_)
  have hc₁ := closed_rest hc' hup₁
  refine (reads_demand hc₁ (by decide) (by decide)).bind fun ts₂ lbrace up₂ hup₂ hl => ?_
  have hc₂ := closed_rest hc₁ hup₂
  refine (reads_varDecls fuel hc₂).bind fun ts₃ fields up₃ hup₃ hfields => ?_
  refine (reads_demand (closed_rest hc₂ hup₃) (by decide) (by decide)).bind
    fun ts₄ mark _ _ hm => .pure ?_
  have hrest := (hn .declared).cons (hl.cons (hfields.cons hm.last))
  simpa [ClassDecl.outline, ClassDecl.written] using
    ((Spans.sign hk (by decide)).cons hrest).rule (n := .classDecl)

theorem reads_declaration (fuel : Nat) (hc : Closed up.tokens)
    (hin : inDeclarations up.kind = true) :
    Reads (declaration fuel) up fun ts d => Spans 0 d.outline d.written ts
      (.alt [.rule .constDecl, .rule .classDecl, .rule .varDecl]) := by
  unfold declaration
  refine .kind ?_
  split
  · next hk =>
      exact (reads_constDecl hc hk).bind fun ts d _ _ hd => .pure (by
        simpa [Declaration.outline, Declaration.written] using hd.alt (by simp))
  · next hk =>
      exact (reads_classDecl fuel hc hk).bind fun ts d _ _ hd => .pure (by
        simpa [Declaration.outline, Declaration.written] using hd.alt (by simp))
  · exact (reads_varDecl fuel hc).bind fun ts d _ _ hd => .pure (by
      simpa [Declaration.outline, Declaration.written] using hd.alt (by simp))
  · have hne : up.kind ≠ .eof := by
      intro heof
      simp [heof, inDeclarations] at hin
    refine .shift hc hne (reads_passed rfl (closed_advance hc hne)
      fun ts skipped semicolon _ _ hpassed => .pure ?_)
    refine .of_gap ?_ (by simp [Declaration.outline, Outline.passed])
    simp only [Declaration.outline, hpassed, List.append_nil, List.length_cons]
    omega

theorem reads_param (hc : Closed up.tokens) :
    Reads param up fun ts q =>
      Spans 0 q.outline q.written ts (.seq [.rule .type, .token .ident]) := by
  unfold param
  refine (reads_typeRef hc).bind fun ts₁ type up₁ hup₁ htype => ?_
  refine (reads_name (closed_rest hc hup₁)).bind fun ts₂ n _ _ hn => .pure ?_
  simpa [Param.outline, Param.written] using htype.cons (hn .declared).last

theorem reads_resultType (hc : Closed up.tokens) {f : ResultType → Reader α}
    (h : ∀ ts result up', up.tokens = ts ++ up'.tokens →
      Spans 0 (ResultType.outline result) result.written ts (.alt [.rule .type, .token .kwVoid]) →
      Reads (f result) up' fun ts' a => Q (ts ++ ts') a) :
    Reads (do
      let result ← if ← accept .kwVoid then pure .void else .type <$> typeRef
      f result) up Q := by
  refine (reads_accept hc (by decide)).bind fun ts there up₁ hup₁ hthere => ?_
  have hc₁ := closed_rest hc hup₁
  cases there with
  | true =>
      obtain ⟨t, rfl, ht⟩ := hthere
      exact h [t] .void up₁ hup₁ ((Spans.sign ht (by decide)).alt (by simp))
  | false =>
      obtain rfl : ts = [] := hthere
      have htype : Reads (.type <$> typeRef) up₁ fun ts r =>
          Spans 0 (ResultType.outline r) r.written ts (.alt [.rule .type, .token .kwVoid]) :=
        .map ((reads_typeRef hc₁).imp fun ts r hr => hr.alt (by simp))
      refine htype.bind fun ts' result up₂ hup₂ hr => ?_
      exact h ts' result up₂ (by rw [hup₁, hup₂, List.nil_append]) hr

theorem reads_params (fuel : Nat) (hc : Closed up.tokens) :
    Reads (if up.kind = .ident then commaSeparated fuel param else pure []) up fun ts ps =>
      Spans 0 (Param.outlines ps) (Param.writtenAll ps) ts (.opt (.rule .formPars)) := by
  split
  · refine (reads_commaSeparated (fun up hc => reads_param hc) fuel hc).imp ?_
    rintro ts ps ⟨first, new, rfl, ts₁, ts₂, rfl, hfirst, hnew⟩
    rw [Param.outlines_cons, Param.writtenAll_cons]
    exact ((hfirst.join hnew.last).rule (n := .formPars)).present
  · exact .pure .absent

theorem reads_method (fuel : Nat) (hc : Closed up.tokens) (hn : up.later.length < fuel) :
    Reads (method fuel) up fun ts m => Spans 0 m.outline m.written ts (.rule .methodDecl) := by
  unfold method
  refine reads_resultType hc fun ts₁ result up₁ hup₁ hresult => ?_
  have hc₁ := closed_rest hc hup₁
  have hn₁ := length_rest hup₁
  refine (reads_name hc₁).bind fun ts₂ n up₂ hup₂ hname => ?_
  have hc₂ := closed_rest hc₁ hup₂
  have hn₂ := length_rest hup₂
  refine (reads_demand hc₂ (by decide) (by decide)).bind fun ts₃ lparen up₃ hup₃ hl => .kind ?_
  have hc₃ := closed_rest hc₂ hup₃
  have hn₃ := length_rest hup₃
  refine (reads_params fuel hc₃).choose fun ts₄ params up₄ hup₄ hparams => ?_
  have hc₄ := closed_rest hc₃ hup₄
  have hn₄ := length_rest hup₄
  refine (reads_demand hc₄ (by decide) (by decide)).bind fun ts₅ rparen up₅ hup₅ hr => ?_
  have hc₅ := closed_rest hc₄ hup₅
  have hn₅ := length_rest hup₅
  refine (reads_varDecls fuel hc₅).bind fun ts₆ locals up₆ hup₆ hlocals => ?_
  have hc₆ := closed_rest hc₅ hup₆
  have hn₆ := length_rest hup₆
  refine (reads_demand hc₆ (by decide) (by decide)).bind fun ts₇ lbrace up₇ hup₇ hlb => ?_
  have hn₇ := length_rest hup₇
  refine (reads_blockBody (reads_stmt fuel) fuel (closed_rest hc₆ hup₇) (by omega)).bind
    fun ts₈ r _ _ hbody => .pure ?_
  have hblock := (hlb.cons hbody).rule (n := .block)
  have hall := (hresult.cons ((hname .declared).cons (hl.cons (hparams.cons (hr.cons
    (hlocals.cons hblock.last)))))).rule (n := .methodDecl)
  simpa [Method.outline, Method.written] using hall

/-- The names of a whole program are its identifiers, and its tokens are derived, if there is no
gap; then the end mark follows. -/
theorem reads_program (fuel : Nat) (hc : Closed up.tokens) (hn : up.later.length < fuel) :
    Reads (program fuel) up fun ts p => Spans 0 p.outline p.written ts (.rule .program) ∧
      (p.outline.gaps = 0 → ts.length = up.later.length) := by
  unfold program
  refine (reads_demand hc (by decide) (by decide)).bind fun ts₁ keyword up₁ hup₁ hkeyword => ?_
  have hc₁ := closed_rest hc hup₁
  have hn₁ := length_rest hup₁
  refine (reads_name hc₁).bind fun ts₂ n up₂ hup₂ hname => ?_
  have hc₂ := closed_rest hc₁ hup₂
  have hn₂ := length_rest hup₂
  refine (reads_many (fun up hc _ hin => reads_declaration fuel hc hin) fuel #[] hc₂
    (Nat.lt_succ_self _)).bind fun ts₃ declarations up₃ hup₃ hdecls => ?_
  obtain ⟨decls, rfl, hdecls⟩ := hdecls
  have hc₃ := closed_rest hc₂ hup₃
  have hn₃ := length_rest hup₃
  refine (reads_demand hc₃ (by decide) (by decide)).bind fun ts₄ lbrace up₄ hup₄ hl => ?_
  have hc₄ := closed_rest hc₃ hup₄
  have hn₄ := length_rest hup₄
  refine (reads_many (fun up hc hn _ => reads_method fuel hc hn) fuel #[] hc₄ (by omega)).bind
    fun ts₅ methods up₅ hup₅ hmethods => ?_
  obtain ⟨methods, rfl, hmethods⟩ := hmethods
  have hc₅ := closed_rest hc₄ hup₅
  have hn₅ := length_rest hup₅
  refine (reads_demand hc₅ (by decide) (by decide)).bind
    fun ts₆ rbrace up₆ hup₆ hr => .kind (.pure ?_)
  have hn₆ := length_rest hup₆
  have hall := (hkeyword.cons ((hname .declared).cons (hdecls.cons (hl.cons (hmethods.cons
    hr.last))))).rule (n := .program)
  by_cases heof : up₆.kind = .eof
  · have hlast : up₆.later = [] := Closed.eq_nil (closed_rest hc₅ hup₆) heof
    refine ⟨by simpa [Program.outline, Program.written, heof] using hall, fun _ => ?_⟩
    simp only [hlast, List.length_nil, List.length_append] at hn₆ ⊢
    omega
  · refine ⟨.of_gap ?_ (by simp [Program.outline, heof]), ?_⟩
    · have htokens := hall.tokens
      simpa [Program.outline, heof] using htokens
    · simp [Program.outline, heof]

end Reader

/-- The tree of a text spans the tokens in front of those that are left. -/
theorem Upcoming.spans_read {up : Upcoming} (hc : Closed up.tokens) :
    ∃ ts, up.tokens = ts ++ up.read.2.tokens ∧
      Spans 0 up.read.1.outline up.read.1.written ts (.rule .program) ∧
      (up.read.1.outline.gaps = 0 → ts.length = up.later.length) :=
  have hstart : Closed (Reading.start up).tokens := hc
  Reader.reads_program _ hstart (Nat.lt_succ_self up.later.length)

end MicroJava
