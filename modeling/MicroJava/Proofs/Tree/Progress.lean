import Mathlib.Logic.Function.Iterate
import MicroJava.Proofs.Tree.Outline
import MicroJava.Tree.Reading

/-! # How far reading goes

The outline of a tree counts the tokens that were asked for while it was read, whatever the text is
and even where a bound was met: behind the tree, reading stands that many tokens further on. -/

namespace MicroJava

/-- From one reading to a later one, the next token was asked for `n` times. -/
structure Reading.Took (n : Nat) (up up' : Reading) : Prop where
  shifts : up'.shifts = up.shifts + n
  upcoming : up'.toUpcoming = Upcoming.advance^[n] up.toUpcoming

namespace Reading.Took

variable {n n' : Nat} {up up' up'' : Reading}

theorem refl (up : Reading) : Took 0 up up := ⟨rfl, rfl⟩

theorem step (up : Reading) : Took 1 up up.advance := ⟨rfl, rfl⟩

/-- The numbers add up. -/
theorem trans (h : Took n up up') (h' : Took n' up' up'') : Took (n + n') up up'' where
  shifts := by rw [h'.shifts, h.shifts, Nat.add_assoc]
  upcoming := by rw [h'.upcoming, h.upcoming, ← Function.iterate_add_apply, Nat.add_comm]

theorem of_eq (h : Took n up up') (hn : n = n') : Took n' up up' := hn ▸ h

end Reading.Took

namespace Reader

open Reading (Took)

variable {α β : Type} {up : Reading}

/-- Reading from `up` yields a value and ends in a state of which `Q` holds. -/
def Ends (r : Reader α) (up : Reading) (Q : α → Reading → Prop) : Prop := Q (r up).1 (r up).2

namespace Ends

variable {P Q : α → Reading → Prop} {R : β → Reading → Prop}

theorem imp {r : Reader α} (h : Ends r up P) (hpq : ∀ a up', P a up' → Q a up') : Ends r up Q :=
  hpq _ _ h

theorem pure {a : α} (h : Q a up) : Ends (pure a) up Q := h

/-- Where fuel runs out, the state says so and nothing else changes. -/
theorem exhaust {a : α} (h : Q a { up with exhausted := true }) : Ends (exhaust a) up Q := h

/-- What is read next starts where the first reading ended. -/
theorem bind {r : Reader α} {f : α → Reader β} (h : Ends r up P)
    (h' : ∀ a up', P a up' → Ends (f a) up' R) : Ends (r >>= f) up R :=
  h' _ _ h

theorem map {r : Reader α} {f : α → β} (h : Ends r up fun a up' => R (f a) up') :
    Ends (f <$> r) up R := h

theorem get {f : Reading → Reader α} (h : Ends (f up) up Q) : Ends (MonadState.get >>= f) up Q := h

theorem kind {f : TokenKind → Reader α} (h : Ends (f up.kind) up Q) :
    Ends (Reader.kind >>= f) up Q := h

/-- One token is taken. -/
theorem shift {f : Unit → Reader α} (h : Ends (f ()) up.advance Q) :
    Ends (Reader.shift >>= f) up Q := h

/-- What is read depends on a condition, and what follows does not. -/
theorem choose {c : Prop} [Decidable c] {r r' : Reader α} {f : α → Reader β}
    (h : Ends (if c then r else r') up P) (h' : ∀ a up', P a up' → Ends (f a) up' R) :
    Ends (if c then r >>= f else r' >>= f) up R := by
  have hbind := h.bind h'
  split
  · next hcond => simpa [hcond] using hbind
  · next hcond => simpa [hcond] using hbind

end Ends

/-- The next token is asked for as often as the outline of the value says. -/
def Asks (r : Reader α) (outline : α → Outline) : Prop :=
  ∀ up, Ends r up fun a up' => Took (outline a).tokens up up'

/-- A sign that is demanded is asked for only if it is there. -/
theorem asks_demand (k : TokenKind) : Asks (demand k) Mark.outline := by
  refine fun up => .kind ?_
  split
  · exact .shift (.pure (.step up))
  · exact .pure (.refl up)

/-- A sign that may be there. -/
theorem ends_accept (k : TokenKind) (up : Reading) :
    Ends (accept k) up fun there up' => Took (if there then 1 else 0) up up' := by
  refine .kind ?_
  split
  · exact .shift (.pure (.step up))
  · exact .pure (.refl up)

theorem asks_name (role : Role) : Asks name (.ident role) := by
  refine fun up => .get ?_
  dsimp only
  split
  · exact .shift (.pure (.step up))
  · exact .pure (.refl up)

theorem ends_value (up : Reading) : Ends value up fun _ up' => Took 1 up up' := .step up

/-! ## Loops -/

variable {item : Reader α} {outline : α → Outline}

/-- Items are read as long as one of them starts here, one token or more each time. -/
theorem ends_many {more : TokenKind → Bool} (h : Asks item outline) (fuel : Nat) (done : Array α)
    (up : Reading) : Ends (many more item fuel done) up fun all up' => ∃ new,
      all = done.toList ++ new ∧ Took (Outline.concat outline new).tokens up up' := by
  induction fuel generalizing done up with
  | zero => exact .exhaust ⟨[], by simp, rfl, rfl⟩
  | succ fuel ih =>
      rw [many]
      refine .kind ?_
      split
      · refine (h up).bind fun a up₁ h₁ => (ih (done.push a) up₁).imp ?_
        rintro all up₂ ⟨new, rfl, h₂⟩
        exact ⟨a :: new, by simp, h₁.trans h₂⟩
      · exact .pure ⟨[], by simp, .refl up⟩

theorem asks_many {more : TokenKind → Bool} (h : Asks item outline) (fuel : Nat) :
    Asks (many more item fuel #[]) (.concat outline) := by
  refine fun up => (ends_many h fuel #[] up).imp ?_
  rintro all up' ⟨new, rfl, hnew⟩
  exact hnew

/-- Items behind commas, as many as there are. -/
theorem ends_behindCommas (h : Asks item outline) (fuel : Nat) (done : Array α) (up : Reading) :
    Ends (behindCommas item fuel done) up fun all up' => ∃ new, all = done.toList ++ new ∧
      Took (Outline.concat (.token ++ outline ·) new).tokens up up' := by
  induction fuel generalizing done up with
  | zero => exact .exhaust ⟨[], by simp, rfl, rfl⟩
  | succ fuel ih =>
      rw [behindCommas]
      refine (ends_accept .comma up).bind fun there up₁ h₁ => ?_
      cases there with
      | false => exact .pure ⟨[], by simp, h₁⟩
      | true =>
          refine (h up₁).bind fun a up₂ h₂ => (ih (done.push a) up₂).imp ?_
          rintro all up₃ ⟨new, rfl, h₃⟩
          refine ⟨a :: new, by simp, (h₁.trans (h₂.trans h₃)).of_eq ?_⟩
          simp [Outline.concat, Nat.add_assoc]

theorem ends_commaSeparated (h : Asks item outline) (fuel : Nat) (up : Reading) :
    Ends (commaSeparated fuel item) up fun all up' => ∃ first new, all = first :: new ∧
      Took ((outline first).tokens + (Outline.concat (.token ++ outline ·) new).tokens) up up' := by
  refine (h up).bind fun first up₁ h₁ => (ends_behindCommas h fuel #[first] up₁).imp ?_
  rintro all up₂ ⟨new, rfl, h₂⟩
  exact ⟨first, new, rfl, h₁.trans h₂⟩

/-- Every skipped token is counted. -/
theorem ends_skipTo (stop : TokenKind → Bool) (fuel count : Nat) (up : Reading) :
    Ends (skipTo stop fuel count) up fun c up' => ∃ n, c = count + n ∧ Took n up up' := by
  induction fuel generalizing count up with
  | zero => exact .exhaust ⟨0, rfl, rfl, rfl⟩
  | succ fuel ih =>
      rw [skipTo]
      refine .kind ?_
      split
      · exact .pure ⟨0, rfl, .refl up⟩
      · refine .shift ((ih (count + 1) up.advance).imp ?_)
        rintro c up' ⟨n, rfl, hn⟩
        exact ⟨1 + n, Nat.add_assoc .., (Took.step up).trans hn⟩

/-- One token and others behind it are passed over, and perhaps a semicolon. -/
theorem ends_passed {stop : TokenKind → Bool} {fuel : Nat} {f : Nat → Bool → Reader α}
    {Q : α → Reading → Prop} (h : ∀ skipped semicolon up',
      Took (Outline.passed skipped semicolon).tokens up up' → Ends (f skipped semicolon) up' Q) :
    Ends (do
      shift
      let skipped ← skipTo stop fuel 1
      let semicolon ← accept .semicolon
      f skipped semicolon) up Q := by
  refine .shift ((ends_skipTo stop fuel 1 up.advance).bind fun skipped up₁ h₁ => ?_)
  obtain ⟨n, rfl, h₁⟩ := h₁
  refine (ends_accept .semicolon up₁).bind fun semicolon up₂ h₂ => h (1 + n) semicolon up₂ ?_
  refine ((Took.step up).trans (h₁.trans h₂)).of_eq ?_
  cases semicolon <;> simp [Outline.passed, Nat.add_assoc]

/-! ## Expressions -/

variable {expr : Reader Expr} (h : Asks expr Expr.outline)

include h

/-- Selectors are taken from left to right and nested the other way. -/
theorem ends_selectors (fuel : Nat) (base : Designator) (up : Reading) :
    Ends (selectors expr fuel base) up fun d up' => ∃ n,
      d.outline.tokens = base.outline.tokens + n ∧ Took n up up' := by
  induction fuel generalizing base up with
  | zero => exact .exhaust ⟨0, rfl, rfl, rfl⟩
  | succ fuel ih =>
      rw [selectors]
      refine .kind ?_
      split
      · refine .shift ((asks_name .selected up.advance).bind fun f up₁ h₁ => ?_)
        refine (ih (.field base f) up₁).imp ?_
        rintro d up₂ ⟨n, hd, h₂⟩
        refine ⟨_, ?_, (Took.step up).trans (h₁.trans h₂)⟩
        simp [hd, Nat.add_assoc]
      · refine .shift ((h up.advance).bind fun i up₁ h₁ => ?_)
        refine (asks_demand .rbracket up₁).bind fun mark up₂ h₂ => ?_
        refine (ih (.index base i mark) up₂).imp ?_
        rintro d up₃ ⟨n, hd, h₃⟩
        refine ⟨_, ?_, (Took.step up).trans (h₁.trans (h₂.trans h₃))⟩
        simp [hd, Nat.add_assoc]
      · exact .pure ⟨0, rfl, .refl up⟩

theorem asks_designator (fuel : Nat) : Asks (designator fuel expr) Designator.outline := by
  intro up
  unfold designator
  refine (asks_name .used up).bind fun n up₁ h₁ => ?_
  cases n with
  | none => exact .pure (h₁.of_eq (by simp [Outline.ident]))
  | some n =>
      refine (ends_selectors h fuel (.name n) up₁).imp ?_
      rintro d up₂ ⟨k, hd, h₂⟩
      exact (h₁.trans h₂).of_eq (by rw [hd, Designator.outline])

theorem asks_arguments (fuel : Nat) : Asks (arguments fuel expr) fun r =>
    .token ++ (Expr.outlines r.1 ++ r.2.outline) := by
  intro up
  unfold arguments
  have hargs : Ends (if up.advance.kind.startsExpr then commaSeparated fuel expr else pure [])
      up.advance fun args up' => Took (Expr.outlines args).tokens up.advance up' := by
    split
    · refine (ends_commaSeparated h fuel up.advance).imp ?_
      rintro args up' ⟨first, new, rfl, hnew⟩
      exact hnew.of_eq (by rw [Expr.outlines_cons, Outline.tokens_append])
    · exact .pure (.refl up.advance)
  refine .shift (.kind (hargs.choose fun args up₁ h₁ => ?_))
  refine (asks_demand .rparen up₁).bind fun mark up₂ h₂ => .pure ?_
  exact ((Took.step up).trans (h₁.trans h₂)).of_eq (by simp)

theorem asks_allocation : Asks (allocation expr) Expr.outline := by
  intro up
  unfold allocation
  refine .shift ((asks_name .used up.advance).bind fun n up₁ h₁ => ?_)
  cases n with
  | none => exact .pure (((Took.step up).trans h₁).of_eq (by simp [Outline.ident]))
  | some n =>
      refine (ends_accept .lbracket up₁).bind fun there up₂ h₂ => ?_
      cases there with
      | false => exact .pure (((Took.step up).trans (h₁.trans h₂)).of_eq (by simp))
      | true =>
          refine (h up₂).bind fun size up₃ h₃ => (asks_demand .rbracket up₃).bind
            fun mark up₄ h₄ => .pure ?_
          refine ((Took.step up).trans (h₁.trans (h₂.trans (h₃.trans h₄)))).of_eq ?_
          simp

/-- A factor of any form, or none at all, for which no token is taken. -/
theorem asks_factor (fuel : Nat) : Asks (factor fuel expr) Expr.outline := by
  intro up
  unfold factor
  refine .kind ?_
  split
  · refine (asks_designator h fuel up).bind fun x up₁ h₁ => .kind ?_
    split
    · refine (asks_arguments h fuel up₁).bind fun r up₂ h₂ => .pure ?_
      exact (h₁.trans h₂).of_eq (by simp)
    · exact .pure (h₁.of_eq (by rw [Expr.outline]))
  · exact (ends_value up).bind fun v up₁ h₁ => .pure (h₁.of_eq (by simp))
  · exact (ends_value up).bind fun v up₁ h₁ => .pure (h₁.of_eq (by simp))
  · exact asks_allocation h up
  · refine .shift ((h up.advance).bind fun inner up₁ h₁ => ?_)
    refine (asks_demand .rparen up₁).bind fun mark up₂ h₂ => .pure ?_
    exact ((Took.step up).trans (h₁.trans h₂)).of_eq (by simp)
  · exact .pure ((Took.refl up).of_eq (by simp))

omit h in
/-- Operations of one level, grouped to the left. -/
theorem ends_operators {op? : TokenKind → Option Arithmetic} {operand : Reader Expr}
    (h : Asks operand Expr.outline) (fuel : Nat) (left : Expr) (up : Reading) :
    Ends (operators op? operand fuel left) up fun x up' => ∃ n,
      x.outline.tokens = left.outline.tokens + n ∧ Took n up up' := by
  induction fuel generalizing left up with
  | zero => exact .exhaust ⟨0, rfl, rfl, rfl⟩
  | succ fuel ih =>
      rw [operators]
      refine .kind ?_
      split
      · next op _ =>
          refine .shift ((h up.advance).bind fun right up₁ h₁ => ?_)
          refine (ih (.binary op left right) up₁).imp ?_
          rintro x up₂ ⟨n, hx, h₂⟩
          refine ⟨_, ?_, (Took.step up).trans (h₁.trans h₂)⟩
          simp [hx, Nat.add_assoc]
      · exact .pure ⟨0, rfl, .refl up⟩

omit h in
/-- The first operand and those behind it. -/
theorem asks_operators {op? : TokenKind → Option Arithmetic} {first operand : Reader Expr}
    (hfirst : Asks first Expr.outline) (hoperand : Asks operand Expr.outline) (fuel : Nat) :
    Asks (do operators op? operand fuel (← first)) Expr.outline := by
  refine fun up => (hfirst up).bind fun left up₁ h₁ => (ends_operators hoperand fuel left up₁).imp ?_
  rintro x up₂ ⟨n, hx, h₂⟩
  exact (h₁.trans h₂).of_eq hx.symm

theorem asks_term (fuel : Nat) : Asks (term fuel expr) Expr.outline :=
  asks_operators (asks_factor h fuel) (asks_factor h fuel) fuel

theorem asks_signedTerm (fuel : Nat) : Asks (signedTerm fuel expr) Expr.outline := by
  intro up
  unfold signedTerm
  refine (ends_accept .minus up).bind fun there up₁ h₁ => ?_
  cases there with
  | true =>
      refine (asks_term h fuel up₁).bind fun e up₂ h₂ => .pure ?_
      exact (h₁.trans h₂).of_eq (by simp)
  | false => exact (asks_term h fuel up₁).imp fun e up₂ h₂ => (h₁.trans h₂).of_eq (by simp)

theorem asks_sum (fuel : Nat) : Asks (sum fuel expr) Expr.outline :=
  asks_operators (asks_signedTerm h fuel) (asks_term h fuel) fuel

omit h in
/-- Expressions, by induction on the fuel: each level of nesting takes one from it. -/
theorem asks_expr (fuel : Nat) : Asks (Reader.expr fuel) Expr.outline := by
  induction fuel with
  | zero => exact fun up => .exhaust ⟨by simp, by simp⟩
  | succ fuel ih => exact asks_sum ih fuel

omit h in
theorem asks_relop : Asks relop .present := by
  refine fun up => .kind ?_
  split
  · exact .shift (.pure (.step up))
  · exact .pure (.refl up)

theorem asks_condition : Asks (condition expr) Condition.outline := by
  intro up
  unfold condition
  refine (h up).bind fun left up₁ h₁ => (asks_relop up₁).bind fun rel up₂ h₂ =>
    (h up₂).bind fun right up₃ h₃ => .pure ?_
  exact (h₁.trans (h₂.trans h₃)).of_eq (by simp [Condition.outline])

/-! ## Statements -/

/-- What a statement that starts with a name turns out to be depends on the sign behind it. -/
theorem asks_designatorStmt (fuel : Nat) : Asks (designatorStmt fuel expr) Stmt.outline := by
  intro up
  unfold designatorStmt
  refine (asks_designator h fuel up).bind fun x up₁ h₁ => .kind ?_
  split
  · refine .shift ((h up₁.advance).bind fun y up₂ h₂ => ?_)
    refine (asks_demand .semicolon up₂).bind fun mark up₃ h₃ => .pure ?_
    exact (h₁.trans ((Took.step up₁).trans (h₂.trans h₃))).of_eq (by simp)
  · refine (asks_arguments h fuel up₁).bind fun r up₂ h₂ => ?_
    refine (asks_demand .semicolon up₂).bind fun mark up₃ h₃ => .pure ?_
    exact (h₁.trans (h₂.trans h₃)).of_eq (by simp [Nat.add_assoc])
  · refine (asks_demand .semicolon up₁).bind fun mark up₂ h₂ => .pure ?_
    exact (h₁.trans h₂).of_eq (by simp)

/-- The condition of a statement in its parentheses. -/
theorem ends_guard {f : Mark → Condition → Mark → Reader α} {Q : α → Reading → Prop}
    (h' : ∀ lparen cond rparen up', Took (lparen.outline ++ (Condition.outline cond ++
      rparen.outline)).tokens up up' → Ends (f lparen cond rparen) up' Q) :
    Ends (do
      let lparen ← demand .lparen
      let cond ← condition expr
      let rparen ← demand .rparen
      f lparen cond rparen) up Q := by
  refine (asks_demand .lparen up).bind fun lparen up₁ h₁ => (asks_condition h up₁).bind
    fun cond up₂ h₂ => (asks_demand .rparen up₂).bind fun rparen up₃ h₃ => ?_
  exact h' lparen cond rparen up₃ (h₁.trans (h₂.trans h₃))

theorem asks_returnStmt : Asks (returnStmt expr) Stmt.outline := by
  intro up
  unfold returnStmt
  have hvalue : Ends (if up.advance.kind.startsExpr then some <$> expr else pure none) up.advance
      fun value up' => ∃ n, Took n up.advance up' ∧ ∀ semicolon,
        (Stmt.ret value semicolon).outline.tokens = 1 + (n + semicolon.outline.tokens) := by
    split
    · exact .map ((h up.advance).imp fun e up' he => ⟨_, he, by simp⟩)
    · exact .pure ⟨0, .refl up.advance, by simp⟩
  refine .shift (.kind (hvalue.choose fun value up₁ hv => ?_))
  obtain ⟨n, h₁, hshape⟩ := hv
  refine (asks_demand .semicolon up₁).bind fun mark up₂ h₂ => .pure ?_
  exact ((Took.step up).trans (h₁.trans h₂)).of_eq (hshape mark).symm

theorem asks_readStmt (fuel : Nat) : Asks (readStmt fuel expr) Stmt.outline := by
  intro up
  unfold readStmt
  refine .shift ((asks_demand .lparen up.advance).bind fun lparen up₁ h₁ =>
    (asks_designator h fuel up₁).bind fun target up₂ h₂ =>
    (asks_demand .rparen up₂).bind fun rparen up₃ h₃ =>
    (asks_demand .semicolon up₃).bind fun mark up₄ h₄ => .pure ?_)
  refine ((Took.step up).trans (h₁.trans (h₂.trans (h₃.trans h₄)))).of_eq ?_
  simp

omit h in
theorem asks_widthSpec : Asks widthSpec WidthSpec.outline := by
  intro up
  unfold widthSpec
  refine (ends_accept .comma up).bind fun there up₁ h₁ => ?_
  cases there with
  | false => exact .pure h₁
  | true =>
      refine .kind ?_
      split
      · exact (ends_value up₁).bind fun v up₂ h₂ => .pure (h₁.trans h₂)
      · exact .pure h₁

theorem asks_printStmt : Asks (printStmt expr) Stmt.outline := by
  intro up
  unfold printStmt
  refine .shift ((asks_demand .lparen up.advance).bind fun lparen up₁ h₁ =>
    (h up₁).bind fun value up₂ h₂ => (asks_widthSpec up₂).bind fun width up₃ h₃ =>
    (asks_demand .rparen up₃).bind fun rparen up₄ h₄ =>
    (asks_demand .semicolon up₄).bind fun mark up₅ h₅ => .pure ?_)
  refine ((Took.step up).trans (h₁.trans (h₂.trans (h₃.trans (h₄.trans h₅))))).of_eq ?_
  simp

variable {stmt : Reader Stmt} (hs : Asks stmt Stmt.outline)

include hs

/-- The `else` part is there if its word is. -/
theorem asks_conditional : Asks (conditional expr stmt) Stmt.outline := by
  intro up
  unfold conditional
  refine .shift (ends_guard h fun lparen cond rparen up₁ h₁ => ?_)
  refine (hs up₁).bind fun body up₂ h₂ => (ends_accept .kwElse up₂).bind fun there up₃ h₃ => ?_
  cases there with
  | true =>
      refine (hs up₃).bind fun alternative up₄ h₄ => .pure ?_
      refine ((Took.step up).trans (h₁.trans (h₂.trans (h₃.trans h₄)))).of_eq ?_
      simp [Nat.add_assoc]
  | false =>
      refine .pure (((Took.step up).trans (h₁.trans (h₂.trans h₃))).of_eq ?_)
      simp [Nat.add_assoc]

theorem asks_repetition : Asks (repetition expr stmt) Stmt.outline := by
  intro up
  unfold repetition
  refine .shift (ends_guard h fun lparen cond rparen up₁ h₁ => (hs up₁).bind
    fun body up₂ h₂ => .pure ?_)
  exact ((Took.step up).trans (h₁.trans h₂)).of_eq (by simp [Nat.add_assoc])

omit h in
theorem asks_blockBody (fuel : Nat) : Asks (blockBody fuel stmt) fun r =>
    Stmt.outlines r.1 ++ r.2.outline := by
  intro up
  unfold blockBody
  refine (asks_many hs fuel up).bind fun body up₁ h₁ => (asks_demand .rbrace up₁).bind
    fun mark up₂ h₂ => .pure ?_
  exact (h₁.trans h₂).of_eq (by simp [Stmt.outlines_eq_concat])

theorem asks_startedStmt (fuel : Nat) : Asks (startedStmt fuel expr stmt) Stmt.outline := by
  intro up
  unfold startedStmt
  refine .kind ?_
  split
  · exact asks_designatorStmt h fuel up
  · exact asks_conditional h hs up
  · exact asks_repetition h hs up
  · exact asks_returnStmt h up
  · exact asks_readStmt h fuel up
  · exact asks_printStmt h up
  · refine .shift ((asks_blockBody hs fuel up.advance).bind fun r up₁ h₁ => .pure ?_)
    exact ((Took.step up).trans h₁).of_eq (by simp)
  · exact .shift (.pure ((Took.step up).of_eq (by simp)))
  · exact .pure ((Took.refl up).of_eq (by simp))

/-- Tokens that start no statement are skipped and counted, then a statement follows. -/
theorem asks_stmtWith (fuel : Nat) : Asks (stmtWith fuel expr stmt) Stmt.outline := by
  intro up
  unfold stmtWith
  refine .kind ?_
  split
  · exact asks_startedStmt h hs fuel up
  · refine ends_passed fun skipped semicolon up₁ h₁ => ?_
    refine (asks_startedStmt h hs fuel up₁).bind fun s up₂ h₂ => .pure ?_
    exact (h₁.trans h₂).of_eq (by simp)

omit h hs

/-- Statements, by induction on the fuel. -/
theorem asks_stmt (fuel : Nat) : Asks (Reader.stmt fuel) Stmt.outline := by
  induction fuel with
  | zero => exact fun up => .exhaust ⟨by simp, by simp⟩
  | succ fuel ih => exact asks_stmtWith (asks_expr fuel) ih fuel

/-! ## Declarations -/

theorem asks_typeRef : Asks typeRef TypeRef.outline := by
  intro up
  unfold typeRef
  refine (asks_name .used up).bind fun n up₁ h₁ => ?_
  cases n with
  | none => exact .pure h₁
  | some n =>
      refine (ends_accept .lbracket up₁).bind fun there up₂ h₂ => ?_
      cases there with
      | false => exact .pure (h₁.trans h₂)
      | true =>
          refine (asks_demand .rbracket up₂).bind fun mark up₃ h₃ => .pure ?_
          exact (h₁.trans (h₂.trans h₃)).of_eq (by simp [TypeRef.outline])

theorem tokens_otherNames (names : List (Option String)) :
    (otherNames names).tokens = (Outline.concat (.token ++ .ident .declared ·) names).tokens := by
  induction names with
  | nil => rfl
  | cons n rest ih => simp [otherNames, Outline.concat, ih, Nat.add_assoc]

theorem asks_varDecl (fuel : Nat) : Asks (varDecl fuel) VarDecl.outline := by
  intro up
  unfold varDecl
  refine (asks_typeRef up).bind fun type up₁ h₁ => (asks_name .declared up₁).bind
    fun first up₂ h₂ => (ends_behindCommas (asks_name .declared) fuel #[] up₂).bind
    fun others up₃ h₃ => (asks_demand .semicolon up₃).bind fun mark up₄ h₄ => .pure ?_
  obtain ⟨new, rfl, h₃⟩ := h₃
  refine (h₁.trans (h₂.trans (h₃.trans h₄))).of_eq ?_
  simp [VarDecl.outline, tokens_otherNames]

theorem asks_varDecls (fuel : Nat) : Asks (varDecls fuel) (.concat VarDecl.outline) :=
  asks_many (asks_varDecl fuel) fuel

theorem asks_literal : Asks literal .present := by
  intro up
  unfold literal
  refine .kind ?_
  split
  · exact (ends_value up).bind fun v up₁ h₁ => .pure h₁
  · exact (ends_value up).bind fun v up₁ h₁ => .pure h₁
  · exact .pure (.refl up)

theorem asks_constDecl : Asks constDecl ConstDecl.outline := by
  intro up
  unfold constDecl
  refine .shift ((asks_typeRef up.advance).bind fun type up₁ h₁ =>
    (asks_name .declared up₁).bind fun n up₂ h₂ =>
    (asks_demand .assign up₂).bind fun assign up₃ h₃ => (asks_literal up₃).bind fun lit up₄ h₄ =>
    (asks_demand .semicolon up₄).bind fun mark up₅ h₅ => .pure ?_)
  exact (Took.step up).trans (h₁.trans (h₂.trans (h₃.trans (h₄.trans h₅))))

theorem asks_classDecl (fuel : Nat) : Asks (classDecl fuel) ClassDecl.outline := by
  intro up
  unfold classDecl
  refine .shift ((asks_name .declared up.advance).bind fun n up₁ h₁ =>
    (asks_demand .lbrace up₁).bind fun lbrace up₂ h₂ =>
    (asks_varDecls fuel up₂).bind fun fields up₃ h₃ =>
    (asks_demand .rbrace up₃).bind fun mark up₄ h₄ => .pure ?_)
  exact (Took.step up).trans (h₁.trans (h₂.trans (h₃.trans h₄)))

/-- Declarations of each kind, and tokens that start none. -/
theorem asks_declaration (fuel : Nat) : Asks (declaration fuel) Declaration.outline := by
  intro up
  unfold declaration
  refine .kind ?_
  split
  · exact (asks_constDecl up).bind fun d up₁ h₁ => .pure h₁
  · exact (asks_classDecl fuel up).bind fun d up₁ h₁ => .pure h₁
  · exact (asks_varDecl fuel up).bind fun d up₁ h₁ => .pure h₁
  · exact ends_passed fun skipped semicolon up₁ h₁ => .pure h₁

theorem asks_param : Asks param Param.outline := by
  intro up
  unfold param
  exact (asks_typeRef up).bind fun type up₁ h₁ => (asks_name .declared up₁).bind
    fun n up₂ h₂ => .pure (h₁.trans h₂)

theorem ends_resultType {f : ResultType → Reader α} {Q : α → Reading → Prop}
    (h : ∀ result up', Took (ResultType.outline result).tokens up up' → Ends (f result) up' Q) :
    Ends (do
      let result ← if ← accept .kwVoid then pure .void else .type <$> typeRef
      f result) up Q := by
  refine (ends_accept .kwVoid up).bind fun there up₁ h₁ => ?_
  cases there with
  | true => exact h .void up₁ h₁
  | false =>
      have htype : Ends (.type <$> typeRef) up₁ fun result up' =>
          Took (ResultType.outline result).tokens up up' :=
        .map ((asks_typeRef up₁).imp fun t up₂ h₂ => (h₁.trans h₂).of_eq (Nat.zero_add _))
      exact htype.bind h

theorem ends_params (fuel : Nat) (up : Reading) :
    Ends (if up.kind = .ident then commaSeparated fuel param else pure []) up
      fun ps up' => Took (Param.outlines ps).tokens up up' := by
  split
  · refine (ends_commaSeparated asks_param fuel up).imp ?_
    rintro ps up' ⟨first, new, rfl, hnew⟩
    exact hnew.of_eq (by rw [Param.outlines_cons, Outline.tokens_append])
  · exact .pure (.refl up)

/-- A method, its parameters, variables and body. -/
theorem asks_method (fuel : Nat) : Asks (method fuel) Method.outline := by
  intro up
  unfold method
  refine ends_resultType fun result up₁ h₁ => (asks_name .declared up₁).bind fun n up₂ h₂ =>
    (asks_demand .lparen up₂).bind fun lparen up₃ h₃ => .kind ?_
  refine (ends_params fuel up₃).choose fun ps up₄ h₄ =>
    (asks_demand .rparen up₄).bind fun rparen up₅ h₅ =>
    (asks_varDecls fuel up₅).bind fun locals up₆ h₆ =>
    (asks_demand .lbrace up₆).bind fun lbrace up₇ h₇ =>
    (asks_blockBody (asks_stmt fuel) fuel up₇).bind fun r up₈ h₈ => .pure ?_
  exact h₁.trans (h₂.trans (h₃.trans (h₄.trans (h₅.trans (h₆.trans (h₇.trans h₈))))))

/-- Behind a program, reading has asked for as many tokens as its outline counts. -/
theorem asks_program (fuel : Nat) : Asks (program fuel) Program.outline := by
  intro up
  unfold program
  refine (asks_demand .kwProgram up).bind fun keyword up₁ h₁ =>
    (asks_name .declared up₁).bind fun n up₂ h₂ =>
    (asks_many (asks_declaration fuel) fuel up₂).bind fun declarations up₃ h₃ =>
    (asks_demand .lbrace up₃).bind fun lbrace up₄ h₄ =>
    (asks_many (asks_method fuel) fuel up₄).bind fun methods up₅ h₅ =>
    (asks_demand .rbrace up₅).bind fun rbrace up₆ h₆ => .kind (.pure ?_)
  refine (h₁.trans (h₂.trans (h₃.trans (h₄.trans (h₅.trans h₆))))).of_eq ?_
  by_cases heof : up₆.kind = .eof <;> simp [Program.outline, heof]

end Reader

end MicroJava
