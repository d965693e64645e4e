import MicroJava.Proofs.Tree.Progress

/-! # Trees are grouped as the language says

The tokens of a text alone do not say what belongs to what: products bind tighter than sums,
operations of one kind group to the left, a leading minus sign applies to the first product, and an
`else` goes with the nearest conditional that is still open. Every tree that is read is grouped so,
whatever the text is. -/

namespace MicroJava

/-- How loosely an operation binds. -/
def Arithmetic.level : Arithmetic → Nat
  | .mul | .div | .rem => 1
  | .add | .sub => 2

/-- How loosely the parts of an expression are bound: zero for a factor, one for a product and two
for a sum or behind a minus sign. -/
def Expr.level : Expr → Nat
  | .binary op _ _ => op.level
  | .negate _ => 2
  | _ => 0

mutual

@[simp] def Designator.Grouped : Designator → Prop
  | .missing | .name _ => True
  | .field base _ => base.Grouped
  | .index base i _ => base.Grouped ∧ i.Grouped

/-- An operand on the left is not bound more loosely than the operation, one on the right is bound
tighter, and a minus sign stands in front of a product or a factor. -/
@[simp] def Expr.Grouped : Expr → Prop
  | .number _ | .char _ | .newNothing | .newObject _ | .missing => True
  | .value source => source.Grouped
  | .call callee args _ => callee.Grouped ∧ Expr.AllGrouped args
  | .newArray _ size _ => size.Grouped
  | .paren inner _ => inner.Grouped
  | .negate operand => operand.Grouped ∧ operand.level < Arithmetic.sub.level
  | .binary op left right =>
      (left.Grouped ∧ left.level ≤ op.level) ∧ right.Grouped ∧ right.level < op.level

@[simp] def Expr.AllGrouped : List Expr → Prop
  | [] => True
  | arg :: rest => arg.Grouped ∧ Expr.AllGrouped rest

end

def Condition.Grouped (c : Condition) : Prop := c.left.Grouped ∧ c.right.Grouped

/-- An `else` behind the statement would go with a conditional at its end. -/
def Stmt.endsOpen : Stmt → Bool
  | .ifThen .. => true
  | .ifElse _ _ _ _ alternative => alternative.endsOpen
  | .loop _ _ _ body => body.endsOpen
  | .junk _ _ next => next.endsOpen
  | _ => false

mutual

/-- Between a conditional and its own `else`, no other one is open. -/
@[simp] def Stmt.Grouped : Stmt → Prop
  | .assign target value _ => target.Grouped ∧ value.Grouped
  | .call callee args _ _ => callee.Grouped ∧ Expr.AllGrouped args
  | .idle target _ => target.Grouped
  | .ifThen _ cond _ body => cond.Grouped ∧ body.Grouped
  | .ifElse _ cond _ body alternative =>
      cond.Grouped ∧ (body.Grouped ∧ body.endsOpen = false) ∧ alternative.Grouped
  | .loop _ cond _ body => cond.Grouped ∧ body.Grouped
  | .ret none _ | .empty | .missing => True
  | .ret (some value) _ => value.Grouped
  | .read _ target _ _ => target.Grouped
  | .print _ value _ _ _ => value.Grouped
  | .block body _ => Stmt.AllGrouped body
  | .junk _ _ next => next.Grouped

@[simp] def Stmt.AllGrouped : List Stmt → Prop
  | [] => True
  | s :: rest => s.Grouped ∧ Stmt.AllGrouped rest

end

/-- The bodies of all methods are grouped. -/
def Program.Grouped (p : Program) : Prop := ∀ m ∈ p.methods, Stmt.AllGrouped m.body

theorem Expr.allGrouped_iff {args : List Expr} :
    Expr.AllGrouped args ↔ ∀ e ∈ args, e.Grouped := by
  induction args with
  | nil => simp
  | cons e rest ih => simp [ih]

theorem Stmt.allGrouped_iff {body : List Stmt} :
    Stmt.AllGrouped body ↔ ∀ s ∈ body, s.Grouped := by
  induction body with
  | nil => simp
  | cons s rest ih => simp [ih]

namespace Reader

variable {α : Type} {item : Reader α} {P : α → Prop}

/-- What is read has the property, whatever is to come. -/
def Yields (r : Reader α) (P : α → Prop) : Prop := ∀ up, Ends r up fun a _ => P a

theorem yields_any (r : Reader α) : Yields r fun _ => True := fun _ => trivial

theorem ends_accept_iff (k : TokenKind) (up : Reading) :
    Ends (accept k) up fun there up' =>
      (there = true ↔ up.kind = k) ∧ (there = false → up' = up) := by
  refine .kind ?_
  split
  · next hk => exact .shift (.pure (by simp [hk]))
  · next hk => exact .pure (by simp [hk])

/-! ## Loops -/

theorem yields_many {more : TokenKind → Bool} (h : Yields item P) (fuel : Nat) {done : Array α}
    (hdone : ∀ a ∈ done, P a) : Yields (many more item fuel done) fun all => ∀ a ∈ all, P a := by
  induction fuel generalizing done with
  | zero => exact fun up => .exhaust (by simpa using hdone)
  | succ fuel ih =>
      intro up
      rw [many]
      refine .kind ?_
      split
      · refine (h up).bind fun a up₁ ha => ih ?_ up₁
        simpa [or_imp, forall_and, ha] using hdone
      · exact .pure (by simpa using hdone)

theorem yields_behindCommas (h : Yields item P) (fuel : Nat) {done : Array α}
    (hdone : ∀ a ∈ done, P a) : Yields (behindCommas item fuel done) fun all => ∀ a ∈ all, P a := by
  induction fuel generalizing done with
  | zero => exact fun up => .exhaust (by simpa using hdone)
  | succ fuel ih =>
      intro up
      rw [behindCommas]
      refine (yields_any (accept .comma) up).bind fun there up₁ _ => ?_
      cases there with
      | true =>
          refine (h up₁).bind fun a up₂ ha => ih ?_ up₂
          simpa [or_imp, forall_and, ha] using hdone
      | false => exact .pure (by simpa using hdone)

theorem yields_commaSeparated (h : Yields item P) (fuel : Nat) :
    Yields (commaSeparated fuel item) fun all => ∀ a ∈ all, P a :=
  fun up => (h up).bind fun first up₁ hfirst =>
    yields_behindCommas h fuel (by simpa using hfirst) up₁

/-! ## Expressions -/

section Expressions

variable {expr : Reader Expr} (h : Yields expr Expr.Grouped)

include h

theorem yields_selectors (fuel : Nat) {base : Designator} (hbase : base.Grouped) :
    Yields (selectors expr fuel base) Designator.Grouped := by
  induction fuel generalizing base with
  | zero => exact fun up => .exhaust hbase
  | succ fuel ih =>
      intro up
      rw [selectors]
      refine .kind ?_
      split
      · refine .shift ((yields_any name up.advance).bind fun f up₁ _ => ih ?_ up₁)
        rwa [Designator.Grouped]
      · refine .shift ((h up.advance).bind fun i up₁ hi =>
          (yields_any (demand .rbracket) up₁).bind fun mark up₂ _ => ih ?_ up₂)
        rw [Designator.Grouped]
        exact ⟨hbase, hi⟩
      · exact .pure hbase

theorem yields_designator (fuel : Nat) : Yields (designator fuel expr) Designator.Grouped := by
  intro up
  unfold designator
  refine (yields_any name up).bind fun n up₁ _ => ?_
  cases n with
  | none => exact .pure (by simp)
  | some n => exact yields_selectors h fuel (by simp) up₁

theorem yields_arguments (fuel : Nat) :
    Yields (arguments fuel expr) fun r => Expr.AllGrouped r.1 := by
  intro up
  unfold arguments
  have hargs : Ends (if up.advance.kind.startsExpr then commaSeparated fuel expr else pure [])
      up.advance fun args _ => Expr.AllGrouped args := by
    split
    · exact (yields_commaSeparated h fuel up.advance).imp fun _ _ => Expr.allGrouped_iff.2
    · exact .pure (by simp)
  refine .shift (.kind (hargs.choose fun args up₁ h₁ => ?_))
  exact (yields_any (demand .rparen) up₁).bind fun mark up₂ _ => .pure h₁

theorem yields_allocation :
    Yields (allocation expr) fun e => e.Grouped ∧ e.level = 0 := by
  intro up
  unfold allocation
  refine .shift ((yields_any name up.advance).bind fun n up₁ _ => ?_)
  cases n with
  | none => exact .pure (by simp [Expr.level])
  | some n =>
      refine (yields_any (accept .lbracket) up₁).bind fun there up₂ _ => ?_
      cases there with
      | false => exact .pure (by simp [Expr.level])
      | true =>
          refine (h up₂).bind fun size up₃ h₃ => (yields_any (demand .rbracket) up₃).bind
            fun mark up₄ _ => .pure ?_
          simp [Expr.level, h₃]

theorem yields_factor (fuel : Nat) :
    Yields (factor fuel expr) fun e => e.Grouped ∧ e.level = 0 := by
  intro up
  unfold factor
  refine .kind ?_
  split
  · refine (yields_designator h fuel up).bind fun x up₁ h₁ => .kind ?_
    split
    · refine (yields_arguments h fuel up₁).bind fun r up₂ h₂ => .pure ?_
      simp [Expr.level, h₁, h₂]
    · exact .pure (by simp [Expr.level, h₁])
  · exact (yields_any value up).bind fun v _ _ => .pure (by simp [Expr.level])
  · exact (yields_any value up).bind fun v _ _ => .pure (by simp [Expr.level])
  · exact yields_allocation h up
  · refine .shift ((h up.advance).bind fun inner up₁ h₁ => (yields_any (demand .rparen) up₁).bind
      fun mark up₂ _ => .pure ?_)
    simp [Expr.level, h₁]
  · exact .pure (by simp [Expr.level])

omit h in
/-- Operations of one level group to the left. -/
theorem yields_operators {op? : TokenKind → Option Arithmetic} {operand : Reader Expr} {level : Nat}
    (hop : ∀ k op, op? k = some op → op.level = level)
    (h : Yields operand fun e => e.Grouped ∧ e.level < level) (fuel : Nat) {left : Expr}
    (hleft : left.Grouped ∧ left.level ≤ level) :
    Yields (operators op? operand fuel left) fun e => e.Grouped ∧ e.level ≤ level := by
  induction fuel generalizing left with
  | zero => exact fun up => .exhaust hleft
  | succ fuel ih =>
      intro up
      rw [operators]
      refine .kind ?_
      split
      · next op hk =>
          obtain rfl := hop _ _ hk
          refine .shift ((h up.advance).bind fun right up₁ hright => ih ?_ up₁)
          rw [Expr.Grouped]
          exact ⟨⟨hleft, hright⟩, Nat.le_refl _⟩
      · exact .pure hleft

theorem yields_term (fuel : Nat) :
    Yields (term fuel expr) fun e => e.Grouped ∧ e.level ≤ Arithmetic.mul.level := by
  have hop : ∀ k op, productOp? k = some op → op.level = Arithmetic.mul.level := by
    intro k op hk
    unfold productOp? at hk
    split at hk <;> cases hk <;> rfl
  have hfactor : Yields (factor fuel expr) fun e => e.Grouped ∧ e.level < Arithmetic.mul.level :=
    fun up => (yields_factor h fuel up).imp fun e _ he => ⟨he.1, by rw [he.2]; decide⟩
  exact fun up => (hfactor up).bind fun left up₁ hleft =>
    yields_operators hop hfactor fuel ⟨hleft.1, Nat.le_of_lt hleft.2⟩ up₁

theorem yields_signedTerm (fuel : Nat) :
    Yields (signedTerm fuel expr) fun e => e.Grouped ∧ e.level ≤ Arithmetic.add.level := by
  intro up
  unfold signedTerm
  refine (yields_any (accept .minus) up).bind fun there up₁ _ => ?_
  cases there with
  | true =>
      refine (yields_term h fuel up₁).bind fun e up₂ he => .pure ⟨?_, Nat.le_refl _⟩
      rw [Expr.Grouped]
      exact ⟨he.1, Nat.lt_succ_of_le he.2⟩
  | false =>
      exact (yields_term h fuel up₁).imp fun e up₂ he => ⟨he.1, Nat.le_succ_of_le he.2⟩

theorem yields_sum (fuel : Nat) : Yields (sum fuel expr) Expr.Grouped := by
  have hop : ∀ k op, sumOp? k = some op → op.level = Arithmetic.add.level := by
    intro k op hk
    unfold sumOp? at hk
    split at hk <;> cases hk <;> rfl
  have hterm : Yields (term fuel expr) fun e => e.Grouped ∧ e.level < Arithmetic.add.level :=
    fun up => (yields_term h fuel up).imp fun e _ he => ⟨he.1, Nat.lt_succ_of_le he.2⟩
  exact fun up => (yields_signedTerm h fuel up).bind fun left up₁ hleft =>
    (yields_operators hop hterm fuel hleft up₁).imp fun e _ he => he.1

theorem yields_condition : Yields (condition expr) Condition.Grouped :=
  fun up => (h up).bind fun _ up₁ hleft => (yields_any relop up₁).bind fun _ up₂ _ =>
    (h up₂).bind fun _ _ hright => .pure ⟨hleft, hright⟩

end Expressions

theorem yields_expr (fuel : Nat) : Yields (expr fuel) Expr.Grouped := by
  induction fuel with
  | zero => exact fun up => .exhaust (by simp)
  | succ fuel ih => exact yields_sum ih fuel

/-! ## Statements -/

/-- The statement is grouped, and if it is open at its end, no `else` comes behind it. -/
def Settled (s : Stmt) (up : Reading) : Prop := s.Grouped ∧ (s.endsOpen = true → up.kind ≠ .kwElse)

theorem Settled.of_closed {s : Stmt} {up : Reading} (h : s.Grouped) (hs : s.endsOpen = false) :
    Settled s up :=
  ⟨h, fun hopen => by simp [hs] at hopen⟩

section Statements

variable {expr : Reader Expr} (h : Yields expr Expr.Grouped) {stmt : Reader Stmt}
  (hs : ∀ up, Ends stmt up Settled) {up : Reading}

section Simple

include h

theorem ends_designatorStmt (fuel : Nat) : Ends (designatorStmt fuel expr) up Settled := by
  unfold designatorStmt
  refine (yields_designator h fuel up).bind fun x up₁ h₁ => .kind ?_
  split
  · refine .shift ((h up₁.advance).bind fun y up₂ h₂ =>
      (yields_any (demand .semicolon) up₂).bind fun mark up₃ _ => .pure ?_)
    exact .of_closed (by simp [h₁, h₂]) rfl
  · refine (yields_arguments h fuel up₁).bind fun r up₂ h₂ =>
      (yields_any (demand .semicolon) up₂).bind fun mark up₃ _ => .pure ?_
    exact .of_closed (by simp [h₁, h₂]) rfl
  · refine (yields_any (demand .semicolon) up₁).bind fun mark up₂ _ => .pure ?_
    exact .of_closed (by simp [h₁]) rfl

theorem ends_returnStmt : Ends (returnStmt expr) up Settled := by
  unfold returnStmt
  have hvalue : Ends (if up.advance.kind.startsExpr then some <$> expr else pure none) up.advance
      fun value _ => ∀ semicolon, (Stmt.ret value semicolon).Grouped := by
    split
    · exact .map ((h up.advance).imp fun e _ he => by simp [he])
    · exact .pure (by simp)
  refine .shift (.kind (hvalue.choose fun value up₁ h₁ =>
    (yields_any (demand .semicolon) up₁).bind fun mark up₂ _ => .pure ?_))
  exact .of_closed (h₁ mark) rfl

theorem ends_readStmt (fuel : Nat) : Ends (readStmt fuel expr) up Settled := by
  unfold readStmt
  refine .shift ((yields_any (demand .lparen) up.advance).bind fun lparen up₁ _ =>
    (yields_designator h fuel up₁).bind fun target up₂ h₂ =>
    (yields_any (demand .rparen) up₂).bind fun rparen up₃ _ =>
    (yields_any (demand .semicolon) up₃).bind fun mark up₄ _ => .pure ?_)
  exact .of_closed (by simp [h₂]) rfl

theorem ends_printStmt : Ends (printStmt expr) up Settled := by
  unfold printStmt
  refine .shift ((yields_any (demand .lparen) up.advance).bind fun lparen up₁ _ =>
    (h up₁).bind fun value up₂ h₂ => (yields_any widthSpec up₂).bind fun width up₃ _ =>
    (yields_any (demand .rparen) up₃).bind fun rparen up₄ _ =>
    (yields_any (demand .semicolon) up₄).bind fun mark up₅ _ => .pure ?_)
  exact .of_closed (by simp [h₂]) rfl

end Simple

section Nested

include hs

theorem yields_blockBody (fuel : Nat) :
    Yields (blockBody fuel stmt) fun r => Stmt.AllGrouped r.1 := by
  intro up
  unfold blockBody
  have hstmt : Yields stmt Stmt.Grouped := fun up => (hs up).imp fun s _ h => h.1
  refine (yields_many hstmt fuel (by simp) up).bind fun body up₁ h₁ =>
    (yields_any (demand .rbrace) up₁).bind fun mark up₂ _ => .pure ?_
  exact Stmt.allGrouped_iff.2 h₁

include h

theorem ends_conditional : Ends (conditional expr stmt) up Settled := by
  unfold conditional
  refine .shift ((yields_any (demand .lparen) up.advance).bind fun lparen up₁ _ =>
    (yields_condition h up₁).bind fun cond up₂ hcond =>
    (yields_any (demand .rparen) up₂).bind fun rparen up₃ _ =>
    (hs up₃).bind fun body up₄ hbody => (ends_accept_iff .kwElse up₄).bind
    fun there up₅ hthere => ?_)
  cases there with
  | true =>
      have hclosed : body.endsOpen = false :=
        Bool.eq_false_iff.2 fun hopen => hbody.2 hopen (hthere.1.1 rfl)
      refine (hs up₅).bind fun alternative up₆ halternative => .pure ⟨?_, halternative.2⟩
      simp [hcond, hbody.1, hclosed, halternative.1]
  | false =>
      obtain ⟨hkind, hsame⟩ := hthere
      refine .pure ⟨by simp [hcond, hbody.1], fun _ => ?_⟩
      rw [hsame rfl]
      exact fun helse => Bool.false_ne_true (hkind.2 helse)

theorem ends_repetition : Ends (repetition expr stmt) up Settled := by
  unfold repetition
  refine .shift ((yields_any (demand .lparen) up.advance).bind fun lparen up₁ _ =>
    (yields_condition h up₁).bind fun cond up₂ hcond =>
    (yields_any (demand .rparen) up₂).bind fun rparen up₃ _ =>
    (hs up₃).bind fun body up₄ hbody => .pure ⟨?_, hbody.2⟩)
  simp [hcond, hbody.1]

theorem ends_startedStmt (fuel : Nat) : Ends (startedStmt fuel expr stmt) up Settled := by
  unfold startedStmt
  refine .kind ?_
  split
  · exact ends_designatorStmt h fuel
  · exact ends_conditional h hs
  · exact ends_repetition h hs
  · exact ends_returnStmt h
  · exact ends_readStmt h fuel
  · exact ends_printStmt h
  · refine .shift ((yields_blockBody hs fuel up.advance).bind fun r up₁ h₁ => .pure ?_)
    exact .of_closed (by simpa using h₁) rfl
  · exact .shift (.pure (.of_closed (by simp) rfl))
  · exact .pure (.of_closed (by simp) rfl)

theorem ends_stmtWith (fuel : Nat) : Ends (stmtWith fuel expr stmt) up Settled := by
  unfold stmtWith
  refine .kind ?_
  split
  · exact ends_startedStmt h hs fuel
  · refine .shift ((yields_any _ up.advance).bind fun skipped up₁ _ =>
      (yields_any (accept .semicolon) up₁).bind fun semicolon up₂ _ =>
      (ends_startedStmt h hs fuel).bind fun s up₃ hstarted => .pure ⟨?_, hstarted.2⟩)
    simpa using hstarted.1

end Nested

end Statements

theorem ends_stmt (fuel : Nat) (up : Reading) : Ends (stmt fuel) up Settled := by
  induction fuel generalizing up with
  | zero => exact .exhaust (.of_closed (by simp) rfl)
  | succ fuel ih => exact ends_stmtWith (yields_expr fuel) ih fuel

theorem yields_method (fuel : Nat) :
    Yields (method fuel) fun m => Stmt.AllGrouped m.body := by
  intro up
  unfold method
  have hstmt : Yields (blockBody fuel (stmt fuel)) fun r => Stmt.AllGrouped r.1 :=
    yields_blockBody (ends_stmt fuel) fuel
  refine (yields_any (accept .kwVoid) up).bind fun there up₁ _ =>
    .choose (yields_any _ up₁) fun result up₂ _ => (yields_any name up₂).bind fun n up₃ _ =>
    (yields_any (demand .lparen) up₃).bind fun lparen up₄ _ =>
    .kind (.choose (yields_any _ up₄) fun params up₅ _ => ?_)
  exact (yields_any (demand .rparen) up₅).bind fun rparen up₆ _ =>
    (yields_any (varDecls fuel) up₆).bind fun locals up₇ _ =>
    (yields_any (demand .lbrace) up₇).bind fun lbrace up₈ _ =>
    (hstmt up₈).bind fun r up₉ hr => .pure hr

/-- Whatever the text is, its tree is grouped as the language says. -/
theorem yields_program (fuel : Nat) : Yields (program fuel) Program.Grouped :=
  fun up => (yields_any (demand .kwProgram) up).bind fun keyword up₁ _ =>
    (yields_any name up₁).bind fun n up₂ _ =>
    (yields_any _ up₂).bind fun declarations up₃ _ =>
    (yields_any (demand .lbrace) up₃).bind fun lbrace up₄ _ =>
    (yields_many (yields_method fuel) fuel (by simp) up₄).bind fun methods up₅ hmethods =>
    (yields_any (demand .rbrace) up₅).bind fun rbrace up₆ _ => .kind (.pure hmethods)

end Reader

theorem Program.grouped_read (up : Upcoming) : (Program.read up).Grouped := by
  rw [Program.read, Upcoming.read, StateT.run]
  exact Reader.yields_program _ _

end MicroJava
