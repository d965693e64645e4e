import Mathlib.Logic.Function.Iterate
import MicroJava.Proofs.Compile.Growth
import MicroJava.Proofs.Tree.Outline

/-! # What the log tells of the tree

The pass asks for as many tokens as the outline of its tree says, and so moves on by as many, and it
complains about the syntax as often as the outline has gaps. What else it finds wrong depends on
names and types and leaves both numbers alone. -/

namespace MicroJava

/-- The text breaks a rule of the grammar here. -/
@[reducible] def Problem.isSyntactic : Problem → Bool
  | .expected _ | .declarationStart | .statementStart | .factorStart | .relopExpected
  | .constantExpected | .idleStatement | .textAfterProgram => true
  | _ => false

namespace LogEntry

/-- A token came into view. -/
def isConsumed : LogEntry → Bool
  | .consumed => true
  | _ => false

/-- A complaint about the syntax. -/
def isGap : LogEntry → Bool
  | .problem p _ => p.isSyntactic
  | _ => false

end LogEntry

namespace Pass

/-- How often the next token has been asked for. -/
def fetched (p : Pass) : Nat := p.log.toList.countP LogEntry.isConsumed

/-- How often the syntax has been complained about. -/
def gaps (p : Pass) : Nat := p.log.toList.countP LogEntry.isGap

end Pass

namespace Check

variable {α β : Type}

/-- From `p` to `p'` the pass has gone along the tokens of the outline and found its gaps. -/
structure Walked (o : Outline) (p p' : Pass) : Prop where
  fetched : p'.fetched = p.fetched + o.tokens
  gaps : p'.gaps = p.gaps + o.gaps
  upcoming : p'.upcoming = Upcoming.advance^[o.tokens] p.upcoming

/-- This part of the pass goes along the tokens of the outline and finds its gaps. -/
def Walks (act : Check α) (o : Outline) : Prop := ∀ p, Walked o p (act p).2

/-- Only the numbers of an outline count here, not its names. -/
theorem Walks.of_eq {act : Check α} {o o' : Outline} (h : Walks act o)
    (ht : o.tokens = o'.tokens) (hg : o.gaps = o'.gaps) : Walks act o' :=
  fun p => ⟨ht ▸ (h p).fetched, hg ▸ (h p).gaps, ht ▸ (h p).upcoming⟩

/-- One part of the pass behind the other goes along one outline behind the other. -/
theorem Walks.bind {act : Check α} {f : α → Check β} {o o' : Outline} (h : Walks act o)
    (h' : ∀ a, Walks (f a) o') : Walks (act >>= f) (o ++ o') := by
  intro p
  have hfirst := h p
  have hnext := h' (act p).1 (act p).2
  rw [bind_apply]
  constructor
  · rw [hnext.fetched, hfirst.fetched, Outline.tokens_append, Nat.add_assoc]
  · rw [hnext.gaps, hfirst.gaps, Outline.gaps_append, Nat.add_assoc]
  · rw [hnext.upcoming, hfirst.upcoming, ← Function.iterate_add_apply, Outline.tokens_append,
      Nat.add_comm]

/-! ## Parts that concern names, types and code only -/

/-- A part of the pass that asks for no token and does not complain about the syntax. -/
class Quiet (act : Check α) : Prop where
  walks : Walks act .nil

/-- A part of the pass that notes nothing and stays where it is. -/
theorem Quiet.of_log {act : Check α} (h : ∀ p, (act p).2.log = p.log)
    (hup : ∀ p, (act p).2.upcoming = p.upcoming) : Quiet act :=
  ⟨fun p => ⟨congrArg (·.toList.countP LogEntry.isConsumed) (h p),
    congrArg (·.toList.countP LogEntry.isGap) (h p), hup p⟩⟩

/-- A result costs no token. -/
instance (a : α) : Quiet (pure a : Check α) :=
  .of_log (fun _ => rfl) fun _ => rfl

/-- Two parts that ask for nothing ask for nothing together. -/
theorem Quiet.bind {act : Check α} {f : α → Check β} (h : Quiet act) (h' : ∀ a, Quiet (f a)) :
    Quiet (act >>= f) := ⟨h.walks.bind fun a => (h' a).walks⟩

instance (act : Check α) (f : α → Check β) [h : Quiet act] [h' : ∀ a, Quiet (f a)] :
    Quiet (act >>= f) := h.bind h'

instance (act : Check α) [h : Quiet act] : Quiet (discard act) := ⟨fun p => h.walks p⟩

instance (c : Prop) [Decidable c] (act act' : Check α) [Quiet act] [Quiet act'] :
    Quiet (if c then act else act') := by
  split <;> infer_instance

instance : Quiet (get : Check Pass) :=
  .of_log (fun _ => rfl) fun _ => rfl

instance : Quiet names :=
  .of_log (fun _ => rfl) fun _ => rfl

/-- Code is written without a look at the text. -/
instance (act : Emit α) : Quiet (emitting act) :=
  .of_log (fun _ => rfl) fun _ => rfl

instance (i : Instruction) : Quiet (emit i) := by unfold emit; infer_instance

/-- Names are looked up and declared without a look at the text. -/
instance (act : NameTable → α × NameTable) : Quiet (naming act) :=
  .of_log (fun _ => rfl) fun _ => rfl

instance (f : NameTable → NameTable) : Quiet (modifyNames f) :=
  .of_log (fun _ => rfl) fun _ => rfl

instance (inside : NameTable → Bool) (read : NameTable → α) : Quiet (following inside read) :=
  .of_log (fun _ => rfl) fun _ => rfl

/-- A report is a gap if it is about the syntax, and it asks for no token in any case. -/
theorem walks_report (problem : Problem) :
    Walks (report problem) { gaps := if problem.isSyntactic then 1 else 0 } := by
  intro p
  constructor <;> cases h : problem.isSyntactic <;>
    simp [report, Pass.fetched, Pass.gaps, LogEntry.isConsumed, LogEntry.isGap, h]

/-- A condition that is known to fail. -/
class IsFalse (b : Bool) : Prop where
  eq : b = false

instance : IsFalse false := ⟨rfl⟩

/-- Reports about names and types are no gaps. -/
theorem quiet_report {problem : Problem} (h : problem.isSyntactic = false) :
    Quiet (report problem) :=
  ⟨(walks_report problem).of_eq rfl (by simp [h])⟩

instance (problem : Problem) [h : IsFalse problem.isSyntactic] : Quiet (report problem) :=
  quiet_report h.eq

instance (id : EntityId) : Quiet (entityOf id) := by unfold entityOf; infer_instance

instance (cls : ClassId) : Quiet (classOf cls) := by unfold classOf; infer_instance

instance (cls : ClassId) (name : String) : Quiet (fieldOf cls name) := by
  unfold fieldOf; infer_instance

instance (callee : Callee) : Quiet (paramTypes callee) := by unfold paramTypes; infer_instance

instance (id : EntityId) (value : Int32) : Quiet (setConstant id value) := by
  unfold setConstant; infer_instance

instance (id : EntityId) (callee : Callee) : Quiet (setCallee id callee) := by
  unfold setCallee; infer_instance

instance (cls : ClassId) : Quiet (setFields cls) := by unfold setFields; infer_instance

/-- A name that does not resolve is no gap. -/
instance (r : Except NameError EntityId) : Quiet (orUnknown r) := by
  cases r <;> (rw [orUnknown]; infer_instance)

instance (form : Form) (name : String) (ty : Ty) : Quiet (declare form name ty) := by
  unfold declare; infer_instance

instance (name : String) : Quiet (resolve name) := by unfold resolve; infer_instance

instance (id : EntityId) : Quiet (operandFor id) := by
  unfold operandFor
  refine Quiet.bind inferInstance fun e => ?_
  split <;> infer_instance

instance (x : Operand) : Quiet (load x) := by
  unfold load
  refine Quiet.bind inferInstance fun r => ?_
  split <;> infer_instance

/-- The name of the field has been passed over before it is looked up. -/
instance (base : Ty) (field : Option String) : Quiet (selectField base field) := by
  unfold selectField
  split
  · infer_instance
  · refine Quiet.bind inferInstance fun found => ?_
    split
    · infer_instance
    · refine Quiet.bind inferInstance fun e => ?_
      split <;> infer_instance
  · infer_instance
  · infer_instance

instance (x index : Operand) : Quiet (selectElement x index) := by
  unfold selectElement
  split <;> infer_instance

instance (op : Arithmetic) (x y : Operand) : Quiet (arithmetic op x y) := by
  unfold arithmetic; infer_instance

instance (x : Operand) : Quiet (negated x) := by
  unfold negated
  split
  · split <;> infer_instance
  · infer_instance

instance (name : String) : Quiet (allocatedType name) := by unfold allocatedType; infer_instance

instance (named : Option Ty) : Quiet (allocateObject named) := by
  unfold allocateObject
  split <;> infer_instance

instance (x : Operand) : Quiet (calleeOf x) := by
  unfold calleeOf
  split <;> infer_instance

instance (given wanted : Nat) : Quiet (checkCount given wanted) := by
  unfold checkCount; infer_instance

instance (callee : Callee) : Quiet (emitCall callee) := by
  unfold emitCall
  split <;> infer_instance

/-- The argument has been walked before its type is compared. -/
instance (y : Operand) (formals : List Ty) : Quiet (checkArgument y formals) := by
  unfold checkArgument
  split <;> infer_instance

instance (x y : Operand) : Quiet (assignment x y) := by
  unfold assignment
  split
  · refine Quiet.bind inferInstance fun r => ?_
    split <;> infer_instance
  · infer_instance

instance (x : Operand) : Quiet (dropResult x) := by unfold dropResult; infer_instance

instance (x : Operand) (i : Instruction) : Quiet (readInto.readWith x i) := by
  unfold readInto.readWith
  refine Quiet.bind inferInstance fun _ => Quiet.bind inferInstance fun r => ?_
  split <;> infer_instance

instance (x : Operand) : Quiet (readInto x) := by
  unfold readInto
  split <;> infer_instance

instance (ty : Ty) : Quiet (printInstruction ty) := by
  unfold printInstruction
  split <;> infer_instance

instance (ty : Option Ty) : Quiet (typeRef.orExpected ty) := by
  cases ty <;> (rw [typeRef.orExpected]; infer_instance)

instance (result : Ty) (count : Nat) : Quiet (checkMain result count) := by
  unfold checkMain; infer_instance

instance (result : Ty) : Quiet (methodEnd result) := by unfold methodEnd; infer_instance

/-! ## Parts that move along the tokens -/

/-- The next token is asked for. -/
theorem walks_consume : Walks consume .token := by
  intro p
  constructor <;> cases hi : p.upcoming.advance.ahead.issue <;>
    simp [consume, Pass.arrival, hi, Pass.fetched, Pass.gaps, LogEntry.isConsumed, LogEntry.isGap,
      List.countP_cons]

/-- Starting afresh stays at the token in view. -/
theorem walks_resync : Walks resync .nil := by
  intro p
  constructor <;> simp [resync, Pass.fetched, Pass.gaps, LogEntry.isConsumed, LogEntry.isGap]

/-- Skipped tokens are asked for like any others. -/
theorem walks_consumeMany (n : Nat) : Walks (consumeMany n) { tokens := n } := by
  induction n with
  | zero => exact (inferInstance : Quiet (pure () : Check Unit)).walks
  | succ n ih =>
      rw [consumeMany]
      exact (walks_consume.bind fun _ => ih).of_eq (Nat.add_comm ..) rfl

/-- A demanded sign is passed over or makes a gap. -/
theorem walks_require (k : TokenKind) (mark : Mark) : Walks (require k mark) mark.outline := by
  cases mark with
  | found => exact walks_consume
  | missing => exact walks_report (.expected k)

/-- A demanded name is passed over or makes a gap. -/
theorem walks_requireName (role : Role) (name : Option String) :
    Walks (requireName name) (.ident role name) := by
  cases name with
  | some n => exact walks_consume.of_eq rfl rfl
  | none => exact walks_report (.expected .ident)

variable {o o' : Outline}

/-- A part that asks for nothing walks along nothing. -/
theorem Walks.quiet {act : Check α} [h : Quiet act] : Walks act .nil := h.walks

/-- What comes before has no outline of its own. -/
theorem Walks.seq {act : Check α} {f : α → Check β} [h : Quiet act] (h' : ∀ a, Walks (f a) o) :
    Walks (act >>= f) o :=
  (h.walks.bind h').of_eq (Nat.zero_add _) (Nat.zero_add _)

/-- What follows has no outline of its own. -/
theorem Walks.last {act : Check α} {f : α → Check β} (h : Walks act o) [h' : ∀ a, Quiet (f a)] :
    Walks (act >>= f) o :=
  (h.bind fun a => (h' a).walks).of_eq rfl rfl

/-- Both branches go along one outline. -/
theorem Walks.ite {c : Prop} [Decidable c] {act act' : Check α} (h : Walks act o)
    (h' : Walks act' o) : Walks (if c then act else act') o := by
  split
  · exact h
  · exact h'

/-- A remark that is made in the middle or left out. -/
theorem Walks.noting {c : Prop} [Decidable c] {note : Check Unit} [Quiet note]
    {next : Unit → Check α} (h : Walks (next ()) o) :
    Walks (if c then note >>= next else next ()) o :=
  .ite (.seq fun _ => h) h

/-- A remark that is made instead of something of no outline. -/
theorem Walks.unless {c : Prop} [Decidable c] {note : Check Unit} [Quiet note]
    {next : Unit → Check α} (h : Walks (next ()) o) :
    Walks (if c then next () else note >>= next) o :=
  .ite h (.seq fun _ => h)

/-- Opening and closing a scope asks for no token. -/
theorem Walks.inScope {act : Check α} (h : Walks act o) : Walks (inScope act) o :=
  .seq fun _ => h.last

/-- Skipped tokens, perhaps a semicolon behind them, and what follows: one gap at the first of them.
-/
theorem walks_junk {problem : Problem} (hp : problem.isSyntactic = true) {skipped : Nat}
    {semicolon : Bool} {next : Check α} (h : Walks next o) :
    Walks (do
      report problem
      consumeMany skipped
      if semicolon then consume
      resync
      next) (.passed skipped semicolon ++ o) := by
  have htail := walks_resync.bind fun _ => h
  cases semicolon with
  | true =>
      refine ((walks_report problem).bind fun _ => (walks_consumeMany skipped).bind fun _ =>
        walks_consume.bind fun _ => htail).of_eq ?_ ?_
      · simp [Outline.passed, Nat.add_assoc]
      · simp [Outline.passed, hp]
  | false =>
      refine ((walks_report problem).bind fun _ => (walks_consumeMany skipped).bind fun _ =>
        htail).of_eq ?_ ?_
      · simp [Outline.passed]
      · simp [Outline.passed, hp]

/-! ## Expressions -/

/-- The parentheses of a call and its arguments, whether the callee is a method or not. -/
theorem walks_callWith (x : Operand) {args : List Ty → Check Unit}
    (h : ∀ formals, Walks (args formals) o) (count : Nat) (rparen : Mark) :
    Walks (callWith x args count rparen) (.token ++ (o ++ rparen.outline)) := by
  unfold callWith
  refine walks_consume.bind fun _ => .seq fun callee => ?_
  split
  · exact .seq fun formals => (h formals).bind fun _ => .seq fun _ =>
      (walks_require .rparen rparen).last
  · exact .unless ((h _).bind fun _ => (walks_require .rparen rparen).last)

/-- There is a comma behind each item but the last. -/
theorem walks_comma {rest : List α} {next : Check β} (h : Walks next o) :
    Walks (do
      unless rest.isEmpty do consume
      next) (.comma rest ++ o) := by
  cases rest with
  | nil => exact h.of_eq (Nat.zero_add _).symm (Nat.zero_add _).symm
  | cons a rest => exact walks_consume.bind fun _ => h

mutual

/-- The walk follows the tree: one case per form, in the order of the tokens. -/
theorem walks_designator : ∀ d, Walks (designator d) d.outline
  | .missing => by
      rw [designator, Designator.outline]
      exact (walks_requireName .used none).last
  | .name n => by
      rw [designator, Designator.outline]
      exact (walks_requireName .used (some n)).last
  | .field base f => by
      rw [designator, Designator.outline]
      refine (walks_designator base).bind fun x => .seq fun y => walks_consume.bind fun _ => ?_
      exact (walks_requireName .selected f).last
  | .index base i rbracket => by
      rw [designator, Designator.outline]
      refine (walks_designator base).bind fun x => .seq fun y => walks_consume.bind fun _ => ?_
      exact (walks_expr i).bind fun index => (walks_require .rbracket rbracket).last

theorem walks_expr : ∀ e, Walks (expr e) e.outline
  | .number value | .char value => by
      rw [expr, Expr.outline]
      exact walks_consume.last
  | .value source => by
      rw [expr, Expr.outline]
      exact walks_designator source
  | .call callee args rparen => by
      rw [expr, Expr.outline]
      refine (walks_designator callee).bind fun x => ?_
      exact (walks_callWith x (fun formals => walks_arguments args formals) _ rparen).last
  | .newNothing => by
      rw [expr, Expr.outline]
      exact walks_consume.bind fun _ => (walks_requireName .used none).last
  | .newObject cls => by
      rw [expr, Expr.outline]
      exact walks_consume.bind fun _ => (walks_requireName .used (some cls)).last
  | .newArray elem size rbracket => by
      rw [expr, Expr.outline]
      refine walks_consume.bind fun _ => (walks_requireName .used (some elem)).bind fun _ => ?_
      refine .seq fun named => walks_consume.bind fun _ => .noting ?_
      refine (walks_expr size).bind fun n => .unless (.seq fun _ => ?_)
      exact (walks_require .rbracket rbracket).last
  | .paren inner rparen => by
      rw [expr, Expr.outline]
      refine walks_consume.bind fun _ => (walks_expr inner).bind fun x => ?_
      exact (walks_require .rparen rparen).last
  | .negate operand => by
      rw [expr, Expr.outline]
      exact walks_consume.bind fun _ => (walks_expr operand).last
  | .binary op left right => by
      rw [expr, Expr.outline]
      refine (walks_expr left).bind fun x => walks_consume.bind fun _ => .seq fun y => ?_
      exact (walks_expr right).last
  | .missing => by
      rw [expr, Expr.outline]
      exact (walks_report .factorStart).last

theorem walks_arguments : ∀ args formals, Walks (arguments args formals) (Expr.outlines args)
  | [], formals => by
      rw [arguments, Expr.outlines]
      exact .quiet
  | arg :: rest, formals => by
      rw [arguments, Expr.outlines]
      refine (walks_expr arg).bind fun y => .seq fun z => .seq fun _ => ?_
      exact walks_comma (walks_arguments rest formals.tail)

end

/-- Without an operator the right side is walked all the same. -/
theorem walks_condition (c : Condition) : Walks (condition c) c.outline := by
  obtain ⟨left, rel, right⟩ := c
  unfold condition Condition.outline
  refine (walks_expr left).bind fun x => .seq fun y => ?_
  cases rel with
  | some r => exact walks_consume.bind fun _ => (walks_expr right).last
  | none => exact (walks_report .relopExpected).bind fun _ => (walks_expr right).last

/-! ## Statements -/

/-- A width is a comma and a number; the number may be missing. -/
theorem walks_printWidth (width : WidthSpec) : Walks (printWidth width) width.outline := by
  cases width with
  | none =>
      rw [printWidth]
      exact .quiet
  | missing => exact walks_consume.bind fun _ => (walks_report (.expected .number)).last
  | given n => exact walks_consume.bind fun _ => walks_consume.last

mutual

/-- Every form of a statement is walked along its own tokens, be they well-formed or not. -/
theorem walks_stmt (result : Ty) : ∀ s, Walks (stmt result s) s.outline
  | .assign target value semicolon => by
      rw [stmt, Stmt.outline]
      refine (walks_designator target).bind fun x => walks_consume.bind fun _ => ?_
      exact (walks_expr value).bind fun y => .seq fun _ => walks_require .semicolon semicolon
  | .call callee args rparen semicolon => by
      rw [stmt, Stmt.outline]
      have hcall (x : Operand) :=
        walks_callWith x (fun formals => walks_arguments args formals) args.length rparen
      refine ((walks_designator callee).bind fun x => (hcall x).bind fun y => .seq fun _ =>
        walks_require .semicolon semicolon).of_eq ?_ ?_ <;> simp [Nat.add_assoc]
  | .idle target semicolon => by
      rw [stmt, Stmt.outline]
      have hd : Walks (discard (designator target)) target.outline :=
        fun p => walks_designator target p
      exact hd.bind fun _ => (walks_report .idleStatement).bind fun _ =>
        walks_require .semicolon semicolon
  | .ifThen lparen cond rparen body => by
      rw [stmt, Stmt.outline]
      refine walks_consume.bind fun _ => (walks_require .lparen lparen).bind fun _ => ?_
      refine (walks_condition cond).bind fun rel => .seq fun skip => ?_
      exact (walks_require .rparen rparen).bind fun _ => (walks_stmt result body).last
  | .ifElse lparen cond rparen body alternative => by
      rw [stmt, Stmt.outline]
      refine walks_consume.bind fun _ => (walks_require .lparen lparen).bind fun _ => ?_
      refine (walks_condition cond).bind fun rel => .seq fun skip => ?_
      refine (walks_require .rparen rparen).bind fun _ => (walks_stmt result body).bind fun _ => ?_
      refine walks_consume.bind fun _ => .seq fun finish => .seq fun _ => ?_
      exact (walks_stmt result alternative).last
  | .loop lparen cond rparen body => by
      rw [stmt, Stmt.outline]
      refine walks_consume.bind fun _ => .seq fun p => ?_
      refine (walks_require .lparen lparen).bind fun _ => ?_
      refine (walks_condition cond).bind fun rel => .seq fun leave => ?_
      exact (walks_require .rparen rparen).bind fun _ => (walks_stmt result body).last
  | .ret none semicolon => by
      rw [stmt, Stmt.outline, returnValue]
      exact walks_consume.bind fun _ => .seq fun _ => .seq fun _ =>
        walks_require .semicolon semicolon
  | .ret (some value) semicolon => by
      rw [stmt, Stmt.outline, returnValue]
      refine walks_consume.bind fun _ => ((walks_expr value).last).bind fun _ => ?_
      exact .seq fun _ => walks_require .semicolon semicolon
  | .read lparen target rparen semicolon => by
      rw [stmt, Stmt.outline]
      refine walks_consume.bind fun _ => (walks_require .lparen lparen).bind fun _ => ?_
      refine (walks_designator target).bind fun x => .seq fun _ => ?_
      exact (walks_require .rparen rparen).bind fun _ => walks_require .semicolon semicolon
  | .print lparen value width rparen semicolon => by
      rw [stmt, Stmt.outline]
      refine walks_consume.bind fun _ => (walks_require .lparen lparen).bind fun _ => ?_
      refine (walks_expr value).bind fun x => .seq fun i => ?_
      refine (walks_printWidth width).bind fun w => ?_
      have htail := (walks_require .rparen rparen).bind fun _ => walks_require .semicolon semicolon
      dsimp only
      split
      · exact .seq fun _ => .seq fun _ => .seq fun _ => htail
      · exact htail
  | .block body rbrace => by
      rw [stmt, Stmt.outline]
      refine walks_consume.bind fun _ => (walks_stmts result body).bind fun _ => ?_
      exact walks_require .rbrace rbrace
  | .empty => by
      rw [stmt, Stmt.outline]
      exact walks_consume
  | .junk skipped semicolon next => by
      rw [stmt, Stmt.outline]
      exact walks_junk rfl (walks_stmt result next)
  | .missing => by
      rw [stmt, Stmt.outline]
      exact .quiet

theorem walks_stmts (result : Ty) : ∀ body, Walks (stmts result body) (Stmt.outlines body)
  | [] => by
      rw [stmts, Stmt.outlines]
      exact .quiet
  | s :: rest => by
      rw [stmts, Stmt.outlines]
      exact (walks_stmt result s).bind fun _ => walks_stmts result rest

end

/-! ## Declarations -/

/-- A type is a name and perhaps a pair of brackets. -/
theorem walks_typeRef (r : TypeRef) : Walks (typeRef r) r.outline := by
  cases r with
  | missing =>
      rw [typeRef, TypeRef.outline]
      exact (walks_report (.expected .ident)).last
  | named name brackets =>
      cases brackets with
      | none =>
          rw [typeRef, TypeRef.outline]
          exact (walks_requireName .used (some name)).last
      | some rbracket =>
          rw [typeRef, TypeRef.outline]
          refine (walks_requireName .used (some name)).bind fun _ => .seq fun id => ?_
          refine .seq fun e => .seq fun ty => walks_consume.bind fun _ => ?_
          exact (walks_require .rbracket rbracket).last

/-- A name that is declared. -/
theorem walks_declareName (form : Form) (ty : Ty) (name : Option String) :
    Walks (declareName form ty name) (.ident .declared name) := by
  unfold declareName
  cases name with
  | none => exact (walks_requireName .declared none).last
  | some n => exact (walks_requireName .declared (some n)).last

theorem walks_declareName_discard (form : Form) (ty : Ty) (name : Option String) :
    Walks (discard (declareName form ty name)) (.ident .declared name) :=
  fun p => walks_declareName form ty name p

/-- The names behind the first one, each with its comma. -/
theorem walks_moreVars (ty : Ty) (others : List (Option String)) :
    Walks (moreVars ty others) (otherNames others) := by
  induction others with
  | nil =>
      rw [moreVars]
      exact .quiet
  | cons name rest ih =>
      rw [moreVars, otherNames]
      exact walks_consume.bind fun _ => (walks_declareName_discard .var ty name).bind fun _ => ih

theorem walks_varDecl (d : VarDecl) : Walks (varDecl d) d.outline := by
  unfold varDecl VarDecl.outline
  refine (walks_typeRef d.type).bind fun ty => ?_
  refine (walks_declareName_discard .var ty d.first).bind fun _ => ?_
  exact (walks_moreVars ty d.others).bind fun _ => walks_require .semicolon d.semicolon

theorem walks_varDecls (ds : List VarDecl) :
    Walks (varDecls ds) (.concat VarDecl.outline ds) := by
  induction ds with
  | nil =>
      rw [varDecls]
      exact .quiet
  | cons d rest ih =>
      rw [varDecls, Outline.concat]
      exact (walks_varDecl d).bind fun _ => ih

/-- The literal of a constant is passed over whether its type fits or not. -/
theorem walks_constantValue (ty : Ty) (id : EntityId) (value : Option Literal) :
    Walks (constantValue ty id value) (.present value) := by
  cases value with
  | some lit =>
      have hproblem : Quiet (report (constantProblem ty)) :=
        quiet_report (by cases ty <;> rfl)
      rw [constantValue]
      exact .unless walks_consume.last
  | none => exact (walks_report .constantExpected).last

theorem walks_constDecl (d : ConstDecl) : Walks (constDecl d) d.outline := by
  unfold constDecl ConstDecl.outline
  refine walks_consume.bind fun _ => (walks_typeRef d.type).bind fun ty => ?_
  refine (walks_declareName .constant ty d.name).bind fun id => ?_
  refine (walks_require .assign d.assign).bind fun _ => ?_
  exact (walks_constantValue ty id d.value).bind fun _ => walks_require .semicolon d.semicolon

/-- A class without a name is walked like any other. -/
theorem walks_classDecl (d : ClassDecl) : Walks (classDecl d) d.outline := by
  unfold classDecl ClassDecl.outline
  refine walks_consume.bind fun _ => (walks_requireName .declared d.name).bind fun _ => ?_
  refine .seq fun cls => ?_
  have hbody : Walks (inScope do
      require .lbrace d.lbrace
      varDecls d.fields
      setFields cls
      require .rbrace d.rbrace) _ :=
    ((walks_require .lbrace d.lbrace).bind fun _ => (walks_varDecls d.fields).bind fun _ =>
      .seq fun _ => walks_require .rbrace d.rbrace).inScope
  dsimp only
  split
  · exact .seq fun _ => hbody
  · exact hbody

/-- Declarations of each kind, and tokens that start none. -/
theorem walks_declaration (d : Declaration) : Walks (declaration d) d.outline := by
  cases d with
  | const d => exact walks_constDecl d
  | cls d => exact walks_classDecl d
  | vars d => exact walks_varDecl d
  | junk skipped semicolon =>
      rw [declaration, Declaration.outline]
      have hend : Walks (pure () : Check Unit) .nil := .quiet
      exact (walks_junk rfl hend).of_eq rfl rfl

theorem walks_declarations (ds : List Declaration) :
    Walks (declarations ds) (.concat Declaration.outline ds) := by
  induction ds with
  | nil =>
      rw [declarations]
      exact .quiet
  | cons d rest ih =>
      rw [declarations, Outline.concat]
      exact (walks_declaration d).bind fun _ => ih

theorem walks_params (ps : List Param) : Walks (params ps) (Param.outlines ps) := by
  induction ps with
  | nil =>
      rw [params]
      exact .quiet
  | cons q rest ih =>
      rw [params, Param.outlines]
      have hq : Walks (param q) q.outline :=
        (walks_typeRef q.type).bind fun ty => walks_declareName_discard .var ty q.name
      exact hq.bind fun _ => walks_comma ih

theorem walks_resultType (r : ResultType) : Walks (resultType r) r.outline := by
  cases r with
  | void => exact walks_consume.last
  | type r => exact walks_typeRef r

/-- A method from its result type to the brace behind its body. -/
theorem walks_method (m : Method) : Walks (method m) m.outline := by
  unfold method Method.outline
  refine (walks_resultType m.result).bind fun result => ?_
  refine (walks_declareName .method result m.name).bind fun id => .inScope ?_
  refine (walks_require .lparen m.lparen).bind fun _ => (walks_params m.params).bind fun _ => ?_
  refine .seq fun types => .noting ((walks_require .rparen m.rparen).bind fun _ => ?_)
  unfold methodCode methodBody
  refine (walks_varDecls m.locals).bind fun _ => .seq fun t => .noting (.seq fun address => ?_)
  refine .seq fun _ => .noting ((walks_require .lbrace m.lbrace).bind fun _ => ?_)
  exact (walks_stmts result m.body).bind fun _ => (walks_require .rbrace m.rbrace).last

theorem walks_methods (ms : List Method) : Walks (methods ms) (.concat Method.outline ms) := by
  induction ms with
  | nil =>
      rw [methods]
      exact .quiet
  | cons m rest ih =>
      rw [methods, Outline.concat]
      exact (walks_method m).bind fun _ => ih

/-- The pass over a program goes along its outline and notes exactly its gaps. -/
theorem walks_program (p : Program) : Walks (program p) p.outline := by
  have hscope := ((walks_declarations p.declarations).bind fun _ =>
    (walks_require .lbrace p.lbrace).bind fun _ => (walks_methods p.methods).bind fun _ =>
      (walks_require .rbrace p.rbrace).last (f := fun _ => do
        if (← get).code.mainPc.isNone then report .mainMissing
        return (← names).current.varCount)).inScope
  have hend : ∀ globals : Nat, Walks (do
      if p.ended = .missing then report .textAfterProgram
      return globals) (if p.ended = .missing then .gap else .nil) := by
    intro globals
    split
    · exact (walks_report .textAfterProgram).last
    · exact .quiet
  unfold program
  refine ((walks_require .kwProgram p.keyword).bind fun _ =>
    (walks_declareName_discard .program .void p.name).bind fun _ =>
      hscope.bind hend).of_eq ?_ ?_ <;> simp [Program.outline, Nat.add_assoc]

end Check

end MicroJava
