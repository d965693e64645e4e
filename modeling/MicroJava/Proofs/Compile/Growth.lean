import MicroJava.Compile.Declaration
import MicroJava.Proofs.Assembly.Writing
import MicroJava.Proofs.Names.Handles

/-! # What the pass never takes back

Every part of the pass only adds to the log and to the code. A problem that was noted stays noted,
a mark on the buffer or on the pass stays set, and reading starts afresh only behind a problem. The
scopes around the innermost one stay open and as they are. -/

namespace MicroJava

/-- The entry is an error of the pass itself, not one of the reading of a literal. -/
def LogEntry.isProblem : LogEntry → Bool
  | .problem _ _ => true
  | _ => false

/-- Reading starts afresh only behind a problem. -/
def Explained (log : List LogEntry) : Prop :=
  ∀ before after, log = before ++ .resynced :: after → ∃ e ∈ before, e.isProblem

theorem explained_nil : Explained [] := by
  intro before after h
  simp at h

/-- A log in which reading never starts afresh needs no explanation. -/
theorem explained_of_not_mem {log : List LogEntry} (h : .resynced ∉ log) : Explained log := by
  intro before after he
  exact absurd (by simp [he]) h

/-- Logs that explain themselves do so one behind the other. -/
theorem Explained.append {l₁ l₂ : List LogEntry} (h₁ : Explained l₁) (h₂ : Explained l₂) :
    Explained (l₁ ++ l₂) := by
  intro before after he
  rcases List.append_eq_append_iff.1 he with ⟨mid, rfl, hm⟩ | ⟨mid, hl, hm⟩
  · obtain ⟨e, hin, hp⟩ := h₂ mid after hm
    exact ⟨e, by simp [hin], hp⟩
  · cases mid with
    | nil =>
        obtain ⟨e, hin, hp⟩ := h₂ [] after (by simpa using hm.symm)
        simp at hin
    | cons x mid =>
        obtain ⟨rfl, -⟩ := List.cons.inj hm
        exact h₁ before mid hl

/-- A problem at the front explains all that follows. -/
theorem explained_of_problem {e : LogEntry} (he : e.isProblem) (log : List LogEntry) :
    Explained (e :: log) := by
  intro before after h
  cases before with
  | nil =>
      obtain ⟨rfl, -⟩ := List.cons.inj h
      simp [LogEntry.isProblem] at he
  | cons x before =>
      obtain ⟨rfl, -⟩ := List.cons.inj h
      exact ⟨e, by simp, he⟩

/-- What the pass does later only adds to what it has done. -/
structure Pass.Grows (p p' : Pass) : Prop where
  log : ∃ added, p'.log.toList = p.log.toList ++ added ∧ Explained added
  code : p.code.Grows p'.code
  enclosing : p'.names.enclosing = p.names.enclosing
  astray : p.astray = true → p'.astray = true

theorem Pass.Grows.refl (p : Pass) : p.Grows p :=
  ⟨⟨[], by simp, explained_nil⟩, .refl _, rfl, id⟩

/-- What two steps add, they add together. -/
theorem Pass.Grows.trans {p q r : Pass} (h₁ : p.Grows q) (h₂ : q.Grows r) : p.Grows r := by
  obtain ⟨⟨a, ha, ea⟩, c₁, n₁, s₁⟩ := h₁
  obtain ⟨⟨b, hb, eb⟩, c₂, n₂, s₂⟩ := h₂
  exact ⟨⟨a ++ b, by rw [hb, ha, List.append_assoc], ea.append eb⟩, c₁.trans c₂, n₂.trans n₁,
    s₂ ∘ s₁⟩

/-- A step that only writes to the log. -/
theorem Pass.Grows.of_log {p p' : Pass} {added : List LogEntry}
    (h : p'.log.toList = p.log.toList ++ added) (he : Explained added) (hc : p'.code = p.code)
    (hn : p'.names = p.names) (hs : p.astray = true → p'.astray = true) : p.Grows p' :=
  ⟨⟨added, h, he⟩, hc ▸ .refl _, hn ▸ rfl, hs⟩

namespace Check

/-- A part of the pass that takes nothing back. -/
class Growing {α : Type} (act : Check α) : Prop where
  grows : ∀ p : Pass, p.Grows (act p).2

variable {α β : Type}

/-- The second part starts from where the first one left the pass. -/
theorem bind_apply (act : Check α) (f : α → Check β) (p : Pass) :
    (act >>= f) p = f (act p).1 (act p).2 := rfl

instance (a : α) : Growing (pure a : Check α) := ⟨fun p => .refl p⟩

/-- One part behind another takes nothing back if neither of them does. -/
theorem Growing.bind {act : Check α} {f : α → Check β} (h₁ : Growing act)
    (h₂ : ∀ a, Growing (f a)) : Growing (act >>= f) :=
  ⟨fun p => (h₁.grows p).trans ((h₂ (act p).1).grows (act p).2)⟩

instance (act : Check α) (f : α → Check β) [h₁ : Growing act] [h₂ : ∀ a, Growing (f a)] :
    Growing (act >>= f) := h₁.bind h₂

/-- It does not matter whether the result is used. -/
instance (act : Check α) [h : Growing act] : Growing (discard act) := ⟨fun p => h.grows p⟩

instance (c : Prop) [Decidable c] (act act' : Check α) [Growing act] [Growing act'] :
    Growing (if c then act else act') := by
  split
  · infer_instance
  · infer_instance

/-- A remark that is made in the middle or left out. -/
theorem Growing.noting {c : Prop} [Decidable c] {note : Check Unit} {next : Unit → Check α}
    (h₁ : Growing note) (h₂ : ∀ u, Growing (next u)) :
    Growing (if c then note >>= next else next ()) := by
  split
  · exact h₁.bind h₂
  · exact h₂ ()

instance : Growing (get : Check Pass) := ⟨fun p => .refl p⟩

/-! ## Primitive parts -/

/-- A token that comes into view is noted with the issue of its literal, and that is no problem of
the pass. -/
theorem arrival_toList (t : Token) (log : Array LogEntry) :
    ∃ added, (Pass.arrival t log).toList = log.toList ++ added ∧ .resynced ∉ added ∧
      ∀ e ∈ added, e.isProblem = false := by
  cases hi : t.issue with
  | some issue =>
      exact ⟨[.consumed, .issue issue t.pos], by simp [Pass.arrival, hi], by simp,
        by simp [LogEntry.isProblem]⟩
  | none =>
      exact ⟨[.consumed], by simp [Pass.arrival, hi], by simp, by simp [LogEntry.isProblem]⟩

/-- The next token comes into view. -/
instance : Growing consume := by
  constructor
  intro p
  obtain ⟨added, hl, hr, -⟩ := arrival_toList p.upcoming.advance.ahead p.log
  exact .of_log hl (explained_of_not_mem hr) rfl rfl id

/-- A problem is noted at the token in view. -/
instance (problem : Problem) : Growing (report problem) := by
  constructor
  intro p
  have hl : (report problem p).2.log.toList =
      p.log.toList ++ [.problem problem p.upcoming.ahead.pos] := by
    simp [report]
  exact .of_log hl (explained_of_problem rfl []) rfl rfl id

instance (n : Nat) : Growing (consumeMany n) := by
  induction n with
  | zero => rw [consumeMany]; infer_instance
  | succ n ih => rw [consumeMany]; infer_instance

/-- A demanded sign is passed over, or its absence is noted. -/
instance (k : TokenKind) (mark : Mark) : Growing (require k mark) := by
  cases mark
  · exact inferInstanceAs (Growing consume)
  · exact inferInstanceAs (Growing (report _))

instance (name : Option String) : Growing (requireName name) := by
  cases name
  · exact inferInstanceAs (Growing (report _))
  · exact inferInstanceAs (Growing consume)

/-- Writing code is a step of the pass that leaves everything but the code alone. -/
instance (act : Emit α) [h : Emit.Growing act] : Growing (emitting act) :=
  ⟨fun p => ⟨⟨[], (List.append_nil _).symm, explained_nil⟩, h.grows p.code, rfl, id⟩⟩

instance (i : Instruction) : Growing (emit i) := by unfold emit; infer_instance

instance : Growing names := by unfold names; infer_instance

/-- A step of the name table that keeps the scopes around the innermost one. -/
theorem Growing.naming {act : NameTable → α × NameTable} (h : ∀ t : NameTable, t.Follows (act t).2) :
    Growing (naming act) :=
  ⟨fun p => ⟨⟨[], (List.append_nil _).symm, explained_nil⟩, .refl _, (h p.names).enclosing, id⟩⟩

theorem Growing.modifyNames {f : NameTable → NameTable} (h : ∀ t : NameTable, t.Follows (f t)) :
    Growing (modifyNames f) := Growing.naming h

instance (form : Form) (name : String) (ty : Ty) :
    Growing (Check.naming fun t => t.insert form name ty) :=
  Growing.naming fun t => t.follows_insert form name ty

instance (name : String) : Growing (Check.naming fun t => t.newClass name) :=
  Growing.naming fun t => t.follows_newClass name

/-- Following a handle sets at most the mark for handles that lead nowhere. -/
instance (inside : NameTable → Bool) (read : NameTable → α) : Growing (following inside read) :=
  ⟨fun _ => .of_log (List.append_nil _).symm explained_nil rfl rfl (by simp +contextual [following])⟩

instance (id : EntityId) : Growing (entityOf id) := by unfold entityOf; infer_instance

instance (cls : ClassId) : Growing (classOf cls) := by unfold classOf; infer_instance

instance (cls : ClassId) (name : String) : Growing (fieldOf cls name) := by
  unfold fieldOf; infer_instance

instance (callee : Callee) : Growing (paramTypes callee) := by unfold paramTypes; infer_instance

/-- A constant gets its value, and nothing else in the table changes. -/
instance (id : EntityId) (value : Int32) : Growing (setConstant id value) :=
  Growing.bind inferInstance fun _ => Growing.modifyNames fun t => t.follows_modify _ _

/-- A method gets its parameters and its address. -/
instance (id : EntityId) (callee : Callee) : Growing (setCallee id callee) :=
  Growing.bind inferInstance fun _ => Growing.modifyNames fun t => t.follows_modify _ _

instance (cls : ClassId) : Growing (setFields cls) :=
  Growing.bind inferInstance fun _ => Growing.modifyNames fun t => t.follows_setFields cls

/-- A name that does not resolve is reported once and stands for the unknown entity. -/
instance (r : Except NameError EntityId) : Growing (orUnknown r) := by
  cases r <;> (rw [orUnknown]; infer_instance)

instance (form : Form) (name : String) (ty : Ty) : Growing (declare form name ty) := by
  unfold declare; infer_instance

instance (name : String) : Growing (resolve name) := by unfold resolve; infer_instance

/-- The operand of a name is made without writing code. -/
instance (id : EntityId) : Growing (operandFor id) := by
  unfold operandFor
  refine Growing.bind inferInstance fun e => ?_
  split <;> infer_instance

/-- A value is put on the stack, or the operand is reported as having none. -/
instance (x : Operand) : Growing (load x) := by
  unfold load
  refine Growing.bind inferInstance fun r => ?_
  split <;> infer_instance

/-- What happens in a scope of its own leaves the scopes outside as they are. -/
theorem Growing.inScope {act : Check α} (h : Growing act) : Growing (inScope act) := by
  constructor
  intro p
  obtain ⟨hlog, hcode, hnames, hstray⟩ := h.grows (Check.modifyNames NameTable.openScope p).2
  exact ⟨hlog, hcode, (NameTable.enclosing_closeScope _).trans (congrArg List.tail hnames), hstray⟩

/-! ## Expressions -/

/-- A field is looked up in the class of what stands before it; one that is not there is reported.
-/
instance (base : Ty) (field : Option String) : Growing (selectField base field) := by
  unfold selectField
  split
  · infer_instance
  · refine Growing.bind inferInstance fun found => ?_
    split
    · infer_instance
    · refine Growing.bind inferInstance fun e => ?_
      split <;> infer_instance
  · infer_instance
  · infer_instance

/-- An element is selected from an array that was loaded, by an index that is. -/
instance (x index : Operand) : Growing (selectElement x index) := by
  unfold selectElement
  split <;> infer_instance

/-- Both operands are on the stack before the operation is written. -/
instance (op : Arithmetic) (x y : Operand) : Growing (arithmetic op x y) := by
  unfold arithmetic; infer_instance

/-- A constant is negated in place, any other operand by an instruction. -/
instance (x : Operand) : Growing (negated x) := by
  unfold negated
  split
  · split <;> infer_instance
  · infer_instance

instance (name : String) : Growing (allocatedType name) := by unfold allocatedType; infer_instance

instance (named : Option Ty) : Growing (allocateObject named) := by
  unfold allocateObject
  split <;> infer_instance

instance (x : Operand) : Growing (calleeOf x) := by
  unfold calleeOf
  split <;> infer_instance

instance (given wanted : Nat) : Growing (checkCount given wanted) := by
  unfold checkCount; infer_instance

/-- A call jumps to the method; a predeclared one is written in its place. -/
instance (callee : Callee) : Growing (emitCall callee) := by
  unfold emitCall
  split <;> infer_instance

/-- A call loads its arguments one by one before it is written. -/
instance (x : Operand) (args : List Ty → Check Unit) [∀ formals, Growing (args formals)]
    (count : Nat) (rparen : Mark) : Growing (callWith x args count rparen) := by
  unfold callWith
  refine Growing.bind inferInstance fun _ => Growing.bind inferInstance fun callee => ?_
  split <;> infer_instance

/-- An argument is loaded and compared with its parameter, if there is one left. -/
instance (y : Operand) (formals : List Ty) : Growing (checkArgument y formals) := by
  unfold checkArgument
  split <;> infer_instance

mutual

/-- The parts of an expression take nothing back, one case per form of a tree. -/
theorem growing_designator : ∀ d, Growing (designator d)
  | .missing => by rw [designator]; infer_instance
  | .name n => by rw [designator]; infer_instance
  | .field base f => by
      have := growing_designator base
      rw [designator]; infer_instance
  | .index base i rbracket => by
      have := growing_designator base
      have := growing_expr i
      rw [designator]; infer_instance

theorem growing_expr : ∀ e, Growing (expr e)
  | .number value => by rw [expr]; infer_instance
  | .char value => by rw [expr]; infer_instance
  | .value source => by rw [expr]; exact growing_designator source
  | .call callee args rparen => by
      have := growing_designator callee
      have := growing_arguments args
      rw [expr]; infer_instance
  | .newNothing => by rw [expr]; infer_instance
  | .newObject cls => by rw [expr]; infer_instance
  | .newArray elem size rbracket => by
      have := growing_expr size
      rw [expr]
      refine Growing.bind inferInstance fun _ => Growing.bind inferInstance fun _ => ?_
      refine Growing.bind inferInstance fun named => Growing.bind inferInstance fun _ => ?_
      refine Growing.noting inferInstance fun _ => ?_
      infer_instance
  | .paren inner rparen => by
      have := growing_expr inner
      rw [expr]; infer_instance
  | .negate operand => by
      have := growing_expr operand
      rw [expr]; infer_instance
  | .binary op left right => by
      have := growing_expr left
      have := growing_expr right
      rw [expr]; infer_instance
  | .missing => by rw [expr]; infer_instance

theorem growing_arguments : ∀ args formals, Growing (arguments args formals)
  | [], formals => by rw [arguments]; infer_instance
  | arg :: rest, formals => by
      have := growing_expr arg
      have := growing_arguments rest
      rw [arguments]; infer_instance

end

instance (d : Designator) : Growing (designator d) := growing_designator d

instance (e : Expr) : Growing (expr e) := growing_expr e

instance (args : List Expr) (formals : List Ty) : Growing (arguments args formals) :=
  growing_arguments args formals

/-- Both sides of a comparison are loaded in their order. -/
instance (c : Condition) : Growing (condition c) := by
  unfold condition
  refine Growing.bind inferInstance fun _ => Growing.bind inferInstance fun x => ?_
  split <;> infer_instance

/-! ## Statements -/

set_option synthInstance.maxSize 512

/-- The value is stored in the place that was selected before it. -/
instance (x y : Operand) : Growing (assignment x y) := by
  unfold assignment
  split
  · refine Growing.bind inferInstance fun r => ?_
    split <;> infer_instance
  · infer_instance

instance (x : Operand) : Growing (dropResult x) := by unfold dropResult; infer_instance

/-- A value is returned where the method has a result, and only there. -/
instance (result : Ty) (value : Option Expr) : Growing (returnValue result value) := by
  cases value <;> (rw [returnValue]; infer_instance)

instance (x : Operand) (i : Instruction) : Growing (readInto.readWith x i) := by
  unfold readInto.readWith
  refine Growing.bind inferInstance fun _ => Growing.bind inferInstance fun r => ?_
  split <;> infer_instance

/-- What is read is stored like an assigned value. -/
instance (x : Operand) : Growing (readInto x) := by
  unfold readInto
  split <;> infer_instance

instance (ty : Ty) : Growing (printInstruction ty) := by
  unfold printInstruction
  split <;> infer_instance

/-- A width that was left out is written as a constant. -/
instance (width : WidthSpec) : Growing (printWidth width) := by
  cases width <;> (rw [printWidth]; infer_instance)

/-- Reading may start afresh once a problem has been noted. -/
theorem growing_resync (problem : Problem) (skip : Check Unit) (next : Check α)
    [hs : Growing skip] [hn : Growing next] :
    Growing (do
      report problem
      skip
      resync
      next) := by
  constructor
  intro p
  have h₁ : (report problem p).2.log.toList =
      p.log.toList ++ [.problem problem p.upcoming.ahead.pos] := by
    simp [report]
  obtain ⟨⟨added, h₂, -⟩, hc, hn', hs'⟩ := hs.grows (report problem p).2
  have hr : p.Grows (resync (skip (report problem p).2).2).2 := by
    refine ⟨⟨.problem problem p.upcoming.ahead.pos :: (added ++ [.resynced]), ?_, ?_⟩, hc, hn', hs'⟩
    · simp [resync, h₂, h₁]
    · exact explained_of_problem rfl _
  exact hr.trans (hn.grows _)

/-- Tokens that start no statement are reported before they are skipped. -/
theorem growing_junk (problem : Problem) (skipped : Nat) (semicolon : Bool) (next : Check α)
    [Growing next] :
    Growing (do
      report problem
      consumeMany skipped
      if semicolon then consume
      resync
      next) := by
  cases semicolon
  · exact growing_resync problem (consumeMany skipped) next
  · exact growing_resync problem (do consumeMany skipped; consume) next

mutual

/-- Statements take nothing back. Jumps over them are filled in later, which changes no byte that
was final. -/
theorem growing_stmt (result : Ty) : ∀ s, Growing (stmt result s)
  | .assign target value semicolon => by rw [stmt]; infer_instance
  | .call callee args rparen semicolon => by rw [stmt]; infer_instance
  | .idle target semicolon => by rw [stmt]; infer_instance
  | .ifThen lparen cond rparen body => by
      have := growing_stmt result body
      rw [stmt]; infer_instance
  | .ifElse lparen cond rparen body alternative => by
      have := growing_stmt result body
      have := growing_stmt result alternative
      rw [stmt]
      refine Growing.bind inferInstance fun _ => Growing.bind inferInstance fun _ => ?_
      refine Growing.bind inferInstance fun rel => Growing.bind inferInstance fun skip => ?_
      infer_instance
  | .loop lparen cond rparen body => by
      have := growing_stmt result body
      rw [stmt]; infer_instance
  | .ret value semicolon => by rw [stmt]; infer_instance
  | .read lparen target rparen semicolon => by rw [stmt]; infer_instance
  | .print lparen value width rparen semicolon => by
      rw [stmt]
      refine Growing.bind inferInstance fun _ => Growing.bind inferInstance fun _ => ?_
      refine Growing.bind inferInstance fun x => Growing.bind inferInstance fun i => ?_
      refine Growing.bind inferInstance fun w => ?_
      dsimp only
      split <;> infer_instance
  | .block body rbrace => by
      have := growing_stmts result body
      rw [stmt]; infer_instance
  | .empty => by rw [stmt]; infer_instance
  | .junk skipped semicolon next => by
      have := growing_stmt result next
      rw [stmt]
      exact growing_junk _ _ _ _
  | .missing => by rw [stmt]; infer_instance

theorem growing_stmts (result : Ty) : ∀ body, Growing (stmts result body)
  | [] => by rw [stmts]; infer_instance
  | s :: rest => by
      have := growing_stmt result s
      have := growing_stmts result rest
      rw [stmts]; infer_instance

end

instance (result : Ty) (s : Stmt) : Growing (stmt result s) := growing_stmt result s

instance (result : Ty) (body : List Stmt) : Growing (stmts result body) :=
  growing_stmts result body

/-! ## Declarations -/

instance (ty : Option Ty) : Growing (typeRef.orExpected ty) := by
  cases ty <;> (rw [typeRef.orExpected]; infer_instance)

/-- A type that does not resolve is reported and stands for the unknown type. -/
instance (t : TypeRef) : Growing (typeRef t) := by
  cases t with
  | missing => rw [typeRef]; infer_instance
  | named name brackets => cases brackets <;> (rw [typeRef]; infer_instance)

/-- A declared name is inserted; without one, its absence is noted. -/
instance (form : Form) (ty : Ty) (name : Option String) : Growing (declareName form ty name) := by
  cases name <;> (unfold declareName; infer_instance)

instance (ty : Ty) (others : List (Option String)) : Growing (moreVars ty others) := by
  induction others with
  | nil => rw [moreVars]; infer_instance
  | cons name rest ih => rw [moreVars]; infer_instance

instance (d : VarDecl) : Growing (varDecl d) := by unfold varDecl; infer_instance

instance (ds : List VarDecl) : Growing (varDecls ds) := by
  induction ds with
  | nil => rw [varDecls]; infer_instance
  | cons d rest ih => rw [varDecls]; infer_instance

instance (ty : Ty) (id : EntityId) (value : Option Literal) :
    Growing (constantValue ty id value) := by
  cases value <;> (rw [constantValue]; infer_instance)

instance (d : ConstDecl) : Growing (constDecl d) := by unfold constDecl; infer_instance

/-- The fields of a class stand in a scope of their own, which is closed behind them. -/
instance (d : ClassDecl) : Growing (classDecl d) := by
  unfold classDecl
  refine Growing.bind inferInstance fun _ => Growing.bind inferInstance fun _ => ?_
  refine Growing.bind inferInstance fun cls => ?_
  have hbody : Growing (inScope do
      require .lbrace d.lbrace
      varDecls d.fields
      setFields cls
      require .rbrace d.rbrace) := Growing.inScope inferInstance
  dsimp only
  split <;> infer_instance

instance (d : Declaration) : Growing (declaration d) := by
  cases d with
  | const d => exact inferInstanceAs (Growing (constDecl d))
  | cls d => exact inferInstanceAs (Growing (classDecl d))
  | vars d => exact inferInstanceAs (Growing (varDecl d))
  | junk skipped semicolon =>
      rw [declaration]
      exact growing_junk _ _ _ (pure ())

instance (ds : List Declaration) : Growing (declarations ds) := by
  induction ds with
  | nil => rw [declarations]; infer_instance
  | cons d rest ih => rw [declarations]; infer_instance

instance (q : Param) : Growing (param q) := by unfold param; infer_instance

instance (ps : List Param) : Growing (params ps) := by
  induction ps with
  | nil => rw [params]; infer_instance
  | cons q rest ih => rw [params]; infer_instance

instance (r : ResultType) : Growing (resultType r) := by
  cases r <;> (rw [resultType]; infer_instance)

instance (result : Ty) (count : Nat) : Growing (checkMain result count) := by
  unfold checkMain; infer_instance

instance (result : Ty) : Growing (methodEnd result) := by unfold methodEnd; infer_instance

instance (m : Method) (result : Ty) : Growing (methodBody m result) := by
  unfold methodBody; infer_instance

instance (m : Method) (result : Ty) (id : EntityId) (paramCount : Nat) :
    Growing (methodCode m result id paramCount) := by
  unfold methodCode; infer_instance

/-- Parameters and local variables stand in a scope of the method's own. -/
instance (m : Method) : Growing (method m) := by
  unfold method
  refine Growing.bind inferInstance fun result => Growing.bind inferInstance fun id => ?_
  refine Growing.inScope ?_
  infer_instance

instance (ms : List Method) : Growing (methods ms) := by
  induction ms with
  | nil => rw [methods]; infer_instance
  | cons m rest ih => rw [methods]; infer_instance

/-- The whole pass takes nothing back, whatever the tree is. -/
instance (p : Program) : Growing (program p) := by
  unfold program
  refine Growing.bind inferInstance fun _ => Growing.bind inferInstance fun _ => ?_
  refine Growing.bind (Growing.inScope ?_) fun globals => ?_
  · refine Growing.bind inferInstance fun _ => Growing.bind inferInstance fun _ => ?_
    refine Growing.bind inferInstance fun _ => Growing.bind inferInstance fun _ => ?_
    refine Growing.bind inferInstance fun q => ?_
    exact Growing.noting inferInstance inferInstance
  · exact Growing.noting inferInstance inferInstance

end Check

end MicroJava
