import MicroJava.Proofs.Compile.Outline
import MicroJava.Proofs.Names.Renaming
import MicroJava.Proofs.Tree.Renaming

/-! # Passes over the same tree under other names

Two passes side by side, over a tree and over the same tree with its names spelt anew. They take the
same steps: each yields the same values, writes the same code and keeps the same table up to
spelling, and where one reports a problem the other reports the same problem under the other names.
What this says of tokens and logs is left open, so that it can be used for whatever the three steps
along the tokens preserve. -/

namespace MicroJava

variable {f : String → String}

/-- The problem mentions a name. -/
@[reducible] def Problem.isNamed : Problem → Bool
  | .name _ => true
  | _ => false

/-- Other problems read the same under any names. -/
theorem Problem.rename_of_not_named {problem : Problem} (h : problem.isNamed = false)
    (f : String → String) : problem.rename f = problem := by
  cases problem <;> first | rfl | simp at h

/-- What is followed of the tokens to come and of the logs of two passes. -/
structure Journal (f : String → String) where
  respelling : Respelling f
  Rel : Upcoming → Array LogEntry → Upcoming → Array LogEntry → Prop
  consume : ∀ {up log up' log'}, Rel up log up' log' →
    Rel up.advance (Pass.arrival up.advance.ahead log) up'.advance
      (Pass.arrival up'.advance.ahead log')
  report : ∀ {up log up' log'} (problem : Problem), Rel up log up' log' →
    Rel up (log.push (.problem problem up.ahead.pos)) up'
      (log'.push (.problem (problem.rename f) up'.ahead.pos))
  resync : ∀ {up log up' log'}, Rel up log up' log' →
    Rel up (log.push .resynced) up' (log'.push .resynced)

/-- Two passes that have done the same up to names. -/
structure Pass.Mirrored (J : Journal f) (p p' : Pass) : Prop where
  names : p.names.Renamed f p'.names
  code : p'.code = p.code
  journal : J.Rel p.upcoming p.log p'.upcoming p'.log

namespace Check

variable {α β : Type} {J : Journal f}

/-- The two parts of the pass do the same up to names. -/
def Mirrors (J : Journal f) (act act' : Check α) : Prop :=
  ∀ p p', p.Mirrored J p' → (act' p').1 = (act p).1 ∧ (act p).2.Mirrored J (act' p').2

/-- What follows may depend on the handle that was found, since both passes find the same one. -/
theorem Mirrors.bind {act act' : Check α} {g g' : α → Check β} (h : Mirrors J act act')
    (hg : ∀ a, Mirrors J (g a) (g' a)) : Mirrors J (act >>= g) (act' >>= g') := by
  intro p p' hp
  obtain ⟨hvalue, hpass⟩ := h p p' hp
  have hnext := hg (act p).1 _ _ hpass
  rw [← hvalue] at hnext
  rw [bind_apply, bind_apply, ← hvalue]
  exact hnext

theorem Mirrors.discard {act act' : Check α} (h : Mirrors J act act') :
    Mirrors J (discard act) (discard act') :=
  fun p p' hp => ⟨rfl, (h p p' hp).2⟩

/-! ## Parts that spell no name -/

/-- A part of the pass in which no name is spelt. -/
class Anonymous (act : Check α) : Prop where
  mirrors : ∀ {f : String → String} (J : Journal f), Mirrors J act act

/-- Where no name is spelt, both passes run the same part. -/
theorem mirrors_anonymous (act : Check α) [h : Anonymous act] : Mirrors J act act := h.mirrors J

theorem Mirrors.same {act : Check α} [Anonymous act] : Mirrors J act act := mirrors_anonymous act

instance (a : α) : Anonymous (pure a : Check α) := ⟨fun _ _ _ hp => ⟨rfl, hp⟩⟩

theorem Anonymous.bind {act : Check α} {g : α → Check β} (h : Anonymous act)
    (hg : ∀ a, Anonymous (g a)) : Anonymous (act >>= g) :=
  ⟨fun J => (h.mirrors J).bind fun a => (hg a).mirrors J⟩

instance (act : Check α) (g : α → Check β) [h : Anonymous act] [hg : ∀ a, Anonymous (g a)] :
    Anonymous (act >>= g) := h.bind hg

instance (act : Check α) [h : Anonymous act] : Anonymous (discard act) :=
  ⟨fun J => (h.mirrors J).discard⟩

instance (c : Prop) [Decidable c] (act act' : Check α) [Anonymous act] [Anonymous act'] :
    Anonymous (if c then act else act') := by
  split <;> infer_instance

instance : Anonymous consume :=
  ⟨fun J _ _ hp => ⟨rfl, hp.names, hp.code, J.consume hp.journal⟩⟩

instance : Anonymous resync :=
  ⟨fun J _ _ hp => ⟨rfl, hp.names, hp.code, J.resync hp.journal⟩⟩

/-- A problem is reported with the names that its pass has read. -/
theorem Mirrors.report (problem : Problem) :
    Mirrors J (report problem) (Check.report (problem.rename f)) :=
  fun _ _ hp => ⟨rfl, hp.names, hp.code, J.report problem hp.journal⟩

theorem anonymous_report {problem : Problem} (h : problem.isNamed = false) :
    Anonymous (Check.report problem) := by
  refine ⟨fun J => ?_⟩
  have hreport := Mirrors.report (J := J) problem
  rwa [Problem.rename_of_not_named h] at hreport

instance (problem : Problem) [h : IsFalse problem.isNamed] : Anonymous (Check.report problem) :=
  anonymous_report h.eq

instance (n : Nat) : Anonymous (consumeMany n) := by
  induction n with
  | zero => rw [consumeMany]; infer_instance
  | succ n ih => rw [consumeMany]; infer_instance

instance (k : TokenKind) (mark : Mark) : Anonymous (require k mark) := by
  cases mark <;> (rw [require]; infer_instance)

/-- The code is the same, so what is written next is the same. -/
instance (act : Emit α) : Anonymous (emitting act) := by
  refine ⟨fun J p p' hp => ?_⟩
  have hcode := hp.code
  refine ⟨?_, hp.names, ?_, hp.journal⟩
  · change (act p'.code).1 = (act p.code).1
    rw [hcode]
  · change (act p'.code).2 = (act p.code).2
    rw [hcode]

instance (i : Instruction) : Anonymous (emit i) := by unfold emit; infer_instance

instance (x : Operand) : Anonymous (load x) := by
  unfold load
  refine .bind inferInstance fun r => ?_
  split <;> infer_instance

/-! ## Parts that use the table -/

/-- The two states themselves are used, which are the same up to names. -/
theorem Mirrors.get {g g' : Pass → Check α}
    (h : ∀ p p' : Pass, p.Mirrored J p' → Mirrors J (g p) (g' p')) :
    Mirrors J (MonadState.get >>= g) (MonadState.get >>= g') :=
  fun p p' hp => h p p' hp p p' hp

theorem Mirrors.names {g g' : NameTable → Check α}
    (h : ∀ t t' : NameTable, t.Renamed f t' → Mirrors J (g t) (g' t')) :
    Mirrors J (names >>= g) (Check.names >>= g') :=
  fun p p' hp => h p.names p'.names hp.names p p' hp

/-- A handle leads somewhere in both tables or in neither. -/
theorem Mirrors.following {γ γ' : Type} {inside inside' : NameTable → Bool} {read : NameTable → γ}
    {read' : NameTable → γ'} {g : γ → Check α} {g' : γ' → Check α}
    (h : ∀ t t' : NameTable, t.Renamed f t' → Mirrors J (g (read t)) (g' (read' t'))) :
    Mirrors J (following inside read >>= g) (Check.following inside' read' >>= g') :=
  fun p p' hp => h p.names p'.names hp.names _ _ ⟨hp.names, hp.code, hp.journal⟩

/-- A step of the table that mirrors a step of the other. -/
theorem Mirrors.naming {act act' : NameTable → α × NameTable}
    (h : ∀ t t' : NameTable, t.Renamed f t' →
      (act' t').1 = (act t).1 ∧ (act t).2.Renamed f (act' t').2) :
    Mirrors J (naming act) (Check.naming act') := by
  intro p p' hp
  obtain ⟨hvalue, hnames⟩ := h p.names p'.names hp.names
  exact ⟨hvalue, hnames, hp.code, hp.journal⟩

theorem Mirrors.modifyNames {g : NameTable → NameTable}
    (h : ∀ t t' : NameTable, t.Renamed f t' → (g t).Renamed f (g t')) :
    Mirrors J (modifyNames g) (Check.modifyNames g) :=
  .naming fun t t' ht => ⟨rfl, h t t' ht⟩

/-- Entities differ in their names only. -/
theorem Mirrors.entityOf {id : EntityId} {g g' : Entity → Check α}
    (h : ∀ name name' kind ty, Mirrors J (g ⟨name, kind, ty⟩) (g' ⟨name', kind, ty⟩)) :
    Mirrors J (entityOf id >>= g) (Check.entityOf id >>= g') := by
  refine .following fun t t' ht => ?_
  have hkind := ht.kind id
  have hty := ht.ty id
  revert hkind hty
  generalize t.entity id = e, t'.entity id = e'
  obtain ⟨name, kind, ty⟩ := e
  obtain ⟨name', kind', ty'⟩ := e'
  rintro rfl rfl
  exact h name name' _ _

theorem Mirrors.classOf {cls : ClassId} {g g' : ClassInfo → Check α}
    (h : ∀ info : ClassInfo, Mirrors J (g info) (g' (info.rename f))) :
    Mirrors J (classOf cls >>= g) (Check.classOf cls >>= g') := by
  refine .following fun t t' ht => ?_
  rw [ht.classInfo J.respelling]
  exact h (t.classInfo cls)

instance (callee : Callee) : Anonymous (paramTypes callee) :=
  ⟨fun _ _ _ hp => ⟨hp.names.paramTypes callee, hp.names, hp.code, hp.journal⟩⟩

instance (id : EntityId) : Anonymous (discard (entityOf id)) :=
  ⟨fun _ _ _ hp => ⟨rfl, hp.names, hp.code, hp.journal⟩⟩

instance (cls : ClassId) : Anonymous (discard (classOf cls)) :=
  ⟨fun _ _ _ hp => ⟨rfl, hp.names, hp.code, hp.journal⟩⟩

instance (id : EntityId) (value : Int32) : Anonymous (setConstant id value) :=
  ⟨fun _ => Mirrors.same.bind fun _ => .modifyNames fun _ _ ht => ht.setConstant id value⟩

instance (id : EntityId) (callee : Callee) : Anonymous (setCallee id callee) :=
  ⟨fun _ => Mirrors.same.bind fun _ => .modifyNames fun _ _ ht => ht.setCallee id callee⟩

instance (cls : ClassId) : Anonymous (setFields cls) :=
  ⟨fun _ => Mirrors.same.bind fun _ => .modifyNames fun _ _ ht => ht.setFields cls⟩

instance (id : EntityId) : Anonymous (operandFor id) := by
  refine ⟨fun J => .entityOf fun name name' kind ty => ?_⟩
  dsimp only
  have hsame : Anonymous (match kind with
      | .constant value => pure ⟨.constant value, ty⟩
      | .var adr 0 => pure ⟨.global adr, ty⟩
      | .var adr _ => pure ⟨.frame adr, ty⟩
      | .method _ => pure ⟨.method id, ty⟩
      | .unknown => pure .unknown
      | .typeName | .program => do
          Check.report .noValue
          pure Operand.unknown : Check Operand) := by
    split <;> infer_instance
  exact hsame.mirrors J

/-- The same error is reported about the two names. -/
theorem mirrors_orUnknown (r : Except NameError EntityId) :
    Mirrors J (orUnknown r) (orUnknown (r.mapError (NameError.rename f))) := by
  cases r with
  | ok id => exact mirrors_anonymous (pure id)
  | error e => exact (Mirrors.report (.name e)).bind fun _ => .same

/-- Declarations of a name and of its renaming succeed alike. -/
theorem mirrors_declare (form : Form) (name : String) (ty : Ty) :
    Mirrors J (declare form name ty) (declare form (f name) ty) := by
  intro p p' hp
  obtain ⟨hvalue, hnames⟩ := hp.names.insert J.respelling form name ty
  have hnext := mirrors_orUnknown (J := J) (p.names.insert form name ty).1
    { p with names := (p.names.insert form name ty).2 }
    { p' with names := (p'.names.insert form (f name) ty).2 } ⟨hnames, hp.code, hp.journal⟩
  rw [← hvalue] at hnext
  exact hnext

/-- A name and its replacement lead to one handle. -/
theorem mirrors_resolve (name : String) : Mirrors J (resolve name) (resolve (f name)) := by
  refine .names fun t t' ht => ?_
  rw [ht.find]
  exact mirrors_orUnknown _

theorem mirrors_requireName (name : Option String) :
    Mirrors J (requireName name) (requireName (name.map f)) := by
  cases name with
  | some n => exact mirrors_anonymous consume
  | none => exact mirrors_anonymous (Check.report (.expected .ident))

/-- Scopes are opened and closed alike. -/
theorem Mirrors.inScope {act act' : Check α} (h : Mirrors J act act') :
    Mirrors J (inScope act) (Check.inScope act') := by
  refine (Mirrors.modifyNames fun _ _ ht => ht.openScope).bind fun _ => h.bind fun a => ?_
  exact (Mirrors.modifyNames fun _ _ ht => ht.closeScope).bind fun _ => .same

/-- One of two parts is chosen alike. -/
theorem Mirrors.ite {c : Prop} [Decidable c] {act₁ act₁' act₂ act₂' : Check α}
    (h₁ : Mirrors J act₁ act₁') (h₂ : Mirrors J act₂ act₂') :
    Mirrors J (if c then act₁ else act₂) (if c then act₁' else act₂') := by
  split
  · exact h₁
  · exact h₂

/-- A remark that is made in the middle or left out. -/
theorem Mirrors.noting {c : Prop} [Decidable c] {note : Check Unit} [Anonymous note]
    {next next' : Unit → Check α} (h : Mirrors J (next ()) (next' ())) :
    Mirrors J (if c then note >>= next else next ()) (if c then note >>= next' else next' ()) :=
  .ite (Mirrors.same.bind fun _ => h) h

theorem Mirrors.unless {c : Prop} [Decidable c] {note : Check Unit} [Anonymous note]
    {next next' : Unit → Check α} (h : Mirrors J (next ()) (next' ())) :
    Mirrors J (if c then next () else note >>= next) (if c then next' () else note >>= next') :=
  .ite h (Mirrors.same.bind fun _ => h)

/-! ## Expressions -/

/-- Fields are found alike, and those that are missing are reported under their own names. -/
theorem mirrors_selectField (base : Ty) (field : Option String) :
    Mirrors J (selectField base field) (selectField base (field.map f)) := by
  cases base with
  | object cls =>
      cases field with
      | none => exact mirrors_anonymous (pure Operand.unknown)
      | some name =>
          refine .following fun t t' ht => ?_
          rw [ht.findField J.respelling]
          cases t.findField cls name with
          | error e => exact (Mirrors.report (.name e)).bind fun _ => .same
          | ok id =>
              refine .entityOf fun name name' kind ty => ?_
              cases kind <;> exact .same
  | error => exact mirrors_anonymous (pure Operand.unknown)
  | void | int | char | array =>
      exact mirrors_anonymous (do
        Check.report .notAnObject
        return Operand.unknown)

instance (x index : Operand) : Anonymous (selectElement x index) := by
  unfold selectElement
  split <;> infer_instance

instance (op : Arithmetic) (x y : Operand) : Anonymous (arithmetic op x y) := by
  unfold arithmetic; infer_instance

instance (x : Operand) : Anonymous (negated x) := by
  unfold negated
  split
  · split <;> infer_instance
  · infer_instance

theorem mirrors_allocatedType (name : String) :
    Mirrors J (allocatedType name) (allocatedType (f name)) :=
  (mirrors_resolve name).bind fun _ => .entityOf fun _ _ _ _ => .same

instance (named : Option Ty) : Anonymous (allocateObject named) := by
  unfold allocateObject
  split
  · exact ⟨fun J => .classOf fun info => .same⟩
  · infer_instance
  · infer_instance

instance (x : Operand) : Anonymous (calleeOf x) := by
  unfold calleeOf
  split
  · exact ⟨fun J => .entityOf fun _ _ _ _ => .same⟩
  · infer_instance

instance (given wanted : Nat) : Anonymous (checkCount given wanted) := by
  unfold checkCount; infer_instance

instance (callee : Callee) : Anonymous (emitCall callee) := by
  unfold emitCall
  split <;> infer_instance

instance (y : Operand) (formals : List Ty) : Anonymous (checkArgument y formals) := by
  unfold checkArgument
  split <;> infer_instance

/-- The arguments are checked against the same types. -/
theorem mirrors_callWith (x : Operand) {args args' : List Ty → Check Unit}
    (h : ∀ formals, Mirrors J (args formals) (args' formals)) (count : Nat) (rparen : Mark) :
    Mirrors J (callWith x args count rparen) (callWith x args' count rparen) := by
  refine Mirrors.same.bind fun _ => Mirrors.same.bind fun callee => ?_
  cases callee with
  | some callee =>
      have hformals : Mirrors J (paramTypes callee) (paramTypes callee) := .same
      exact hformals.bind fun formals => (h formals).bind fun _ => .same
  | none => exact .unless ((h _).bind fun _ => .same)

theorem mirrors_comma {γ : Type} (rest : List γ) {rest' : List γ}
    (hlen : rest'.isEmpty = rest.isEmpty) {next next' : Check α} (h : Mirrors J next next') :
    Mirrors J (do
      unless rest.isEmpty do consume
      next) (do
      unless rest'.isEmpty do consume
      next') := by
  rw [hlen]
  exact .unless h

mutual

/-- An expression and the one under other names, one case per form. -/
theorem mirrors_designator : ∀ d, Mirrors J (designator d) (designator (d.rename f))
  | .missing => by
      rw [Designator.rename]
      simp only [designator]
      exact (mirrors_requireName none).bind fun _ => .same
  | .name n => by
      rw [Designator.rename]
      simp only [designator]
      exact Mirrors.same.bind fun _ => (mirrors_resolve n).bind fun _ => .same
  | .field base n => by
      rw [Designator.rename]
      simp only [designator]
      refine (mirrors_designator base).bind fun x => Mirrors.same.bind fun y => ?_
      exact Mirrors.same.bind fun _ => (mirrors_requireName n).bind fun _ => mirrors_selectField _ _
  | .index base i rbracket => by
      rw [Designator.rename]
      simp only [designator]
      refine (mirrors_designator base).bind fun x => Mirrors.same.bind fun y => ?_
      exact Mirrors.same.bind fun _ => (mirrors_expr i).bind fun index => .same

theorem mirrors_expr : ∀ e, Mirrors J (expr e) (expr (e.rename f))
  | .number value => by
      rw [Expr.rename, expr]
      exact .same
  | .char value => by
      rw [Expr.rename, expr]
      exact .same
  | .value source => by
      rw [Expr.rename, expr, expr]
      exact mirrors_designator source
  | .call callee args rparen => by
      rw [Expr.rename, expr, expr, Expr.renameAll_eq_map, List.length_map,
        ← Expr.renameAll_eq_map]
      refine (mirrors_designator callee).bind fun x => ?_
      exact (mirrors_callWith x (fun formals => mirrors_arguments args formals) _ rparen).bind
        fun _ => .same
  | .newNothing => by
      rw [Expr.rename, expr]
      exact Mirrors.same.bind fun _ => (mirrors_requireName none).bind fun _ => .same
  | .newObject cls => by
      rw [Expr.rename, expr, expr]
      refine Mirrors.same.bind fun _ => Mirrors.same.bind fun _ => ?_
      exact (mirrors_allocatedType cls).bind fun _ => .same
  | .newArray elem size rbracket => by
      rw [Expr.rename, expr, expr]
      refine Mirrors.same.bind fun _ => Mirrors.same.bind fun _ => ?_
      refine (mirrors_allocatedType elem).bind fun named => Mirrors.same.bind fun _ => ?_
      exact .noting ((mirrors_expr size).bind fun n => .same)
  | .paren inner rparen => by
      rw [Expr.rename, expr, expr]
      exact Mirrors.same.bind fun _ => (mirrors_expr inner).bind fun x => .same
  | .negate operand => by
      rw [Expr.rename, expr, expr]
      exact Mirrors.same.bind fun _ => (mirrors_expr operand).bind fun x => .same
  | .binary op left right => by
      rw [Expr.rename, expr, expr]
      refine (mirrors_expr left).bind fun x => Mirrors.same.bind fun _ => ?_
      exact Mirrors.same.bind fun y => (mirrors_expr right).bind fun z => .same
  | .missing => by
      rw [Expr.rename, expr]
      exact .same

theorem mirrors_arguments : ∀ args formals,
    Mirrors J (arguments args formals) (arguments (Expr.renameAll f args) formals)
  | [], formals => by
      rw [Expr.renameAll, arguments]
      exact .same
  | arg :: rest, formals => by
      rw [Expr.renameAll, arguments, arguments]
      refine (mirrors_expr arg).bind fun y => Mirrors.same.bind fun z => Mirrors.same.bind fun _ => ?_
      refine mirrors_comma rest ?_ (mirrors_arguments rest formals.tail)
      rw [Expr.renameAll_eq_map, List.isEmpty_map]

end

/-- Both sides are compared in their types only. -/
theorem mirrors_condition (c : Condition) :
    Mirrors J (condition c) (condition (c.rename f)) := by
  obtain ⟨left, rel, right⟩ := c
  unfold condition Condition.rename
  refine (mirrors_expr left).bind fun x => Mirrors.same.bind fun y => ?_
  cases rel with
  | some r => exact Mirrors.same.bind fun _ => (mirrors_expr right).bind fun _ => .same
  | none => exact Mirrors.same.bind fun _ => (mirrors_expr right).bind fun _ => .same

/-! ## Statements -/

instance (x y : Operand) : Anonymous (assignment x y) := by
  unfold assignment
  split
  · refine .bind inferInstance fun r => ?_
    split <;> infer_instance
  · infer_instance

instance (x : Operand) : Anonymous (dropResult x) := by unfold dropResult; infer_instance

instance (x : Operand) (i : Instruction) : Anonymous (readInto.readWith x i) := by
  unfold readInto.readWith
  refine .bind inferInstance fun _ => .bind inferInstance fun r => ?_
  split <;> infer_instance

instance (x : Operand) : Anonymous (readInto x) := by
  unfold readInto
  split <;> infer_instance

instance (ty : Ty) : Anonymous (printInstruction ty) := by
  unfold printInstruction
  split <;> infer_instance

instance (width : WidthSpec) : Anonymous (printWidth width) := by
  cases width <;> (rw [printWidth]; infer_instance)

theorem mirrors_returnValue (result : Ty) (value : Option Expr) :
    Mirrors J (returnValue result value) (returnValue result (value.map (Expr.rename f))) := by
  cases value with
  | none =>
      rw [Option.map_none, returnValue]
      exact .same
  | some e =>
      rw [Option.map_some, returnValue, returnValue]
      exact (mirrors_expr e).bind fun x => .same

/-- What is skipped is skipped alike. -/
theorem mirrors_junk {problem : Problem} [IsFalse problem.isNamed] {skipped : Nat}
    {semicolon : Bool} {next next' : Check α} (h : Mirrors J next next') :
    Mirrors J (do
      Check.report problem
      consumeMany skipped
      if semicolon then consume
      resync
      next) (do
      Check.report problem
      consumeMany skipped
      if semicolon then consume
      resync
      next') := by
  have hresync := (mirrors_anonymous (J := J) resync).bind fun _ => h
  exact Mirrors.same.bind fun _ => Mirrors.same.bind fun _ => .noting hresync

/-- A condition in its parentheses and the jump behind it. -/
theorem mirrors_guard (lparen : Mark) (cond : Condition) (rparen : Mark)
    {next next' : UInt16 → Check α} (h : ∀ skip, Mirrors J (next skip) (next' skip)) :
    Mirrors J (do
      require .lparen lparen
      let skip ← emitting (Emit.jumpUnless (← condition cond))
      require .rparen rparen
      next skip) (do
      require .lparen lparen
      let skip ← emitting (Emit.jumpUnless (← condition (cond.rename f)))
      require .rparen rparen
      next' skip) := by
  refine Mirrors.same.bind fun _ => (mirrors_condition cond).bind fun rel => ?_
  exact Mirrors.same.bind fun skip => Mirrors.same.bind fun _ => h skip

mutual

/-- A statement and the one under other names, one case per form. -/
theorem mirrors_stmt (result : Ty) : ∀ s, Mirrors J (stmt result s) (stmt result (s.rename f))
  | .assign target value semicolon => by
      rw [Stmt.rename, stmt, stmt]
      refine (mirrors_designator target).bind fun x => Mirrors.same.bind fun _ => ?_
      exact (mirrors_expr value).bind fun y => .same
  | .call callee args rparen semicolon => by
      rw [Stmt.rename, stmt, stmt, Expr.renameAll_eq_map, List.length_map,
        ← Expr.renameAll_eq_map]
      refine (mirrors_designator callee).bind fun x => ?_
      exact (mirrors_callWith x (fun formals => mirrors_arguments args formals) _ rparen).bind
        fun _ => .same
  | .idle target semicolon => by
      rw [Stmt.rename, stmt, stmt]
      exact (mirrors_designator target).discard.bind fun _ => .same
  | .ifThen lparen cond rparen body => by
      rw [Stmt.rename, stmt, stmt]
      refine Mirrors.same.bind fun _ => mirrors_guard lparen cond rparen fun skip => ?_
      exact (mirrors_stmt result body).bind fun _ => .same
  | .ifElse lparen cond rparen body alternative => by
      rw [Stmt.rename, stmt, stmt]
      refine Mirrors.same.bind fun _ => mirrors_guard lparen cond rparen fun skip => ?_
      refine (mirrors_stmt result body).bind fun _ => Mirrors.same.bind fun _ => ?_
      refine Mirrors.same.bind fun finish => Mirrors.same.bind fun _ => ?_
      exact (mirrors_stmt result alternative).bind fun _ => .same
  | .loop lparen cond rparen body => by
      rw [Stmt.rename, stmt, stmt]
      refine Mirrors.same.bind fun _ => .get fun p p' hp => ?_
      rw [hp.code]
      refine mirrors_guard lparen cond rparen fun leave => ?_
      exact (mirrors_stmt result body).bind fun _ => .same
  | .ret none semicolon => by
      rw [Stmt.rename, stmt]
      exact Mirrors.same.bind fun _ => (mirrors_returnValue result none).bind fun _ => .same
  | .ret (some value) semicolon => by
      rw [Stmt.rename, stmt, stmt]
      exact Mirrors.same.bind fun _ => (mirrors_returnValue result (some value)).bind fun _ => .same
  | .read lparen target rparen semicolon => by
      rw [Stmt.rename, stmt, stmt]
      refine Mirrors.same.bind fun _ => Mirrors.same.bind fun _ => ?_
      exact (mirrors_designator target).bind fun x => .same
  | .print lparen value width rparen semicolon => by
      rw [Stmt.rename, stmt, stmt]
      refine Mirrors.same.bind fun _ => Mirrors.same.bind fun _ => ?_
      refine (mirrors_expr value).bind fun x => Mirrors.same.bind fun i => ?_
      refine Mirrors.same.bind fun w => ?_
      cases i <;> exact .same
  | .block body rbrace => by
      rw [Stmt.rename, stmt, stmt]
      exact Mirrors.same.bind fun _ => (mirrors_stmts result body).bind fun _ => .same
  | .empty => by
      rw [Stmt.rename, stmt]
      exact .same
  | .junk skipped semicolon next => by
      rw [Stmt.rename, stmt, stmt]
      exact mirrors_junk (mirrors_stmt result next)
  | .missing => by
      rw [Stmt.rename, stmt]
      exact .same

theorem mirrors_stmts (result : Ty) :
    ∀ body, Mirrors J (stmts result body) (stmts result (Stmt.renameAll f body))
  | [] => by
      rw [Stmt.renameAll, stmts]
      exact .same
  | s :: rest => by
      rw [Stmt.renameAll, stmts, stmts]
      exact (mirrors_stmt result s).bind fun _ => mirrors_stmts result rest

end

/-! ## Declarations -/

instance (ty : Option Ty) : Anonymous (typeRef.orExpected ty) := by
  cases ty <;> (rw [typeRef.orExpected]; infer_instance)

/-- Types with corresponding names are the same up to the names of classes. -/
theorem mirrors_typeRef (r : TypeRef) : Mirrors J (typeRef r) (typeRef (r.rename f)) := by
  cases r with
  | missing =>
      rw [TypeRef.rename, typeRef]
      exact (mirrors_requireName none).bind fun _ => .same
  | named name brackets =>
      rw [TypeRef.rename]
      cases brackets with
      | none =>
          rw [typeRef, typeRef]
          refine Mirrors.same.bind fun _ => (mirrors_resolve name).bind fun _ => ?_
          exact .entityOf fun _ _ _ _ => .same
      | some rbracket =>
          rw [typeRef, typeRef]
          refine Mirrors.same.bind fun _ => (mirrors_resolve name).bind fun _ => ?_
          exact .entityOf fun _ _ _ _ => .same

/-- A declared name, or the report that there is none. -/
theorem mirrors_declareName (form : Form) (ty : Ty) (name : Option String) :
    Mirrors J (declareName form ty name) (declareName form ty (name.map f)) := by
  unfold declareName
  refine (mirrors_requireName name).bind fun _ => ?_
  cases name with
  | none => exact .same
  | some n => exact mirrors_declare form n ty

theorem mirrors_moreVars (ty : Ty) (others : List (Option String)) :
    Mirrors J (moreVars ty others) (moreVars ty (others.map (Option.map f))) := by
  induction others with
  | nil =>
      rw [List.map_nil, moreVars]
      exact .same
  | cons name rest ih =>
      rw [List.map_cons, moreVars, moreVars]
      exact Mirrors.same.bind fun _ => (mirrors_declareName .var ty name).discard.bind fun _ => ih

theorem mirrors_varDecl (d : VarDecl) : Mirrors J (varDecl d) (varDecl (d.rename f)) := by
  unfold varDecl
  refine (mirrors_typeRef d.type).bind fun ty => ?_
  refine (mirrors_declareName .var ty d.first).discard.bind fun _ => ?_
  exact (mirrors_moreVars ty d.others).bind fun _ => .same

theorem mirrors_varDecls (ds : List VarDecl) :
    Mirrors J (varDecls ds) (varDecls (ds.map (VarDecl.rename f))) := by
  induction ds with
  | nil =>
      rw [List.map_nil, varDecls]
      exact .same
  | cons d rest ih =>
      rw [List.map_cons, varDecls, varDecls]
      exact (mirrors_varDecl d).bind fun _ => ih

instance (ty : Ty) (id : EntityId) (value : Option Literal) :
    Anonymous (constantValue ty id value) := by
  have : Anonymous (Check.report (constantProblem ty)) := anonymous_report (by cases ty <;> rfl)
  cases value <;> (rw [constantValue]; infer_instance)

theorem mirrors_constDecl (d : ConstDecl) : Mirrors J (constDecl d) (constDecl (d.rename f)) := by
  unfold constDecl
  refine Mirrors.same.bind fun _ => (mirrors_typeRef d.type).bind fun ty => ?_
  exact (mirrors_declareName .constant ty d.name).bind fun id => .same

/-- A missing name of a class is stood in for by the same name. -/
theorem mirrors_newClass (name : Option String) :
    Mirrors J (naming fun t => t.newClass (name.getD "???"))
      (naming fun t => t.newClass ((name.map f).getD "???")) := by
  have hname : (name.map f).getD "???" = f (name.getD "???") := by
    cases name with
    | none => exact (J.respelling.reserved "???" (by simp)).symm
    | some n => rfl
  rw [hname]
  exact .naming fun t t' ht => ht.newClass _

/-- A class and its fields under other names. -/
theorem mirrors_classDecl (d : ClassDecl) : Mirrors J (classDecl d) (classDecl (d.rename f)) := by
  unfold classDecl
  refine Mirrors.same.bind fun _ => (mirrors_requireName d.name).bind fun _ => ?_
  refine (mirrors_newClass d.name).bind fun cls => ?_
  have hbody : Mirrors J (inScope do
      require .lbrace d.lbrace
      varDecls d.fields
      setFields cls
      require .rbrace d.rbrace) (inScope do
      require .lbrace d.lbrace
      varDecls (d.fields.map (VarDecl.rename f))
      setFields cls
      require .rbrace d.rbrace) :=
    .inScope (Mirrors.same.bind fun _ => (mirrors_varDecls d.fields).bind fun _ => .same)
  obtain ⟨name, lbrace, fields, rbrace⟩ := d
  cases name with
  | none => exact hbody
  | some n => exact (mirrors_declare .typeName n _).discard.bind fun _ => hbody

theorem mirrors_declaration (d : Declaration) :
    Mirrors J (declaration d) (declaration (d.rename f)) := by
  cases d with
  | const d => exact mirrors_constDecl d
  | cls d => exact mirrors_classDecl d
  | vars d => exact mirrors_varDecl d
  | junk skipped semicolon =>
      rw [Declaration.rename, declaration]
      exact mirrors_junk (mirrors_anonymous (pure ()))

theorem mirrors_declarations (ds : List Declaration) :
    Mirrors J (declarations ds) (declarations (ds.map (Declaration.rename f))) := by
  induction ds with
  | nil =>
      rw [List.map_nil, declarations]
      exact .same
  | cons d rest ih =>
      rw [List.map_cons, declarations, declarations]
      exact (mirrors_declaration d).bind fun _ => ih

theorem mirrors_params (ps : List Param) :
    Mirrors J (params ps) (params (ps.map (Param.rename f))) := by
  induction ps with
  | nil =>
      rw [List.map_nil, params]
      exact .same
  | cons q rest ih =>
      rw [List.map_cons, params, params]
      have hq : Mirrors J (param q) (param (q.rename f)) :=
        (mirrors_typeRef q.type).bind fun ty => (mirrors_declareName .var ty q.name).discard
      exact hq.bind fun _ => mirrors_comma rest (List.isEmpty_map ..) ih

theorem mirrors_resultType (r : ResultType) :
    Mirrors J (resultType r) (resultType (r.rename f)) := by
  cases r with
  | void =>
      rw [ResultType.rename, resultType]
      exact .same
  | type r => exact mirrors_typeRef r

instance (result : Ty) (count : Nat) : Anonymous (checkMain result count) := by
  unfold checkMain; infer_instance

instance (result : Ty) : Anonymous (methodEnd result) := by unfold methodEnd; infer_instance

/-- A respelling keeps the name at which a program starts. -/
theorem isMain_rename (hf : Respelling f) (m : Method) : isMain (m.rename f) = isMain m := by
  have hmain := hf.reserved "main" (by simp)
  unfold isMain
  rw [Bool.eq_iff_iff, beq_iff_eq, beq_iff_eq]
  change m.name.map f = some mainName ↔ m.name = some mainName
  cases m.name with
  | none => simp
  | some n =>
      rw [Option.map_some, Option.some.injEq, Option.some.injEq]
      conv_lhs => rw [mainName, ← hmain]
      exact hf.injective.eq_iff

theorem mirrors_methodCode (m : Method) (result : Ty) (id : EntityId) (paramCount : Nat) :
    Mirrors J (methodCode m result id paramCount) (methodCode (m.rename f) result id paramCount) := by
  unfold methodCode methodBody
  rw [isMain_rename J.respelling]
  refine (mirrors_varDecls m.locals).bind fun _ => .names fun t t' ht => ?_
  dsimp only
  rw [ht.current.varCount, ht.current.locals]
  refine .noting (Mirrors.same.bind fun address => Mirrors.same.bind fun _ => .noting ?_)
  exact Mirrors.same.bind fun _ => (mirrors_stmts result m.body).bind fun _ => .same

/-- A method, its scope and its code. -/
theorem mirrors_method (m : Method) : Mirrors J (method m) (method (m.rename f)) := by
  unfold method
  rw [isMain_rename J.respelling]
  refine (mirrors_resultType m.result).bind fun result => ?_
  refine (mirrors_declareName .method result m.name).bind fun id => .inScope ?_
  refine Mirrors.same.bind fun _ => (mirrors_params m.params).bind fun _ => ?_
  refine .names fun t t' ht => ?_
  dsimp only
  rw [ht.current.varCount]
  exact .noting (Mirrors.same.bind fun _ => mirrors_methodCode m result id t.current.varCount)

theorem mirrors_methods (ms : List Method) :
    Mirrors J (methods ms) (methods (ms.map (Method.rename f))) := by
  induction ms with
  | nil =>
      rw [List.map_nil, methods]
      exact .same
  | cons m rest ih =>
      rw [List.map_cons, methods, methods]
      exact (mirrors_method m).bind fun _ => ih

/-- Passes over a tree and over the same tree under other names do the same up to names. -/
theorem mirrors_program (p : Program) : Mirrors J (program p) (program (p.rename f)) := by
  unfold program
  refine Mirrors.same.bind fun _ => ?_
  refine (mirrors_declareName .program .void p.name).discard.bind fun _ => ?_
  refine Mirrors.bind (.inScope ?_) fun globals => .same
  refine (mirrors_declarations p.declarations).bind fun _ => Mirrors.same.bind fun _ => ?_
  refine (mirrors_methods p.methods).bind fun _ => Mirrors.same.bind fun _ => ?_
  refine .get fun q q' hq => ?_
  rw [hq.code]
  refine .noting (.names fun t t' ht => ?_)
  rw [ht.current.varCount]
  exact .same

end Check

end MicroJava
