import Mathlib.Data.List.ReduceOption
import MicroJava.Proofs.Tree.Outline

/-! # Trees with other names

A tree keeps its shape when its names are replaced by others. -/

namespace MicroJava

section Rename

variable (f : String → String)

/-- Types are named like anything else, so the predeclared ones have to be kept by `f`. -/
def TypeRef.rename : TypeRef → TypeRef
  | .missing => .missing
  | .named name brackets => .named (f name) brackets

/-- All names of the declaration are replaced, those that are missing excepted. -/
def VarDecl.rename (d : VarDecl) : VarDecl :=
  { d with type := d.type.rename f, first := d.first.map f, others := d.others.map (Option.map f) }

def ConstDecl.rename (d : ConstDecl) : ConstDecl :=
  { d with type := d.type.rename f, name := d.name.map f }

/-- The class and its fields are called otherwise. -/
def ClassDecl.rename (d : ClassDecl) : ClassDecl :=
  { d with name := d.name.map f, fields := d.fields.map (VarDecl.rename f) }

/-- Skipped tokens have no names to replace. -/
def Declaration.rename : Declaration → Declaration
  | .const d => .const (d.rename f)
  | .cls d => .cls (d.rename f)
  | .vars d => .vars (d.rename f)
  | .junk skipped semicolon => .junk skipped semicolon

mutual

/-- Names in expressions, be they variables, methods, classes or fields. -/
@[simp] def Designator.rename : Designator → Designator
  | .missing => .missing
  | .name n => .name (f n)
  | .field base n => .field base.rename (n.map f)
  | .index base i rbracket => .index base.rename i.rename rbracket

@[simp] def Expr.rename : Expr → Expr
  | .number n => .number n
  | .char c => .char c
  | .value source => .value source.rename
  | .call callee args rparen => .call callee.rename (Expr.renameAll args) rparen
  | .newNothing => .newNothing
  | .newObject cls => .newObject (f cls)
  | .newArray elem size rbracket => .newArray (f elem) size.rename rbracket
  | .paren inner rparen => .paren inner.rename rparen
  | .negate operand => .negate operand.rename
  | .binary op left right => .binary op left.rename right.rename
  | .missing => .missing

@[simp] def Expr.renameAll : List Expr → List Expr
  | [] => []
  | e :: rest => e.rename :: Expr.renameAll rest

end

/-- Both sides of a comparison. -/
def Condition.rename (c : Condition) : Condition :=
  { c with left := c.left.rename f, right := c.right.rename f }

mutual

/-- The names of its expressions; a statement brings none of its own. -/
@[simp] def Stmt.rename : Stmt → Stmt
  | .assign target value semicolon => .assign (target.rename f) (value.rename f) semicolon
  | .call callee args rparen semicolon =>
      .call (callee.rename f) (Expr.renameAll f args) rparen semicolon
  | .idle target semicolon => .idle (target.rename f) semicolon
  | .ifThen lparen cond rparen body => .ifThen lparen (cond.rename f) rparen body.rename
  | .ifElse lparen cond rparen body alternative =>
      .ifElse lparen (cond.rename f) rparen body.rename alternative.rename
  | .loop lparen cond rparen body => .loop lparen (cond.rename f) rparen body.rename
  | .ret none semicolon => .ret none semicolon
  | .ret (some value) semicolon => .ret (some (value.rename f)) semicolon
  | .read lparen target rparen semicolon => .read lparen (target.rename f) rparen semicolon
  | .print lparen value width rparen semicolon =>
      .print lparen (value.rename f) width rparen semicolon
  | .block body rbrace => .block (Stmt.renameAll body) rbrace
  | .empty => .empty
  | .junk skipped semicolon next => .junk skipped semicolon next.rename
  | .missing => .missing

@[simp] def Stmt.renameAll : List Stmt → List Stmt
  | [] => []
  | s :: rest => s.rename :: Stmt.renameAll rest

end

def ResultType.rename : ResultType → ResultType
  | .void => .void
  | .type t => .type (t.rename f)

def Param.rename (q : Param) : Param := ⟨q.type.rename f, q.name.map f⟩

/-- The method, its parameters and local variables, and its body. -/
def Method.rename (m : Method) : Method :=
  { m with
    result := m.result.rename f
    name := m.name.map f
    params := m.params.map (Param.rename f)
    locals := m.locals.map (VarDecl.rename f)
    body := Stmt.renameAll f m.body }

/-- Every name of a program is replaced by another. -/
def Program.rename (p : Program) : Program :=
  { p with
    name := p.name.map f
    declarations := p.declarations.map (Declaration.rename f)
    methods := p.methods.map (Method.rename f) }

/-- Arguments are renamed one by one. -/
theorem Expr.renameAll_eq_map (args : List Expr) :
    Expr.renameAll f args = args.map (Expr.rename f) := by
  induction args with
  | nil => rw [Expr.renameAll, List.map_nil]
  | cons e rest ih => rw [Expr.renameAll, List.map_cons, ih]

/-- Statements are renamed one by one. -/
theorem Stmt.renameAll_eq_map (body : List Stmt) :
    Stmt.renameAll f body = body.map (Stmt.rename f) := by
  induction body with
  | nil => rw [Stmt.renameAll, List.map_nil]
  | cons s rest ih => rw [Stmt.renameAll, List.map_cons, ih]

end Rename

/-! ## Names that stay -/

theorem TypeRef.rename_id (t : TypeRef) : t.rename id = t := by cases t <;> rfl

theorem VarDecl.rename_id (d : VarDecl) : d.rename id = d := by
  simp [VarDecl.rename, TypeRef.rename_id]

theorem VarDecl.map_rename_id (ds : List VarDecl) : ds.map (VarDecl.rename id) = ds := by
  rw [show VarDecl.rename id = id from funext VarDecl.rename_id, List.map_id]

theorem Declaration.rename_id (d : Declaration) : d.rename id = d := by
  cases d <;> simp [Declaration.rename, ConstDecl.rename, ClassDecl.rename, TypeRef.rename_id,
    VarDecl.rename_id, VarDecl.map_rename_id]

mutual

/-- Nothing changes where every name is replaced by itself. -/
theorem Designator.rename_id : ∀ d : Designator, d.rename id = d
  | .missing | .name _ => by simp
  | .field base n => by simp [Designator.rename_id base]
  | .index base i _ => by
      simp [Designator.rename_id base, Expr.rename_id i]

theorem Expr.rename_id : ∀ e : Expr, e.rename id = e
  | .number _ | .char _ | .newNothing | .newObject _ | .missing => by simp
  | .value source => by simp [Designator.rename_id source]
  | .call callee args _ => by
      simp [Designator.rename_id callee, Expr.renameAll_id args]
  | .newArray _ size _ => by simp [Expr.rename_id size]
  | .paren inner _ => by simp [Expr.rename_id inner]
  | .negate operand => by simp [Expr.rename_id operand]
  | .binary _ left right => by simp [Expr.rename_id left, Expr.rename_id right]

theorem Expr.renameAll_id : ∀ args : List Expr, Expr.renameAll id args = args
  | [] => by rw [Expr.renameAll]
  | e :: rest => by rw [Expr.renameAll, Expr.rename_id e, Expr.renameAll_id rest]

end

theorem Condition.rename_id (c : Condition) : c.rename id = c := by
  simp [Condition.rename, Expr.rename_id]

mutual

/-- Statements keep their form and their names. -/
theorem Stmt.rename_id : ∀ s : Stmt, s.rename id = s
  | .assign .. | .idle .. | .ret none _ | .read .. | .empty | .missing => by
      simp [Designator.rename_id, Expr.rename_id]
  | .call .. => by simp [Designator.rename_id, Expr.renameAll_id]
  | .ret (some _) _ | .print .. => by simp [Expr.rename_id]
  | .ifThen _ _ _ body | .loop _ _ _ body => by
      simp [Condition.rename_id, Stmt.rename_id body]
  | .ifElse _ _ _ body alternative => by
      simp [Condition.rename_id, Stmt.rename_id body, Stmt.rename_id alternative]
  | .block body _ => by simp [Stmt.renameAll_id body]
  | .junk _ _ next => by simp [Stmt.rename_id next]

theorem Stmt.renameAll_id : ∀ body : List Stmt, Stmt.renameAll id body = body
  | [] => by rw [Stmt.renameAll]
  | s :: rest => by rw [Stmt.renameAll, Stmt.rename_id s, Stmt.renameAll_id rest]

end

theorem Method.rename_id (m : Method) : m.rename id = m := by
  have hresult : m.result.rename id = m.result := by
    cases m.result <;> simp [ResultType.rename, TypeRef.rename_id]
  have hparams : m.params.map (Param.rename id) = m.params := by
    rw [show Param.rename id = id from funext fun q => by simp [Param.rename, TypeRef.rename_id],
      List.map_id]
  simp [Method.rename, hresult, hparams, VarDecl.map_rename_id, Stmt.renameAll_id]

/-- A program is itself where every name is kept. -/
theorem Program.rename_id (p : Program) : p.rename id = p := by
  have hdecls : p.declarations.map (Declaration.rename id) = p.declarations := by
    rw [show Declaration.rename id = id from funext Declaration.rename_id, List.map_id]
  have hmethods : p.methods.map (Method.rename id) = p.methods := by
    rw [show Method.rename id = id from funext Method.rename_id, List.map_id]
  simp [Program.rename, hdecls, hmethods]

/-! ## Fields -/

/-- The names that are declared. -/
def VarDecl.names (d : VarDecl) : List String := (d.first :: d.others).reduceOption

/-- The class is called `cls` and declares `field`. -/
def ClassDecl.HasField (d : ClassDecl) (cls field : String) : Prop :=
  d.name = some cls ∧ ∃ v ∈ d.fields, field ∈ v.names

/-- A class of that name declares the field. -/
def Program.HasField (p : Program) (cls field : String) : Prop :=
  ∃ d, .cls d ∈ p.declarations ∧ d.HasField cls field

theorem VarDecl.names_rename (f : String → String) (d : VarDecl) :
    (d.rename f).names = d.names.map f := by
  rw [VarDecl.names, VarDecl.names, ← List.reduceOption_map]
  rfl

/-- Fields go along with their class. -/
theorem ClassDecl.HasField.rename {d : ClassDecl} {cls field : String} (h : d.HasField cls field)
    (f : String → String) : (d.rename f).HasField (f cls) (f field) := by
  obtain ⟨hname, v, hv, hfield⟩ := h
  refine ⟨congrArg (Option.map f) hname, v.rename f, List.mem_map_of_mem hv, ?_⟩
  rw [VarDecl.names_rename]
  exact List.mem_map_of_mem hfield

/-- What was a field of a class is one under the new names. -/
theorem Program.HasField.rename {p : Program} {cls field : String} (h : p.HasField cls field)
    (f : String → String) : (p.rename f).HasField (f cls) (f field) := by
  obtain ⟨d, hd, hfield⟩ := h
  exact ⟨d.rename f, List.mem_map_of_mem hd, hfield.rename f⟩

/-! ## Outlines -/

namespace Outline

/-- The same outline with other names. -/
def rename (f : String → String) (o : Outline) : Outline :=
  { o with names := o.names.map fun name => (name.1, f name.2) }

variable (f : String → String)

/-- The names of two outlines are replaced in each of them. -/
@[simp] theorem rename_append (o o' : Outline) :
    (o ++ o').rename f = o.rename f ++ o'.rename f := by
  ext1
  · rfl
  · rfl
  · exact List.map_append

@[simp] theorem rename_nil : nil.rename f = nil := rfl

@[simp] theorem rename_token : token.rename f = token := rfl

@[simp] theorem rename_gap : gap.rename f = gap := rfl

@[simp] theorem rename_passed (skipped : Nat) (semicolon : Bool) :
    (passed skipped semicolon).rename f = passed skipped semicolon := rfl

@[simp] theorem rename_mark (mark : Mark) : mark.outline.rename f = mark.outline := by
  cases mark <;> rfl

@[simp] theorem rename_present {α : Type} (value : Option α) :
    (present value).rename f = present value := by
  cases value <;> rfl

@[simp] theorem rename_comma {α : Type} (rest : List α) : (comma rest).rename f = comma rest := by
  cases rest <;> rfl

/-- Commas do not depend on the names between them. -/
theorem comma_map {α β : Type} (g : α → β) (rest : List α) : comma (rest.map g) = comma rest := by
  cases rest <;> rfl

/-- A missing name is missing under any naming. -/
@[simp] theorem ident_map (role : Role) (name : Option String) :
    ident role (name.map f) = (ident role name).rename f := by
  cases name <;> rfl

/-- Items are renamed one by one. -/
theorem concat_map {α : Type} {outline : α → Outline} {g : α → α}
    (h : ∀ a, outline (g a) = (outline a).rename f) (items : List α) :
    concat outline (items.map g) = (concat outline items).rename f := by
  induction items with
  | nil => rfl
  | cons a rest ih => rw [List.map_cons, concat, concat, h, ih, rename_append]

end Outline

open Outline

variable (f : String → String)

@[simp] theorem TypeRef.outline_rename (t : TypeRef) :
    (t.rename f).outline = t.outline.rename f := by
  cases t with
  | missing => rfl
  | named name brackets => cases brackets <;> simp [TypeRef.rename, TypeRef.outline] <;> rfl

theorem otherNames_map (others : List (Option String)) :
    otherNames (others.map (Option.map f)) = (otherNames others).rename f := by
  induction others with
  | nil => rfl
  | cons name rest ih => simp [otherNames, ih]

theorem VarDecl.outline_rename (d : VarDecl) : (d.rename f).outline = d.outline.rename f := by
  simp [VarDecl.outline, VarDecl.rename, otherNames_map]

/-- The outline of a declaration changes in its names only. -/
theorem Declaration.outline_rename (d : Declaration) :
    (d.rename f).outline = d.outline.rename f := by
  cases d with
  | const d => simp [Declaration.rename, Declaration.outline, ConstDecl.rename, ConstDecl.outline]
  | cls d =>
      simp [Declaration.rename, Declaration.outline, ClassDecl.rename, ClassDecl.outline,
        concat_map f (VarDecl.outline_rename f)]
  | vars d => exact d.outline_rename f
  | junk skipped semicolon => rfl

mutual

/-- Renaming an expression renames its outline, one case per form. -/
theorem Designator.outline_rename : ∀ d : Designator, (d.rename f).outline = d.outline.rename f
  | .missing => by rw [Designator.rename, Designator.outline, rename_gap]
  | .name n => by rw [Designator.rename, Designator.outline, Designator.outline]; rfl
  | .field base n => by
      simp [Designator.outline_rename base]
  | .index base i _ => by
      simp [Designator.outline_rename base, Expr.outline_rename i]

theorem Expr.outline_rename : ∀ e : Expr, (e.rename f).outline = e.outline.rename f
  | .number _ | .char _ | .newNothing | .missing => by simp
  | .newObject _ => by simp; rfl
  | .value source => by simp [Designator.outline_rename source]
  | .call callee args _ => by
      simp [Designator.outline_rename callee, Expr.outlines_rename args]
  | .newArray _ size _ => by
      simp [Expr.outline_rename size]
      rfl
  | .paren inner _ => by simp [Expr.outline_rename inner]
  | .negate operand => by simp [Expr.outline_rename operand]
  | .binary _ left right => by
      simp [Expr.outline_rename left, Expr.outline_rename right]

theorem Expr.outlines_rename : ∀ args : List Expr,
    Expr.outlines (Expr.renameAll f args) = (Expr.outlines args).rename f
  | [] => by rw [Expr.renameAll, Expr.outlines, rename_nil]
  | e :: rest => by
      have hcomma : comma (Expr.renameAll f rest) = comma rest := by
        rw [Expr.renameAll_eq_map, comma_map]
      simp [Expr.outline_rename e, Expr.outlines_rename rest, hcomma]

end

theorem Condition.outline_rename (c : Condition) : (c.rename f).outline = c.outline.rename f := by
  simp [Condition.rename, Condition.outline, Expr.outline_rename]

@[simp] theorem WidthSpec.outline_rename (width : WidthSpec) :
    width.outline.rename f = width.outline := by
  cases width <;> rfl

mutual

/-- Renaming a statement renames its outline. -/
theorem Stmt.outline_rename : ∀ s : Stmt, (s.rename f).outline = s.outline.rename f
  | .assign .. | .idle .. | .ret none _ | .read .. | .empty | .missing => by
      simp [Designator.outline_rename, Expr.outline_rename]
  | .call .. => by
      simp [Designator.outline_rename, Expr.outlines_rename]
  | .ret (some _) _ | .print .. => by simp [Expr.outline_rename]
  | .ifThen _ _ _ body | .loop _ _ _ body => by
      simp [Condition.outline_rename, Stmt.outline_rename body]
  | .ifElse _ _ _ body alternative => by
      simp [Condition.outline_rename, Stmt.outline_rename body, Stmt.outline_rename alternative]
  | .block body _ => by simp [Stmt.outlines_rename body]
  | .junk _ _ next => by simp [Stmt.outline_rename next]

theorem Stmt.outlines_rename : ∀ body : List Stmt,
    Stmt.outlines (Stmt.renameAll f body) = (Stmt.outlines body).rename f
  | [] => by rw [Stmt.renameAll, Stmt.outlines, rename_nil]
  | s :: rest => by
      simp [Stmt.outline_rename s, Stmt.outlines_rename rest]

end

theorem Param.outlines_rename (ps : List Param) :
    Param.outlines (ps.map (Param.rename f)) = (Param.outlines ps).rename f := by
  induction ps with
  | nil => rfl
  | cons q rest ih => simp [Param.outlines, Param.outline, Param.rename, ih, comma_map]

/-- The outline of a method is renamed part by part. -/
theorem Method.outline_rename (m : Method) : (m.rename f).outline = m.outline.rename f := by
  have hresult : (m.result.rename f).outline = m.result.outline.rename f := by
    cases m.result <;> simp [ResultType.rename, ResultType.outline]
  simp [Method.rename, Method.outline, hresult, Param.outlines_rename, Stmt.outlines_rename,
    concat_map f (VarDecl.outline_rename f)]

/-- A tree with other names is the same in outline, apart from the names. -/
theorem Program.outline_rename (p : Program) : (p.rename f).outline = p.outline.rename f := by
  have hended : (if p.ended = .missing then gap else nil).rename f =
      if p.ended = .missing then gap else nil := by
    split <;> rfl
  rw [Program.outline, Program.outline]
  simp only [rename_append, rename_mark, hended, ← ident_map,
    ← concat_map f (Declaration.outline_rename f), ← concat_map f (Method.outline_rename f)]
  rfl

end MicroJava
