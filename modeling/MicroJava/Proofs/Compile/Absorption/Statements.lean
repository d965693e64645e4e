import MicroJava.Proofs.Compile.Absorption.Expressions

/-! # One misspelt name in a statement

A statement asks of an operand that it can be assigned to, read, printed or returned. What is left
of an operand after a mistake is accepted wherever the operand is. -/

namespace MicroJava

variable {n m : Nat}

/-- The type of a result, and what `n` mistakes leave of it. -/
structure Ty.Returns (n : Nat) (a b : Ty) : Prop where
  known : a.Known
  fades : a.Fades n b
  void : b = .void ↔ a = .void

theorem Ty.Returns.mono {a b : Ty} (h : a.Returns n b) (hnm : n ≤ m) : a.Returns m b :=
  ⟨h.known, h.fades.mono hnm, h.void⟩

set_option synthInstance.maxSize 1024

namespace Check

open Slip

variable {α : Type} {c : Slip} {ns : List (Role × String)} {x x' y y' : Operand}

/-- An operand that takes no value is reported. -/
def orComplain {γ : Type} : Except OperandError γ → Check Unit
  | .ok _ => return
  | .error e => report (.operand e)

instance {γ : Type} (r : Except OperandError γ) : Growing (orComplain r) := by
  cases r with
  | ok => exact inferInstanceAs (Growing (pure ()))
  | error e => exact inferInstanceAs (Growing (report _))

theorem assignment_eq (x y : Operand) :
    assignment x y = if y.ty.assignableTo x.ty then emitting (Emit.assign x y).run >>= orComplain
      else report .assignmentMismatch := by
  unfold assignment
  split
  · exact bind_congr fun r => by cases r <;> rfl
  · rfl

theorem readWith_eq (x : Operand) (i : Instruction) :
    readInto.readWith x i = (do emit i; emitting (Emit.store x).run >>= orComplain) := by
  unfold readInto.readWith
  exact bind_congr fun _ => bind_congr fun r => by cases r <;> rfl

theorem absorbs_orComplain {γ γ' : Type} {r : Except OperandError γ} {r' : Except OperandError γ'}
    (h : ∀ z, r = .ok z → ∃ z', r' = .ok z') :
    Absorbs c n [] (orComplain r) (orComplain r') any := by
  cases r with
  | error e => exact .report
  | ok z =>
      obtain ⟨z', rfl⟩ := h z rfl
      exact .pure trivial

theorem absorbs_assignment (hx : x.Leaves n x') (hy : y.Leaves n y') :
    Absorbs c n [] (assignment x y) (assignment x' y') any := by
  rw [assignment_eq, assignment_eq]
  by_cases hty : y.ty.assignableTo x.ty = true
  · rw [if_pos hty, if_pos (hy.fades.ty.assignableTo hx.fades.ty hty)]
    have hrun : Absorbs c n [] (emitting (Emit.assign x y).run) (emitting (Emit.assign x' y').run)
        fun _ r r' => ∀ z, r = .ok z → ∃ z', r' = .ok z' := by
      refine absorbs_emitting fun b b' => ?_
      rw [Emit.assign_fst, Emit.assign_fst]
      intro z hz
      cases hload : y.loaded with
      | error e =>
          rw [hload] at hz
          cases hz
      | ok w =>
          obtain ⟨w', hload', -⟩ := hy.loaded hload
          cases hstore : x.stored with
          | error e =>
              rw [hload, hstore] at hz
              cases hz
          | ok =>
              rw [hload', hx.stored hstore]
              exact ⟨w', rfl⟩
    exact hrun.seq fun r r' hr => absorbs_orComplain hr
  · rw [if_neg hty]
    exact .report

theorem absorbs_dropResult (x x' : Operand) :
    Absorbs c n [] (dropResult x) (dropResult x') any := by
  unfold dropResult
  split <;> split
  · exact absorbs_emit _ _
  · exact absorbs_emit_alone _
  · exact absorbs_emit_behind _
  · exact .pure trivial

theorem absorbs_returnValue {result result' : Ty} (h : result.Returns n result')
    (value : Option Expr) : Absorbs c n (value.elim [] fun e => e.outline.names)
      (returnValue result (value.map (Expr.rename c.spelling)))
      (returnValue result' (value.map (Expr.rename c.misspelling))) any := by
  cases value with
  | none => exact .finish h.void.2
  | some e =>
      simp only [Option.map_some, returnValue, Option.elim_some]
      refine (absorbs_expr e n).last fun m x x' hm hx => (absorbs_load hx).seq fun y y' hy => ?_
      by_cases hvoid : result = .void
      · rw [if_pos hvoid]
        exact .report
      · rw [if_neg hvoid, if_neg (mt h.void.1 hvoid)]
        exact .finish (hy.fades.ty.assignableTo (h.fades.mono hm))

theorem absorbs_readWith (hx : x.Leaves n x') (i : Instruction) :
    Absorbs c n [] (readInto.readWith x i) (readInto.readWith x' i) any := by
  have hrun : Absorbs c n [] (emitting (Emit.store x).run) (emitting (Emit.store x').run)
      fun _ r r' => ∀ z, r = .ok z → ∃ z', r' = .ok z' := by
    refine absorbs_emitting fun b b' => ?_
    rw [Emit.store_fst, Emit.store_fst]
    exact fun z hz => ⟨z, hx.stored hz⟩
  rw [readWith_eq, readWith_eq]
  exact (absorbs_emit _ _).seq fun _ _ _ => hrun.seq fun r r' hr => absorbs_orComplain hr

theorem absorbs_readWith_alone (x : Operand) (i : Instruction) :
    Absorbs c n [] (readInto.readWith x i) (pure ()) any := by
  rw [readWith_eq]
  refine (absorbs_emit_alone _).ahead fun _ _ => absorbs_writing_alone.ahead fun r _ => ?_
  cases r with
  | error e => exact .report
  | ok => exact .pure trivial

theorem absorbs_readInto (hx : x.Leaves n x') :
    Absorbs c n [] (readInto x) (readInto x') any := by
  obtain ⟨place, a⟩ := x
  obtain ⟨place', b⟩ := x'
  have hknown : a.Known := hx.known.ty
  have hfades : a.Fades n b := hx.fades.ty
  cases a with
  | error => exact hknown.elim
  | void | array | object => exact .report
  | int | char =>
      cases hfades with
      | refl => exact absorbs_readWith hx _
      | error => exact absorbs_readWith_alone _ _

/-- The same instruction, or none after a mistake. -/
def Printed (_ : Nat) (r r' : Option Instruction) : Prop :=
  ∃ i, r = some i ∧ (r' = some i ∨ r' = none)

theorem absorbs_printInstruction {a b : Ty} (ha : a.Known) (hab : a.Fades n b) :
    Absorbs c n [] (printInstruction a) (printInstruction b) Printed := by
  cases a with
  | error => exact ha.elim
  | void | array | object => exact .of_report
  | int | char =>
      cases hab with
      | refl => exact .pure ⟨_, rfl, .inl rfl⟩
      | error => exact .pure ⟨_, rfl, .inr rfl⟩

theorem absorbs_printWidth (width : WidthSpec) :
    Absorbs c n [] (printWidth width) (printWidth width) any := by
  cases width with
  | none => exact .pure trivial
  | missing => exact absorbs_consume.seq fun _ _ _ => .of_report
  | given value =>
      exact absorbs_consume.seq fun _ _ _ => absorbs_consume.seq fun _ _ _ => .pure trivial

theorem names_width (width : WidthSpec) : width.outline.names = [] := by
  cases width <;> rfl

/-- The code that prints a value, and what stands behind it. -/
def printValue (x : Operand) (instruction : Option Instruction) (width : Int32)
    (rparen semicolon : Mark) : Check Unit := do
  if let some i := instruction then
    discard <| load x
    emit (.const width)
    emit i
  require .rparen rparen
  require .semicolon semicolon

theorem stmt_print (result : Ty) (lparen : Mark) (value : Expr) (width : WidthSpec)
    (rparen semicolon : Mark) :
    stmt result (.print lparen value width rparen semicolon) = (do
      consume
      require .lparen lparen
      let x ← expr value
      let instruction ← printInstruction x.ty
      printValue x instruction (← printWidth width) rparen semicolon) := by
  rw [stmt]
  rfl

instance (x : Operand) (instruction : Option Instruction) (width : Int32)
    (rparen semicolon : Mark) : Growing (printValue x instruction width rparen semicolon) := by
  unfold printValue
  cases instruction <;> (dsimp only; infer_instance)

theorem absorbs_printValue (hx : x.Leaves n x') {r r' : Option Instruction} (hr : Printed n r r')
    (width width' : Int32) (rparen semicolon : Mark) :
    Absorbs c n [] (printValue x r width rparen semicolon)
      (printValue x' r' width' rparen semicolon) any := by
  have hend : Absorbs c n [] (do require .rparen rparen; require .semicolon semicolon)
      (do require .rparen rparen; require .semicolon semicolon) any :=
    (absorbs_require _ _).seq fun _ _ _ => absorbs_require _ _
  obtain ⟨i, rfl, rfl | rfl⟩ := hr
  · refine (absorbs_load hx).discard.seq fun _ _ _ => (absorbs_emit _ _).seq fun _ _ _ => ?_
    exact (absorbs_emit _ _).seq fun _ _ _ => hend
  · refine (absorbs_load_alone x).discard.ahead fun _ _ => (absorbs_emit_alone _).ahead ?_
    exact fun _ _ => (absorbs_emit_alone _).ahead fun _ _ => hend

/-- A condition in its parentheses and the jump behind it. -/
theorem absorbs_guard (lparen : Mark) (q : Condition) (rparen : Mark)
    {next next' : UInt16 → Check α} [∀ skip, Growing (next skip)] {R : Nat → α → α → Prop}
    (h : ∀ skip skip', Absorbs c (n + c.hits q.outline.names) ns (next skip) (next' skip') R) :
    Absorbs c n (q.outline.names ++ ns) (do
      require .lparen lparen
      let skip ← emitting (Emit.jumpUnless (← condition (q.rename c.spelling)))
      require .rparen rparen
      next skip) (do
      require .lparen lparen
      let skip ← emitting (Emit.jumpUnless (← condition (q.rename c.misspelling)))
      require .rparen rparen
      next' skip) R := by
  refine (absorbs_require _ _).seq fun _ _ _ => (absorbs_condition q n).bind fun _ _ _ => ?_
  refine absorbs_writing.seq fun _ _ _ => (absorbs_require _ _).seq fun _ _ _ => ?_
  exact h _ _

mutual

theorem absorbs_stmt {result result' : Ty} : ∀ (s : Stmt) (n : Nat), result.Returns n result' →
    Absorbs c n s.outline.names (stmt result (s.rename c.spelling))
      (stmt result' (s.rename c.misspelling)) any
  | .assign target value semicolon, n, _ => by
      rw [Stmt.rename, Stmt.rename, Stmt.outline, stmt, stmt]
      simp only [Outline.names_append, Outline.names_token, names_mark, List.append_nil,
        List.nil_append]
      refine (absorbs_designator target n).bind fun x x' hx => absorbs_consume.seq fun _ _ _ => ?_
      refine (absorbs_expr value _).last fun m y y' hm hy => ?_
      exact (absorbs_assignment (hx.mono hm) hy).seq fun _ _ _ => absorbs_require _ _
  | .call callee args rparen semicolon, n, _ => by
      rw [Stmt.rename, Stmt.rename, Stmt.outline, stmt, stmt]
      simp only [Outline.names_append, Outline.names_token, names_mark, List.append_nil,
        List.nil_append, length_renameAll]
      refine (absorbs_designator callee n).bind fun x x' hx => ?_
      refine (absorbs_callWith hx (absorbs_arguments args _) _ rparen).last fun m y y' _ _ => ?_
      exact (absorbs_dropResult y y').seq fun _ _ _ => absorbs_require _ _
  | .idle target semicolon, n, _ => by
      rw [Stmt.rename, Stmt.rename, Stmt.outline, stmt, stmt]
      simp only [Outline.names_append, names_gap, names_mark, List.append_nil]
      exact (absorbs_designator target n).discard.last fun _ _ _ _ _ => .of_report
  | .ifThen lparen cond rparen body, n, h => by
      rw [Stmt.rename, Stmt.rename, Stmt.outline, stmt, stmt]
      simp only [Outline.names_append, Outline.names_token, names_mark, List.nil_append]
      refine absorbs_consume.seq fun _ _ _ => absorbs_guard lparen cond rparen fun skip skip' => ?_
      have h₁ := h.mono (Nat.le_add_right n (c.hits cond.outline.names))
      exact (absorbs_stmt body _ h₁).last fun _ _ _ _ _ => absorbs_writing
  | .ifElse lparen cond rparen body alternative, n, h => by
      rw [Stmt.rename, Stmt.rename, Stmt.outline, stmt, stmt]
      simp only [Outline.names_append, Outline.names_token, names_mark, List.nil_append]
      refine absorbs_consume.seq fun _ _ _ => absorbs_guard lparen cond rparen fun skip skip' => ?_
      have h₁ := h.mono (Nat.le_add_right n (c.hits cond.outline.names))
      refine (absorbs_stmt body _ h₁).bind fun _ _ _ => absorbs_consume.seq fun _ _ _ => ?_
      refine absorbs_writing.seq fun _ _ _ => absorbs_writing.seq fun _ _ _ => ?_
      have h₂ := h₁.mono (Nat.le_add_right _ (c.hits body.outline.names))
      exact (absorbs_stmt alternative _ h₂).last fun _ _ _ _ _ => absorbs_writing
  | .loop lparen cond rparen body, n, h => by
      rw [Stmt.rename, Stmt.rename, Stmt.outline, stmt, stmt]
      simp only [Outline.names_append, Outline.names_token, names_mark, List.nil_append]
      refine absorbs_consume.seq fun _ _ _ => .get fun p p' _ => ?_
      refine absorbs_guard lparen cond rparen fun skip skip' => ?_
      refine (absorbs_stmt body _ (h.mono (Nat.le_add_right ..))).last fun _ _ _ _ _ => ?_
      exact absorbs_writing.discard.seq fun _ _ _ => absorbs_writing
  | .ret none semicolon, n, h => by
      rw [Stmt.rename, Stmt.rename, Stmt.outline, stmt, stmt]
      simp only [Outline.names_append, Outline.names_token, names_mark, List.append_nil]
      refine absorbs_consume.seq fun _ _ _ => (absorbs_returnValue h none).seq fun _ _ _ => ?_
      exact absorbs_writing.seq fun _ _ _ => absorbs_require _ _
  | .ret (some value) semicolon, n, h => by
      rw [Stmt.rename, Stmt.rename, Stmt.outline, stmt, stmt]
      simp only [Outline.names_append, Outline.names_token, names_mark, List.append_nil,
        List.nil_append]
      refine absorbs_consume.seq fun _ _ _ => ?_
      refine (absorbs_returnValue h (some value)).last fun _ _ _ _ _ => ?_
      exact absorbs_writing.seq fun _ _ _ => absorbs_require _ _
  | .read lparen target rparen semicolon, n, _ => by
      rw [Stmt.rename, Stmt.rename, Stmt.outline, stmt, stmt]
      simp only [Outline.names_append, Outline.names_token, names_mark, List.append_nil,
        List.nil_append]
      refine absorbs_consume.seq fun _ _ _ => (absorbs_require _ _).seq fun _ _ _ => ?_
      refine (absorbs_designator target n).last fun m x x' _ hx => (absorbs_readInto hx).seq ?_
      exact fun _ _ _ => (absorbs_require _ _).seq fun _ _ _ => absorbs_require _ _
  | .print lparen value width rparen semicolon, n, _ => by
      rw [Stmt.rename, Stmt.rename, Stmt.outline, stmt_print, stmt_print]
      simp only [Outline.names_append, Outline.names_token, names_mark, names_width,
        List.append_nil, List.nil_append]
      refine absorbs_consume.seq fun _ _ _ => (absorbs_require _ _).seq fun _ _ _ => ?_
      refine (absorbs_expr value n).last fun m x x' _ hx => ?_
      refine (absorbs_printInstruction hx.known.ty hx.fades.ty).seq fun r r' hr => ?_
      refine (absorbs_printWidth width).seq fun w w' _ => ?_
      exact absorbs_printValue hx hr w w' rparen semicolon
  | .block body rbrace, n, h => by
      rw [Stmt.rename, Stmt.rename, Stmt.outline, stmt, stmt]
      simp only [Outline.names_append, Outline.names_token, names_mark, List.append_nil,
        List.nil_append]
      refine absorbs_consume.seq fun _ _ _ => ?_
      exact (absorbs_stmts body n h).last fun _ _ _ _ _ => absorbs_require _ _
  | .empty, n, _ => by
      rw [Stmt.rename, Stmt.rename, stmt, stmt]
      exact absorbs_consume
  | .junk skipped semicolon next, n, _ => by
      rw [Stmt.rename, Stmt.rename, stmt]
      exact .of_junk _ _ _ _
  | .missing, n, _ => by
      rw [Stmt.rename, Stmt.rename, stmt, stmt]
      exact .pure trivial

theorem absorbs_stmts {result result' : Ty} : ∀ (body : List Stmt) (n : Nat),
    result.Returns n result' → Absorbs c n (Stmt.outlines body).names
      (stmts result (Stmt.renameAll c.spelling body))
      (stmts result' (Stmt.renameAll c.misspelling body)) any
  | [], n, _ => by
      rw [Stmt.renameAll, Stmt.renameAll, stmts, stmts]
      exact .pure trivial
  | s :: rest, n, h => by
      rw [Stmt.renameAll, Stmt.renameAll, Stmt.outlines, stmts, stmts]
      refine (absorbs_stmt s n h).bind fun _ _ _ => ?_
      exact absorbs_stmts rest _ (h.mono (Nat.le_add_right ..))

end

end Check

end MicroJava
