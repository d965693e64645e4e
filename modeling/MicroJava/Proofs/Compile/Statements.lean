import MicroJava.Proofs.Compile.Expressions

/-! # Statements without a fault

A forward jump is written without its target and completed when the code in between is there. What
is left behind is the code that has the target from the start. -/

namespace MicroJava

open Resolved (Env Referent Location addressOf resolveDesignator resolveExpr resolveCondition
  resolveStmt resolveStmts resolvePlace resolveReturn codeSize)

/-- The code of a statement that was written at the end of a buffer. -/
def WritesAt (env : Env) (g : Progress) (b b' : CodeBuffer)
    (code : Resolved.Layout → Nat → List Instruction) : Prop :=
  ∀ layout, Covers env g layout → b' = b.written (code layout b.bytes.size)

theorem Writes.writesAt {env : Env} {g : Progress} {b b' : CodeBuffer}
    {code : Resolved.Layout → List Instruction} (h : Writes env g b b' code)
    {code' : Resolved.Layout → Nat → List Instruction}
    (hc : ∀ layout, code layout = code' layout b.bytes.size) : WritesAt env g b b' code' := by
  intro layout hl
  rw [← hc layout]
  exact h layout hl

namespace Check

variable {g : Progress} {env : Env} {t t' : NameTable} {b b' : CodeBuffer}

theorem condition_agrees (hr : Ready g env t) {c : Condition} {rel : Comparison}
    (h : (condition c).Gives t b rel t' b') :
    t' = t ∧ ∃ rc, resolveCondition env c = some rc ∧ rc.rel = rel ∧
      Writes env g b b' fun layout => rc.code layout := by
  obtain ⟨left, rel?, right⟩ := c
  rw [condition] at h
  obtain ⟨x₁, t₁, b₁, h₁, k₁⟩ := h.parts fun _ => by
    refine Growing.bind inferInstance fun _ => ?_
    split <;> infer_instance
  obtain ⟨x₂, t₂, b₂, h₂, k₂⟩ := k₁.parts fun _ => by split <;> infer_instance
  cases rel? with
  | none =>
      obtain ⟨u, t₃, b₃, hrep, -⟩ := k₂.bind
      exact absurd hrep not_gives_report
  | some op =>
      have k₃ := k₂.consumed
      dsimp only [Option.getD_some] at k₃
      obtain ⟨y₄, t₄, b₄, h₄, k₄⟩ := k₃.bind
      obtain ⟨y₅, t₅, b₅, h₅, k₅⟩ := k₄.bind
      obtain ⟨hc, k₆⟩ := k₅.unreported
      obtain ⟨hord, k₇⟩ := k₆.unreported
      obtain ⟨rfl, rfl, rfl⟩ := k₇.pure
      obtain ⟨rfl, hleft⟩ := expr_agrees hr left _ _ _ _ h₁
      obtain ⟨rfl, rfl, v, hv, hw⟩ := hleft.load h₂
      obtain ⟨rfl, hright⟩ := expr_agrees hr right _ _ _ _ h₄
      obtain ⟨rfl, rfl, w, hw', hww⟩ := hright.load h₅
      have hpv := Resolved.resolveExpr_proper hr.wellFormed hv
      have hpw := Resolved.resolveExpr_proper hr.wellFormed hw'
      have hty : x₁.ty = y₄.ty :=
        Resolved.eq_of_compatible hpv hpw (by simpa [Operand.onStack] using hc)
      have hrel : x₁.ty.isReference = true → rel.isEquality = true := by
        intro href
        simpa [Operand.onStack, href] using hord
      refine ⟨rfl, ⟨v, rel, w⟩, ?_, rfl, hw.trans hww⟩
      rw [hty] at hrel hv
      simp only [resolveCondition, hv, hw', Option.bind_eq_bind, Option.bind_some, true_and]
      rw [if_pos hrel]
      rfl

/-! ## Parts of statements -/

/-- A value that fits a place is loaded and stored there. -/
theorem Gives.assignment {x y : Operand} {u : Unit} {e : Expr} {r : Referent} {b₀ : CodeBuffer}
    (h : (assignment x y).Gives t b u t' b') (hw : env.WellFormed) (hx : Refers g t x r)
    (hr : r.Ok env.context x.ty) (hy : Agree env g e b₀ y b) :
    t' = t ∧ ∃ loc v, r = .place loc ∧ resolveExpr env e = some (v, x.ty) ∧
      Writes env g b₀ b' fun layout => v.code layout ++ [loc.store] := by
  rw [Check.assignment] at h
  split at h
  · next hassign =>
      obtain ⟨result, t₁, b₁, h₁, k₁⟩ := h.parts fun _ => by split <;> infer_instance
      have hf := h₁.fits
      obtain ⟨rfl, he⟩ := h₁.emitting
      cases result with
      | error e => exact absurd k₁ not_gives_report
      | ok z =>
          obtain ⟨-, rfl, rfl⟩ := k₁.pure
          obtain ⟨i, hm, hi, rfl⟩ := Emit.assign_eq he hf hx.place_ne
          obtain ⟨loc, rfl, rfl⟩ := hx.storing? hi
          rcases hy with ⟨id, hid, -⟩ | ⟨v, before, hv, hh, hwr⟩
          · exact absurd hid (hm id)
          · have hpx := Resolved.LocationType.proper hw.proper loc x.ty hr
            have hpv := Resolved.resolveExpr_proper hw hv
            rw [Resolved.eq_of_assignableTo hpv hpx hassign] at hv
            refine ⟨rfl, loc, v, rfl, hv, (hwr.append _).congr ?_⟩
            intro layout
            rw [← List.append_assoc, hh.code]
  · exact absurd h not_gives_report

theorem Gives.dropResult {ty : Ty} {u : Unit} (h : (dropResult (.onStack ty)).Gives t b u t' b') :
    t' = t ∧ b' = b.written (if ty = .void then [] else [.pop]) := by
  rw [Check.dropResult] at h
  split at h
  · next hc =>
      have hty : ty ≠ .void := by simpa [Operand.onStack] using hc
      rw [if_neg hty]
      exact h.emit
  · next hc =>
      have hty : ty = .void := by simpa [Operand.onStack] using hc
      obtain ⟨-, rfl, rfl⟩ := h.pure
      rw [if_pos hty, CodeBuffer.written_nil]
      exact ⟨rfl, rfl⟩

theorem Gives.returnValue {result : Ty} (hres : result ≠ .void → Resolved.IsProper result)
    {value : Option Expr} {u : Unit} (hr : Ready g env t)
    (h : (returnValue result value).Gives t b u t' b') :
    t' = t ∧ ∃ v, resolveReturn env result value = some v ∧
      Writes env g b b' fun layout => (v.map fun e => e.code layout).getD [] := by
  cases value with
  | some e =>
      rw [Check.returnValue] at h
      obtain ⟨x₁, t₁, b₁, h₁, k₁⟩ := h.bind
      obtain ⟨x₂, t₂, b₂, h₂, k₂⟩ := k₁.bind
      obtain ⟨rfl, he⟩ := expr_agrees hr e _ _ _ _ h₁
      obtain ⟨rfl, rfl, v, hv, hw⟩ := he.load h₂
      split at k₂
      · exact absurd k₂ not_gives_report
      · next hvoid =>
          split at k₂
          · next hassign =>
              obtain ⟨-, rfl, rfl⟩ := k₂.pure
              have hpv := Resolved.resolveExpr_proper hr.wellFormed hv
              have hty := Resolved.eq_of_assignableTo hpv (hres hvoid) hassign
              refine ⟨rfl, some v, ?_, hw⟩
              simp [resolveReturn, hv, hvoid, Resolved.required, hty]
          · exact absurd k₂ not_gives_report
  | none =>
      rw [Check.returnValue] at h
      split at h
      · next hvoid =>
          obtain ⟨-, rfl, rfl⟩ := h.pure
          exact ⟨rfl, none, by simp [resolveReturn, hvoid], writes_nil env g _⟩
      · exact absurd h not_gives_report

theorem Gives.readWith {x : Operand} {r : Referent} {i : Instruction} {u : Unit}
    (h : (readInto.readWith x i).Gives t b u t' b') (hx : Refers g t x r) :
    t' = t ∧ ∃ loc, r = .place loc ∧ b' = b.written [i, loc.store] := by
  rw [readInto.readWith] at h
  obtain ⟨u₁, t₁, b₁, h₁, k₁⟩ := h.parts fun _ =>
    Growing.bind inferInstance fun r => by split <;> infer_instance
  obtain ⟨rfl, rfl⟩ := h₁.emit
  obtain ⟨result, t₂, b₂, h₂, k₂⟩ := k₁.parts fun _ => by split <;> infer_instance
  have hf := h₂.fits
  obtain ⟨rfl, he⟩ := h₂.emitting
  cases result with
  | error e => exact absurd k₂ not_gives_report
  | ok z =>
      obtain ⟨-, rfl, rfl⟩ := k₂.pure
      obtain ⟨j, hj, rfl⟩ := Emit.store_eq he hf hx.place_ne
      obtain ⟨loc, rfl, rfl⟩ := hx.storing? hj
      exact ⟨rfl, loc, rfl, CodeBuffer.written_written _ _ _⟩

theorem Gives.readInto {x : Operand} {r : Referent} {u : Unit}
    (h : (readInto x).Gives t b u t' b') (hx : Refers g t x r) (hp : x.ty ≠ .error) :
    t' = t ∧ ∃ loc form, r = .place loc ∧ Resolved.Textual.of? x.ty = some form ∧
      b' = b.written [form.reads, loc.store] := by
  rw [Check.readInto] at h
  split at h
  · next hty =>
      obtain ⟨rfl, loc, rfl, rfl⟩ := h.readWith hx
      exact ⟨rfl, loc, .number, rfl, by rw [hty]; rfl, rfl⟩
  · next hty =>
      obtain ⟨rfl, loc, rfl, rfl⟩ := h.readWith hx
      exact ⟨rfl, loc, .char, rfl, by rw [hty]; rfl, rfl⟩
  · next hty => exact absurd hty hp
  · exact absurd h not_gives_report

theorem Gives.printInstruction {ty : Ty} {i : Option Instruction}
    (h : (printInstruction ty).Gives t b i t' b') (hp : ty ≠ .error) :
    t' = t ∧ b' = b ∧ ∃ form, Resolved.Textual.of? ty = some form ∧ i = some form.prints := by
  rw [Check.printInstruction.eq_def] at h
  split at h
  · obtain ⟨rfl, rfl, rfl⟩ := h.pure
    exact ⟨rfl, rfl, .number, rfl, rfl⟩
  · obtain ⟨rfl, rfl, rfl⟩ := h.pure
    exact ⟨rfl, rfl, .char, rfl, rfl⟩
  · exact absurd rfl hp
  · obtain ⟨u₁, t₁, b₁, hrep, -⟩ := h.bind
    exact absurd hrep not_gives_report

theorem Gives.printWidth {width : WidthSpec} {w : Int32}
    (h : (printWidth width).Gives t b w t' b') :
    t' = t ∧ b' = b ∧ Resolved.widthOf width = some w := by
  cases width with
  | none =>
      obtain ⟨rfl, rfl, rfl⟩ := h.pure
      exact ⟨rfl, rfl, rfl⟩
  | missing =>
      obtain ⟨u₁, t₁, b₁, hrep, -⟩ := (Gives.consumed h).bind
      exact absurd hrep not_gives_report
  | given width =>
      obtain ⟨rfl, rfl, rfl⟩ := (Gives.consumed h).consumed.pure
      exact ⟨rfl, rfl, rfl⟩

theorem Gives.jumpUnless {rel : Comparison} {adr : UInt16}
    (h : (Check.emitting (Emit.jumpUnless rel)).Gives t b adr t' b') :
    t' = t ∧ b' = b.written [.jumpIf rel.negation 0] ∧ adr.toNat = b.bytes.size + 1 := by
  have hf := h.fits
  obtain ⟨rfl, he⟩ := h.emitting
  exact ⟨rfl, Emit.jumpUnless_eq he hf⟩

theorem Gives.jump {target adr : UInt16}
    (h : (Check.emitting (Emit.jump target)).Gives t b adr t' b') :
    t' = t ∧ b' = b.written [.jump target] ∧ adr.toNat = b.bytes.size + 1 := by
  have hf := h.fits
  obtain ⟨rfl, he⟩ := h.emitting
  exact ⟨rfl, Emit.jump_eq he hf⟩

theorem Gives.land {make : UInt16 → Instruction} (hm : CodeBuffer.Targeted make)
    {old adr : UInt16} {is : List Instruction} {u : Unit} {b₀ : CodeBuffer}
    (h : (Check.emitting (Emit.land adr)).Gives t b u t' b') (hadr : adr.toNat = b₀.bytes.size + 1)
    (hb : b = b₀.written (make old :: is)) :
    t' = t ∧
      b' = b₀.written (make (addressOf (b₀.bytes.size + codeSize (make old :: is))) :: is) := by
  subst hb
  have hf := h.fits_before
  obtain ⟨rfl, he⟩ := h.emitting
  exact ⟨rfl, Emit.land_written hm hadr hf he⟩

theorem Gives.leave {u : Unit} (h : (Check.emitting Emit.leave).Gives t b u t' b') :
    t' = t ∧ b' = b.written [.exit, .ret] := by
  have hf := h.fits
  obtain ⟨rfl, he⟩ := h.emitting
  exact ⟨rfl, Emit.leave_eq he hf⟩

/-! ## Whole statements

One lemma for each form of a statement. Those of compound statements assume of their parts what they
conclude of the whole. -/

/-- A statement checked without a fault resolves, and what was written is its code. The names stay
as they are. -/
def StmtAgrees (g : Progress) (env : Env) (t : NameTable) (result : Ty) (s : Stmt) : Prop :=
  ∀ b u t' b', (stmt result s).Gives t b u t' b' →
    t' = t ∧ ∃ rs, resolveStmt env result s = some rs ∧
      WritesAt env g b b' fun layout start => rs.code layout start

/-- The same for the statements of a block. -/
def StmtsAgree (g : Progress) (env : Env) (t : NameTable) (result : Ty) (ss : List Stmt) : Prop :=
  ∀ b u t' b', (stmts result ss).Gives t b u t' b' →
    t' = t ∧ ∃ rss, resolveStmts env result ss = some rss ∧
      WritesAt env g b b' fun layout start => Resolved.stmtsCode layout start rss

section Forms

set_option synthInstance.maxSize 512

variable {result : Ty} {lparen rparen semicolon : Mark}

theorem StmtAgrees.assign (hr : Ready g env t) (target : Designator) (value : Expr) :
    StmtAgrees g env t result (.assign target value semicolon) := by
  intro b u t' b' h
  rw [stmt] at h
  obtain ⟨x₁, t₁, b₁, h₁, k₁⟩ := h.bind
  obtain ⟨y₂, t₂, b₂, h₂, k₂⟩ := k₁.consumed.bind
  obtain ⟨u₃, t₃, b₃, h₃, k₃⟩ := k₂.bind
  obtain ⟨rfl, r, hres', hrefers, hw⟩ := designator_agrees hr target _ _ _ _ h₁
  obtain ⟨rfl, hy⟩ := expr_agrees hr value _ _ _ _ h₂
  have hok := Resolved.resolveDesignator_ok hr.wellFormed target _ _ hres'
  obtain ⟨rfl, loc, v, rfl, hv, hw'⟩ := h₃.assignment hr.wellFormed hrefers hok hy
  obtain ⟨rfl, rfl⟩ := k₃.require
  refine ⟨rfl, .assign loc v, ?_, (hw.trans hw').writesAt ?_⟩
  · simp [resolveStmt, resolvePlace, hres', hv, Resolved.required]
  · intro layout
    rw [Resolved.Stmt.code, ← List.append_assoc]
    rfl

theorem StmtAgrees.call (hr : Ready g env t) (callee : Designator) (args : List Expr) :
    StmtAgrees g env t result (.call callee args rparen semicolon) := by
  intro b u t' b' h
  rw [stmt] at h
  obtain ⟨x₁, t₁, b₁, h₁, k₁⟩ := h.bind
  obtain ⟨z₂, t₂, b₂, h₂, k₂⟩ := k₁.bind
  obtain ⟨u₃, t₃, b₃, h₃, k₃⟩ := k₂.bind
  obtain ⟨rfl, r, hres', hrefers, hw⟩ := designator_agrees hr callee _ _ _ _ h₁
  obtain ⟨rfl, rfl, routine, params, es, rfl, hes, hlen, hw'⟩ :=
    callWith_agrees h₂ hrefers (arguments_agree hr args)
  obtain ⟨rfl, rfl⟩ := h₃.dropResult
  obtain ⟨rfl, rfl⟩ := k₃.require
  have hok := Resolved.resolveDesignator_ok hr.wellFormed callee _ _ hres'
  obtain ⟨rs, hrs, hcode⟩ := Resolved.Routine.code_perform hok hlen
  refine ⟨rfl, rs, by simp [resolveStmt, hres', hes, hrs], ?_⟩
  exact ((hw.trans hw').append _).writesAt fun layout => (hcode layout _).symm

/-- What conditional statements and loops begin with: the condition, a jump that has no target yet,
and the body the jump leads around. -/
theorem guarded_agrees (hr : Ready g env t) {cond : Condition} {body : Stmt}
    (hbody : StmtAgrees g env t result body) {rest : UInt16 → Check Unit}
    [∀ adr, Growing (rest adr)] {u : Unit}
    (h : (do
      let skip ← emitting (Emit.jumpUnless (← condition cond))
      require .rparen rparen
      stmt result body
      rest skip).Gives t b u t' b') :
    ∃ c rs adr b₁ b₂, resolveCondition env cond = some c ∧
      resolveStmt env result body = some rs ∧ adr.toNat = b₁.bytes.size + 1 ∧
      (Writes env g b b₁ fun layout => c.code layout) ∧
      (WritesAt env g b₁ b₂ fun layout start =>
        .jumpIf c.rel.negation 0 :: rs.code layout (start + Resolved.jumpSize)) ∧
      (rest adr).Gives t b₂ u t' b' := by
  obtain ⟨rel, t₁, b₁, h₁, k₁⟩ := h.bind
  obtain ⟨skip, t₂, b₂, h₂, k₂⟩ := k₁.bind
  obtain ⟨u₃, t₃, b₃, h₃, k₃⟩ := k₂.demanded.bind
  obtain ⟨rfl, c, hc, rfl, hw⟩ := condition_agrees hr h₁
  obtain ⟨rfl, rfl, hskip⟩ := h₂.jumpUnless
  obtain ⟨rfl, rs, hrs, hw'⟩ := hbody _ _ _ _ h₃
  refine ⟨c, rs, skip, b₁, b₃, hc, hrs, hskip, hw, ?_, k₃⟩
  intro layout hl
  have hb₃ := hw' layout hl
  rw [CodeBuffer.written_written] at hb₃
  rw [hb₃]
  simp [Resolved.jumpSize]

theorem StmtAgrees.ifThen (hr : Ready g env t) (cond : Condition) {body : Stmt}
    (hbody : StmtAgrees g env t result body) :
    StmtAgrees g env t result (.ifThen lparen cond rparen body) := by
  intro b u t' b' h
  rw [stmt] at h
  obtain ⟨c, rs, skip, b₁, b₂, hc, hrs, hskip, hw, hw', k⟩ :=
    guarded_agrees hr hbody h.consumed.demanded
  refine ⟨k.emitting.1, .ifThen c rs, by simp [resolveStmt, hc, hrs], ?_⟩
  intro layout hl
  obtain ⟨-, hb'⟩ := k.land (CodeBuffer.targeted_jumpIf _) hskip (hw' layout hl)
  rw [hb', hw layout hl, CodeBuffer.written_written]
  simp [Resolved.Stmt.code, Nat.add_assoc]

theorem StmtAgrees.ifElse (hr : Ready g env t) (cond : Condition) {body alternative : Stmt}
    (hbody : StmtAgrees g env t result body) (halt : StmtAgrees g env t result alternative) :
    StmtAgrees g env t result (.ifElse lparen cond rparen body alternative) := by
  intro b u t' b' h
  rw [stmt] at h
  obtain ⟨u₁, t₁, b₀, h₁, k₁⟩ := h.consumed.parts fun _ =>
    Growing.bind inferInstance fun rel => Growing.bind inferInstance fun skip => inferInstance
  obtain ⟨rfl, rfl⟩ := h₁.require
  obtain ⟨c, rs, skip, b₁, b₂, hc, hrs, hskip, hw, hw', k⟩ := guarded_agrees hr hbody k₁
  obtain ⟨finish, t₃, b₃, h₃, k₃⟩ := k.consumed.bind
  obtain ⟨u₄, t₄, b₄, h₄, k₄⟩ := k₃.bind
  obtain ⟨u₅, t₅, b₅, h₅, k₅⟩ := k₄.bind
  obtain ⟨rfl, rfl, hfinish⟩ := h₃.jump
  obtain ⟨rfl, -⟩ := h₄.emitting
  obtain ⟨rfl, ra, hra, hw''⟩ := halt _ _ _ _ h₅
  refine ⟨k₅.emitting.1, .ifElse c rs ra, by simp [resolveStmt, hc, hrs, hra], ?_⟩
  intro layout hl
  have hb₂ := hw' layout hl
  have hb₅ := hw'' layout hl
  have hfirst : b₂.written [.jump 0] = b₁.written (.jumpIf c.rel.negation 0 ::
      (rs.code layout (b₁.bytes.size + Resolved.jumpSize) ++ [.jump 0])) := by
    rw [hb₂, CodeBuffer.written_written, List.cons_append]
  obtain ⟨-, hb₄⟩ := h₄.land (CodeBuffer.targeted_jumpIf _) hskip hfirst
  -- the second jump stands behind the first one and the body
  rw [← List.cons_append, ← CodeBuffer.written_written] at hb₄
  rw [hb₄, CodeBuffer.written_written] at hb₅
  have hplace : finish.toNat = (b₁.written (.jumpIf c.rel.negation
      (addressOf (b₁.bytes.size + codeSize (.jumpIf c.rel.negation 0 ::
        (rs.code layout (b₁.bytes.size + Resolved.jumpSize) ++ [.jump 0])))) ::
      rs.code layout (b₁.bytes.size + Resolved.jumpSize))).bytes.size + 1 := by
    rw [hfinish, hb₂]
    simp
  obtain ⟨-, hb'⟩ := k₅.land CodeBuffer.targeted_jump hplace hb₅
  rw [hb', hw layout hl]
  simp [Resolved.Stmt.code, Nat.add_assoc]

theorem StmtAgrees.loop (hr : Ready g env t) (cond : Condition) {body : Stmt}
    (hbody : StmtAgrees g env t result body) :
    StmtAgrees g env t result (.loop lparen cond rparen body) := by
  intro b u t' b' h
  rw [stmt] at h
  dsimp only at h
  obtain ⟨q, t₀, b₀, h₀, k₀⟩ := h.consumed.bind
  have hf := h₀.fits
  obtain ⟨hq, hqb, rfl, rfl⟩ := h₀.get
  obtain ⟨c, rs, leave, b₁, b₂, hc, hrs, hleave, hw, hw', k⟩ :=
    guarded_agrees hr hbody k₀.demanded
  obtain ⟨u₃, t₃, b₃, h₃, k₃⟩ := k.bind
  obtain ⟨back, h₃⟩ := h₃.discard
  obtain ⟨rfl, rfl, -⟩ := h₃.jump
  refine ⟨k₃.emitting.1, .loop c rs, by simp [resolveStmt, hc, hrs], ?_⟩
  intro layout hl
  have hback : b₂.written [.jump q.code.pc] = b₁.written (.jumpIf c.rel.negation 0 ::
      (rs.code layout (b₁.bytes.size + Resolved.jumpSize) ++ [.jump q.code.pc])) := by
    rw [hw' layout hl, CodeBuffer.written_written, List.cons_append]
  obtain ⟨-, hb'⟩ := k₃.land (CodeBuffer.targeted_jumpIf _) hleave hback
  rw [hb', hqb, CodeBuffer.pc_eq hf, hw layout hl]
  simp [Resolved.Stmt.code, Nat.add_assoc]

theorem StmtAgrees.ret (hr : Ready g env t) (hres : result ≠ .void → Resolved.IsProper result)
    (value : Option Expr) : StmtAgrees g env t result (.ret value semicolon) := by
  intro b u t' b' h
  rw [stmt] at h
  obtain ⟨u₁, t₁, b₁, h₁, k₁⟩ := h.consumed.bind
  obtain ⟨u₂, t₂, b₂, h₂, k₂⟩ := k₁.bind
  obtain ⟨rfl, v, hv, hw⟩ := h₁.returnValue hres hr
  obtain ⟨rfl, rfl⟩ := h₂.leave
  obtain ⟨rfl, rfl⟩ := k₂.require
  refine ⟨rfl, .ret v, by simp [resolveStmt, hv], (hw.append _).writesAt ?_⟩
  intro layout
  cases v <;> simp [Resolved.Stmt.code]

theorem StmtAgrees.read (hr : Ready g env t) (target : Designator) :
    StmtAgrees g env t result (.read lparen target rparen semicolon) := by
  intro b u t' b' h
  rw [stmt] at h
  obtain ⟨x₂, t₂, b₂, h₂, k₂⟩ := h.consumed.demanded.bind
  obtain ⟨u₃, t₃, b₃, h₃, k₃⟩ := k₂.bind
  obtain ⟨rfl, r, hres', hrefers, hw⟩ := designator_agrees hr target _ _ _ _ h₂
  have hok := Resolved.resolveDesignator_ok hr.wellFormed target _ _ hres'
  obtain ⟨rfl, loc, form, rfl, hform, rfl⟩ :=
    h₃.readInto hrefers (hok.ne_error hr.wellFormed.proper)
  obtain ⟨rfl, rfl⟩ := k₃.demanded.require
  refine ⟨rfl, .read form loc, ?_, (hw.append _).writesAt ?_⟩
  · simp [resolveStmt, resolvePlace, hres', hform]
  · intro layout
    rw [Resolved.Stmt.code]
    rfl

/-- A value that is printed: it is loaded, the width is pushed, and the instruction of its type
stands behind them. -/
theorem StmtAgrees.print (hr : Ready g env t) (value : Expr) (width : WidthSpec) :
    StmtAgrees g env t result (.print lparen value width rparen semicolon) := by
  intro b u t' b' h
  rw [stmt] at h
  -- what comes after the value is known keeps the pass growing, whether something is printed or not
  obtain ⟨u₁, t₁, b₁, h₁, k₁⟩ := h.consumed.parts fun _ =>
    Growing.bind inferInstance fun _ => Growing.bind inferInstance fun _ =>
      Growing.bind inferInstance fun _ => by dsimp only; split <;> infer_instance
  obtain ⟨rfl, rfl⟩ := h₁.require
  obtain ⟨x₂, t₂, b₂, h₂, k₂⟩ := k₁.parts fun _ =>
    Growing.bind inferInstance fun _ => Growing.bind inferInstance fun _ => by
      dsimp only; split <;> infer_instance
  obtain ⟨i, t₃, b₃, h₃, k₃⟩ := k₂.parts fun _ =>
    Growing.bind inferInstance fun _ => by dsimp only; split <;> infer_instance
  obtain ⟨rfl, hx⟩ := expr_agrees hr value _ _ _ _ h₂
  obtain ⟨rfl, rfl, form, hform, rfl⟩ := h₃.printInstruction (hx.ty_ne_error hr.wellFormed)
  obtain ⟨w, t₄, b₄, h₄, k₄⟩ := k₃.parts fun w => by dsimp only; infer_instance
  obtain ⟨rfl, rfl, hwidth⟩ := h₄.printWidth
  dsimp only at k₄
  obtain ⟨u₅, t₅, b₅, h₅, k₅⟩ := k₄.bind
  obtain ⟨z, h₅⟩ := h₅.discard
  obtain ⟨rfl, rfl, v, hv, hw⟩ := hx.load h₅
  obtain ⟨u₆, t₆, b₆, h₆, k₆⟩ := k₅.bind
  obtain ⟨u₇, t₇, b₇, h₇, k₇⟩ := k₆.bind
  obtain ⟨rfl, rfl⟩ := h₆.emit
  obtain ⟨rfl, rfl⟩ := h₇.emit
  obtain ⟨rfl, rfl⟩ := k₇.demanded.require
  refine ⟨rfl, .print form v w, ?_, ((hw.append _).append _).writesAt ?_⟩
  · simp [resolveStmt, hv, hform, hwidth]
  · intro layout
    simp [Resolved.Stmt.code]

theorem StmtAgrees.block {body : List Stmt} {rbrace : Mark}
    (hbody : StmtsAgree g env t result body) :
    StmtAgrees g env t result (.block body rbrace) := by
  intro b u t' b' h
  rw [stmt] at h
  obtain ⟨u₁, t₁, b₁, h₁, k₁⟩ := h.consumed.bind
  obtain ⟨rfl, rss, hrss, hw⟩ := hbody _ _ _ _ h₁
  obtain ⟨rfl, rfl⟩ := k₁.require
  refine ⟨rfl, .block rss, by simp [resolveStmt, hrss], ?_⟩
  intro layout hl
  change _ = CodeBuffer.written _ (Resolved.Stmt.code _ _ (.block rss))
  rw [Resolved.Stmt.code]
  exact hw layout hl

theorem StmtsAgree.cons {s : Stmt} {rest : List Stmt} (hs : StmtAgrees g env t result s)
    (hrest : StmtsAgree g env t result rest) : StmtsAgree g env t result (s :: rest) := by
  intro b u t' b' h
  rw [stmts] at h
  obtain ⟨u₁, t₁, b₁, h₁, k₁⟩ := h.bind
  obtain ⟨rfl, rs, hrs, hw⟩ := hs _ _ _ _ h₁
  obtain ⟨rfl, rss, hrss, hw'⟩ := hrest _ _ _ _ k₁
  refine ⟨rfl, rs :: rss, by simp [resolveStmts, hrs, hrss], ?_⟩
  intro layout hl
  rw [hw' layout hl, hw layout hl]
  simp [Resolved.stmtsCode]

/-- A statement of which nothing is left. -/
theorem StmtAgrees.empty {s : Stmt} (hs : resolveStmt env result s = some .empty)
    (hgives : ∀ b u t' b', (stmt result s).Gives t b u t' b' → t' = t ∧ b' = b) :
    StmtAgrees g env t result s := by
  intro b u t' b' h
  obtain ⟨rfl, rfl⟩ := hgives b u t' b' h
  exact ⟨rfl, .empty, hs, (writes_nil env g _).writesAt fun _ => by rw [Resolved.Stmt.code]⟩

/-- A designator that is neither assigned nor called is reported. -/
theorem StmtAgrees.idle (target : Designator) :
    StmtAgrees g env t result (.idle target semicolon) := by
  intro b u t' b' h
  rw [stmt] at h
  obtain ⟨u₁, t₁, b₁, h₁, k₁⟩ := h.bind
  obtain ⟨u₂, t₂, b₂, hrep, -⟩ := k₁.bind
  exact absurd hrep not_gives_report

end Forms

mutual

theorem stmt_agrees {t : NameTable} (hr : Ready g env t) {result : Ty}
    (hres : result ≠ .void → Resolved.IsProper result) : (s : Stmt) → StmtAgrees g env t result s
  | .assign target value _ => .assign hr target value
  | .call callee args _ _ => .call hr callee args
  | .idle target _ => .idle target
  | .ifThen _ cond _ body => .ifThen hr cond (stmt_agrees hr hres body)
  | .ifElse _ cond _ body alternative =>
      .ifElse hr cond (stmt_agrees hr hres body) (stmt_agrees hr hres alternative)
  | .loop _ cond _ body => .loop hr cond (stmt_agrees hr hres body)
  | .ret value _ => .ret hr hres value
  | .read _ target _ _ => .read hr target
  | .print _ value width _ _ => .print hr value width
  | .block body _ => .block (stmts_agree hr hres body)
  | .empty => .empty (by rw [resolveStmt]) fun b u t' b' h => by
      rw [stmt] at h
      exact h.consume
  | .missing => .empty (by rw [resolveStmt]) fun b u t' b' h => by
      rw [stmt] at h
      exact h.pure.2
  | .junk skipped semicolon next => fun b u t' b' h => by
      rw [stmt] at h
      exact absurd h (not_gives_junk _ _ _ _)

theorem stmts_agree {t : NameTable} (hr : Ready g env t) {result : Ty}
    (hres : result ≠ .void → Resolved.IsProper result) :
    (ss : List Stmt) → StmtsAgree g env t result ss
  | [] => fun b u t' b' h => by
      rw [stmts] at h
      obtain ⟨-, rfl, rfl⟩ := h.pure
      exact ⟨rfl, [], by rw [resolveStmts], (writes_nil env g _).writesAt fun _ => by
        rw [Resolved.stmtsCode]⟩
  | s :: rest => .cons (stmt_agrees hr hres s) (stmts_agree hr hres rest)

end

end Check

end MicroJava
