import MicroJava.Proofs.Resolved.ExpressionCode

/-! # Statements on the machine

The code of a statement ends behind itself, or where the method is left. -/

namespace MicroJava.Resolved

open Exec (execute)

/-- Where the machine is when a statement has ended: at the next one, or at the exit of the method
with the result on the stack. -/
def Ends (object : ObjectFile) (next : Nat) (s : Surroundings) : Signal → World → Config → Prop
  | .proceed, w, c => w.Sized ∧ c = ⟨next, w.active s⟩
  | .returned v, w, c => w.Sized ∧
      ∃ pc, CodeAt object pc [.exit, .ret] ∧ c = ⟨pc, w.active (s.pushResult v)⟩

theorem holds_negation (rel : Comparison) (a b : Int32) :
    rel.negation.holds a b = !rel.holds a b := by
  cases rel <;> simp [Comparison.negation, Comparison.holds, bne, ← decide_not, Int32.not_lt,
    Int32.not_le]

section Jumps

variable {object : ObjectFile} {fuel pc : Nat} {is : List Instruction} {s : Surroundings}

theorem jump_path (hs : s.Even) {target : Nat} (ht : target ≤ maxAddress)
    (hc : CodeAt object pc (.jump (addressOf target) :: is)) (w : World) :
    Path object 1 ⟨pc, w.active s⟩ ⟨target, w.active s⟩ := by
  refine .single (w.active_balanced hs) ((hc.advance_eq rfl).trans ?_)
  simp only [execute]
  rw [toNat_addressOf ht]
  rfl

theorem jumpIf_path (hs : s.Even) {rel : Comparison} {target : Nat} (ht : target ≤ maxAddress)
    (hc : CodeAt object pc (.jumpIf rel (addressOf target) :: is)) (w : World) (a b : Value) :
    Path object 1 ⟨pc, w.active ((s.push a).push b)⟩
      ⟨if rel.holds a.rep b.rep then target else pc + jumpSize, w.active s⟩ := by
  refine .single (w.active_balanced (hs.push a)) ((hc.advance_eq rfl).trans ?_)
  simp only [execute]
  rw [bind_ok (pop_active _), bind_ok (pop_active _), toNat_addressOf ht]
  split <;> rfl

end Jumps

section Statements

variable {P : Program} {object : ObjectFile} {fuel : Nat} {calls : CallRule}

/-- A condition and the jump that is taken when it does not hold. -/
theorem Condition.eval_simulated (hl : Linked P object fuel calls) {c : Condition} {pc target : Nat}
    {w : World} {s : Surroundings} (hs : s.Even) (hw : w.Sized) (ht : target ≤ maxAddress)
    (hc : CodeAt object pc (c.code P.layout ++ [.jumpIf c.rel.negation (addressOf target)])) :
    Simulates object fuel ⟨pc, w.active s⟩
      (fun holds w' c' => w'.Sized ∧
        c' = ⟨if holds then pc + c.size + jumpSize else target, w'.active s⟩)
      (c.eval P calls w) := by
  rw [Condition.eval, Condition.size]
  rw [Condition.code, List.append_assoc] at hc
  refine (Expr.simulated hl c.left).bind hs hw hc fun a w' hw' hr => ?_
  refine (Expr.simulated hl c.right).bind (hs.push a) hw' hr fun b w'' hw'' hj => ?_
  have hpath := jumpIf_path hs ht hj w'' a b
  rw [holds_negation] at hpath
  cases hr : Eval.compare c.rel a b w'' with
  | error e w₁ =>
      rw [compare_error hr]
      trivial
  | ok holds w₁ =>
      obtain ⟨rfl, hholds⟩ := compare_rep hr
      refine .after hpath (.of_ok ⟨hw'', ?_⟩)
      rw [hholds]
      cases holds <;> simp [Nat.add_assoc]

/-- A loop that runs out of fuel has jumped back that many times. -/
theorem repeatWhile_simulated {cond : Eval Bool} {body : Eval Signal} {start inside back stop : Nat}
    {s : Surroundings}
    (hcond : ∀ w : World, w.Sized → Simulates object fuel ⟨start, w.active s⟩
      (fun holds w' c' => w'.Sized ∧ c' = ⟨if holds then inside else stop, w'.active s⟩) (cond w))
    (hbody : ∀ w : World, w.Sized →
      Simulates object fuel ⟨inside, w.active s⟩ (Ends object back s) (body w))
    (hback : ∀ w : World, Path object 1 ⟨back, w.active s⟩ ⟨start, w.active s⟩) (n : Nat)
    (hn : n ≤ fuel) (w : World) (hw : w.Sized) :
    Simulates object n ⟨start, w.active s⟩ (Ends object stop s) (repeatWhile cond body n w) := by
  induction n generalizing w with
  | zero => exact ⟨0, _, Nat.le_refl _, .refl _⟩
  | succ n ih =>
      rw [repeatWhile]
      refine ((hcond w hw).mono hn).bind ?_
      rintro holds w' c' ⟨hw', rfl⟩
      cases holds with
      | false => exact .of_ok ⟨hw', rfl⟩
      | true =>
          refine ((hbody w' hw').mono hn).bind ?_
          intro signal w'' c'' hends
          cases signal with
          | returned v => exact .of_ok hends
          | proceed =>
              obtain ⟨hw'', rfl⟩ := hends
              exact (ih (Nat.le_of_succ_le hn) w'' hw'').later (hback w'')

theorem read_simulated {form : Textual} {pc : Nat} {is : List Instruction} {w : World}
    {s : Surroundings} (hs : s.Even) (hw : w.Sized) (hc : CodeAt object pc (form.reads :: is)) :
    Simulates object fuel ⟨pc, w.active s⟩
      (Yields (pc + form.reads.size) s) (Eval.readValue form w) := by
  cases form with
  | number =>
      obtain ⟨number, rest, hscan⟩ : ∃ number rest, Word.scan w.input = (number, rest) :=
        ⟨_, _, rfl⟩
      obtain ⟨hnumber, hrest⟩ := Word.read_eq_scan w.input
      rw [hscan] at hnumber hrest
      have hget : (get : Eval World) w = .ok w w := rfl
      rw [Eval.readValue, bind_ok hget, hscan]
      cases number with
      | some n =>
          refine .instruction hc rfl (w.active_balanced hs) ?_
            ⟨⟨hw.frame, hw.globals, hw.records⟩, rfl⟩
          have hnum : Exec.readNumber pc (w.active s) =
              .ok (.ofInt n) ({ w with input := rest }.active s) := by
            simp only [Exec.readNumber, World.active, World.machine, hnumber, hrest, Machine.noting,
              Option.map_some, Bool.true_or]
          simp only [Textual.reads, execute]
          rw [bind_ok hnum, bind_ok (pushWord_active (Nat.lt_succ_self _))]
          rfl
      | none =>
          refine .failure hc rfl (w.active_balanced hs) ?_
            (shows_active { w with input := rest } s)
          have hnum : Exec.readNumber pc (w.active s) =
              .error (.endOfInput pc) ({ w with input := rest }.active s) := by
            simp only [Exec.readNumber, World.active, World.machine, hnumber, hrest, Machine.noting,
              Option.map_none, Bool.true_or]
          simp only [Textual.reads, execute]
          rw [bind_error hnum]
          rfl
  | char =>
      have hget : (get : Eval World) w = .ok w w := rfl
      rw [Eval.readValue, bind_ok hget]
      cases hi : w.input with
      | cons c rest =>
          refine .instruction hc rfl (w.active_balanced hs) ?_
            ⟨⟨hw.frame, hw.globals, hw.records⟩, rfl⟩
          have hchar : Exec.readChar pc (w.active s) = .ok c ({ w with input := rest }.active s) := by
            simp only [Exec.readChar, World.active, World.machine, hi]
          simp only [Textual.reads, execute]
          rw [bind_ok hchar, bind_ok (pushWord_active (Nat.lt_succ_self _))]
          rfl
      | nil =>
          refine .failure hc rfl (w.active_balanced hs) ?_ (shows_active w s)
          have hchar : Exec.readChar pc (w.active s) = .error (.endOfInput pc) (w.active s) := by
            simp only [Exec.readChar, World.active, World.machine, hi]
          simp only [Textual.reads, execute]
          rw [bind_error hchar]
          rfl

/-- The instruction that prints a value in a field of the given width. -/
theorem print_path {form : Textual} {pc : Nat} {is : List Instruction} {s : Surroundings}
    (hs : s.Even) (hc : CodeAt object pc (form.prints :: is)) (w : World) (x width : Int32) :
    Path object 1 ⟨pc, w.active ((s.push (.word x)).push (.word width))⟩
      ⟨pc + form.prints.size,
        { w with output := w.output ++ Eval.printed form x width }.active s⟩ := by
  refine .single (w.active_balanced hs) ((hc.advance_eq rfl).trans ?_)
  cases form <;> simp only [Textual.prints, execute] <;>
    rw [bind_ok (pop_active _), bind_ok (pop_active _)] <;>
    simp only [Eval.printed, Word.inField_eq, Word.character_eq, ← Decimal.ofInt_eq_toString] <;> rfl

/-- A statement with a jump behind it. -/
theorem Simulates.jumping {next target : Nat} {c : Config} {s : Surroundings}
    {is : List Instruction} {r : EStateM.Result Stop World Signal}
    (h : Simulates object fuel c (Ends object next s) r) (hs : s.Even) (ht : target ≤ maxAddress)
    (hc : CodeAt object next (.jump (addressOf target) :: is)) :
    Simulates object fuel c (Ends object target s) r := by
  match r with
  | .ok .proceed w =>
      obtain ⟨k, c', hp, hw, rfl⟩ := h
      exact ⟨k + 1, _, hp.trans (jump_path hs ht hc w), hw, rfl⟩
  | .ok (.returned _) _ | .error (.failure _) _ | .error .stuck _ | .error .exhausted _
  | .error .outOfFuel _ => exact h

variable (P object fuel calls) in
/-- The code of a statement does what its evaluation does. -/
def Stmt.Simulated (stmt : Stmt) : Prop :=
  ∀ (start : Nat) (w : World) (s : Surroundings), s.Even → w.Sized →
    CodeAt object start (stmt.code P.layout start) →
    Simulates object fuel ⟨start, w.active s⟩ (Ends object (start + stmt.size) s)
      (stmt.eval P calls fuel w)

variable (P object fuel calls) in
/-- So does the code of statements that follow each other. -/
def StmtsSimulated (stmts : List Stmt) : Prop :=
  ∀ (start : Nat) (w : World) (s : Surroundings), s.Even → w.Sized →
    CodeAt object start (stmtsCode P.layout start stmts) →
    Simulates object fuel ⟨start, w.active s⟩ (Ends object (start + stmtsSize stmts) s)
      (evalStmts P calls fuel stmts w)

namespace Stmt.Simulated

theorem assign (hl : Linked P object fuel calls) (target : Location) (value : Expr) :
    (Stmt.assign target value).Simulated P object fuel calls := by
  intro start w s hs hw hc
  rw [Stmt.eval, Stmt.size]
  rw [Stmt.code, List.append_assoc] at hc
  refine (Location.simulated hl target).bind hs hw hc fun slot w' hw' hfits hv => ?_
  refine (Expr.simulated hl value).bind (s := s.pushAll slot.operands) ?_ hw' hv
    fun v w'' hw'' hst => ?_
  · simpa [Surroundings.Even] using hs
  refine (slot.write_simulated hfits hw'' hs hst v).bind ?_
  rintro u w₁ c₁ ⟨hw₁, rfl⟩
  exact .of_ok ⟨hw₁, by simp only [Nat.add_assoc]⟩

theorem perform (hl : Linked P object fuel calls) (method : Nat) (args : List Expr) :
    (Stmt.perform method args).Simulated P object fuel calls := by
  intro start w s hs hw hc
  rw [Stmt.eval, Stmt.size]
  rw [Stmt.code] at hc
  refine (args_simulated hl args).bind hs hw hc fun vs w' hw' hcall => ?_
  refine (call_simulated hl.calls hs hw' (hl.entries method) hcall vs).bind ?_
  rintro r w'' c'' ⟨hw'', rfl⟩
  cases r with
  | some v => trivial
  | none => exact .of_ok ⟨hw'', by rw [Nat.add_assoc]; rfl⟩

theorem discard (hl : Linked P object fuel calls) (call : Expr) :
    (Stmt.discard call).Simulated P object fuel calls := by
  intro start w s hs hw hc
  rw [Stmt.eval, Stmt.size]
  rw [Stmt.code] at hc
  refine (Expr.simulated hl call).bind hs hw hc fun v w' hw' hp => ?_
  exact .after (pop_path hs hp w' v) (.of_ok ⟨hw', by rw [Nat.add_assoc]⟩)

/-! The targets of jumps lie inside the code, so they can be addressed. -/

theorem ifThen (hl : Linked P object fuel calls) (ho : object.code.size ≤ maxAddress)
    (cond : Condition) {body : Stmt} (hbody : body.Simulated P object fuel calls) :
    (Stmt.ifThen cond body).Simulated P object fuel calls := by
  intro start w s hs hw hc
  have hend := Nat.le_trans hc.le_size ho
  rw [Stmt.codeSize_code] at hend
  rw [Stmt.eval]
  rw [Stmt.size] at hend ⊢
  rw [Stmt.code] at hc
  refine (Condition.eval_simulated hl hs hw (by omega) hc.left).bind ?_
  rintro holds w' c' ⟨hw', rfl⟩
  cases holds with
  | false => exact .of_ok ⟨hw', by simp [Nat.add_assoc]⟩
  | true =>
      have hb : CodeAt object (start + cond.size + jumpSize) _ :=
        hc.inside (by simp [Nat.add_assoc])
      simpa only [Nat.add_assoc, if_true] using hbody _ w' s hs hw' hb

theorem ifElse (hl : Linked P object fuel calls) (ho : object.code.size ≤ maxAddress)
    (cond : Condition) {body alternative : Stmt} (hbody : body.Simulated P object fuel calls)
    (halt : alternative.Simulated P object fuel calls) :
    (Stmt.ifElse cond body alternative).Simulated P object fuel calls := by
  intro start w s hs hw hc
  have hend := Nat.le_trans hc.le_size ho
  rw [Stmt.codeSize_code] at hend
  rw [Stmt.eval]
  rw [Stmt.size] at hend ⊢
  rw [Stmt.code] at hc
  refine (Condition.eval_simulated hl hs hw (by omega) hc.left.left.left).bind ?_
  rintro holds w' c' ⟨hw', rfl⟩
  cases holds with
  | false =>
      have hb : CodeAt object (start + cond.size + jumpSize + body.size + jumpSize) _ :=
        hc.inside (by simp [Nat.add_assoc])
      simpa [Nat.add_assoc] using halt _ w' s hs hw' hb
  | true =>
      have hb : CodeAt object (start + cond.size + jumpSize) _ :=
        hc.left.left.inside (by simp [Nat.add_assoc])
      have hj : CodeAt object (start + cond.size + jumpSize + body.size) _ :=
        hc.left.inside (by simp [Nat.add_assoc])
      -- the part that was chosen ends at the jump over the other one
      have h := (hbody _ w' s hs hw' hb).jumping hs (by omega) hj
      simpa [Nat.add_assoc] using h

theorem loop (hl : Linked P object fuel calls) (ho : object.code.size ≤ maxAddress)
    (cond : Condition) {body : Stmt} (hbody : body.Simulated P object fuel calls) :
    (Stmt.loop cond body).Simulated P object fuel calls := by
  intro start w s hs hw hc
  have hend := Nat.le_trans hc.le_size ho
  rw [Stmt.codeSize_code] at hend
  rw [Stmt.eval]
  rw [Stmt.size] at hend ⊢
  rw [Stmt.code] at hc
  have hb : CodeAt object (start + cond.size + jumpSize) _ :=
    hc.left.inside (by simp [Nat.add_assoc])
  have hj : CodeAt object (start + cond.size + jumpSize + body.size) _ :=
    hc.inside (by simp [Nat.add_assoc])
  have h := repeatWhile_simulated
    (fun w hw => Condition.eval_simulated hl hs hw (by omega) hc.left.left)
    (fun w hw => hbody _ w s hs hw hb) (jump_path hs (by omega) hj) fuel (Nat.le_refl _) w hw
  simpa only [Nat.add_assoc] using h

theorem ret (hl : Linked P object fuel calls) (value : Option Expr) :
    (Stmt.ret value).Simulated P object fuel calls := by
  intro start w s hs hw hc
  cases value with
  | none =>
      rw [Stmt.eval]
      rw [Stmt.code] at hc
      exact .of_ok ⟨hw, _, hc, rfl⟩
  | some value =>
      rw [Stmt.eval]
      rw [Stmt.code] at hc
      exact (Expr.simulated hl value).bind hs hw hc fun v w' hw' hr => .of_ok ⟨hw', _, hr, rfl⟩

theorem read (hl : Linked P object fuel calls) (form : Textual) (target : Location) :
    (Stmt.read form target).Simulated P object fuel calls := by
  intro start w s hs hw hc
  rw [Stmt.eval, Stmt.size]
  rw [Stmt.code] at hc
  refine (Location.simulated hl target).bind hs hw hc fun slot w' hw' hfits hv => ?_
  refine (read_simulated (s := s.pushAll slot.operands) ?_ hw' hv).bind ?_
  · simpa [Surroundings.Even] using hs
  rintro v w'' c'' ⟨hw'', rfl⟩
  refine (slot.write_simulated hfits hw'' hs hv.tail v).bind ?_
  rintro u w₁ c₁ ⟨hw₁, rfl⟩
  exact .of_ok ⟨hw₁, by simp only [Nat.add_assoc]⟩

theorem print (hl : Linked P object fuel calls) (form : Textual) (value : Expr) (width : Int32) :
    (Stmt.print form value width).Simulated P object fuel calls := by
  intro start w s hs hw hc
  rw [Stmt.eval, Stmt.size]
  rw [Stmt.code] at hc
  refine (Expr.simulated hl value).bind hs hw hc fun v w' hw' hp => ?_
  cases v with
  | ref => trivial
  | word x =>
      refine .after (const_path (hs.push _) hp w') (.after (print_path hs hp.tail w' x width) ?_)
      exact .of_ok ⟨⟨hw'.frame, hw'.globals, hw'.records⟩, by simp only [Nat.add_assoc]⟩

theorem block {body : List Stmt} (hbody : StmtsSimulated P object fuel calls body) :
    (Stmt.block body).Simulated P object fuel calls := by
  intro start w s hs hw hc
  rw [Stmt.eval, Stmt.size]
  rw [Stmt.code] at hc
  exact hbody start w s hs hw hc

theorem empty : Stmt.empty.Simulated P object fuel calls := by
  intro start w s hs hw hc
  rw [Stmt.eval, Stmt.size]
  exact .of_ok ⟨hw, rfl⟩

end Stmt.Simulated

namespace StmtsSimulated

theorem nil : StmtsSimulated P object fuel calls [] := by
  intro start w s hs hw hc
  rw [evalStmts, stmtsSize]
  exact .of_ok ⟨hw, rfl⟩

theorem cons {stmt : Stmt} {rest : List Stmt} (hstmt : stmt.Simulated P object fuel calls)
    (hrest : StmtsSimulated P object fuel calls rest) :
    StmtsSimulated P object fuel calls (stmt :: rest) := by
  intro start w s hs hw hc
  rw [evalStmts, stmtsSize]
  rw [stmtsCode] at hc
  refine (hstmt start w s hs hw hc.left).bind ?_
  intro signal w' c' hends
  cases signal with
  | returned v => exact .of_ok hends
  | proceed =>
      obtain ⟨hw', rfl⟩ := hends
      have hr := hc.right
      rw [Stmt.codeSize_code] at hr
      have h := hrest _ w' s hs hw' hr
      rwa [Nat.add_assoc] at h

end StmtsSimulated

mutual

theorem Stmt.simulated (hl : Linked P object fuel calls) (ho : object.code.size ≤ maxAddress) :
    (stmt : Stmt) → stmt.Simulated P object fuel calls
  | .assign target value => .assign hl target value
  | .perform method args => .perform hl method args
  | .discard call => .discard hl call
  | .ifThen cond body => .ifThen hl ho cond (Stmt.simulated hl ho body)
  | .ifElse cond body alternative =>
      .ifElse hl ho cond (Stmt.simulated hl ho body) (Stmt.simulated hl ho alternative)
  | .loop cond body => .loop hl ho cond (Stmt.simulated hl ho body)
  | .ret value => .ret hl value
  | .read form target => .read hl form target
  | .print form value width => .print hl form value width
  | .block body => .block (stmts_simulated hl ho body)
  | .empty => .empty

theorem stmts_simulated (hl : Linked P object fuel calls) (ho : object.code.size ≤ maxAddress) :
    (stmts : List Stmt) → StmtsSimulated P object fuel calls stmts
  | [] => .nil
  | stmt :: rest => .cons (Stmt.simulated hl ho stmt) (stmts_simulated hl ho rest)

end

end Statements

end MicroJava.Resolved
