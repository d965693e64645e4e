import MicroJava.Assembly.Buffer
import MicroJava.Proofs.Instruction.RoundTrip
import MicroJava.Proofs.Resolved.Generation

/-! # Sizes are the lengths of the code

The sizes that targets are computed from do not depend on the layout, and neither does the length
of the code. -/

namespace MicroJava.Resolved

/-- Addresses within the code have a field of an instruction to themselves. -/
theorem toNat_addressOf {n : Nat} (h : n ≤ maxAddress) : (addressOf n).toNat = n := by
  simp only [addressOf, UInt16.toNat_ofNat', maxAddress] at h ⊢
  omega

/-- Slots that fit a byte are written as they are. -/
theorem toNat_slotOf {n : Nat} (h : n ≤ 255) : (slotOf n).toNat = n := by
  simp only [slotOf, UInt8.toNat_ofNat']
  omega

@[simp] theorem codeSize_nil : codeSize [] = 0 := rfl

@[simp] theorem codeSize_cons (i : Instruction) (is : List Instruction) :
    codeSize (i :: is) = i.size + codeSize is := by
  simp [codeSize, Instruction.size]

/-- Sizes add up. -/
@[simp] theorem codeSize_append (is js : List Instruction) :
    codeSize (is ++ js) = codeSize is + codeSize js := by
  simp [codeSize]

@[simp] theorem size_jump (target : UInt16) : (Instruction.jump target).size = jumpSize := rfl

@[simp] theorem size_jumpIf (rel : Comparison) (target : UInt16) :
    (Instruction.jumpIf rel target).size = jumpSize := rfl

@[simp] theorem size_call (target : UInt16) : (Instruction.call target).size = callSize := rfl

@[simp] theorem size_enter (params locals : UInt8) :
    (Instruction.enter params locals).size = entrySize := rfl

mutual

@[simp] theorem Location.codeSize_access (layout : Layout) :
    (loc : Location) → codeSize (loc.access layout) = loc.accessSize
  | .frame _ | .global _ => by simp [Location.access, Location.accessSize]
  | .field object _ => by
      simp [Location.access, Location.accessSize, Expr.codeSize_code layout object]
  | .element array index _ => by
      simp [Location.access, Location.accessSize, Expr.codeSize_code layout array,
        Expr.codeSize_code layout index]

@[simp] theorem Expr.codeSize_code (layout : Layout) :
    (e : Expr) → codeSize (e.code layout) = e.size
  | .constant v => by simp [Expr.code, Expr.size]
  | .value source => by
      simp [Expr.code, Expr.size, Location.codeSize_access layout source]
  | .call _ args => by simp [Expr.code, Expr.size, codeSize_argsCode layout args]
  | .convert operand => by simp [Expr.code, Expr.size, Expr.codeSize_code layout operand]
  | .length array => by simp [Expr.code, Expr.size, Expr.codeSize_code layout array]
  | .newObject _ => rfl
  | .newArray _ n => by simp [Expr.code, Expr.size, Expr.codeSize_code layout n]
  | .negate operand => by
      rw [Expr.code, Expr.size]
      cases operand.constant? with
      | some v => simp
      | none => simp [Expr.codeSize_code layout operand]
  | .binary _ left right => by
      simp [Expr.code, Expr.size, Expr.codeSize_code layout left,
        Expr.codeSize_code layout right, Nat.add_assoc]

@[simp] theorem codeSize_argsCode (layout : Layout) :
    (args : List Expr) → codeSize (argsCode layout args) = argsSize args
  | [] => by simp [argsCode, argsSize]
  | arg :: rest => by
      simp [argsCode, argsSize, Expr.codeSize_code layout arg, codeSize_argsCode layout rest]

end

/-- A condition takes as much code as its two sides. -/
@[simp] theorem Condition.codeSize_code (layout : Layout) (c : Condition) :
    codeSize (c.code layout) = c.size := by
  simp [Condition.code, Condition.size]

mutual

@[simp] theorem Stmt.codeSize_code (layout : Layout) (start : Nat) :
    (s : Stmt) → codeSize (s.code layout start) = s.size
  | .assign target value => by simp [Stmt.code, Stmt.size, Nat.add_assoc]
  | .perform _ args => by simp [Stmt.code, Stmt.size]
  | .discard call => by simp [Stmt.code, Stmt.size]
  | .ifThen cond body => by
      simp [Stmt.code, Stmt.size, Stmt.codeSize_code layout _ body, Nat.add_assoc]
  | .ifElse cond body alternative => by
      simp [Stmt.code, Stmt.size, Stmt.codeSize_code layout _ body,
        Stmt.codeSize_code layout _ alternative, Nat.add_assoc]
  | .loop cond body => by
      simp [Stmt.code, Stmt.size, Stmt.codeSize_code layout _ body, Nat.add_assoc]
  | .ret (some value) => by simp [Stmt.code, Stmt.size, Nat.add_assoc]
  | .ret none => by simp [Stmt.code, Stmt.size]
  | .read form target => by simp [Stmt.code, Stmt.size, Nat.add_assoc]
  | .print form value width => by simp [Stmt.code, Stmt.size, Nat.add_assoc]
  | .block body => by simp [Stmt.code, Stmt.size, codeSize_stmtsCode layout start body]
  | .empty => by simp [Stmt.code, Stmt.size]

@[simp] theorem codeSize_stmtsCode (layout : Layout) (start : Nat) :
    (ss : List Stmt) → codeSize (stmtsCode layout start ss) = stmtsSize ss
  | [] => by simp [stmtsCode, stmtsSize]
  | s :: rest => by
      simp [stmtsCode, stmtsSize, Stmt.codeSize_code layout start s,
        codeSize_stmtsCode layout _ rest]

end

@[simp] theorem Method.codeSize_code (layout : Layout) (start : Nat) (m : Method) :
    codeSize (m.code layout start) = m.size := by
  simp [Method.code, Method.size, Nat.add_assoc]

@[simp] theorem codeSize_methodsCode (layout : Layout) (start : Nat) (ms : List Method) :
    codeSize (methodsCode layout start ms) = (ms.map Method.size).sum := by
  induction ms generalizing start with
  | nil => rfl
  | cons m rest ih => simp [methodsCode, ih]

theorem Program.entry_succ (P : Program) {i : Nat} {m : Method} (h : P.methods[i]? = some m) :
    P.entry (i + 1) = P.entry i + m.size := by
  simp [Program.entry, List.take_add_one, h]

/-- A method and everything before it lie within the code. -/
theorem Program.entry_le (P : Program) (i : Nat) : P.entry i ≤ codeSize P.code := by
  have hsum : (P.methods.map Method.size).sum =
      P.entry i + ((P.methods.drop i).map Method.size).sum := by
    rw [Program.entry, ← List.sum_append, ← List.map_append, List.take_append_drop]
  rw [Program.code, codeSize_methodsCode, hsum]
  exact Nat.le_add_right _ _

theorem Program.toNat_mainPc {P : Program} {main : Nat} (hm : P.main? = some main)
    (hs : codeSize P.code ≤ maxAddress) : P.object.mainPc.toNat = P.entry main := by
  simp only [Program.object, Program.mainEntry, hm, Option.getD_some]
  exact toNat_addressOf (Nat.le_trans (P.entry_le main) hs)

end MicroJava.Resolved
