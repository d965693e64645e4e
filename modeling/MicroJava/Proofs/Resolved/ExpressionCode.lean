import MicroJava.Proofs.Resolved.Instructions

/-! # Expressions on the machine

The code of an expression leaves its value on the stack, after everything its evaluation did. -/

namespace MicroJava.Resolved

open Exec (execute)

namespace Surroundings

/-- The result of a call, if there is one. -/
def pushResult (s : Surroundings) : Option Value → Surroundings
  | none => s
  | some v => s.push v

/-- The machine at the entry of a method that was called with these arguments. -/
def called (s : Surroundings) (w : World) (args : List Value) (back : Nat) : Machine :=
  w.machine (s.pushAll args).stack (w.frame.map Value.rep :: s.outer) (s.calls.push back)

end Surroundings

/-- What the code of an expression leaves: its value on the stack, and the machine behind it. -/
def Yields (next : Nat) (s : Surroundings) (v : Value) (w : World) (c : Config) : Prop :=
  w.Sized ∧ c = ⟨next, w.active (s.push v)⟩

/-- Calls are carried out by the code at the entries of the methods. -/
def CallsSimulated (P : Program) (object : ObjectFile) (fuel : Nat) (calls : CallRule) : Prop :=
  ∀ index args w (s : Surroundings) back, s.Even → w.Sized →
    Simulates object fuel ⟨P.entry index, s.called w args back⟩
      (fun r w' c' => w'.Sized ∧ c' = ⟨back, w'.active (s.pushResult r)⟩) (calls index args w)

/-- The code finds the methods that an evaluation calls. -/
structure Linked (P : Program) (object : ObjectFile) (fuel : Nat) (calls : CallRule) : Prop where
  calls : CallsSimulated P object fuel calls
  entries : ∀ method, P.entry method ≤ maxAddress

/-! ## Single operations -/

section Operations

variable {object : ObjectFile} {fuel pc : Nat} {is : List Instruction} {w : World}
  {s : Surroundings}

theorem const_path (hs : s.Even) {v : Int32} (hc : CodeAt object pc (.const v :: is)) (w : World) :
    Path object 1 ⟨pc, w.active s⟩
      ⟨pc + (Instruction.const v).size, w.active (s.push (.word v))⟩ := by
  refine .single (w.active_balanced hs) ((hc.advance_eq rfl).trans ?_)
  simp only [execute]
  rw [bind_ok (pushWord_active (Nat.lt_succ_self _))]
  rfl

theorem neg_path (hs : s.Even) (hc : CodeAt object pc (.neg :: is)) (w : World) (v : Int32) :
    Path object 1 ⟨pc, w.active (s.push (.word v))⟩
      ⟨pc + Instruction.neg.size, w.active (s.push (.word (-v)))⟩ := by
  refine .single (w.active_balanced hs) ((hc.advance_eq rfl).trans ?_)
  simp only [execute]
  rw [bind_ok (pop_active _), bind_ok (pushWord_active (room_of_push w s _))]
  rfl

theorem pop_path (hs : s.Even) (hc : CodeAt object pc (.pop :: is)) (w : World) (v : Value) :
    Path object 1 ⟨pc, w.active (s.push v)⟩ ⟨pc + Instruction.pop.size, w.active s⟩ := by
  refine .single (w.active_balanced hs) ((hc.advance_eq rfl).trans ?_)
  simp only [execute]
  rw [bind_ok (show (discard (Exec.pop pc) : Exec Unit) (w.active (s.push v)) = .ok () (w.active s) from
    bind_ok (pop_active v))]
  rfl

/-- The value of an operation that an instruction carries out. -/
theorem binary_simulated (hs : s.Even) (hw : w.Sized) {op : Arithmetic}
    (hc : CodeAt object pc (.arith op :: is)) (a b : Int32) :
    Simulates object fuel ⟨pc, w.active ((s.push (.word a)).push (.word b))⟩
      (Yields (pc + (Instruction.arith op).size) s)
      ((match Word.calculate op a b with
        | some v => return .word v
        | none => Eval.fail .divisionByZero : Eval Value) w) := by
  rw [Word.calculate_eq]
  cases h : op.eval a b with
  | some v =>
      refine .instruction hc rfl (w.active_balanced hs) ?_ ⟨hw, rfl⟩
      have hb : Exec.binary (w.active ((s.push (.word a)).push (.word b))).roomy op pc
          (w.active ((s.push (.word a)).push (.word b))) = .ok () (w.active (s.push (.word v))) := by
        rw [Exec.binary, bind_ok (pop_active _), bind_ok (pop_active _)]
        simp only [Value.rep_word, h]
        exact pushWord_active (room_of_push_push w s _ _)
      simp only [execute]
      rw [bind_ok hb]
      rfl
  | none =>
      refine .failure hc rfl (w.active_balanced hs) ?_ (shows_active w s)
      have hb : Exec.binary (w.active ((s.push (.word a)).push (.word b))).roomy op pc
          (w.active ((s.push (.word a)).push (.word b))) =
            .error (.divisionByZero pc) (w.active s) := by
        rw [Exec.binary, bind_ok (pop_active _), bind_ok (pop_active _)]
        simp only [Value.rep_word, h]
        rfl
      simp only [execute]
      rw [bind_error hb]
      rfl

theorem length_simulated (hs : s.Even) (hw : w.Sized) (hc : CodeAt object pc (.arrayLength :: is))
    (array : Value) :
    Simulates object fuel ⟨pc, w.active (s.push array)⟩
      (Yields (pc + Instruction.arrayLength.size) s)
      ((do
        let (_, o) ← Eval.dereference array
        return .word (Int32.ofNat (← Eval.orStuck o.length?)) : Eval Value) w) := by
  rcases dereference_cases array w with hd | ⟨rfl, hd⟩ | ⟨i, o, rfl, ho, hd⟩
  · rw [bind_error hd]
    trivial
  · rw [bind_error hd]
    refine .failure hc rfl (w.active_balanced hs) ?_ (shows_active w s)
    simp only [execute]
    rw [bind_ok (pop_active _), bind_error (onHeap_error (length_null w.heap))]
    rfl
  · rw [bind_ok hd]
    dsimp only
    cases hn : o.length? with
    | none => trivial
    | some n =>
        refine .instruction hc rfl (w.active_balanced hs) ?_ ⟨hw, rfl⟩
        simp only [execute]
        rw [bind_ok (pop_active _), bind_ok (onHeap_active (length_some ho hn)),
          bind_ok (pushWord_active (room_of_push w s _))]
        rfl

/-- An object is added that is not too large. -/
theorem World.Sized.allocate (hw : w.Sized) {o : Obj}
    (h : ∀ cls fields, o = .record cls fields → fields.size ≤ maxFields) :
    { w with heap := w.heap.push o }.Sized := by
  refine ⟨hw.frame, hw.globals, fun j cls fields hj => ?_⟩
  simp only [Array.getElem?_push] at hj
  split at hj
  · exact h cls fields (Option.some.inj hj)
  · exact hw.records j cls fields hj

/-- An instruction that takes some operands and leaves a fresh object. -/
theorem allocate_simulated {i : Instruction} {m : Machine} (hw : w.Sized) (hv : m.visits = #[])
    (hb : m.Balanced) (hc : CodeAt object pc (i :: is)) {o : Obj}
    (ho : ∀ cls fields, o = .record cls fields → fields.size ≤ maxFields)
    (he : execute m.roomy pc (pc + i.size) i m = .ok (.goto (pc + i.size))
      ({ w with heap := w.heap.push o }.machine (s.stack.push (Int32.ofNat (w.heap.size + 1)))
        (w.frame.map Value.rep :: s.outer) s.calls)) :
    Simulates object fuel ⟨pc, m⟩
      (Yields (pc + i.size) s)
      (Eval.allocate o w) := by
  change Simulates _ _ _ _ ((if h : w.heap.size < maxObjects then (do
    modify fun w => { w with heap := w.heap.push o }
    return .ref (some ⟨w.heap.size, h⟩)) else throw .exhausted : Eval Value) w)
  split
  · exact .instruction hc hv hb he ⟨hw.allocate ho, rfl⟩
  · next hfull =>
      refine ⟨1, _, .single hb ((hc.advance_eq hv).trans he), ?_⟩
      simp only [World.machine, Array.size_map, Array.size_push]
      omega

theorem allocPush_active {limits : Limits} (o : Obj) {h : HeapObject} (hr : o.rep = h)
    (hl : s.stack.size < limits.stack) : (Exec.alloc h >>= Exec.push limits) (w.active s) =
      .ok () ({ w with heap := w.heap.push o }.machine (s.stack.push (Int32.ofNat (w.heap.size + 1)))
        (w.frame.map Value.rep :: s.outer) s.calls) := by
  rw [← hr, bind_ok (alloc_active o)]
  simp only [Exec.push, World.active, World.machine, hl, if_true]

theorem rep_blankRecord (cls : ClassId) (tys : List Ty) :
    (Obj.record cls (tys.map zeroOf).toArray).rep = .record (Array.replicate tys.length 0) := by
  simp only [Obj.rep, List.map_toArray, List.map_map, Function.comp_def, rep_zeroOf,
    List.map_const', List.toArray_replicate]

theorem newObject_simulated {P : Program} {cls : ClassId} (hs : s.Even) (hw : w.Sized)
    (hn : (P.fields cls).length ≤ maxFields)
    (hc : CodeAt object pc (.new (addressOf (P.layout.fieldCount cls)) :: is)) :
    Simulates object fuel ⟨pc, w.active s⟩
      (Yields (pc + (Instruction.new 0).size) s)
      (Eval.allocate (.record cls ((P.fields cls).map zeroOf).toArray) w) := by
  refine allocate_simulated hw rfl (w.active_balanced hs) hc ?_ ?_
  · intro cls' fields h
    cases h
    simpa using hn
  · have hfields : (addressOf (P.layout.fieldCount cls)).toNat = (P.fields cls).length :=
      toNat_addressOf hn
    simp only [execute]
    rw [hfields, ← bind_assoc, bind_ok (allocPush_active _ (rep_blankRecord cls _)
      (Nat.lt_succ_self _))]
    rfl

theorem rep_blankArray (elem : Ty) (n : Nat) : (Eval.blankArray elem n).rep =
    match widthOfElem elem with
    | .byte => .bytes (Array.replicate n 0)
    | .word => .words (Array.replicate n 0) := by
  rw [Eval.blankArray, widthOfElem]
  split
  · rfl
  · simp [Obj.rep]

theorem blankArray_ne_record (elem : Ty) (n : Nat) (cls : ClassId) (fields : Array Value) :
    Eval.blankArray elem n ≠ .record cls fields := by
  rw [Eval.blankArray]
  split <;> simp

theorem newArray_simulated {elem : Ty} (hs : s.Even) (hw : w.Sized)
    (hc : CodeAt object pc (.newArray (widthOfElem elem) :: is)) (n : Int32) :
    Simulates object fuel ⟨pc, w.active (s.push (.word n))⟩
      (Yields (pc + (Instruction.newArray (widthOfElem elem)).size) s)
      ((if n.toInt < 0 then Eval.fail (.negativeSize n)
        else Eval.allocate (Eval.blankArray elem n.toInt.toNat) : Eval Value) w) := by
  have hsign : n < 0 ↔ n.toInt < 0 := Int32.lt_iff_toInt_lt
  split
  · next hneg =>
      refine .failure hc rfl (w.active_balanced hs) ?_ (shows_active w s)
      have hb : Exec.newArray (w.active (s.push (.word n))).roomy (widthOfElem elem) pc
          (w.active (s.push (.word n))) = .error (.negativeSize n pc) (w.active s) := by
        rw [Exec.newArray, bind_ok (pop_active _), Value.rep_word, if_pos (hsign.2 hneg)]
        rfl
      simp only [execute]
      rw [bind_error hb]
      rfl
  · next hneg =>
      refine allocate_simulated hw rfl (w.active_balanced (hs.push (.word n))) hc
        (fun cls fields h => absurd h (blankArray_ne_record _ _ _ _)) ?_
      simp only [execute]
      refine (bind_ok (a := ()) ?_).trans rfl
      rw [Exec.newArray, bind_ok (pop_active _), Value.rep_word, if_neg (mt hsign.1 hneg)]
      have hrep := rep_blankArray elem n.toInt.toNat
      cases hwidth : widthOfElem elem with
      | byte =>
          rw [hwidth] at hrep
          exact allocPush_active _ hrep (room_of_push w s _)
      | word =>
          rw [hwidth] at hrep
          exact allocPush_active _ hrep (room_of_push w s _)

/-- From the call instruction to the method and back. -/
theorem call_simulated {P : Program} {calls : CallRule} (hcalls : CallsSimulated P object fuel calls)
    (hs : s.Even) (hw : w.Sized) {method : Nat} (hm : P.entry method ≤ maxAddress)
    (hc : CodeAt object pc (.call (addressOf (P.layout.entry method)) :: is)) (args : List Value) :
    Simulates object fuel ⟨pc, w.active (s.pushAll args)⟩
      (fun r w' c' => w'.Sized ∧ c' = ⟨pc + callSize, w'.active (s.pushResult r)⟩)
      (calls method args w) := by
  have heven : (s.pushAll args).Even := by simpa [Surroundings.Even] using hs
  have hentry : (addressOf (P.layout.entry method)).toNat = P.entry method := toNat_addressOf hm
  refine (hcalls method args w s (pc + callSize) hs hw).after
    (.single (w.active_balanced heven) ((hc.advance_eq rfl).trans ?_))
  simp only [execute]
  have hcall : Exec.call (w.active (s.pushAll args)).roomy (pc + callSize)
      (w.active (s.pushAll args)) = .ok () (s.called w args (pc + callSize)) := by
    simp [Exec.call, World.active, World.machine, Machine.roomy, Surroundings.called]
  rw [size_call, bind_ok hcall, hentry]
  rfl

end Operations

/-! ## Expressions -/

section Expressions

variable {P : Program} {object : ObjectFile} {fuel : Nat} {calls : CallRule}

theorem eval_of_constant? {e : Expr} {v : Int32} (h : e.constant? = some v) (w : World) :
    e.eval P calls w = .ok (.word v) w := by
  induction e using Expr.constant?.induct generalizing v with
  | case1 x =>
      cases h
      rfl
  | case2 e ih =>
      obtain ⟨x, hx, rfl⟩ := Option.map_eq_some_iff.1 h
      rw [Expr.eval, bind_ok (ih hx), ← Word.ofInt_neg_toInt]
      rfl
  | case3 e h₁ h₂ =>
      rw [Expr.constant?] at h
      · cases h
      · exact h₁
      · exact h₂

variable (P object fuel calls) in
/-- The code of an expression does what its evaluation does. -/
def Expr.Simulated (e : Expr) : Prop :=
  ∀ (pc : Nat) (w : World) (s : Surroundings), s.Even → w.Sized →
    CodeAt object pc (e.code P.layout) →
    Simulates object fuel ⟨pc, w.active s⟩ (Yields (pc + e.size) s) (e.eval P calls w)

variable (P object fuel calls) in
/-- The code in front of the use of a location leaves its object and index on the stack. -/
def Location.Simulated (loc : Location) : Prop :=
  ∀ (pc : Nat) (w : World) (s : Surroundings), s.Even → w.Sized →
    CodeAt object pc (loc.access P.layout) →
    Simulates object fuel ⟨pc, w.active s⟩
      (fun slot w' c' => w'.Sized ∧ Slot.Fits loc slot ∧
        c' = ⟨pc + loc.accessSize, w'.active (s.pushAll slot.operands)⟩) (loc.locate P calls w)

variable (P object fuel calls) in
/-- The code of arguments leaves their values on the stack. -/
def ArgsSimulated (args : List Expr) : Prop :=
  ∀ (pc : Nat) (w : World) (s : Surroundings), s.Even → w.Sized →
    CodeAt object pc (argsCode P.layout args) →
    Simulates object fuel ⟨pc, w.active s⟩
      (fun vs w' c' => w'.Sized ∧ c' = ⟨pc + argsSize args, w'.active (s.pushAll vs)⟩)
      (evalArgs P calls args w)

/-! What uses a value stands behind the code of its expression. -/

section Uses

variable {α : Type} {is : List Instruction} {pc : Nat} {w : World} {s : Surroundings}
  {post : α → World → Config → Prop}

theorem Expr.Simulated.bind {e : Expr} (he : e.Simulated P object fuel calls) (hs : s.Even)
    (hw : w.Sized) (hc : CodeAt object pc (e.code P.layout ++ is)) {f : Value → Eval α}
    (hf : ∀ v w', w'.Sized → CodeAt object (pc + e.size) is →
      Simulates object fuel ⟨pc + e.size, w'.active (s.push v)⟩ post (f v w')) :
    Simulates object fuel ⟨pc, w.active s⟩ post ((e.eval P calls >>= f) w) := by
  have hbehind := hc.right
  rw [Expr.codeSize_code] at hbehind
  refine (he pc w s hs hw hc.left).bind ?_
  rintro v w' c' ⟨hw', rfl⟩
  exact hf v w' hw' hbehind

theorem Location.Simulated.bind {loc : Location} (hloc : loc.Simulated P object fuel calls)
    (hs : s.Even) (hw : w.Sized) (hc : CodeAt object pc (loc.access P.layout ++ is))
    {f : Slot → Eval α}
    (hf : ∀ slot w', w'.Sized → Slot.Fits loc slot → CodeAt object (pc + loc.accessSize) is →
      Simulates object fuel ⟨pc + loc.accessSize, w'.active (s.pushAll slot.operands)⟩ post
        (f slot w')) :
    Simulates object fuel ⟨pc, w.active s⟩ post ((loc.locate P calls >>= f) w) := by
  have hbehind := hc.right
  rw [Location.codeSize_access] at hbehind
  refine (hloc pc w s hs hw hc.left).bind ?_
  rintro slot w' c' ⟨hw', hfits, rfl⟩
  exact hf slot w' hw' hfits hbehind

theorem ArgsSimulated.bind {args : List Expr} (hargs : ArgsSimulated P object fuel calls args)
    (hs : s.Even) (hw : w.Sized) (hc : CodeAt object pc (argsCode P.layout args ++ is))
    {f : List Value → Eval α}
    (hf : ∀ vs w', w'.Sized → CodeAt object (pc + argsSize args) is →
      Simulates object fuel ⟨pc + argsSize args, w'.active (s.pushAll vs)⟩ post (f vs w')) :
    Simulates object fuel ⟨pc, w.active s⟩ post ((evalArgs P calls args >>= f) w) := by
  have hbehind := hc.right
  rw [codeSize_argsCode] at hbehind
  refine (hargs pc w s hs hw hc.left).bind ?_
  rintro vs w' c' ⟨hw', rfl⟩
  exact hf vs w' hw' hbehind

end Uses

namespace Location.Simulated

theorem frame (slot : Nat) : (Location.frame slot).Simulated P object fuel calls := by
  intro pc w s hs hw hc
  rw [Location.locate]
  exact .of_ok ⟨hw, .frame slot, rfl⟩

theorem global (adr : Nat) : (Location.global adr).Simulated P object fuel calls := by
  intro pc w s hs hw hc
  rw [Location.locate]
  exact .of_ok ⟨hw, .global adr, rfl⟩

theorem field {e : Expr} (he : e.Simulated P object fuel calls) (adr : Nat) :
    (Location.field e adr).Simulated P object fuel calls := by
  intro pc w s hs hw hc
  rw [Location.locate, Location.accessSize]
  rw [Location.access] at hc
  refine (he pc w s hs hw hc).bind ?_
  rintro v w' c' ⟨hw', rfl⟩
  exact .of_ok ⟨hw', .field e v adr, rfl⟩

theorem element {array index : Expr} (ha : array.Simulated P object fuel calls)
    (hi : index.Simulated P object fuel calls) (elem : Ty) :
    (Location.element array index elem).Simulated P object fuel calls := by
  intro pc w s hs hw hc
  rw [Location.locate, Location.accessSize]
  rw [Location.access] at hc
  refine ha.bind hs hw hc fun a w' hw' hc' => ?_
  refine (hi _ w' _ (hs.push a) hw' hc').bind ?_
  rintro k w'' c'' ⟨hw'', rfl⟩
  rw [Nat.add_assoc]
  exact .of_ok ⟨hw'', .element array index elem a k, rfl⟩

end Location.Simulated

namespace Expr.Simulated

theorem constant (v : Int32) : (Expr.constant v).Simulated P object fuel calls := by
  intro pc w s hs hw hc
  rw [Expr.eval, Expr.size]
  rw [Expr.code] at hc
  exact .after (const_path hs hc w) (.of_ok ⟨hw, rfl⟩)

theorem value {loc : Location} (hloc : loc.Simulated P object fuel calls) :
    (Expr.value loc).Simulated P object fuel calls := by
  intro pc w s hs hw hc
  rw [Expr.eval, Expr.size]
  rw [Expr.code] at hc
  refine hloc.bind hs hw hc fun slot w' hw' hfits hc' => ?_
  refine (slot.read_simulated hfits hw' hs hc').weaken ?_
  rintro v w'' c'' ⟨rfl, rfl⟩
  rw [Nat.add_assoc]
  exact ⟨hw', rfl⟩

theorem call (hl : Linked P object fuel calls) (method : Nat) {args : List Expr}
    (hargs : ArgsSimulated P object fuel calls args) :
    (Expr.call method args).Simulated P object fuel calls := by
  intro pc w s hs hw hc
  rw [Expr.eval, Expr.size]
  rw [Expr.code] at hc
  refine hargs.bind hs hw hc fun vs w' hw' hc' => ?_
  refine (call_simulated hl.calls hs hw' (hl.entries method) hc' vs).bind ?_
  rintro r w'' c'' ⟨hw'', rfl⟩
  cases r with
  | none => trivial
  | some v =>
      rw [Nat.add_assoc]
      exact .of_ok ⟨hw'', rfl⟩

theorem convert {operand : Expr} (ho : operand.Simulated P object fuel calls) :
    (Expr.convert operand).Simulated P object fuel calls := by
  intro pc w s hs hw hc
  rw [Expr.eval, Expr.size]
  rw [Expr.code] at hc
  exact ho pc w s hs hw hc

theorem length {array : Expr} (ha : array.Simulated P object fuel calls) :
    (Expr.length array).Simulated P object fuel calls := by
  intro pc w s hs hw hc
  rw [Expr.eval, Expr.size, ← Nat.add_assoc]
  rw [Expr.code] at hc
  exact ha.bind hs hw hc fun a w' hw' hc' => length_simulated hs hw' hc' a

theorem newObject (cls : ClassId) : (Expr.newObject cls).Simulated P object fuel calls := by
  intro pc w s hs hw hc
  rw [Expr.eval, Expr.size]
  rw [Expr.code] at hc
  split
  · next hn => exact newObject_simulated hs hw hn hc
  · trivial

theorem newArray (elem : Ty) {size : Expr} (hsize : size.Simulated P object fuel calls) :
    (Expr.newArray elem size).Simulated P object fuel calls := by
  intro pc w s hs hw hc
  rw [Expr.eval, Expr.size, ← Nat.add_assoc]
  rw [Expr.code] at hc
  refine hsize.bind hs hw hc fun n w' hw' hc' => ?_
  cases n with
  | ref => trivial
  | word n => exact newArray_simulated hs hw' hc' n

/-- A constant behind a minus sign was negated when the code was written. -/
theorem negate {operand : Expr} (ho : operand.Simulated P object fuel calls) :
    (Expr.negate operand).Simulated P object fuel calls := by
  intro pc w s hs hw hc
  rw [Expr.code] at hc
  rw [Expr.size]
  split at hc
  · next v hv =>
      rw [Expr.eval, bind_ok (eval_of_constant? hv w)]
      exact .after (const_path hs hc w) (.of_ok ⟨hw, by rw [Word.ofInt_neg_toInt]⟩)
  · next hv =>
      rw [Expr.eval]
      refine ho.bind hs hw hc fun v w' hw' hc' => ?_
      cases v with
      | ref => trivial
      | word n =>
          rw [← Nat.add_assoc]
          have hpath := neg_path hs hc' w' n
          rw [← Word.ofInt_neg_toInt] at hpath
          exact .after hpath (.of_ok ⟨hw', rfl⟩)

theorem binary (op : Arithmetic) {left right : Expr} (hl : left.Simulated P object fuel calls)
    (hr : right.Simulated P object fuel calls) :
    (Expr.binary op left right).Simulated P object fuel calls := by
  intro pc w s hs hw hc
  rw [Expr.eval, Expr.size, ← Nat.add_assoc, ← Nat.add_assoc]
  rw [Expr.code, List.append_assoc] at hc
  refine hl.bind hs hw hc fun a w' hw' hc' => ?_
  cases a with
  | ref => trivial
  | word a =>
  refine hr.bind (hs.push _) hw' hc' fun b w'' hw'' hc'' => ?_
  cases b with
  | ref => trivial
  | word b => exact binary_simulated hs hw'' hc'' a b

end Expr.Simulated

namespace ArgsSimulated

theorem nil : ArgsSimulated P object fuel calls [] := by
  intro pc w s hs hw hc
  rw [evalArgs, argsSize]
  exact .of_ok ⟨hw, rfl⟩

theorem cons {arg : Expr} {rest : List Expr} (ha : arg.Simulated P object fuel calls)
    (hr : ArgsSimulated P object fuel calls rest) :
    ArgsSimulated P object fuel calls (arg :: rest) := by
  intro pc w s hs hw hc
  rw [evalArgs, argsSize]
  rw [argsCode] at hc
  refine ha.bind hs hw hc fun v w' hw' hc' => ?_
  refine (hr _ w' _ (hs.push v) hw' hc').bind ?_
  rintro vs w'' c'' ⟨hw'', rfl⟩
  rw [Nat.add_assoc]
  exact .of_ok ⟨hw'', rfl⟩

end ArgsSimulated

mutual

theorem Location.simulated (hl : Linked P object fuel calls) :
    (loc : Location) → loc.Simulated P object fuel calls
  | .frame slot => .frame slot
  | .global adr => .global adr
  | .field e adr => .field (Expr.simulated hl e) adr
  | .element array index elem => .element (Expr.simulated hl array) (Expr.simulated hl index) elem

theorem Expr.simulated (hl : Linked P object fuel calls) :
    (e : Expr) → e.Simulated P object fuel calls
  | .constant v => .constant v
  | .value loc => .value (Location.simulated hl loc)
  | .call method args => .call hl method (args_simulated hl args)
  | .convert operand => .convert (Expr.simulated hl operand)
  | .length array => .length (Expr.simulated hl array)
  | .newObject cls => .newObject cls
  | .newArray elem size => .newArray elem (Expr.simulated hl size)
  | .negate operand => .negate (Expr.simulated hl operand)
  | .binary op left right => .binary op (Expr.simulated hl left) (Expr.simulated hl right)

theorem args_simulated (hl : Linked P object fuel calls) :
    (args : List Expr) → ArgsSimulated P object fuel calls args
  | [] => .nil
  | arg :: rest => .cons (Expr.simulated hl arg) (args_simulated hl rest)

end

end Expressions

end MicroJava.Resolved
