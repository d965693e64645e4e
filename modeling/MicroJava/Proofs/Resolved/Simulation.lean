import MicroJava.Proofs.Resolved.Representation

/-! # Code that simulates an evaluation

What it takes for the machine to do what an evaluation does. Parts of an evaluation that follow each
other are simulated by code that follows each other. -/

namespace MicroJava

open Exec (advance execute)

/-! ## Placed code -/

/-- The code holds these instructions from the given address on. -/
def CodeAt (object : ObjectFile) (pc : Nat) (is : List Instruction) : Prop :=
  ∃ before after, object.code.toList = before ++ Instruction.encodeAll is ++ after ∧
    before.length = pc

namespace CodeAt

variable {object : ObjectFile} {pc : Nat} {i : Instruction} {is js : List Instruction}

theorem left (h : CodeAt object pc (is ++ js)) : CodeAt object pc is := by
  obtain ⟨before, after, hcode, hpc⟩ := h
  exact ⟨before, Instruction.encodeAll js ++ after, by simp [hcode], hpc⟩

theorem right (h : CodeAt object pc (is ++ js)) : CodeAt object (pc + Resolved.codeSize is) js := by
  obtain ⟨before, after, hcode, rfl⟩ := h
  exact ⟨before ++ Instruction.encodeAll is, after, by simp [hcode],
    by simp [Resolved.codeSize]⟩

theorem inside {inner : Nat} (h : CodeAt object pc (is ++ js))
    (hi : inner = pc + Resolved.codeSize is) : CodeAt object inner js :=
  hi ▸ h.right

theorem tail (h : CodeAt object pc (i :: is)) : CodeAt object (pc + i.size) is := by
  have hr := right (show CodeAt object pc ([i] ++ is) from h)
  simpa using hr

theorem le_size (h : CodeAt object pc is) : pc + Resolved.codeSize is ≤ object.code.size := by
  obtain ⟨before, after, hcode, rfl⟩ := h
  rw [← Array.length_toList, hcode]
  simp [Resolved.codeSize]

theorem decode (h : CodeAt object pc (i :: is)) :
    Instruction.decode object.code pc = .ok (i, pc + i.size) := by
  obtain ⟨before, after, hcode, rfl⟩ := h
  have hi : object.code.toList = before ++ i.encode ++ (Instruction.encodeAll is ++ after) := by
    simp [hcode]
  exact Instruction.decode_at i hi

theorem advance_eq (h : CodeAt object pc (i :: is)) {m : Machine} (hv : m.visits = #[]) :
    advance object pc m = execute m.roomy pc (pc + i.size) i m := by
  have hf : Exec.fetch object pc m = .ok (i, pc + i.size) m := by
    simp only [Exec.fetch, h.decode]
    congr
    rw [hv]
    rfl
  exact bind_ok hf

end CodeAt

namespace Resolved

/-! ## Surroundings -/

/-- What a part of a method leaves alone on the machine. -/
structure Surroundings where
  stack : Array Int32
  /-- Frames of the callers. -/
  outer : List (Array Int32)
  calls : Array Nat

namespace Surroundings

/-- Every return address belongs to a caller. -/
def Even (s : Surroundings) : Prop := s.outer.length = s.calls.size

def push (s : Surroundings) (v : Value) : Surroundings := { s with stack := s.stack.push v.rep }

def pushAll (s : Surroundings) (vs : List Value) : Surroundings := vs.foldl push s

@[simp] theorem pushAll_nil (s : Surroundings) : s.pushAll [] = s := rfl

@[simp] theorem pushAll_cons (s : Surroundings) (v : Value) (vs : List Value) :
    s.pushAll (v :: vs) = (s.push v).pushAll vs := rfl

@[simp] theorem outer_push (s : Surroundings) (v : Value) : (s.push v).outer = s.outer := rfl

@[simp] theorem calls_push (s : Surroundings) (v : Value) : (s.push v).calls = s.calls := rfl

@[simp] theorem outer_pushAll (s : Surroundings) (vs : List Value) :
    (s.pushAll vs).outer = s.outer := by
  induction vs generalizing s with
  | nil => rfl
  | cons v vs ih => rw [pushAll_cons, ih, outer_push]

@[simp] theorem calls_pushAll (s : Surroundings) (vs : List Value) :
    (s.pushAll vs).calls = s.calls := by
  induction vs generalizing s with
  | nil => rfl
  | cons v vs ih => rw [pushAll_cons, ih, calls_push]

theorem stack_pushAll (s : Surroundings) (vs : List Value) :
    (s.pushAll vs).stack = s.stack ++ (vs.map Value.rep).toArray := by
  induction vs generalizing s with
  | nil => simp
  | cons v vs ih => simp [ih, push]

theorem Even.push {s : Surroundings} (h : s.Even) (v : Value) : (s.push v).Even := h

end Surroundings

/-- The machine inside a method. -/
def World.active (w : World) (s : Surroundings) : Machine :=
  w.machine s.stack (w.frame.map Value.rep :: s.outer) s.calls

theorem World.active_balanced (w : World) {s : Surroundings} (h : s.Even) :
    (w.active s).Balanced := by
  right
  simp only [World.active, World.machine, List.length_cons]
  rw [h]

/-- The sizes of a world fit the fields of the instructions. -/
structure World.Sized (w : World) : Prop where
  frame : w.frame.size ≤ maxFrame
  globals : w.globals.size ≤ maxAddress
  records : ∀ (i : Nat) cls fields, w.heap[i]? = some (.record cls fields) →
    fields.size ≤ maxFields

/-! ## Simulation -/

/-- The fault that a failure becomes. -/
def Failure.fault (pc : Nat) : Failure → Fault
  | divisionByZero => .divisionByZero pc
  | nullReference => .access .nullReference pc
  | outOfBounds index length => .access (.outOfBounds index length) pc
  | negativeSize size => .negativeSize size pc
  | endOfInput => .endOfInput pc
  | missingReturn => .trap Instruction.missingReturn pc

/-- The machine shows the globals and the output of a world. -/
structure Shows (m : Machine) (w : World) : Prop where
  globals : m.globals = w.globals.map Value.rep
  output : m.output = w.output

variable {α β : Type}

/-- From the given place on the machine does what the evaluation did. What the evaluation leaves
open the machine may do as it likes; an evaluation without fuel is a long path. -/
def Simulates (object : ObjectFile) (fuel : Nat) (c : Config) (post : α → World → Config → Prop) :
    EStateM.Result Stop World α → Prop
  | .ok a w => ∃ k c', Path object k c c' ∧ post a w c'
  | .error (.failure f) w => ∃ k pc m m', Path object k c ⟨pc, m⟩ ∧ m.Balanced ∧
      advance object pc m = .error (f.fault pc) m' ∧ Shows m' w
  | .error .stuck _ => True
  | .error .exhausted _ => ∃ k c', Path object k c c' ∧ maxObjects < c'.machine.heap.size
  | .error .outOfFuel _ => ∃ k c', fuel ≤ k ∧ Path object k c c'

namespace Simulates

variable {object : ObjectFile} {fuel fuel' k : Nat} {c c' : Config}
  {post mid : α → World → Config → Prop} {r : EStateM.Result Stop World α}

theorem mono {fuel' : Nat} (h : Simulates object fuel' c post r) (hf : fuel ≤ fuel') :
    Simulates object fuel c post r := by
  match r with
  | .ok _ _ | .error (.failure _) _ | .error .stuck _ | .error .exhausted _ => exact h
  | .error .outOfFuel _ =>
      obtain ⟨k, c', hk, hp⟩ := h
      exact ⟨k, c', Nat.le_trans hf hk, hp⟩

theorem weaken (h : Simulates object fuel c mid r) (hw : ∀ a w c', mid a w c' → post a w c') :
    Simulates object fuel c post r := by
  match r with
  | .ok a w =>
      obtain ⟨k, c', hp, hm⟩ := h
      exact ⟨k, c', hp, hw a w c' hm⟩
  | .error (.failure _) _ | .error .stuck _ | .error .exhausted _ | .error .outOfFuel _ => exact h

/-- Instructions in front make the path of an evaluation without fuel longer. -/
theorem later (hp : Path object k c c') (h : Simulates object fuel c' post r) :
    Simulates object (fuel + k) c post r := by
  match r with
  | .ok a w =>
      obtain ⟨j, d, hd, hm⟩ := h
      exact ⟨k + j, d, hp.trans hd, hm⟩
  | .error (.failure f) w =>
      obtain ⟨j, pc, m, m', hd, hrest⟩ := h
      exact ⟨k + j, pc, m, m', hp.trans hd, hrest⟩
  | .error .stuck _ => trivial
  | .error .exhausted _ =>
      obtain ⟨j, d, hd, hm⟩ := h
      exact ⟨k + j, d, hp.trans hd, hm⟩
  | .error .outOfFuel _ =>
      obtain ⟨j, d, hj, hd⟩ := h
      exact ⟨k + j, d, by omega, hp.trans hd⟩

theorem after (hp : Path object k c c') (h : Simulates object fuel c' post r) :
    Simulates object fuel c post r :=
  (h.later hp).mono (Nat.le_add_right _ _)

theorem of_ok {a : α} {w : World} (h : post a w c) : Simulates object fuel c post (.ok a w) :=
  ⟨0, c, .refl c, h⟩

/-- Evaluations that follow each other. -/
theorem bind {act : Eval α} {f : α → Eval β} {w : World} {last : β → World → Config → Prop}
    (h : Simulates object fuel c mid (act w))
    (hf : ∀ a w' c', mid a w' c' → Simulates object fuel c' last (f a w')) :
    Simulates object fuel c last ((act >>= f) w) := by
  change Simulates object fuel c last (EStateM.bind act f w)
  rw [EStateM.bind]
  match hr : act w with
  | .ok a w' =>
      rw [hr] at h
      obtain ⟨k, c', hp, hm⟩ := h
      exact (hf a w' c' hm).after hp
  | .error (.failure _) _ | .error .stuck _ | .error .exhausted _ | .error .outOfFuel _ =>
      rw [hr] at h
      exact h

end Simulates

end Resolved

end MicroJava
