import Mathlib.Algebra.Group.Int.Defs
import Mathlib.Algebra.GroupWithZero.Nat
import Mathlib.Data.List.Induction
import MicroJava.Proofs.Machine.Unlimited

/-! # Overflow

Two calculations of the machine are not written to wrap around: following a reference subtracts one
from it, and reading a number counts its digits. The first overflows at the least word and the
second at 2^31 digits. A machine notes where this happens, and a build that checks for overflow
gives no result of a run there. -/

namespace MicroJava

theorem overflows_iff {n : Int} : overflows n ↔ n < -2 ^ 31 ∨ 2 ^ 31 ≤ n := by
  have hsize : (Int32.size : Int) = 2 ^ 32 := rfl
  rw [overflows, bne_iff_ne, Int32.toInt_ofInt, Ne, Int.bmod_eq_iff (by decide), hsize]
  omega

/-- Only the least word has no word below it. -/
theorem overflows_sub_one {ref : Int32} : overflows (ref.toInt - 1) ↔ ref = Int32.minValue := by
  have hle : ref.toInt < 2 ^ 31 := ref.toInt_lt
  have hge : -2 ^ 31 ≤ ref.toInt := ref.le_toInt
  have hleast : Int32.minValue.toInt = -2 ^ 31 := rfl
  rw [overflows_iff, ← Int32.toInt_inj, hleast]
  omega

namespace Numeral

/-- The digits of the number in front of the input. -/
def leading (input : List Char) : List Char :=
  match input.dropWhile Text.isBlank with
  | '-' :: rest => rest.takeWhile Char.isDigit
  | rest => rest.takeWhile Char.isDigit

theorem tally_concat (digits : List Char) (c : Char) :
    tally (digits ++ [c]) = (tally digits).next c := by
  rw [tally, List.foldl_append]
  rfl

/-- The digits are counted modulo 2^32. -/
theorem count_tally (digits : List Char) : (tally digits).count = Int32.ofNat digits.length := by
  induction digits using List.reverseRecOn with
  | nil => rfl
  | append_singleton digits c ih =>
      rw [tally_concat, Tally.next, ih, List.length_append, Int32.ofNat_add]
      rfl

theorem count_tally_eq_zero {digits : List Char} :
    (tally digits).count = 0 ↔ 2 ^ 32 ∣ digits.length := by
  have hsize : (Int32.size : Int) = 2 ^ 32 := rfl
  have hzero : (0 : Int32).toInt = 0 := rfl
  rw [count_tally, ← Int32.toInt_inj, Int32.toInt_ofNat', hzero, Int.bmod_eq_iff (by decide),
    hsize]
  omega

/-- The count has left the range of a word where there are more digits than the greatest word. -/
theorem overflowed_tally {digits : List Char} :
    (tally digits).overflowed ↔ 2 ^ 31 ≤ digits.length := by
  induction digits using List.reverseRecOn with
  | nil => decide
  | append_singleton digits c ih =>
      rw [tally_concat, Tally.next, Bool.or_eq_true, ih, count_tally, overflows_iff,
        List.length_append, List.length_singleton]
      by_cases hlt : digits.length < 2 ^ 31
      · rw [Int32.toInt_ofNat_of_lt hlt]
        omega
      · omega

theorem overflowed_read (input : List Char) :
    (read input).overflowed ↔ 2 ^ 31 ≤ (leading input).length := by
  unfold leading
  split
  · next rest hminus =>
      rw [read, hminus]
      exact overflowed_tally
  · next hplus =>
      unfold read
      split
      · next rest hminus => exact absurd hminus (hplus rest)
      · exact overflowed_tally

end Numeral

namespace Instruction

/-- How deep in the stack an instruction has the reference that it follows. -/
def reference? : Instruction → Option Nat
  | getField _ | arrayLength => some 0
  | putField _ | loadElem _ => some 1
  | storeElem _ => some 2
  | _ => none

/-- The instruction follows the least word as a reference, or it reads a number of more digits than
the greatest word. -/
def Overflows (i : Instruction) (m : Machine) : Prop :=
  (∃ depth, i.reference? = some depth ∧ m.stack.toList.reverse[depth]? = some Int32.minValue) ∨
    i = read ∧ 2 ^ 31 ≤ (Numeral.leading m.input).length

theorem overflows_read {m : Machine} :
    read.Overflows m ↔ 2 ^ 31 ≤ (Numeral.leading m.input).length := by
  refine ⟨?_, fun hlong => .inr ⟨rfl, hlong⟩⟩
  rintro (⟨depth, hdepth, -⟩ | ⟨-, hlong⟩)
  · cases hdepth
  · exact hlong

end Instruction

namespace Exec

variable {α β : Type} {limits : Limits}

/-- What a build that checks for overflow returns: nothing where there is one on the way. -/
def checked (act : Exec α) (m : Machine) : Option (EStateM.Result Fault Machine α) :=
  if (after (act m)).overflowed then none else some (act m)

theorem checked_eq_none {act : Exec α} {m : Machine} :
    checked act m = none ↔ (after (act m)).overflowed := by
  rw [checked]
  split <;> simp_all

theorem checked_eq_some {act : Exec α} {m : Machine} {result : EStateM.Result Fault Machine α} :
    checked act m = some result ↔ ¬(after (act m)).overflowed ∧ act m = result := by
  rw [checked]
  split <;> simp_all

/-! ## Inside an instruction -/

/-- A part of an instruction: it leaves the counts alone, and the limit on the steps is not what it
fails for. -/
class Unmetered (act : Exec α) : Prop where
  counts : ∀ m, (after (act m)).visits = m.visits ∧ (after (act m)).steps = m.steps
  fault : ∀ m f m', act m = .error f m' → ∀ k, f ≠ .stepLimit k

/-- A part of an instruction in which nothing overflows. -/
class Unmarked (act : Exec α) : Prop where
  unmetered : Unmetered act
  mark : ∀ m, (after (act m)).overflowed = m.overflowed

attribute [instance] Unmarked.unmetered

instance (a : α) : Unmarked (pure a : Exec α) := ⟨⟨fun _ => ⟨rfl, rfl⟩, nofun⟩, fun _ => rfl⟩

/-- A fault that is raised inside an instruction. -/
theorem unmarked_throw {f : Fault} (hf : ∀ k, f ≠ .stepLimit k) :
    Unmarked (throw f : Exec α) := by
  refine ⟨⟨fun _ => ⟨rfl, rfl⟩, ?_⟩, fun _ => rfl⟩
  rintro m _ _ ⟨⟩
  exact hf

instance (act : Exec α) (f : α → Exec β) [ha : Unmetered act] [hf : ∀ a, Unmetered (f a)] :
    Unmetered (act >>= f) := by
  refine ⟨fun m => ?_, fun m e m₁ he => ?_⟩
  · obtain ⟨hv, hs⟩ := ha.counts m
    cases hr : act m with
    | ok a m' =>
        rw [hr] at hv hs
        rw [bind_ok hr]
        obtain ⟨hv', hs'⟩ := (hf a).counts m'
        exact ⟨hv'.trans hv, hs'.trans hs⟩
    | error e m' =>
        rw [hr] at hv hs
        rw [bind_error hr]
        exact ⟨hv, hs⟩
  · cases hr : act m with
    | ok a m' =>
        rw [bind_ok hr] at he
        exact (hf a).fault m' e m₁ he
    | error e' m' =>
        rw [bind_error hr] at he
        cases he
        exact ha.fault m e m₁ hr

/-- Behind the first part nothing overflows. -/
theorem overflowed_bind (act : Exec α) (f : α → Exec β) [hf : ∀ a, Unmarked (f a)] (m : Machine) :
    (after ((act >>= f) m)).overflowed = (after (act m)).overflowed := by
  cases hr : act m with
  | ok a m' =>
      rw [bind_ok hr]
      exact (hf a).mark m'
  | error e m' => rw [bind_error hr, after, after]

instance (act : Exec α) (f : α → Exec β) [ha : Unmarked act] [hf : ∀ a, Unmarked (f a)] :
    Unmarked (act >>= f) :=
  ⟨inferInstance, fun m => (overflowed_bind act f m).trans (ha.mark m)⟩

instance (act : Exec α) [Unmarked act] : Unmarked (discard act) :=
  inferInstanceAs (Unmarked (act >>= fun _ => pure ()))

instance (c : Prop) [Decidable c] (act other : Exec α) [Unmarked act] [Unmarked other] :
    Unmarked (if c then act else other) := by
  split <;> infer_instance

instance (value : Int32) : Unmarked (push limits value) := by
  refine ⟨⟨?_, ?_⟩, ?_⟩ <;> grind [push, after]

instance (pc : Nat) : Unmarked (pop pc) := by
  refine ⟨⟨?_, ?_⟩, ?_⟩ <;> grind [pop, after]

instance (slot pc : Nat) : Unmarked (getLocal slot pc) := by
  refine ⟨⟨?_, ?_⟩, ?_⟩ <;> grind [getLocal, after]

instance (slot pc : Nat) (value : Int32) : Unmarked (setLocal slot pc value) := by
  refine ⟨⟨?_, ?_⟩, ?_⟩ <;> grind [setLocal, after]

instance (adr pc : Nat) : Unmarked (getGlobal adr pc) := by
  refine ⟨⟨?_, ?_⟩, ?_⟩ <;> grind [getGlobal, after]

instance (adr pc : Nat) (value : Int32) : Unmarked (setGlobal adr pc value) := by
  refine ⟨⟨?_, ?_⟩, ?_⟩ <;> grind [setGlobal, after]

instance (o : HeapObject) : Unmarked (alloc o) := ⟨⟨fun _ => ⟨rfl, rfl⟩, nofun⟩, fun _ => rfl⟩

instance (ref : Int32) (pc : Nat) (find : Heap → Except AccessError α) :
    Unmetered (onHeap ref pc find) := by
  constructor <;> grind [onHeap, after, Machine.noting]

instance (slot : HeapSlot) : Unmarked (readSlot slot) :=
  ⟨⟨fun _ => ⟨rfl, rfl⟩, nofun⟩, fun _ => rfl⟩

instance (slot : HeapSlot) (value : Int32) : Unmarked (writeSlot slot value) :=
  ⟨⟨fun _ => ⟨rfl, rfl⟩, nofun⟩, fun _ => rfl⟩

instance (params size pc : Nat) : Unmarked (enter params size pc) := by
  refine ⟨⟨?_, ?_⟩, ?_⟩ <;> grind [enter, after]

instance (pc : Nat) : Unmarked (exit pc) := by
  refine ⟨⟨?_, ?_⟩, ?_⟩ <;> grind [exit, after]

instance (next : Nat) : Unmarked (call limits next) := by
  refine ⟨⟨?_, ?_⟩, ?_⟩ <;> grind [call, after]

instance : Unmarked back := by
  refine ⟨⟨?_, ?_⟩, ?_⟩ <;> grind [back, after]

instance (pc : Nat) : Unmarked (readChar pc) := by
  refine ⟨⟨?_, ?_⟩, ?_⟩ <;> grind [readChar, after]

instance (pc : Nat) : Unmetered (readNumber pc) := by
  constructor <;> grind [readNumber, after, Machine.noting]

instance (text : String) : Unmarked (print text) :=
  ⟨⟨fun _ => ⟨rfl, rfl⟩, nofun⟩, fun _ => rfl⟩

instance (op : Arithmetic) (pc : Nat) : Unmarked (binary limits op pc) := by
  have hvalue : ∀ value : Option Int32, Unmarked (match value with
      | some value => push limits value
      | none => throw (.divisionByZero pc)) := by
    intro value
    cases value with
    | some value => infer_instance
    | none => exact unmarked_throw nofun
  unfold binary
  infer_instance

instance (size : ElemSize) (pc : Nat) : Unmarked (newArray limits size pc) := by
  have hnegative : ∀ n : Int32, Unmarked (throw (.negativeSize n pc) : Exec PUnit) :=
    fun _ => unmarked_throw nofun
  unfold newArray
  cases size <;> infer_instance

/-! ## A whole instruction -/

variable {pc next : Nat} {depth : Nat}

theorem overflowed_onHeap (ref : Int32) (pc : Nat) (find : Heap → Except AccessError α)
    (m : Machine) : (after (onHeap ref pc find m)).overflowed ↔
      m.overflowed ∨ ref = Int32.minValue := by
  rw [← overflows_sub_one, ← Bool.or_eq_true]
  unfold onHeap
  dsimp only
  split <;> rfl

theorem overflowed_readNumber (pc : Nat) (m : Machine) : (after (readNumber pc m)).overflowed ↔
    m.overflowed ∨ 2 ^ 31 ≤ (Numeral.leading m.input).length := by
  rw [← Numeral.overflowed_read, ← Bool.or_eq_true]
  unfold readNumber
  dsimp only
  split <;> rfl

/-- There is a topmost word, or nothing happens. -/
theorem pop_cases (pc : Nat) (m : Machine) :
    (m.stack.toList.reverse = [] ∧ pop pc m = .error (.stackUnderflow pc) m) ∨
      ∃ value stack, m.stack.toList.reverse = value :: stack.toList.reverse ∧
        pop pc m = .ok value { m with stack } := by
  cases hback : m.stack.back? with
  | none =>
      left
      rw [Array.back?_eq_none_iff] at hback
      simp [pop, hback]
  | some value =>
      right
      obtain ⟨stack, hpush⟩ := Array.back?_eq_some_iff.1 hback
      refine ⟨value, stack, ?_, ?_⟩ <;> simp [pop, hpush]

/-- What overflows is following the reference at one place in the stack. -/
def Follows (depth : Nat) (act : Exec α) : Prop :=
  ∀ m, (after (act m)).overflowed ↔
    m.overflowed ∨ m.stack.toList.reverse[depth]? = some Int32.minValue

theorem follows_top {find : Int32 → Heap → Except AccessError α} {f : Int32 → α → Exec β}
    [∀ ref a, Unmarked (f ref a)] :
    Follows 0 (do
      let ref ← pop pc
      let a ← onHeap ref pc (find ref)
      f ref a) := by
  intro m
  rcases pop_cases pc m with ⟨hnone, hpop⟩ | ⟨ref, stack, hsome, hpop⟩
  · rw [bind_error hpop, hnone, after]
    simp
  · rw [bind_ok hpop, overflowed_bind, overflowed_onHeap, hsome]
    simp

theorem follows_below {f : Int32 → Exec α} (hf : ∀ value, Follows depth (f value)) :
    Follows (depth + 1) (pop pc >>= f) := by
  intro m
  rcases pop_cases pc m with ⟨hnone, hpop⟩ | ⟨value, stack, hsome, hpop⟩
  · rw [bind_error hpop, hnone, after]
    simp
  · rw [bind_ok hpop, hf value, hsome, List.getElem?_cons_succ]

theorem follows_execute {i : Instruction} (hi : i.reference? = some depth) :
    Follows depth (execute limits pc next i) := by
  cases i with
  | getField adr | arrayLength =>
      cases hi
      exact follows_top
  | putField adr | loadElem size =>
      cases hi
      exact follows_below fun _ => follows_top
  | storeElem size =>
      cases hi
      exact follows_below fun _ => follows_below fun _ => follows_top
  | _ => cases hi

instance (code : UInt8) (pc : Nat) : Unmarked (throw (.trap code pc) : Exec PUnit) :=
  unmarked_throw nofun

theorem unmarked_execute {i : Instruction} (hi : i.reference? = none) (hread : i ≠ .read) :
    Unmarked (execute limits pc next i) := by
  cases i with
  | getField | putField | loadElem | storeElem | arrayLength => cases hi
  | read => exact absurd rfl hread
  | ret =>
      have hback : ∀ f : Option Nat → Exec Control, (∀ caller, Unmarked (f caller)) →
          Unmarked (back >>= f) := fun f hf => inferInstance
      unfold execute
      refine hback _ fun caller => ?_
      cases caller <;> infer_instance
  | _ =>
      unfold execute
      infer_instance

instance (pc next : Nat) (i : Instruction) : Unmetered (execute limits pc next i) := by
  by_cases hi : i.reference? = none ∧ i ≠ .read
  · exact (unmarked_execute hi.1 hi.2).unmetered
  · unfold execute
    cases i <;> first | infer_instance | exact absurd ⟨rfl, nofun⟩ hi

/-- When an instruction overflows. -/
theorem overflowed_execute (i : Instruction) (m : Machine) :
    (after (execute limits pc next i m)).overflowed ↔ m.overflowed ∨ i.Overflows m := by
  cases hi : i.reference? with
  | some depth =>
      rw [follows_execute hi m, Instruction.Overflows]
      have hread : i ≠ .read := by
        rintro rfl
        cases hi
      simp [hi, hread]
  | none =>
      by_cases hread : i = .read
      · subst hread
        rw [execute, overflowed_bind, overflowed_readNumber, Instruction.overflows_read]
      · rw [(unmarked_execute hi hread).mark m]
        simp [Instruction.Overflows, hi, hread]

end Exec

end MicroJava
