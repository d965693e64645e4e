import MicroJava.Proofs.Machine.Path
import MicroJava.Proofs.Resolved.Resolution
import MicroJava.Proofs.Resolved.Sizes
import MicroJava.Proofs.Resolved.Words

/-! # Worlds on the machine

How the machine holds what a program can change. References become numbers, counted from one, and
the types of objects are forgotten. -/

namespace MicroJava.Resolved

/-- The word that stands for a value. -/
def Value.rep : Value → Int32
  | .word w => w
  | .ref none => 0
  | .ref (some i) => Int32.ofNat (i.val + 1)

@[simp] theorem Value.rep_word (w : Int32) : (Value.word w).rep = w := rfl

@[simp] theorem rep_zeroOf (ty : Ty) : (zeroOf ty).rep = 0 := by
  cases ty <;> rfl

def Obj.rep : Obj → HeapObject
  | .record _ fields => .record (fields.map Value.rep)
  | .cells _ elems => .words (elems.map Value.rep)
  | .chars elems => .bytes elems

/-- The machine that holds a world. -/
def World.machine (w : World) (stack : Array Int32) (frames : List (Array Int32))
    (calls : Array Nat) : Machine where
  globals := w.globals.map Value.rep
  heap := w.heap.map Obj.rep
  stack
  frames
  calls
  input := w.input
  output := w.output
  visits := #[]
  steps := 0
  overflowed := true

/-! ## References -/

theorem toInt_ref (i : ObjectId) : (Value.ref (some i)).rep.toInt = i.val + 1 := by
  have h := i.isLt
  rw [Value.rep, Int32.toInt_ofNat_of_lt]
  · rfl
  · unfold maxObjects at h
    omega

theorem ref_ne_zero (i : ObjectId) : (Value.ref (some i)).rep ≠ 0 := by
  intro h
  have hi := toInt_ref i
  rw [h] at hi
  change (0 : Int) = _ at hi
  omega

/-- Different references are different words. -/
theorem rep_ref_inj (a b : Option ObjectId) : (Value.ref a).rep = (Value.ref b).rep ↔ a = b := by
  constructor
  · intro h
    cases a with
    | none =>
        cases b with
        | none => rfl
        | some j => exact absurd h.symm (ref_ne_zero j)
    | some i =>
        cases b with
        | none => exact absurd h (ref_ne_zero i)
        | some j =>
            have hij : (i.val : Int) + 1 = j.val + 1 := by rw [← toInt_ref, ← toInt_ref, h]
            exact congrArg some (Fin.ext (by omega))
  · rintro rfl
    rfl

theorem locate_ref {h : Heap} {i : ObjectId} (hi : i.val < h.size) :
    h.locate (Value.ref (some i)).rep = .ok i.val := by
  have hlt : i.val < 2 ^ 31 := Nat.lt_of_lt_of_le i.isLt (by decide)
  have hplace : (Value.ref (some i)).rep - 1 = Int32.ofNat i.val := by
    rw [Value.rep, Int32.ofNat_add]
    exact Int32.add_sub_cancel _ 1
  have hint : (Int32.ofNat i.val).toInt = i.val := Int32.toInt_ofNat_of_lt hlt
  have hpos : 0 ≤ Int32.ofNat i.val := by
    rw [Int32.le_iff_toInt_le, hint]
    exact Int.natCast_nonneg _
  simp only [Heap.locate, ref_ne_zero, if_false, hplace, hpos, hint, Int.toNat_natCast, hi,
    true_and, if_true]

/-- A comparison of words decides what a comparison of values does. -/
theorem compare_rep {rel : Comparison} {a b : Value} {w w' : World} {r : Bool}
    (h : Eval.compare rel a b w = .ok r w') : w' = w ∧ rel.holds a.rep b.rep = r := by
  cases a with
  | word x =>
      cases b with
      | word y =>
          cases h
          exact ⟨rfl, (Word.related_eq rel x y).symm⟩
      | ref y => cases h
  | ref x =>
      cases b with
      | word y => cases h
      | ref y =>
          cases rel with
          | eq =>
              cases h
              exact ⟨rfl, by rw [Bool.eq_iff_iff]; simp [Comparison.holds, rep_ref_inj]⟩
          | ne =>
              cases h
              exact ⟨rfl, by rw [Bool.eq_iff_iff]; simp [Comparison.holds, rep_ref_inj]⟩
          | lt | le | gt | ge => cases h

theorem compare_error {rel : Comparison} {a b : Value} {w w' : World} {e : Stop}
    (h : Eval.compare rel a b w = .error e w') : e = .stuck := by
  cases a <;> cases b <;> cases rel <;> cases h <;> rfl

theorem charByte_eq (w : Int32) : Obj.charByte w = w.toUInt32.toUInt8 := by
  apply UInt8.toNat_inj.1
  simp [Obj.charByte]

end MicroJava.Resolved
