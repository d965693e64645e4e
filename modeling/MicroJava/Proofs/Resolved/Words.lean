import MicroJava.Machine.Run
import MicroJava.Proofs.Machine.Numeral
import MicroJava.Proofs.Resolved.Evaluation

/-! # Words on the machine

What the machine does to words is what an evaluation does to the integers they stand for. -/

namespace MicroJava

namespace Decimal

/-- The digits of a number are those that the library writes. -/
theorem digits_eq_toDigits (n : Nat) : digits n = Nat.toDigits 10 n := by
  have hdigit : ∀ d < 10, digit d = d.digitChar := by decide
  fun_induction digits n with
  | case1 n hn => rw [Nat.toDigits_of_lt_base hn, hdigit n hn]
  | case2 n hn ih =>
      rw [Nat.toDigits_of_base_le (by decide) (Nat.le_of_not_lt hn), ih,
        hdigit _ (Nat.mod_lt n (by decide))]

theorem ofNat_eq_repr (n : Nat) : ofNat n = n.repr := by
  rw [ofNat, digits_eq_toDigits, Nat.repr_eq_ofList_toDigits]

theorem ofInt_eq_toString (n : Int) : ofInt n = toString n := by
  cases n with
  | ofNat n => exact ofNat_eq_repr n
  | negSucc n =>
      rw [ofInt, if_pos (Int.negSucc_lt_zero n), ofNat_eq_repr]
      rfl

end Decimal

namespace Resolved.Word

/-- Wrapping arithmetic on words is that on integers, taken modulo 2^32. -/
theorem calculate_eq (op : Arithmetic) (a b : Int32) : calculate op a b = op.eval a b := by
  have hzero : b.toInt = 0 ↔ b = 0 := by
    rw [← Int32.toInt_inj]
    rfl
  cases op with
  | add => simp [calculate, Arithmetic.eval, Int32.ofInt_add]
  | sub => simp [calculate, Arithmetic.eval, Int32.ofInt_sub]
  | mul => simp [calculate, Arithmetic.eval, Int32.ofInt_mul]
  | div =>
      have hdiv : Int32.ofInt (a.toInt.tdiv b.toInt) = a / b := by
        rw [← Int32.toInt_inj, Int32.toInt_ofInt, Int32.toInt_div]
      simp [calculate, Arithmetic.eval, hzero, hdiv]
  | rem =>
      have hrem : Int32.ofInt (a.toInt.tmod b.toInt) = a % b := by
        rw [← Int32.toInt_mod, Int32.ofInt_toInt]
      simp [calculate, Arithmetic.eval, hzero, hrem]

theorem ofInt_neg_toInt (a : Int32) : Int32.ofInt (-a.toInt) = -a := by
  rw [Int32.ofInt_neg, Int32.ofInt_toInt]

/-- Words are compared as signed numbers. -/
theorem related_eq (rel : Comparison) (a b : Int32) : related rel a b = rel.holds a b := by
  cases rel <;> simp [related, Comparison.holds, Int32.toInt_inj, Int32.lt_iff_toInt_lt,
    Int32.le_iff_toInt_le, Bool.beq_eq_decide_eq, bne]

/-- Digits that are tallied denote their number, unless the count has come back to zero. -/
theorem number_unsigned (text : List Char) : (Numeral.unsigned text).number =
    if 2 ^ 32 ∣ (text.takeWhile Char.isDigit).length then none
    else some (Int32.ofInt (Nat.ofDigitChars 10 (text.takeWhile Char.isDigit) 0 : Nat)) := by
  simp only [Numeral.unsigned, Numeral.count_tally_eq_zero, Numeral.value_tally]
  rfl

/-- The machine finds the same number, and the same text behind it. -/
theorem read_eq_scan (text : List Char) :
    (Numeral.read text).number = (scan text).1.map Int32.ofInt ∧
      (Numeral.read text).rest = (scan text).2 := by
  unfold Numeral.read scan
  split
  · next rest hminus =>
      simp only [hminus, number_unsigned, List.head?_cons, List.tail_cons, if_true]
      refine ⟨?_, rfl⟩
      split <;> simp [Int32.ofInt_neg]
  · next hplus =>
      have hsign : ¬(text.dropWhile Text.isBlank).head? = some '-' := by
        intro hhead
        obtain ⟨rest, hrest⟩ := List.head?_eq_some_iff.1 hhead
        exact hplus rest hrest
      simp only [hsign, number_unsigned, if_false]
      refine ⟨?_, rfl⟩
      split <;> rfl

/-- A negative word is no code, read as unsigned or not. -/
theorem character_eq (w : Int32) : character w = Exec.charOf w := by
  have hsigned : w.toInt = w.toBitVec.toInt := rfl
  have hcode : w.toUInt32.toNat = w.toBitVec.toNat := rfl
  have hlt : w.toBitVec.toNat < 2 ^ 32 := w.toBitVec.isLt
  rw [BitVec.toInt_eq_toNat_cond] at hsigned
  rw [character, Exec.charOf, hcode]
  by_cases hhalf : 2 * w.toBitVec.toNat < 2 ^ 32
  · rw [if_pos hhalf] at hsigned
    simp [hsigned]
  · rw [if_neg hhalf] at hsigned
    have hlarge : ¬w.toBitVec.toNat.isValidChar := by
      rw [Nat.isValidChar]
      omega
    rw [if_neg hlarge, if_neg]
    omega

/-- A width below zero or above the widest field is cut. -/
theorem inField_eq (width : Int32) (text : String) :
    inField width text = Decimal.alignRight (Exec.fieldWidth width) text := by
  have hwidth : (min width.toInt 255).toNat = Exec.fieldWidth width := by
    rw [Exec.fieldWidth, Exec.maxPrintWidth]
    omega
  rw [inField, hwidth]
  rfl

end Resolved.Word

end MicroJava
