import Mathlib.Algebra.GroupWithZero.Nat
import MicroJava.Text.Decimal

/-! # Decimal texts

The digits of a number denote it, with zeros in front or without. -/

namespace MicroJava.Decimal

theorem isDigit_digit {d : Nat} (h : d < 10) : (digit d).isDigit := by
  have hall : ∀ d < 10, (digit d).isDigit := by decide
  exact hall d h

/-- A digit has the value that it was written for. -/
theorem digitValue_digit {d : Nat} (h : d < 10) : digitValue (digit d) = d := by
  have hall : ∀ d < 10, digitValue (digit d) = d := by decide
  exact hall d h

theorem digits_ne_nil (n : Nat) : digits n ≠ [] := by
  rw [digits]
  split <;> simp

/-- Numbers are written with digits only. -/
theorem isDigit_of_mem_digits {n : Nat} {c : Char} (h : c ∈ digits n) : c.isDigit := by
  fun_induction digits n with
  | case1 n hn =>
      obtain rfl := List.mem_singleton.1 h
      exact isDigit_digit hn
  | case2 n _ ih =>
      rcases List.mem_append.1 h with hfront | hlast
      · exact ih hfront
      · obtain rfl := List.mem_singleton.1 hlast
        exact isDigit_digit (Nat.mod_lt n (by decide))

/-- Numbers below a power of ten have no more digits than its exponent. -/
theorem length_digits_le {n k : Nat} (h : n < 10 ^ (k + 1)) : (digits n).length ≤ k + 1 := by
  induction k generalizing n with
  | zero =>
      rw [digits, if_pos (by omega)]
      exact Nat.le_refl _
  | succ k ih =>
      rw [digits]
      split
      · exact Nat.le_add_left 1 (k + 1)
      · have hshort : (digits (n / 10)).length ≤ k + 1 := ih (Nat.div_lt_of_lt_mul (by omega))
        rw [List.length_append]
        exact Nat.succ_le_succ hshort

/-- One more digit shifts the others by one place. -/
theorem value_concat (cs : List Char) (c : Char) :
    value (cs ++ [c]) = 10 * value cs + digitValue c := by
  rw [value, List.foldl_append]
  rfl

/-- What is written denotes the number. -/
theorem value_digits (n : Nat) : value (digits n) = n := by
  fun_induction digits n with
  | case1 n hn => exact (Nat.zero_add _).trans (digitValue_digit hn)
  | case2 n _ ih =>
      rw [value_concat, ih, digitValue_digit (Nat.mod_lt n (by decide))]
      exact Nat.div_add_mod n 10

theorem value_zeros (k : Nat) (cs : List Char) : value (List.replicate k '0' ++ cs) = value cs := by
  induction k with
  | zero => rfl
  | succ k ih => exact ih

@[simp] theorem toList_ofNat (n : Nat) : (ofNat n).toList = digits n := String.toList_ofList

@[simp] theorem toList_fill (c : Char) (width : Nat) (s : String) :
    (fill c width s).toList = List.replicate (width - s.length) c ++ s.toList := by
  rw [fill, String.toList_append, String.toList_ofList]

theorem padded_ne_nil (width n : Nat) : (padded width n).toList ≠ [] := by
  rw [padded, toList_fill, toList_ofNat]
  exact List.append_ne_nil_of_right_ne_nil _ (digits_ne_nil n)

theorem isDigit_of_mem_padded {width n : Nat} {c : Char} (h : c ∈ (padded width n).toList) :
    c.isDigit := by
  rw [padded, toList_fill, toList_ofNat, List.mem_append] at h
  rcases h with hzero | hdigit
  · obtain rfl := List.eq_of_mem_replicate hzero
    rfl
  · exact isDigit_of_mem_digits hdigit

/-- The sign in front of a number. -/
def sign (negative : Bool) : List Char := if negative then ['-'] else []

@[simp] theorem toList_ofInt (n : Int) :
    (ofInt n).toList = sign (decide (n < 0)) ++ digits n.natAbs := by
  by_cases h : n < 0 <;> simp [ofInt, sign, h]

theorem isDigit_of_mem_ofInt {n : Int} {c : Char} (h : c ∈ (ofInt n).toList) :
    c = '-' ∨ c.isDigit := by
  rw [toList_ofInt, List.mem_append] at h
  rcases h with hsign | hdigit
  · cases hn : decide (n < 0) with
    | false => simp [sign, hn] at hsign
    | true => exact .inl (by simpa [sign, hn] using hsign)
  · exact .inr (isDigit_of_mem_digits hdigit)

/-- The number that a sign and a run of digits denote. -/
def signedValue (negative : Bool) (cs : List Char) : Int := if negative then -value cs else value cs

/-- A sign and digits denote the number that they were written for. -/
theorem signedValue_digits (n : Int) : signedValue (decide (n < 0)) (digits n.natAbs) = n := by
  rw [signedValue, value_digits]
  by_cases h : n < 0
  · rw [if_pos (decide_eq_true h)]
    omega
  · rw [if_neg (by simpa using h)]
    omega

end MicroJava.Decimal
