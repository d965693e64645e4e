import Mathlib.Data.Int.ModEq
import MicroJava.Machine.Run
import MicroJava.Proofs.Machine.Overflow
import MicroJava.Proofs.Source.Wording
import MicroJava.Proofs.Text.Decimal

/-! # Numbers that are read and printed

A number is read up to the first character that is not a digit of it, and its value wraps around.
What is printed, blanks in front included, is read back as it was. The count of the digits wraps
around as well, which only a number of more than 2^31 digits brings to light. -/

namespace MicroJava

namespace Numeral

open Decimal (sign signedValue)

/-- Wrapping at every digit is wrapping once at the end. -/
theorem value_tally (digits : List Char) :
    (tally digits).value = Int32.ofNat (Decimal.value digits) := by
  induction digits using List.reverseRecOn with
  | nil => rfl
  | append_singleton digits c ih =>
      rw [tally_concat, Tally.next, ih, Decimal.value_concat, Int32.ofNat_add, Int32.ofNat_mul,
        Int32.mul_comm]
      rfl

/-- What is found where so many digits have been read. They are a number unless their count, modulo
2^32, is zero. -/
def found (length : Nat) (value : Int32) (rest : List Char) : Found where
  number := if 2 ^ 32 ∣ length then none else some value
  overflowed := decide (2 ^ 31 ≤ length)
  rest := rest

variable {digits rest : List Char}

theorem unsigned_append (hdigits : ∀ c ∈ digits, c.isDigit)
    (hrest : ∀ c ∈ rest.head?, c.isDigit = false) :
    unsigned (digits ++ rest) = found digits.length (Int32.ofNat (Decimal.value digits)) rest := by
  have hmark : (tally digits).overflowed = decide (2 ^ 31 ≤ digits.length) := by
    rw [Bool.eq_iff_iff, overflowed_tally, decide_eq_true_iff]
  rw [unsigned, Lexeme.takeWhile_append hrest, Lexeme.dropWhile_append hrest,
    List.takeWhile_eq_self_iff.2 hdigits, List.dropWhile_eq_nil_iff.2 hdigits]
  simp only [count_tally_eq_zero, value_tally, hmark, List.nil_append, found]

theorem isBlank_of_isDigit {c : Char} (h : c.isDigit) : Text.isBlank c = false := by
  rw [Lexeme.isDigit_iff] at h
  simp only [Text.isBlank]
  grind

/-- What is read: the whole number, wrapped around, and nothing of what follows it. -/
theorem read_append {blanks : List Char} (negative : Bool)
    (hblanks : ∀ c ∈ blanks, Text.isBlank c) (hne : digits ≠ []) (hdigits : ∀ c ∈ digits, c.isDigit)
    (hrest : ∀ c ∈ rest.head?, c.isDigit = false) :
    read (blanks ++ (sign negative ++ (digits ++ rest))) =
      found digits.length (Int32.ofInt (signedValue negative digits)) rest := by
  have hskip : ∀ tail : List Char, (∀ c ∈ tail.head?, Text.isBlank c = false) →
      (blanks ++ tail).dropWhile Text.isBlank = tail := by
    intro tail hstop
    rw [Lexeme.dropWhile_append hstop, List.dropWhile_eq_nil_iff.2 hblanks, List.nil_append]
  have hunsigned := unsigned_append hdigits hrest
  obtain ⟨d, ds, rfl⟩ := List.exists_cons_of_ne_nil hne
  have hd : d.isDigit := hdigits d (List.mem_cons_self ..)
  cases negative with
  | true =>
      have hminus : ∀ c ∈ ('-' :: (d :: ds ++ rest)).head?, Text.isBlank c = false := by
        rintro c ⟨⟩
        rfl
      simp only [sign, if_true, List.singleton_append, read, hskip _ hminus, hunsigned, found,
        signedValue, Int32.ofInt_neg]
      split <;> rfl
  | false =>
      have hfirst : ∀ c ∈ (d :: (ds ++ rest)).head?, Text.isBlank c = false := by
        rintro c ⟨⟩
        exact isBlank_of_isDigit hd
      have hplus : d ≠ '-' := by
        rintro rfl
        exact absurd hd (by decide)
      have hpos : Int32.ofInt (signedValue false (d :: ds)) =
          Int32.ofNat (Decimal.value (d :: ds)) := rfl
      rw [hpos, ← hunsigned]
      simp only [sign, Bool.false_eq_true, if_false, List.nil_append, List.cons_append, read,
        hskip _ hfirst]
      split
      · next hcons => exact absurd (List.cons.inj hcons).1 hplus
      · rfl

end Numeral

namespace Exec

open Decimal (sign signedValue)

variable {rest : List Char}

/-- A number that stands in the input is read, and the input behind it is left. -/
theorem readNumber_of_input {blanks digits : List Char} {negative : Bool} {m : Machine} (pc : Nat)
    (hblanks : ∀ c ∈ blanks, Text.isBlank c) (hne : digits ≠ []) (hdigits : ∀ c ∈ digits, c.isDigit)
    (hrest : ∀ c ∈ rest.head?, c.isDigit = false)
    (hinput : m.input = blanks ++ (sign negative ++ (digits ++ rest))) :
    readNumber pc m =
      if 2 ^ 32 ∣ digits.length then
        .error (.endOfInput pc) ({ m with input := rest }.noting (decide (2 ^ 31 ≤ digits.length)))
      else
        .ok (Int32.ofInt (signedValue negative digits))
          ({ m with input := rest }.noting (decide (2 ^ 31 ≤ digits.length))) := by
  have hread := Numeral.read_append negative hblanks hne hdigits hrest
  rw [← hinput] at hread
  simp only [readNumber, hread, Numeral.found]
  by_cases hcount : 2 ^ 32 ∣ digits.length
  · simp only [if_pos hcount]
  · simp only [if_neg hcount]

/-- A number of no more digits than the greatest word is read as it is. -/
theorem readNumber_of_length_lt {blanks digits : List Char} {negative : Bool} {m : Machine} (pc : Nat)
    (hblanks : ∀ c ∈ blanks, Text.isBlank c) (hne : digits ≠ []) (hdigits : ∀ c ∈ digits, c.isDigit)
    (hrest : ∀ c ∈ rest.head?, c.isDigit = false)
    (hinput : m.input = blanks ++ (sign negative ++ (digits ++ rest)))
    (hlength : digits.length < 2 ^ 31) :
    readNumber pc m = .ok (Int32.ofInt (signedValue negative digits)) { m with input := rest } := by
  have hpos : 0 < digits.length := List.length_pos_iff.2 hne
  have hcount : ¬2 ^ 32 ∣ digits.length := by omega
  rw [readNumber_of_input pc hblanks hne hdigits hrest hinput, if_neg hcount,
    decide_eq_false (Nat.not_le.2 hlength), Machine.noting_false]

/-- A number of more digits is noted to have overflowed. -/
theorem readNumber_of_le_length {blanks digits : List Char} {negative : Bool} {m : Machine} (pc : Nat)
    (hblanks : ∀ c ∈ blanks, Text.isBlank c) (hne : digits ≠ []) (hdigits : ∀ c ∈ digits, c.isDigit)
    (hrest : ∀ c ∈ rest.head?, c.isDigit = false)
    (hinput : m.input = blanks ++ (sign negative ++ (digits ++ rest)))
    (hlength : 2 ^ 31 ≤ digits.length) :
    readNumber pc m =
      if 2 ^ 32 ∣ digits.length then
        .error (.endOfInput pc) { m with input := rest, overflowed := true }
      else
        .ok (Int32.ofInt (signedValue negative digits))
          { m with input := rest, overflowed := true } := by
  have hnoted : ({ m with input := rest } : Machine).noting (decide (2 ^ 31 ≤ digits.length)) =
      { m with input := rest, overflowed := true } := by
    rw [decide_eq_true hlength, Machine.noting, Bool.or_true]
  rw [readNumber_of_input pc hblanks hne hdigits hrest hinput, hnoted]

/-- The text that a value is printed as in a field. -/
def printed (value width : Int32) : String :=
  Decimal.alignRight (fieldWidth width) (Decimal.ofInt value.toInt)

theorem execute_print (limits : Limits) (pc next : Nat) {m : Machine} {stack : Array Int32}
    {value width : Int32} (hstack : m.stack = (stack.push value).push width) :
    execute limits pc next .print m =
      .ok (.goto next) { m with stack := stack, output := m.output ++ printed value width } := by
  have hwidth : pop pc m = .ok width { m with stack := stack.push value } := by
    simp [pop, hstack]
  have hvalue : pop pc { m with stack := stack.push value } =
      .ok value { m with stack := stack } := by
    simp [pop]
  simp only [execute]
  rw [bind_ok hwidth, bind_ok hvalue]
  rfl

/-- A printed number is its digits behind blanks and perhaps a sign. -/
theorem toList_printed (value width : Int32) :
    (printed value width).toList =
      List.replicate (fieldWidth width - (Decimal.ofInt value.toInt).length) ' ' ++
        (sign (decide (value.toInt < 0)) ++ Decimal.digits value.toInt.natAbs) := by
  rw [printed, Decimal.alignRight, Decimal.toList_fill, Decimal.toList_ofInt]

/-- A printed number has no more digits than can be counted, so it is read back. -/
theorem readNumber_printed (pc : Nat) {m : Machine} {value width : Int32}
    (hrest : ∀ c ∈ rest.head?, c.isDigit = false)
    (hinput : m.input = (printed value width).toList ++ rest) :
    readNumber pc m = .ok value { m with input := rest } := by
  rw [toList_printed, List.append_assoc, List.append_assoc] at hinput
  have hblanks : ∀ c ∈ List.replicate (fieldWidth width - (Decimal.ofInt value.toInt).length) ' ',
      Text.isBlank c := by
    intro c hc
    rw [List.eq_of_mem_replicate hc]
    rfl
  have hlength : (Decimal.digits value.toInt.natAbs).length < 2 ^ 31 := by
    have hle : value.toInt < 2 ^ 31 := value.toInt_lt
    have hge : -2 ^ 31 ≤ value.toInt := value.le_toInt
    have hten : (Decimal.digits value.toInt.natAbs).length ≤ 9 + 1 :=
      Decimal.length_digits_le (by omega)
    omega
  have hread := readNumber_of_length_lt pc hblanks (Decimal.digits_ne_nil _)
    (fun _ => Decimal.isDigit_of_mem_digits) hrest hinput hlength
  rwa [Decimal.signedValue_digits, Int32.ofInt_toInt] at hread

/-- Wrapping around keeps a number modulo 2^32. -/
theorem ofInt_modEq (n : Int) : (Int32.ofInt n).toInt ≡ n [ZMOD 2 ^ 32] := by
  rw [Int32.toInt_ofInt]
  exact Int.bmod_emod

/-- Reading a number of fewer than 2^31 digits is exact modulo 2^32, up to the first character that
is not a digit of it, and it undoes printing at any width. More digits overflow their count; where
that is not checked, they are read all the same, unless the count is zero again. -/
theorem readNumber_exact (hrest : ∀ c ∈ rest.head?, c.isDigit = false) (pc : Nat) :
    (∀ (m : Machine) (blanks digits : List Char) (negative : Bool),
      (∀ c ∈ blanks, Text.isBlank c) → digits ≠ [] → (∀ c ∈ digits, c.isDigit) →
      m.input = blanks ++ (sign negative ++ (digits ++ rest)) →
      (digits.length < 2 ^ 31 → ∃ value, readNumber pc m = .ok value { m with input := rest } ∧
        value.toInt ≡ signedValue negative digits [ZMOD 2 ^ 32]) ∧
      (2 ^ 31 ≤ digits.length → checked (readNumber pc) m = none ∧
        (¬2 ^ 32 ∣ digits.length →
          ∃ value, readNumber pc m = .ok value { m with input := rest, overflowed := true } ∧
            value.toInt ≡ signedValue negative digits [ZMOD 2 ^ 32]) ∧
        (2 ^ 32 ∣ digits.length →
          readNumber pc m =
            .error (.endOfInput pc) { m with input := rest, overflowed := true }))) ∧
      ∀ value width : Int32, ∃ text : String,
        (∀ (limits : Limits) (here next : Nat) (m : Machine) (stack : Array Int32),
          m.stack = (stack.push value).push width →
          execute limits here next .print m =
            .ok (.goto next) { m with stack := stack, output := m.output ++ text }) ∧
        ∀ m : Machine, m.input = text.toList ++ rest →
          readNumber pc m = .ok value { m with input := rest } := by
  refine ⟨fun m blanks digits negative hblanks hne hdigits hinput => ⟨?_, ?_⟩, ?_⟩
  · intro hlength
    exact ⟨_, readNumber_of_length_lt pc hblanks hne hdigits hrest hinput hlength, ofInt_modEq _⟩
  · intro hlength
    have hread := readNumber_of_le_length pc hblanks hne hdigits hrest hinput hlength
    refine ⟨?_, fun hcount => ?_, fun hcount => ?_⟩
    · rw [checked_eq_none, hread]
      split <;> rfl
    · rw [if_neg hcount] at hread
      exact ⟨_, hread, ofInt_modEq _⟩
    · rwa [if_pos hcount] at hread
  · intro value width
    exact ⟨printed value width, fun limits here next m stack => execute_print limits here next,
      fun m => readNumber_printed pc hrest⟩

/-- A machine with nothing loaded that has text to read. -/
def reader (text : String) : Machine := (Machine.load default).withInput text

/-- An overlong number behind an ideographic space, and the least number in a wide field. -/
theorem readNumber_exact_overlong :
    (∃ value, readNumber 0 (reader "\u3000-4294967297 x") = .ok value (reader " x") ∧
      value.toInt ≡ -4294967297 [ZMOD 2 ^ 32]) ∧
      ∃ text : String,
        execute {} 0 1 .print { reader "" with stack := #[Int32.minValue, 14] } =
          .ok (.goto 1) { reader "" with output := text } ∧
        readNumber 0 (reader (text ++ " x")) = .ok Int32.minValue (reader " x") := by
  have hrest : ∀ c ∈ [' ', 'x'].head?, c.isDigit = false := by
    rintro c ⟨⟩
    rfl
  obtain ⟨hread, hprint⟩ := readNumber_exact hrest 0
  refine ⟨?_, ?_⟩
  · exact (hread (reader "\u3000-4294967297 x") ['\u3000'] "4294967297".toList true
      (List.forall_mem_singleton.2 rfl) (by decide) (List.all_eq_true.1 (by decide))
      (by decide)).1 (by decide)
  · obtain ⟨text, hprinted, hback⟩ := hprint Int32.minValue 14
    refine ⟨text, ?_, ?_⟩
    · have hout : execute {} 0 1 .print { reader "" with stack := #[Int32.minValue, 14] } =
          .ok (.goto 1) { reader "" with output := "" ++ text } :=
        hprinted {} 0 1 { reader "" with stack := #[Int32.minValue, 14] } #[] rfl
      rwa [String.empty_append] at hout
    · exact hback (reader (text ++ " x")) String.toList_append

/-- So many zeros, and nothing else to read. -/
def zeros (length : Nat) : Machine := { reader "" with input := List.replicate length '0' }

/-- Zero is not read back where it is written with 2^32 digits; where overflow is checked, 2^31 are
too many. -/
theorem readNumber_zeros :
    readNumber 0 (zeros (2 ^ 32)) = .error (.endOfInput 0) { reader "" with overflowed := true } ∧
      checked (readNumber 0) (zeros (2 ^ 31)) = none := by
  have hread : ∀ length, 2 ^ 31 ≤ length → readNumber 0 (zeros length) =
      if 2 ^ 32 ∣ length then .error (.endOfInput 0) { reader "" with overflowed := true }
      else
        .ok (Int32.ofInt (signedValue false (List.replicate length '0')))
          { reader "" with overflowed := true } := by
    intro length hlength
    have hdigits : ∀ c ∈ List.replicate length '0', c.isDigit := by
      intro c hc
      rw [List.eq_of_mem_replicate hc]
      rfl
    have hne : List.replicate length '0' ≠ [] := by
      rw [Ne, List.replicate_eq_nil_iff]
      omega
    have hinput : (zeros length).input =
        [] ++ (sign false ++ (List.replicate length '0' ++ [])) := by
      simp [zeros, sign]
    have hread := readNumber_of_le_length 0 (by simp) hne hdigits (by simp) hinput
    rw [List.length_replicate] at hread
    exact hread hlength
  constructor
  · rw [hread _ (by decide), if_pos (Nat.dvd_refl _)]
  · rw [checked_eq_none, hread _ (Nat.le_refl _), if_neg (by decide)]
    rfl

end Exec

end MicroJava
