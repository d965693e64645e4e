import MicroJava.Instruction.Listing
import MicroJava.Proofs.Text.Decimal

/-! # Instructions as text

The words of the text of an instruction are its name and its immediates, and sometimes a remark.
They tell which instruction it is. The text takes one line. -/

namespace MicroJava

/-! ## Words -/

namespace Text

/-- What stands between blanks. -/
def words (s : String) : List String :=
  ((s.toList.splitOn ' ').filter (· ≠ [])).map String.ofList

theorem words_of_toList {s : String} {front back : List Char} (hs : s.toList = front ++ ' ' :: back) :
    words s = words (String.ofList front) ++ words (String.ofList back) := by
  simp only [words, hs, String.toList_ofList]
  rw [List.splitOn_append_cons_self, List.filter_append, List.map_append]

/-- A text that ends in a blank keeps its words, whatever follows. -/
theorem words_append_of_last {a : String} (ha : a.toList.getLast? = some ' ') (b : String) :
    words (a ++ b) = words a ++ words b := by
  obtain ⟨front, hfront⟩ := List.getLast?_eq_some_iff.1 ha
  have hboth : (a ++ b).toList = front ++ ' ' :: b.toList := by
    rw [String.toList_append, hfront, List.append_assoc, List.singleton_append]
  rw [words_of_toList hboth, words_of_toList hfront, String.ofList_toList]
  exact congrArg (· ++ words b) (List.append_nil _).symm

/-- A text that starts with a blank keeps its words, whatever stands in front. -/
theorem words_append_of_first (a : String) {b : String} (hb : b.toList.head? = some ' ') :
    words (a ++ b) = words a ++ words b := by
  obtain ⟨back, hback⟩ := List.head?_eq_some_iff.1 hb
  have hboth : (a ++ b).toList = a.toList ++ ' ' :: back := by
    rw [String.toList_append, hback]
  have halone : b.toList = [] ++ ' ' :: back := hback
  rw [words_of_toList hboth, words_of_toList halone, String.ofList_toList]
  rfl

/-- Blanks at both ends of a text keep apart what stands in front of it and behind it. -/
theorem words_joined (a b : String) {gap : String} (hfirst : gap.toList.head? = some ' ')
    (hlast : gap.toList.getLast? = some ' ') :
    words (a ++ gap ++ b) = words a ++ words gap ++ words b := by
  have hfirst' : (gap ++ b).toList.head? = some ' ' := by
    rw [String.toList_append, List.head?_append, hfirst]
    rfl
  rw [String.append_assoc, words_append_of_first a hfirst', words_append_of_last hlast,
    List.append_assoc]

/-- A text without blanks is one word. -/
theorem words_of_not_mem {s : String} (hne : s.toList ≠ []) (hs : ' ' ∉ s.toList) :
    words s = [s] := by
  rw [words, List.splitOn_eq_singleton hs]
  simp [hne]

theorem words_ofNat (n : Nat) : words (Decimal.ofNat n) = [Decimal.ofNat n] := by
  apply words_of_not_mem
  · rw [Decimal.toList_ofNat]
    exact Decimal.digits_ne_nil n
  · rw [Decimal.toList_ofNat]
    exact fun hmem => absurd (Decimal.isDigit_of_mem_digits hmem) (by decide)

/-- Digits, some of them zeros in front. -/
theorem words_padded (width n : Nat) :
    words (Decimal.padded width n) = [Decimal.padded width n] :=
  words_of_not_mem (Decimal.padded_ne_nil width n)
    fun hmem => absurd (Decimal.isDigit_of_mem_padded hmem) (by decide)

theorem words_ofInt (n : Int) : words (Decimal.ofInt n) = [Decimal.ofInt n] :=
  words_of_not_mem (by simp [Decimal.digits_ne_nil])
    fun hmem => absurd (Decimal.isDigit_of_mem_ofInt hmem) (by decide)

/-! ## Lines -/

/-- The text has no line break. -/
def OneLine (s : String) : Prop := '\n' ∉ s.toList

instance (s : String) : Decidable (OneLine s) := inferInstanceAs (Decidable (_ ∉ _))

theorem OneLine.append {a b : String} (ha : OneLine a) (hb : OneLine b) : OneLine (a ++ b) := by
  rw [OneLine, String.toList_append, List.mem_append]
  exact not_or.2 ⟨ha, hb⟩

theorem oneLine_ofNat (n : Nat) : OneLine (Decimal.ofNat n) := by
  rw [OneLine, Decimal.toList_ofNat]
  exact fun hmem => absurd (Decimal.isDigit_of_mem_digits hmem) (by decide)

theorem oneLine_ofInt (n : Int) : OneLine (Decimal.ofInt n) :=
  fun hmem => absurd (Decimal.isDigit_of_mem_ofInt hmem) (by decide)

theorem oneLine_padded (width n : Nat) : OneLine (Decimal.padded width n) :=
  fun hmem => absurd (Decimal.isDigit_of_mem_padded hmem) (by decide)

end Text

/-! ## Immediates -/

namespace Decimal

/-- The number that a text of digits denotes. -/
def number (s : String) : Nat := value s.toList

/-- The number that a text of digits denotes, perhaps with a minus sign. -/
def integer (s : String) : Int :=
  match s.toList with
  | '-' :: cs => -value cs
  | cs => value cs

@[simp] theorem number_ofNat (n : Nat) : number (ofNat n) = n := by
  rw [number, toList_ofNat, value_digits]

@[simp] theorem number_padded (width n : Nat) : number (padded width n) = n := by
  rw [number, padded, toList_fill, value_zeros, toList_ofNat, value_digits]

@[simp] theorem integer_ofInt (n : Int) : integer (ofInt n) = n := by
  have hsigned := signedValue_digits n
  rw [integer, toList_ofInt]
  by_cases hn : n < 0
  · rw [decide_eq_true hn] at hsigned ⊢
    exact hsigned
  · rw [decide_eq_false hn] at hsigned ⊢
    change (match digits n.natAbs with
      | '-' :: cs => -(value cs : Int)
      | cs => value cs) = n
    split
    · next cs hcs =>
        have hminus : '-' ∈ digits n.natAbs := hcs ▸ List.mem_cons_self ..
        exact absurd (isDigit_of_mem_digits hminus) (by decide)
    · exact hsigned

theorem slot_number (slot : UInt8) : UInt8.ofNat (number (ofNat slot.toNat)) = slot := by
  rw [number_ofNat, UInt8.ofNat_toNat]

theorem address_number (adr : UInt16) : UInt16.ofNat (number (ofNat adr.toNat)) = adr := by
  rw [number_ofNat, UInt16.ofNat_toNat]

theorem word_integer (word : Int32) : Int32.ofInt (integer (ofInt word.toInt)) = word := by
  rw [integer_ofInt, Int32.ofInt_toInt]

theorem target_number (target : UInt16) :
    UInt16.ofNat (number (padded 4 target.toNat)) = target := by
  rw [number_padded, UInt16.ofNat_toNat]

end Decimal

namespace Instruction

open Decimal (slot_number address_number word_integer target_number)

/-- The instruction that the words describe. -/
def ofWords : List String → Option Instruction
  | ["LOAD", n] => some (.load (UInt8.ofNat (Decimal.number n)))
  | ["STORE", n] => some (.store (UInt8.ofNat (Decimal.number n)))
  | ["GETSTATIC", n] => some (.getStatic (UInt16.ofNat (Decimal.number n)))
  | ["PUTSTATIC", n] => some (.putStatic (UInt16.ofNat (Decimal.number n)))
  | ["GETFIELD", n] => some (.getField (UInt16.ofNat (Decimal.number n)))
  | ["PUTFIELD", n] => some (.putField (UInt16.ofNat (Decimal.number n)))
  | ["CONST", n] => some (.const (Int32.ofInt (Decimal.integer n)))
  | ["ADD"] => some (.arith .add)
  | ["SUB"] => some (.arith .sub)
  | ["MUL"] => some (.arith .mul)
  | ["DIV"] => some (.arith .div)
  | ["REM"] => some (.arith .rem)
  | ["NEG"] => some .neg
  | ["NEW", n, ";", "fields"] => some (.new (UInt16.ofNat (Decimal.number n)))
  | ["NEWARRAY", "char"] => some (.newArray .byte)
  | ["NEWARRAY", "word"] => some (.newArray .word)
  | ["ALOAD"] => some (.loadElem .word)
  | ["ASTORE"] => some (.storeElem .word)
  | ["BALOAD"] => some (.loadElem .byte)
  | ["BASTORE"] => some (.storeElem .byte)
  | ["ARRAYLENGTH"] => some .arrayLength
  | ["POP"] => some .pop
  | ["JMP", "→", t] => some (.jump (UInt16.ofNat (Decimal.number t)))
  | ["JEQ", "→", t] => some (.jumpIf .eq (UInt16.ofNat (Decimal.number t)))
  | ["JNE", "→", t] => some (.jumpIf .ne (UInt16.ofNat (Decimal.number t)))
  | ["JLT", "→", t] => some (.jumpIf .lt (UInt16.ofNat (Decimal.number t)))
  | ["JLE", "→", t] => some (.jumpIf .le (UInt16.ofNat (Decimal.number t)))
  | ["JGT", "→", t] => some (.jumpIf .gt (UInt16.ofNat (Decimal.number t)))
  | ["JGE", "→", t] => some (.jumpIf .ge (UInt16.ofNat (Decimal.number t)))
  | ["CALL", "→", t] => some (.call (UInt16.ofNat (Decimal.number t)))
  | ["RETURN"] => some .ret
  | ["ENTER", n, k, ";", "params,", "frame"] =>
      some (.enter (UInt8.ofNat (Decimal.number n)) (UInt8.ofNat (Decimal.number k)))
  | ["EXIT"] => some .exit
  | ["READ"] => some .read
  | ["PRINT"] => some .print
  | ["BREAD"] => some .readChar
  | ["BPRINT"] => some .printChar
  | ["TRAP", n] => some (.trap (UInt8.ofNat (Decimal.number n)))
  | _ => none

/-- A name, set off by blanks, and its immediates. -/
theorem words_labelled {label operands : String} {rest : List String} (name : String)
    (hlast : label.toList.getLast? = some ' ') (hlabel : Text.words label = [name])
    (hrest : Text.words operands = rest) : Text.words (label ++ operands) = name :: rest := by
  rw [Text.words_append_of_last hlast, hlabel, hrest]
  rfl

/-- What stands behind the immediates, set off by a blank. -/
theorem words_followed {a tail : String} {front rest : List String} (ha : Text.words a = front)
    (hfirst : tail.toList.head? = some ' ') (htail : Text.words tail = rest) :
    Text.words (a ++ tail) = front ++ rest := by
  rw [Text.words_append_of_first a hfirst, ha, htail]

variable {label : String} (name : String) (hlast : label.toList.getLast? = some ' ')
  (hlabel : Text.words label = [name])
include hlast hlabel

/-- A name with one number behind it. -/
theorem words_numbered (n : Nat) : Text.words (label ++ Decimal.ofNat n) = [name, Decimal.ofNat n] :=
  words_labelled name hlast hlabel (Text.words_ofNat n)

/-- A name with the target of a jump behind it. -/
theorem words_jumping (target : UInt16) :
    Text.words (label ++ arrow target) = [name, "→", Decimal.padded 4 target.toNat] :=
  words_labelled name hlast hlabel
    (words_labelled "→" (by decide) (by decide) (Text.words_padded 4 target.toNat))

/-- The instruction is read back from its name and its number. -/
theorem ofWords_numbered {i : Instruction} {read : String → Instruction} {n : Nat}
    (hread : ∀ t, ofWords [name, t] = some (read t)) (hi : read (Decimal.ofNat n) = i) :
    ofWords (Text.words (label ++ Decimal.ofNat n)) = some i := by
  rw [words_numbered name hlast hlabel, hread, hi]

/-- The instruction is read back from its name and its target. -/
theorem ofWords_jumping {i : Instruction} {read : UInt16 → Instruction} {target : UInt16}
    (hread : ∀ t, ofWords [name, "→", t] = some (read (UInt16.ofNat (Decimal.number t))))
    (hi : read target = i) : ofWords (Text.words (label ++ arrow target)) = some i := by
  rw [words_jumping name hlast hlabel, hread, target_number, hi]

omit hlast hlabel

/-- The text of an instruction says which one it is. -/
theorem ofWords_text (i : Instruction) : ofWords (Text.words i.text) = some i := by
  cases i with
  | load slot =>
      exact ofWords_numbered "LOAD" (by decide) (by decide) (fun _ => rfl)
        (congrArg load (slot_number slot))
  | store slot =>
      exact ofWords_numbered "STORE" (by decide) (by decide) (fun _ => rfl)
        (congrArg store (slot_number slot))
  | getStatic adr =>
      exact ofWords_numbered "GETSTATIC" (by decide) (by decide) (fun _ => rfl)
        (congrArg getStatic (address_number adr))
  | putStatic adr =>
      exact ofWords_numbered "PUTSTATIC" (by decide) (by decide) (fun _ => rfl)
        (congrArg putStatic (address_number adr))
  | getField adr =>
      exact ofWords_numbered "GETFIELD" (by decide) (by decide) (fun _ => rfl)
        (congrArg getField (address_number adr))
  | putField adr =>
      exact ofWords_numbered "PUTFIELD" (by decide) (by decide) (fun _ => rfl)
        (congrArg putField (address_number adr))
  | trap code =>
      exact ofWords_numbered "TRAP" (by decide) (by decide) (fun _ => rfl)
        (congrArg trap (slot_number code))
  | const value =>
      have hwords : Text.words (text (.const value)) = _ :=
        words_labelled "CONST" (by decide) (by decide) (Text.words_ofInt value.toInt)
      rw [hwords]
      exact congrArg (some ∘ const) (word_integer value)
  | new fields =>
      have hcount : Text.words ("NEW         " ++ Decimal.ofNat fields.toNat) = _ :=
        words_numbered "NEW" (by decide) (by decide) fields.toNat
      have hwords : Text.words (text (.new fields)) = _ ++ [";", "fields"] :=
        words_followed hcount (by decide) (by decide)
      rw [hwords]
      exact congrArg (some ∘ new) (address_number fields)
  | enter params locals =>
      have hparams : Text.words ("ENTER       " ++ Decimal.ofNat params.toNat) = _ :=
        words_numbered "ENTER" (by decide) (by decide) params.toNat
      have hboth : Text.words ("ENTER       " ++ Decimal.ofNat params.toNat ++ " " ++
          Decimal.ofNat locals.toNat) =
          ["ENTER", Decimal.ofNat params.toNat, Decimal.ofNat locals.toNat] := by
        rw [Text.words_joined _ _ (by decide) (by decide), hparams, Text.words_ofNat]
        rfl
      have hwords : Text.words (text (.enter params locals)) = _ ++ [";", "params,", "frame"] :=
        words_followed hboth (by decide) (by decide)
      rw [hwords]
      calc ofWords ["ENTER", Decimal.ofNat params.toNat, Decimal.ofNat locals.toNat, ";", "params,",
            "frame"]
          = some (.enter (UInt8.ofNat (Decimal.number (Decimal.ofNat params.toNat)))
              (UInt8.ofNat (Decimal.number (Decimal.ofNat locals.toNat)))) := rfl
        _ = some (.enter params locals) := by rw [slot_number, slot_number]
  | jump target => exact ofWords_jumping "JMP" (by decide) (by decide) (fun _ => rfl) rfl
  | call target => exact ofWords_jumping "CALL" (by decide) (by decide) (fun _ => rfl) rfl
  | jumpIf rel target =>
      have hwords : Text.words (text (.jumpIf rel target)) =
          [jumpName rel, "→", Decimal.padded 4 target.toNat] := by
        cases rel <;> exact words_jumping _ (by decide) (by decide) target
      rw [hwords]
      cases rel <;> exact congrArg (some ∘ jumpIf _) (target_number target)
  | arith op => cases op <;> rfl
  | newArray size | loadElem size | storeElem size => cases size <;> rfl
  | neg | arrayLength | pop | ret | exit | read | print | readChar | printChar => rfl

open Text (OneLine oneLine_ofNat oneLine_ofInt oneLine_padded)

theorem oneLine_arrow (target : UInt16) : OneLine (arrow target) :=
  OneLine.append (by decide) (oneLine_padded 4 target.toNat)

theorem oneLine_text (i : Instruction) : OneLine i.text := by
  cases i with
  | load n | store n | getStatic n | putStatic n | getField n | putField n | trap n =>
      exact OneLine.append (by decide) (oneLine_ofNat n.toNat)
  | const value => exact OneLine.append (by decide) (oneLine_ofInt value.toInt)
  | new fields =>
      exact .append (.append (by decide) (oneLine_ofNat fields.toNat)) (by decide)
  | enter params locals =>
      have hparams : OneLine ("ENTER       " ++ Decimal.ofNat params.toNat) :=
        .append (by decide) (oneLine_ofNat params.toNat)
      exact .append (.append (.append hparams (by decide)) (oneLine_ofNat locals.toNat)) (by decide)
  | jump target | call target => exact OneLine.append (by decide) (oneLine_arrow target)
  | jumpIf rel target => cases rel <;> exact OneLine.append (by decide) (oneLine_arrow target)
  | arith op => cases op <;> decide
  | newArray size | loadElem size | storeElem size => cases size <;> decide
  | neg | arrayLength | pop | ret | exit | read | print | readChar | printChar => decide

end Instruction

end MicroJava
