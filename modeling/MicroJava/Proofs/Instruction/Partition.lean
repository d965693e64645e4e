import Mathlib.Data.List.Forall2
import MicroJava.Proofs.Instruction.RoundTrip

/-! # Decoding arbitrary bytes

Decoding goes through the code from front to back. Either the instructions cover it to the last
byte, or it stops at the first place where there is none: the byte there is no opcode, or the code
ends before the immediates do. An instruction may be written longer than need be, so encoding what
was decoded gives back the code up to these loose forms. -/

namespace MicroJava

namespace BigEndian

theorem ofNat_eq {n : Nat} {b : UInt8} (h : n = b.toNat) : UInt8.ofNat n = b := by
  rw [h, UInt8.ofNat_toNat]

theorem ofAddress_toAddress (high low : UInt8) : ofAddress (toAddress high low) = [high, low] := by
  have hhigh := high.toNat_lt
  have hlow := low.toNat_lt
  have hvalue : (toAddress high low).toNat = high.toNat * 256 + low.toNat := by
    rw [toAddress, UInt16.toNat_ofNat']
    omega
  rw [ofAddress, hvalue, ofNat_eq (b := high) (by omega), ofNat_eq (b := low) (by omega)]

theorem ofWord_toWord (a b c d : UInt8) : ofWord (toWord a b c d) = [a, b, c, d] := by
  have ha := a.toNat_lt
  have hb := b.toNat_lt
  have hc := c.toNat_lt
  have hd := d.toNat_lt
  have hvalue : (toWord a b c d).toUInt32.toNat =
      ((a.toNat * 256 + b.toNat) * 256 + c.toNat) * 256 + d.toNat := by
    rw [toWord, UInt32.toUInt32_toInt32, UInt32.toNat_ofNat']
    omega
  simp only [ofWord, hvalue]
  rw [ofNat_eq (b := a) (by omega), ofNat_eq (b := b) (by omega), ofNat_eq (b := c) (by omega),
    ofNat_eq (b := d) (by omega)]

end BigEndian

/-! ## Reading one instruction -/

namespace Layout

/-- The bytes behind an opcode make an instruction. -/
inductive Makes : Layout → List UInt8 → Instruction → Prop
  | plain (i : Instruction) : Makes (.plain i) [] i
  | byte (make : UInt8 → Instruction) (a : UInt8) : Makes (.byte make) [a] (make a)
  | twoBytes (make : UInt8 → UInt8 → Instruction) (a b : UInt8) :
      Makes (.twoBytes make) [a, b] (make a b)
  | address (make : UInt16 → Instruction) (a b : UInt8) :
      Makes (.address make) [a, b] (make (BigEndian.toAddress a b))
  | word (make : Int32 → Instruction) (a b c d : UInt8) :
      Makes (.word make) [a, b, c, d] (make (BigEndian.toWord a b c d))

theorem Makes.length_eq {layout : Layout} {bytes : List UInt8} {i : Instruction}
    (h : layout.Makes bytes i) : bytes.length = layout.width := by
  cases h <;> rfl

theorem exists_makes {layout : Layout} {bytes : List UInt8} (h : bytes.length = layout.width) :
    ∃ i, layout.Makes bytes i := by
  match layout, bytes, h with
  | .plain i, [], _ => exact ⟨i, .plain i⟩
  | .byte make, [a], _ => exact ⟨_, .byte make a⟩
  | .twoBytes make, [a, b], _ => exact ⟨_, .twoBytes make a b⟩
  | .address make, [a, b], _ => exact ⟨_, .address make a b⟩
  | .word make, [a, b, c, d], _ => exact ⟨_, .word make a b c d⟩

theorem Makes.read_eq {layout : Layout} {bytes : List UInt8} {i : Instruction}
    (h : layout.Makes bytes i) {at? : Nat → Option UInt8}
    (hat : ∀ k b, bytes[k]? = some b → at? (k + 1) = some b) : layout.read at? = some i := by
  cases h with
  | plain i => rfl
  | byte make a => simp [read, hat 0 a rfl]
  | twoBytes make a b => simp [read, hat 0 a rfl, hat 1 b rfl]
  | address make a b => simp [read, hat 0 a rfl, hat 1 b rfl]
  | word make a b c d => simp [read, hat 0 a rfl, hat 1 b rfl, hat 2 c rfl, hat 3 d rfl]

/-- Reading fails where the last immediate is missing. -/
theorem read_eq_none {layout : Layout} {at? : Nat → Option UInt8} (hw : 0 < layout.width)
    (h : at? layout.width = none) : layout.read at? = none := by
  cases layout with
  | plain i => exact absurd hw (Nat.lt_irrefl 0)
  | byte make | twoBytes make | address make | word make => simp_all [read, width]

end Layout

namespace Instruction

/-- The instruction is read wherever its opcode and its immediates stand. -/
theorem decode_of_makes {code : Array UInt8} {pc : Nat} {opcode : UInt8} {bytes rest : List UInt8}
    {layout : Layout} {i : Instruction} (hcode : code.toList.drop pc = opcode :: (bytes ++ rest))
    (hlayout : Layout.ofOpcode? opcode = some layout) (hmakes : layout.Makes bytes i) :
    decode code pc = .ok (i, pc + 1 + bytes.length) := by
  have hat : ∀ k, code[pc + k]? = (opcode :: (bytes ++ rest))[k]? := by
    intro k
    rw [← hcode, List.getElem?_drop, Array.getElem?_toList]
  have hopcode : code[pc]? = some opcode := hat 0
  have hread : layout.read (fun k => code[pc + k]?) = some i := by
    apply hmakes.read_eq
    intro k b hb
    have hk : k < bytes.length := (List.getElem?_eq_some_iff.1 hb).1
    rw [hat, List.getElem?_cons_succ, List.getElem?_append_left hk, hb]
  simp only [decode, hopcode, hlayout, hread, hmakes.length_eq]

/-- What decoding does at a byte: it is no opcode, or the code ends before its immediates do, or
there is an instruction. -/
theorem decode_cases {code : Array UInt8} {pc : Nat} (hpc : pc < code.size) :
    ∃ opcode, code[pc]? = some opcode ∧
      (Layout.ofOpcode? opcode = none ∧ decode code pc = .error (.unknownOpcode opcode pc) ∨
        ∃ layout, Layout.ofOpcode? opcode = some layout ∧
          (code.size < pc + 1 + layout.width ∧ decode code pc = .error (.truncated pc) ∨
            ∃ bytes i, layout.Makes bytes i ∧
              code.toList.drop pc = opcode :: (bytes ++ code.toList.drop (pc + 1 + bytes.length)) ∧
              decode code pc = .ok (i, pc + 1 + bytes.length))) := by
  have hopcode : code[pc]? = some code[pc] := Array.getElem?_eq_getElem hpc
  refine ⟨code[pc], hopcode, ?_⟩
  cases hlayout : Layout.ofOpcode? code[pc] with
  | none => exact .inl ⟨rfl, by simp only [decode, hopcode, hlayout]⟩
  | some layout =>
      refine .inr ⟨layout, rfl, ?_⟩
      by_cases hend : pc + layout.width < code.size
      · have hlength : ((code.toList.drop (pc + 1)).take layout.width).length = layout.width := by
          rw [List.length_take, List.length_drop, Array.length_toList]
          omega
        obtain ⟨i, hmakes⟩ := Layout.exists_makes hlength
        have hcode : code.toList.drop pc = code[pc] ::
            ((code.toList.drop (pc + 1)).take layout.width ++
              code.toList.drop (pc + 1 + ((code.toList.drop (pc + 1)).take layout.width).length)) := by
          have hsplit := List.take_append_drop layout.width (code.toList.drop (pc + 1))
          rw [List.drop_drop] at hsplit
          rw [hlength, hsplit]
          exact List.drop_eq_getElem_cons hpc
        exact .inr ⟨_, i, hmakes, hcode, decode_of_makes hcode hlayout hmakes⟩
      · have hwidth : 0 < layout.width := by omega
        have hread : layout.read (fun k => code[pc + k]?) = none :=
          Layout.read_eq_none hwidth (Array.getElem?_eq_none (Nat.not_lt.1 hend))
        exact .inl ⟨by omega, by simp only [decode, hopcode, hlayout, hread]⟩

/-- Where an instruction is decoded, its opcode and its immediates stand. -/
theorem exists_makes_of_decode {code : Array UInt8} {pc next : Nat} {i : Instruction}
    (h : decode code pc = .ok (i, next)) :
    ∃ opcode layout bytes, Layout.ofOpcode? opcode = some layout ∧ layout.Makes bytes i ∧
      next = pc + 1 + bytes.length ∧
      code.toList.drop pc = opcode :: (bytes ++ code.toList.drop next) := by
  have hpc : pc < code.size := by
    by_contra hend
    simp [decode, Array.getElem?_eq_none (Nat.not_lt.1 hend)] at h
  obtain ⟨opcode, -, ⟨-, hd⟩ | ⟨layout, hlayout, ⟨-, hd⟩ | ⟨bytes, j, hmakes, hcode, hd⟩⟩⟩ :=
    decode_cases hpc
  · cases hd.symm.trans h
  · cases hd.symm.trans h
  · obtain ⟨rfl, rfl⟩ := Prod.mk.inj (Except.ok.inj (hd.symm.trans h))
    exact ⟨opcode, layout, bytes, hlayout, hmakes, rfl, hcode⟩

/-! ## Loose forms -/

/-- The forms that are read and never written: a long form where there is a short one, and a word
array of another size than one. -/
inductive Loose : List UInt8 → Prop
  | load {slot : UInt8} (h : slot < 4) : Loose [1, slot]
  | store {slot : UInt8} (h : slot < 4) : Loose [6, slot]
  | const {value : Int32} (h : -1 ≤ value ∧ value ≤ 5) : Loose (22 :: BigEndian.ofWord value)
  | newArray {size : UInt8} (h : 1 < size) : Loose [32, size]

theorem encode_const {value : Int32} (h : ¬ (-1 ≤ value ∧ value ≤ 5)) :
    encode (.const value) = 22 :: BigEndian.ofWord value := by
  have hminus : value ≠ -1 := by
    rintro rfl
    exact h (by decide)
  have hsmall : ¬ (0 ≤ value ∧ value ≤ 5) := by
    rintro ⟨hle, hfive⟩
    exact h ⟨Int32.le_trans (by decide) hle, hfive⟩
  simp only [encode, if_neg hminus, if_neg hsmall]

theorem length_encode_const {value : Int32} (h : -1 ≤ value ∧ value ≤ 5) :
    (encode (.const value)).length = 1 := by
  by_cases hminus : value = -1
  · subst hminus
    rfl
  · have hle : 0 ≤ value := by
      have hlow : (-1 : Int32).toInt ≤ value.toInt := Int32.le_iff_toInt_le.1 h.1
      have hne : value.toInt ≠ (-1 : Int32).toInt := fun heq => hminus (Int32.toInt_inj.1 heq)
      rw [Int32.le_iff_toInt_le]
      change -1 ≤ value.toInt at hlow
      change value.toInt ≠ -1 at hne
      change 0 ≤ value.toInt
      omega
    rw [encode, if_neg hminus, if_pos ⟨hle, h.2⟩]
    rfl

/-- The rows of the table of opcodes: most are read only as they are written. -/
inductive Row : UInt8 → Layout → Prop
  | plain {opcode : UInt8} {i : Instruction} (h : i.encode = [opcode]) : Row opcode (.plain i)
  | address {opcode : UInt8} {make : UInt16 → Instruction}
      (h : ∀ adr, (make adr).encode = opcode :: BigEndian.ofAddress adr) : Row opcode (.address make)
  | enter : Row 48 (.twoBytes .enter)
  | trap : Row 54 (.byte .trap)
  | load : Row 1 (.byte .load)
  | store : Row 6 (.byte .store)
  | const : Row 22 (.word .const)
  | newArray : Row 32 (.byte fun size => .newArray (if size = 0 then .byte else .word))

theorem Row.at {opcode : UInt8} {n : Nat} {layout layout' : Layout} (hn : opcode.toNat = n)
    (h : some layout = some layout') (hrow : Row (UInt8.ofNat n) layout) : Row opcode layout' := by
  obtain rfl := BigEndian.ofNat_eq hn.symm
  cases h
  exact hrow

theorem row_of_ofOpcode? {opcode : UInt8} {layout : Layout}
    (h : Layout.ofOpcode? opcode = some layout) : Row opcode layout := by
  unfold Layout.ofOpcode? at h
  split at h
  case h_1 hn => exact .at hn h .load
  case h_6 hn => exact .at hn h .store
  case h_22 hn => exact .at hn h .const
  case h_30 hn => exact .at hn h .newArray
  case h_46 hn => exact .at hn h .enter
  case h_52 hn => exact .at hn h .trap
  case h_53 => cases h
  case h_11 hn | h_12 hn | h_13 hn | h_14 hn | h_29 hn | h_37 hn | h_38 hn | h_39 hn | h_40 hn |
      h_41 hn | h_42 hn | h_43 hn | h_44 hn =>
    exact .at hn h (.address fun _ => rfl)
  all_goals next hn => exact .at hn h (.plain rfl)

/-- The form with all immediates written out. -/
def long : Instruction → List UInt8
  | load slot => [1, slot]
  | store slot => [6, slot]
  | const value => 22 :: BigEndian.ofWord value
  | i => i.encode

/-- The bytes that are read as an instruction. -/
inductive Form : List UInt8 → Instruction → Prop
  | short (i : Instruction) : Form i.encode i
  | long (i : Instruction) : Form i.long i
  | newArray {size : UInt8} (h : size ≠ 0) : Form [32, size] (.newArray .word)

theorem Row.form {opcode : UInt8} {layout : Layout} {bytes : List UInt8} {i : Instruction}
    (hrow : Row opcode layout) (hmakes : layout.Makes bytes i) : Form (opcode :: bytes) i := by
  cases hrow with
  | plain h =>
      cases hmakes
      exact h ▸ .short i
  | address h =>
      cases hmakes with
      | address make a b =>
          rw [← BigEndian.ofAddress_toAddress a b, ← h]
          exact .short _
  | enter =>
      cases hmakes with
      | twoBytes make params locals => exact .short (.enter params locals)
  | trap =>
      cases hmakes with
      | byte make code => exact .short (.trap code)
  | load =>
      cases hmakes with
      | byte make slot => exact .long (.load slot)
  | store =>
      cases hmakes with
      | byte make slot => exact .long (.store slot)
  | const =>
      cases hmakes with
      | word make a b c d =>
          rw [← BigEndian.ofWord_toWord a b c d]
          exact .long (.const _)
  | newArray =>
      cases hmakes with
      | byte make size =>
          change Form [32, size] (.newArray (if size = 0 then .byte else .word))
          split
          · next hzero => exact hzero ▸ .short (.newArray .byte)
          · next hsize => exact .newArray hsize

/-- The bytes are the encoding of an instruction, or a loose form that is no shorter. -/
def Spells (bytes : List UInt8) (i : Instruction) : Prop :=
  i.encode.length ≤ bytes.length ∧ (i.encode = bytes ∨ Loose bytes)

theorem spells_of_eq {bytes : List UInt8} {i : Instruction} (h : i.encode = bytes) :
    Spells bytes i :=
  ⟨Nat.le_of_eq (congrArg List.length h), .inl h⟩

theorem Form.spells {bytes : List UInt8} {i : Instruction} (h : Form bytes i) : Spells bytes i := by
  cases h with
  | short => exact spells_of_eq rfl
  | long =>
      cases i with
      | load slot =>
          by_cases hslot : slot < 4
          · exact ⟨by simp [encode, Instruction.long, hslot], .inr (.load hslot)⟩
          · exact spells_of_eq (if_neg hslot)
      | store slot =>
          by_cases hslot : slot < 4
          · exact ⟨by simp [encode, Instruction.long, hslot], .inr (.store hslot)⟩
          · exact spells_of_eq (if_neg hslot)
      | const value =>
          by_cases hvalue : -1 ≤ value ∧ value ≤ 5
          · refine ⟨?_, .inr (.const hvalue)⟩
            rw [length_encode_const hvalue]
            exact Nat.le_add_left 1 _
          · exact spells_of_eq (encode_const hvalue)
      | _ => exact spells_of_eq rfl
  | @newArray size hzero =>
      by_cases hone : size = 1
      · subst hone
        exact spells_of_eq rfl
      · refine ⟨Nat.le_refl 2, .inr (.newArray ?_)⟩
        rw [UInt8.lt_iff_toNat_lt]
        rw [← UInt8.toNat_inj] at hone
        rw [ne_eq, ← UInt8.toNat_inj] at hzero
        change size.toNat ≠ 0 at hzero
        change size.toNat ≠ 1 at hone
        change 1 < size.toNat
        omega

/-- A loose form is read as an instruction that is encoded otherwise. -/
theorem Loose.decode {bytes : List UInt8} (h : Loose bytes) {code : Array UInt8} {pc : Nat}
    (hat : bytes <+: code.toList.drop pc) :
    ∃ i, Instruction.decode code pc = .ok (i, pc + bytes.length) ∧ i.encode ≠ bytes := by
  obtain ⟨rest, hrest⟩ := hat
  cases h with
  | @load slot hslot =>
      refine ⟨.load slot, decode_of_makes hrest.symm rfl (.byte _ slot), ?_⟩
      simp [encode, hslot]
  | @store slot hslot =>
      refine ⟨.store slot, decode_of_makes hrest.symm rfl (.byte _ slot), ?_⟩
      simp [encode, hslot]
  | @const value hvalue =>
      have hmakes := Layout.Makes.word .const (UInt8.ofNat (value.toUInt32.toNat / 16777216))
        (UInt8.ofNat (value.toUInt32.toNat / 65536 % 256))
        (UInt8.ofNat (value.toUInt32.toNat / 256 % 256)) (UInt8.ofNat (value.toUInt32.toNat % 256))
      rw [BigEndian.toWord_ofWord] at hmakes
      refine ⟨.const value, decode_of_makes hrest.symm rfl hmakes, ?_⟩
      intro heq
      have hlength := congrArg List.length heq
      rw [length_encode_const hvalue] at hlength
      cases hlength
  | @newArray size hsize =>
      have hzero : size ≠ 0 := by
        rintro rfl
        exact absurd hsize (by decide)
      have hone : size ≠ 1 := by
        rintro rfl
        exact absurd hsize (by decide)
      have hmakes := Layout.Makes.byte
        (fun size => .newArray (if size = 0 then .byte else .word)) size
      rw [if_neg hzero] at hmakes
      refine ⟨.newArray .word, decode_of_makes hrest.symm rfl hmakes, ?_⟩
      simpa [encode] using hone.symm

/-- A loose form stands at an address. -/
def LooseAt (code : Array UInt8) (pc : Nat) : Prop :=
  ∃ bytes, Loose bytes ∧ bytes <+: code.toList.drop pc

/-- The bytes of a decoded instruction: at least as many as its encoding has, and these very bytes
unless the form is loose. -/
theorem decode_form {code : Array UInt8} {pc next : Nat} {i : Instruction}
    (h : decode code pc = .ok (i, next)) :
    ∃ bytes, next = pc + bytes.length ∧ code.toList.drop pc = bytes ++ code.toList.drop next ∧
      i.size ≤ bytes.length ∧ (i.encode = bytes ↔ ¬ LooseAt code pc) := by
  obtain ⟨opcode, layout, bytes, hlayout, hmakes, rfl, hcode⟩ := exists_makes_of_decode h
  obtain ⟨hlength, hform⟩ := ((row_of_ofOpcode? hlayout).form hmakes).spells
  have hnext : pc + 1 + bytes.length = pc + (opcode :: bytes).length := by
    rw [List.length_cons, Nat.add_assoc, Nat.add_comm 1]
  refine ⟨opcode :: bytes, hnext, hcode, hlength, ?_⟩
  constructor
  · rintro heq ⟨other, hloose, hat⟩
    obtain ⟨j, hd, hne⟩ := hloose.decode hat
    obtain ⟨rfl, hlen⟩ := Prod.mk.inj (Except.ok.inj (hd.symm.trans h))
    have hsame : other.length = (opcode :: bytes).length := by
      rw [hnext] at hlen
      exact Nat.add_left_cancel hlen
    rw [hcode, ← List.cons_append] at hat
    have hother : other = opcode :: bytes := by
      rw [List.prefix_iff_eq_take.1 hat, hsame, List.take_left]
    exact hne (heq.trans hother.symm)
  · intro htight
    refine hform.resolve_right fun hloose => htight ⟨_, hloose, ?_⟩
    rw [hcode]
    exact ⟨_, rfl⟩

/-! ## Reading on and on -/

/-- From `pc` on the code consists of the instructions, each starting where the one before it ends,
and the last of them ends at `stop`. -/
inductive Tiles (code : Array UInt8) : Nat → List (Nat × Instruction) → Nat → Prop
  | nil (pc : Nat) : Tiles code pc [] pc
  | cons {pc next stop : Nat} {i : Instruction} {ops : List (Nat × Instruction)}
      (h : decode code pc = .ok (i, next)) (hr : Tiles code next ops stop) :
      Tiles code pc ((pc, i) :: ops) stop

theorem decode_lt {code : Array UInt8} {pc next : Nat} {i : Instruction}
    (h : decode code pc = .ok (i, next)) : pc < next ∧ next ≤ code.size := by
  obtain ⟨bytes, rfl, hcode, hsize, -⟩ := decode_form h
  have hpos := size_pos i
  have hlength := congrArg List.length hcode
  simp only [List.length_append, List.length_drop, Array.length_toList] at hlength
  omega

theorem Tiles.le {code : Array UInt8} {pc stop : Nat} {ops : List (Nat × Instruction)}
    (h : Tiles code pc ops stop) : pc ≤ stop := by
  induction h with
  | nil pc => exact Nat.le_refl pc
  | cons h _ ih => exact Nat.le_trans (Nat.le_of_lt (decode_lt h).1) ih

theorem Tiles.le_size {code : Array UInt8} {pc stop : Nat} {ops : List (Nat × Instruction)}
    (h : Tiles code pc ops stop) (hpc : pc ≤ code.size) : stop ≤ code.size := by
  induction h with
  | nil pc => exact hpc
  | cons h _ ih => exact ih (decode_lt h).2

/-- Decoding reads as far as there are instructions, to the end of the code or to an error. -/
theorem decodeFrom_cases {code : Array UInt8} {fuel pc : Nat} (hpc : pc ≤ code.size)
    (hfuel : code.size ≤ pc + fuel) (done : Array (Nat × Instruction)) :
    ∃ ops stop, Tiles code pc ops stop ∧
      (stop = code.size ∧ decodeFrom code fuel pc done = .ok (done ++ ops.toArray) ∨
        stop < code.size ∧ ∃ e, decode code stop = .error e ∧
          decodeFrom code fuel pc done = .error e) := by
  induction fuel generalizing pc done with
  | zero =>
      obtain rfl : pc = code.size := Nat.le_antisymm hpc hfuel
      exact ⟨[], _, .nil _, .inl ⟨rfl, by simp [decodeFrom]⟩⟩
  | succ fuel ih =>
      by_cases hlt : pc < code.size
      · rw [decodeFrom, if_pos hlt]
        cases hd : decode code pc with
        | error e => exact ⟨[], pc, .nil pc, .inr ⟨hlt, e, hd, rfl⟩⟩
        | ok result =>
            obtain ⟨i, next⟩ := result
            obtain ⟨hnext, hsize⟩ := decode_lt hd
            obtain ⟨ops, stop, htiles, hresult⟩ := ih hsize (by omega) (done.push (pc, i))
            refine ⟨(pc, i) :: ops, stop, .cons hd htiles, ?_⟩
            simpa using hresult
      · obtain rfl : pc = code.size := Nat.le_antisymm hpc (Nat.not_lt.1 hlt)
        exact ⟨[], _, .nil _, .inl ⟨rfl, by simp [decodeFrom]⟩⟩

theorem decodeAll_cases (code : Array UInt8) :
    ∃ ops stop, Tiles code 0 ops stop ∧
      (stop = code.size ∧ decodeAll code = .ok ops.toArray ∨
        stop < code.size ∧ ∃ e, decode code stop = .error e ∧ decodeAll code = .error e) := by
  obtain ⟨ops, stop, htiles, hresult⟩ :=
    decodeFrom_cases (Nat.zero_le code.size) (Nat.le_of_eq (Nat.zero_add _).symm) #[]
  exact ⟨ops, stop, htiles, by simpa [decodeAll] using hresult⟩

/-- An instruction is read in the same way where the code ends behind it. -/
theorem decode_take {code : Array UInt8} {pc next stop : Nat} {i : Instruction}
    (h : decode code pc = .ok (i, next)) (hstop : next ≤ stop) :
    decode (code.take stop) pc = .ok (i, next) := by
  obtain ⟨opcode, layout, bytes, hlayout, hmakes, rfl, hcode⟩ := exists_makes_of_decode h
  have hroom : (opcode :: bytes).length ≤ stop - pc := by
    rw [List.length_cons]
    omega
  have htake : (code.take stop).toList.drop pc =
      opcode :: (bytes ++ (code.toList.drop (pc + 1 + bytes.length)).take
        (stop - pc - (opcode :: bytes).length)) := by
    rw [Array.take_eq_extract, Array.toList_extract, List.extract_eq_take_drop, Nat.sub_zero,
      List.drop_zero, List.drop_take, hcode, ← List.cons_append, List.take_append,
      List.take_of_length_le hroom, List.cons_append]
  exact decode_of_makes htake hlayout hmakes

theorem Tiles.take {code : Array UInt8} {pc stop : Nat} {ops : List (Nat × Instruction)}
    (h : Tiles code pc ops stop) : Tiles (code.take stop) pc ops stop := by
  induction h with
  | nil pc => exact .nil pc
  | cons h hr ih => exact .cons (decode_take h hr.le) ih

theorem Tiles.decodeFrom_eq {code : Array UInt8} {pc stop : Nat} {ops : List (Nat × Instruction)}
    (h : Tiles code pc ops stop) (hstop : stop = code.size) {fuel : Nat}
    (hfuel : code.size ≤ pc + fuel) (done : Array (Nat × Instruction)) :
    decodeFrom code fuel pc done = .ok (done ++ ops.toArray) := by
  induction h generalizing fuel done with
  | nil pc =>
      subst hstop
      cases fuel <;> simp [decodeFrom]
  | @cons pc next stop i ops h hr ih =>
      obtain ⟨hnext, hsize⟩ := decode_lt h
      obtain ⟨fuel, rfl⟩ : ∃ f, fuel = f + 1 := ⟨fuel - 1, by omega⟩
      have hrest : decodeFrom code fuel next (done.push (pc, i)) =
          .ok (done.push (pc, i) ++ ops.toArray) := ih hstop (by omega) _
      rw [decodeFrom, if_pos (Nat.lt_of_lt_of_le hnext hsize), h]
      simpa using hrest

/-- The code in front of an address that was reached is decoded completely. -/
theorem Tiles.decodeAll_take {code : Array UInt8} {stop : Nat} {ops : List (Nat × Instruction)}
    (h : Tiles code 0 ops stop) (hstop : stop ≤ code.size) :
    decodeAll (code.take stop) = .ok ops.toArray := by
  have hsize : stop = (code.take stop).size := by
    simp [hstop]
  have hall := h.take.decodeFrom_eq hsize (Nat.le_of_eq (Nat.zero_add _).symm) #[]
  simpa [decodeAll] using hall

/-! ## Encoding again -/

theorem Tiles.length_encodeAll {code : Array UInt8} {pc stop : Nat} {ops : List (Nat × Instruction)}
    (h : Tiles code pc ops stop) : pc + (encodeAll (ops.map Prod.snd)).length ≤ stop := by
  induction h with
  | nil pc => exact Nat.le_refl pc
  | @cons pc next stop i ops h hr ih =>
      obtain ⟨bytes, rfl, -, hsize, -⟩ := decode_form h
      calc pc + (encodeAll (i :: ops.map Prod.snd)).length
          = pc + i.size + (encodeAll (ops.map Prod.snd)).length := by
            rw [encodeAll_cons, List.length_append, size, Nat.add_assoc]
        _ ≤ pc + bytes.length + (encodeAll (ops.map Prod.snd)).length := by
            gcongr
        _ ≤ stop := ih

theorem Tiles.forall₂_addressed {code : Array UInt8} {pc stop : Nat}
    {ops : List (Nat × Instruction)} (h : Tiles code pc ops stop) {start : Nat} (hstart : start ≤ pc) :
    List.Forall₂ (fun new old => new.2 = old.2 ∧ new.1 ≤ old.1)
      (addressed start (ops.map Prod.snd)) ops := by
  induction h generalizing start with
  | nil pc => exact .nil
  | @cons pc next stop i ops h hr ih =>
      obtain ⟨bytes, rfl, -, hsize, -⟩ := decode_form h
      exact .cons ⟨rfl, hstart⟩ (ih (Nat.add_le_add hstart hsize))

/-- Encoding gives back the code just where no form in it is loose. -/
theorem Tiles.encodeAll_eq_iff {code : Array UInt8} {pc stop : Nat} {ops : List (Nat × Instruction)}
    (h : Tiles code pc ops stop) :
    encodeAll (ops.map Prod.snd) ++ code.toList.drop stop = code.toList.drop pc ↔
      ∀ op ∈ ops, ¬ LooseAt code op.1 := by
  induction h with
  | nil pc => simp
  | @cons pc next stop i ops h hr ih =>
      obtain ⟨bytes, rfl, hcode, hsize, hform⟩ := decode_form h
      have hlength := hr.length_encodeAll
      rw [List.map_cons, encodeAll_cons, List.append_assoc, hcode, List.forall_mem_cons, ← ih, ← hform]
      change i.encode ++ _ = _ ↔ _
      constructor
      · intro heq
        -- neither part has become longer, so both have kept their length
        apply List.append_inj heq
        have htotal := congrArg List.length heq
        simp only [List.length_append, List.length_drop, Array.length_toList] at htotal
        have hstop := hr.le_size (decode_lt h).2
        rw [size] at hsize
        omega
      · rintro ⟨hfirst, hrest⟩
        rw [hfirst, hrest]

/-! ## The instruction set -/

/-- The numbers that are opcodes. -/
def IsOpcode (b : UInt8) : Prop := 1 ≤ b ∧ b ≤ 28 ∨ 31 ≤ b ∧ b ≤ 54

instance (b : UInt8) : Decidable (IsOpcode b) := inferInstanceAs (Decidable (_ ∨ _))

/-- The number of bytes behind an opcode. -/
def immediateBytes (opcode : UInt8) : Nat :=
  if opcode ∈ [1, 6, 32, 54] then 1
  else if opcode ∈ [11, 12, 13, 14, 31, 39, 40, 41, 42, 43, 44, 45, 46, 48] then 2
  else if opcode = 22 then 4
  else 0

theorem width_ofOpcode? (opcode : UInt8) : (Layout.ofOpcode? opcode).map Layout.width =
    if IsOpcode opcode then some (immediateBytes opcode) else none := by
  have hall : ∀ n < 256, (Layout.ofOpcode? (UInt8.ofNat n)).map Layout.width =
      if IsOpcode (UInt8.ofNat n) then some (immediateBytes (UInt8.ofNat n)) else none := by
    decide +kernel
  have hopcode := hall opcode.toNat opcode.toNat_lt
  rwa [UInt8.ofNat_toNat] at hopcode

end Instruction

/-- The address where decoding failed. -/
def DecodeError.pc : DecodeError → Nat
  | unknownOpcode _ pc => pc
  | truncated pc => pc

namespace Instruction

theorem decode_error {code : Array UInt8} {pc : Nat} {e : DecodeError} (hpc : pc < code.size)
    (h : decode code pc = .error e) :
    e.pc = pc ∧ ∃ opcode, code[pc]? = some opcode ∧
      (e = .unknownOpcode opcode pc ∧ ¬ IsOpcode opcode ∨
        e = .truncated pc ∧ IsOpcode opcode ∧ code.size < pc + 1 + immediateBytes opcode) := by
  obtain ⟨opcode, hopcode, hcases⟩ := decode_cases hpc
  have hwidth := width_ofOpcode? opcode
  rcases hcases with ⟨hlayout, hd⟩ | ⟨layout, hlayout, ⟨hend, hd⟩ | ⟨bytes, i, -, -, hd⟩⟩
  · obtain rfl := Except.error.inj (hd.symm.trans h)
    refine ⟨rfl, opcode, hopcode, .inl ⟨rfl, ?_⟩⟩
    intro hdefined
    simp [hlayout, hdefined] at hwidth
  · obtain rfl := Except.error.inj (hd.symm.trans h)
    refine ⟨rfl, opcode, hopcode, .inr ?_⟩
    by_cases hdefined : IsOpcode opcode
    · simp only [hlayout, Option.map_some, if_pos hdefined, Option.some.injEq] at hwidth
      exact ⟨rfl, hdefined, hwidth ▸ hend⟩
    · simp [hlayout, hdefined] at hwidth
  · cases hd.symm.trans h

/-- Decoding cuts the code into instructions to its last byte, or rejects it where there is none.
What was decoded is encoded as code that is no longer, that means the same, and that is the very
same where no form is loose. What was rejected is in order up to the place of the error. -/
theorem decodeAll_partition (code : Array UInt8) :
    (∀ ops, decodeAll code = .ok ops →
      Tiles code 0 ops.toList code.size ∧
        (encodeAll (ops.toList.map Prod.snd)).length ≤ code.size ∧
        (∃ again, decodeAll (encodeAll (ops.toList.map Prod.snd)).toArray = .ok again ∧
          List.Forall₂ (fun new old => new.2 = old.2 ∧ new.1 ≤ old.1) again.toList ops.toList) ∧
        (encodeAll (ops.toList.map Prod.snd) = code.toList ↔ ∀ op ∈ ops.toList, ¬ LooseAt code op.1)) ∧
      ∀ e, decodeAll code = .error e →
        ∃ opcode before, code[e.pc]? = some opcode ∧ decodeAll (code.take e.pc) = .ok before ∧
          (e = .unknownOpcode opcode e.pc ↔ ¬ IsOpcode opcode) ∧
          (IsOpcode opcode → e = .truncated e.pc ∧
            code.size < e.pc + 1 + immediateBytes opcode) := by
  obtain ⟨found, stop, htiles, ⟨rfl, hresult⟩ | ⟨hstop, e, hd, hresult⟩⟩ := decodeAll_cases code
  · refine ⟨?_, fun e he => ?_⟩
    · intro ops hops
      obtain rfl := Except.ok.inj (hresult.symm.trans hops)
      have hlength := htiles.length_encodeAll
      have hiff := htiles.encodeAll_eq_iff
      simp only [Nat.zero_add] at hlength
      simp only [List.drop_zero, List.drop_eq_nil_of_le (Nat.le_of_eq code.length_toList),
        List.append_nil] at hiff
      exact ⟨htiles, hlength, ⟨_, decodeAll_encodeAll _, htiles.forall₂_addressed (Nat.le_refl 0)⟩, hiff⟩
    · cases hresult.symm.trans he
  · refine ⟨fun ops hops => ?_, ?_⟩
    · cases hresult.symm.trans hops
    · intro e' he
      obtain rfl := Except.error.inj (hresult.symm.trans he)
      obtain ⟨rfl, opcode, hopcode, hcases⟩ := decode_error hstop hd
      refine ⟨opcode, _, hopcode, htiles.decodeAll_take (Nat.le_of_lt hstop), ?_, ?_⟩
      · rcases hcases with ⟨heq, hundefined⟩ | ⟨heq, hdefined, -⟩
        · exact ⟨fun _ => hundefined, fun _ => heq⟩
        · refine ⟨fun hunknown => ?_, fun hundefined => absurd hdefined hundefined⟩
          cases heq.symm.trans hunknown
      · intro hdefined
        rcases hcases with ⟨-, hundefined⟩ | ⟨heq, -, hend⟩
        · exact absurd hdefined hundefined
        · exact ⟨heq, hend⟩

/-- Two of three forms are loose; the third is the shortest one for its value. -/
theorem decodeAll_partition_loose :
    decodeAll #[1, 2, 32, 7, 22, 0, 0, 0, 9] =
        .ok #[(0, .load 2), (2, .newArray .word), (4, .const 9)] ∧
      Tiles #[1, 2, 32, 7, 22, 0, 0, 0, 9] 0
        [(0, .load 2), (2, .newArray .word), (4, .const 9)] 9 ∧
      ¬ (∀ op ∈ [(0, Instruction.load 2), (2, .newArray .word), (4, .const 9)],
        ¬ LooseAt #[1, 2, 32, 7, 22, 0, 0, 0, 9] op.1) ∧
      decodeAll #[38, 22, 0] = .error (.truncated 1) ∧ 3 < 1 + 1 + immediateBytes 22 ∧
      decodeAll #[38, 29] = .error (.unknownOpcode 29 1) ∧ ¬ IsOpcode 29 := by
  have hloose : decodeAll #[1, 2, 32, 7, 22, 0, 0, 0, 9] =
      .ok #[(0, .load 2), (2, .newArray .word), (4, .const 9)] := by decide
  have hcut : decodeAll #[38, 22, 0] = .error (.truncated 1) := by decide
  have hunknown : decodeAll #[38, 29] = .error (.unknownOpcode 29 1) := by decide
  obtain ⟨htiles, -, -, hiff⟩ := (decodeAll_partition #[1, 2, 32, 7, 22, 0, 0, 0, 9]).1 _ hloose
  obtain ⟨const, -, hconst, -, -, htruncated⟩ := (decodeAll_partition #[38, 22, 0]).2 _ hcut
  obtain ⟨undefined, -, hundefined, -, hexact, -⟩ := (decodeAll_partition #[38, 29]).2 _ hunknown
  obtain rfl : 22 = const := Option.some.inj hconst
  obtain rfl : 29 = undefined := Option.some.inj hundefined
  refine ⟨hloose, htiles, ?_, hcut, (htruncated (by decide)).2, hunknown, hexact.1 rfl⟩
  intro htight
  exact absurd (hiff.2 htight) (by decide)

end Instruction

end MicroJava
