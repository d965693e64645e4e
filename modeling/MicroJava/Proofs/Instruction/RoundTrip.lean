import MicroJava.Instruction.Decoding
import MicroJava.Instruction.Encoding
import Mathlib.Tactic.IntervalCases

/-! # Decoding encoded instructions

An instruction is read back wherever its bytes stand, and the bytes of a sequence of instructions
are read back as that sequence. The address of an instruction is the number of bytes before it. -/

namespace MicroJava

namespace BigEndian

theorem toWord_ofWord (w : Int32) :
    toWord (UInt8.ofNat (w.toUInt32.toNat / 16777216))
      (UInt8.ofNat (w.toUInt32.toNat / 65536 % 256))
      (UInt8.ofNat (w.toUInt32.toNat / 256 % 256)) (UInt8.ofNat (w.toUInt32.toNat % 256)) = w := by
  have hlt := w.toUInt32.toNat_lt
  have hn : UInt32.ofNat ((((w.toUInt32.toNat / 16777216 * 256 + w.toUInt32.toNat / 65536 % 256) *
      256 + w.toUInt32.toNat / 256 % 256) * 256) + w.toUInt32.toNat % 256) = w.toUInt32 := by
    apply UInt32.toNat_inj.1
    rw [UInt32.toNat_ofNat']
    omega
  have hb : ∀ k, k < 256 → (UInt8.ofNat k).toNat = k := by
    intro k hk
    rw [UInt8.toNat_ofNat']
    omega
  rw [toWord, hb _ (by omega), hb _ (by omega), hb _ (by omega), hb _ (by omega), hn]
  exact Int32.toInt32_toUInt32 w

end BigEndian

namespace Instruction

/-- Some layout of the table reads the immediates of an instruction back. -/
def ReadsBack (i : Instruction) : Prop :=
  ∃ opcode immediates layout, i.encode = opcode :: immediates ∧
    Layout.ofOpcode? opcode = some layout ∧ immediates.length = layout.width ∧
    ∀ at? : Nat → Option UInt8,
      (∀ k b, immediates[k]? = some b → at? (k + 1) = some b) → layout.read at? = some i

theorem readsBack_plain {i : Instruction} (opcode : UInt8) (he : i.encode = [opcode])
    (ho : Layout.ofOpcode? opcode = some (.plain i)) : ReadsBack i :=
  ⟨opcode, [], .plain i, he, ho, rfl, fun _ _ => rfl⟩

theorem readsBack_byte {i : Instruction} {opcode b : UInt8} {make : UInt8 → Instruction}
    (he : i.encode = [opcode, b]) (ho : Layout.ofOpcode? opcode = some (.byte make))
    (hm : make b = i) : ReadsBack i := by
  refine ⟨opcode, [b], .byte make, he, ho, rfl, ?_⟩
  intro at? h
  have h1 := h 0 b rfl
  simp [Layout.read, h1, hm]

theorem readsBack_address {i : Instruction} {opcode : UInt8} {make : UInt16 → Instruction}
    (adr : UInt16) (he : i.encode = opcode :: BigEndian.ofAddress adr)
    (ho : Layout.ofOpcode? opcode = some (.address make)) (hm : make adr = i) : ReadsBack i := by
  refine ⟨opcode, BigEndian.ofAddress adr, .address make, he, ho, rfl, ?_⟩
  intro at? h
  have h1 := h 0 _ rfl
  have h2 := h 1 _ rfl
  simp only [Layout.read, h1, h2, Option.bind_eq_bind, Option.bind_some, pure,
    BigEndian.toAddress_ofAddress, hm]

theorem readsBack_slot {make : UInt8 → Instruction} (short : Nat) {long slot : UInt8}
    (he : (make slot).encode = if slot < 4 then [UInt8.ofNat short + slot] else [long, slot])
    (hs : ∀ k < 4, Layout.ofOpcode? (UInt8.ofNat short + UInt8.ofNat k) =
      some (.plain (make (UInt8.ofNat k))))
    (hl : Layout.ofOpcode? long = some (.byte make)) : ReadsBack (make slot) := by
  by_cases h : slot < 4
  · rw [if_pos h] at he
    have hk := hs slot.toNat (by simpa using UInt8.lt_iff_toNat_lt.1 h)
    rw [UInt8.ofNat_toNat] at hk
    exact readsBack_plain _ he hk
  · rw [if_neg h] at he
    exact readsBack_byte he hl rfl

theorem readsBack_const (v : Int32) : ReadsBack (.const v) := by
  by_cases hm : v = -1
  · subst hm
    exact readsBack_plain 21 rfl rfl
  by_cases hr : 0 ≤ v ∧ v ≤ 5
  · have h0 : 0 ≤ v.toInt := Int32.le_iff_toInt_le.1 hr.1
    have h5 : v.toInt ≤ 5 := Int32.le_iff_toInt_le.1 hr.2
    have hv : v = Int32.ofInt v.toInt := (Int32.ofInt_toInt v).symm
    generalize v.toInt = n at h0 h5 hv
    subst hv
    interval_cases n
    · exact readsBack_plain 15 rfl rfl
    · exact readsBack_plain 16 rfl rfl
    · exact readsBack_plain 17 rfl rfl
    · exact readsBack_plain 18 rfl rfl
    · exact readsBack_plain 19 rfl rfl
    · exact readsBack_plain 20 rfl rfl
  · refine ⟨22, BigEndian.ofWord v, .word .const, ?_, rfl, rfl, ?_⟩
    · simp only [encode, if_neg hm, if_neg hr]
    · intro at? h
      have h1 := h 0 _ rfl
      have h2 := h 1 _ rfl
      have h3 := h 2 _ rfl
      have h4 := h 3 _ rfl
      simp only [Layout.read, h1, h2, h3, h4, Option.bind_eq_bind, Option.bind_some, pure,
        BigEndian.toWord_ofWord]

/-- Every instruction is read back by the layout of its own opcode. -/
theorem readsBack (i : Instruction) : ReadsBack i := by
  cases i with
  | load slot =>
      exact readsBack_slot 2 rfl (by intro k hk; interval_cases k <;> rfl) rfl
  | store slot =>
      exact readsBack_slot 7 rfl (by intro k hk; interval_cases k <;> rfl) rfl
  | getStatic adr => exact readsBack_address adr rfl rfl rfl
  | putStatic adr => exact readsBack_address adr rfl rfl rfl
  | getField adr => exact readsBack_address adr rfl rfl rfl
  | putField adr => exact readsBack_address adr rfl rfl rfl
  | const v => exact readsBack_const v
  | arith op => cases op <;> exact readsBack_plain _ rfl rfl
  | new fields => exact readsBack_address fields rfl rfl rfl
  | newArray size => cases size <;> exact readsBack_byte rfl rfl rfl
  | loadElem size => cases size <;> exact readsBack_plain _ rfl rfl
  | storeElem size => cases size <;> exact readsBack_plain _ rfl rfl
  | jump target => exact readsBack_address target rfl rfl rfl
  | jumpIf rel target => cases rel <;> exact readsBack_address target rfl rfl rfl
  | call target => exact readsBack_address target rfl rfl rfl
  | enter params locals =>
      refine ⟨48, [params, locals], .twoBytes .enter, rfl, rfl, rfl, ?_⟩
      intro at? h
      have h1 := h 0 _ rfl
      have h2 := h 1 _ rfl
      simp [Layout.read, h1, h2]
  | trap code => exact readsBack_byte rfl rfl rfl
  | neg | arrayLength | pop | ret | exit | read | print | readChar | printChar =>
      exact readsBack_plain _ rfl rfl

/-- An instruction is read back wherever its bytes stand. -/
theorem decode_at (i : Instruction) {code : Array UInt8} {before after : List UInt8}
    (h : code.toList = before ++ i.encode ++ after) :
    decode code before.length = .ok (i, before.length + i.size) := by
  obtain ⟨opcode, immediates, layout, he, ho, hw, hr⟩ := readsBack i
  have hat : ∀ k, code[before.length + k]? = (i.encode ++ after)[k]? := by
    intro k
    rw [← Array.getElem?_toList, h, List.append_assoc,
      List.getElem?_append_right (Nat.le_add_right _ _), Nat.add_sub_cancel_left]
  have h0 : code[before.length]? = some opcode := by simpa [he] using hat 0
  have hread : layout.read (fun k => code[before.length + k]?) = some i := by
    apply hr
    intro k b hb
    have hk : k < immediates.length := (List.getElem?_eq_some_iff.1 hb).1
    rw [hat, he, List.cons_append, List.getElem?_cons_succ, List.getElem?_append_left hk, hb]
  have hs : i.size = 1 + layout.width := by
    rw [size, he, List.length_cons, hw, Nat.add_comm]
  simp only [decode, h0, ho, hread, hs, Nat.add_assoc]

theorem size_pos (i : Instruction) : 0 < i.size := by
  obtain ⟨opcode, immediates, layout, he, -⟩ := readsBack i
  simp [size, he]

@[simp] theorem encodeAll_nil : encodeAll [] = [] := rfl

@[simp] theorem encodeAll_cons (i : Instruction) (is : List Instruction) :
    encodeAll (i :: is) = i.encode ++ encodeAll is := rfl

@[simp] theorem encodeAll_append (is js : List Instruction) :
    encodeAll (is ++ js) = encodeAll is ++ encodeAll js := List.flatMap_append

theorem length_le_encodeAll (is : List Instruction) : is.length ≤ (encodeAll is).length := by
  induction is with
  | nil => simp
  | cons i is ih =>
      have hi : 0 < i.encode.length := size_pos i
      simp only [encodeAll_cons, List.length_cons, List.length_append]
      omega

/-- The instructions with their addresses, the first one at `start`. -/
def addressed (start : Nat) : List Instruction → List (Nat × Instruction)
  | [] => []
  | i :: is => (start, i) :: addressed (start + i.size) is

theorem addressed_append (start : Nat) (is js : List Instruction) :
    addressed start (is ++ js) =
      addressed start is ++ addressed (start + (encodeAll is).length) js := by
  induction is generalizing start with
  | nil => rfl
  | cons i is ih => simp [addressed, ih, size, Nat.add_assoc]

theorem map_snd_addressed (start : Nat) (is : List Instruction) :
    (addressed start is).map Prod.snd = is := by
  induction is generalizing start with
  | nil => rfl
  | cons i is ih => simp [addressed, ih]

theorem decodeFrom_encodeAll {code : Array UInt8} (is : List Instruction) (before : List UInt8)
    (h : code.toList = before ++ encodeAll is) (fuel : Nat) (hf : is.length ≤ fuel)
    (done : Array (Nat × Instruction)) :
    decodeFrom code fuel before.length done =
      .ok (done ++ (addressed before.length is).toArray) := by
  induction is generalizing before fuel done with
  | nil =>
      have hsize : code.size = before.length := by
        rw [← Array.length_toList, h]
        simp
      cases fuel with
      | zero => simp [decodeFrom, addressed]
      | succ fuel => simp [decodeFrom, addressed, hsize]
  | cons i is ih =>
      obtain ⟨fuel, rfl⟩ : ∃ f, fuel = f + 1 := ⟨fuel - 1, by simp at hf; omega⟩
      rw [encodeAll_cons] at h
      have hlt : before.length < code.size := by
        have hi : 0 < i.encode.length := size_pos i
        rw [← Array.length_toList, h]
        simp only [List.length_append]
        omega
      have hd : decode code before.length = .ok (i, before.length + i.size) :=
        decode_at i (h.trans (List.append_assoc _ _ _).symm)
      have hnext : before.length + i.size = (before ++ i.encode).length := by simp [size]
      have hrest := ih (before ++ i.encode) (by rw [h, List.append_assoc]) fuel
        (by simpa using hf) (done.push (before.length, i))
      rw [decodeFrom, if_pos hlt, hd]
      simp only [hnext, hrest]
      simp [addressed, size]

/-- The bytes of a sequence of instructions are read back as that sequence. -/
theorem decodeAll_encodeAll (is : List Instruction) :
    decodeAll (encodeAll is).toArray = .ok (addressed 0 is).toArray := by
  have hcode : (encodeAll is).toArray.toList = [] ++ encodeAll is := by simp
  have h := decodeFrom_encodeAll is [] hcode (encodeAll is).toArray.size
    (by simpa using length_le_encodeAll is) #[]
  simpa [decodeAll] using h

theorem addressed_eq_mapIdx (start : Nat) (is : List Instruction) :
    addressed start is =
      is.mapIdx fun k i => (start + ((is.take k).map fun j => j.encode.length).sum, i) := by
  induction is generalizing start with
  | nil => rfl
  | cons i is ih =>
      rw [addressed, ih, List.mapIdx_cons]
      simp [size, Nat.add_assoc]

/-- Decoding undoes encoding: a sequence is read back instruction by instruction, each at the sum of
the lengths before it, and a single instruction is read back between any other bytes. -/
theorem decoding_encoded :
    (∀ is : List Instruction,
      decodeAll (is.flatMap encode).toArray =
        .ok (is.mapIdx fun k i => (((is.take k).map fun j => j.encode.length).sum, i)).toArray) ∧
    ∀ (i : Instruction) (before after : List UInt8),
      decode (before ++ i.encode ++ after).toArray before.length =
        .ok (i, before.length + i.encode.length) := by
  constructor
  · intro is
    have h := decodeAll_encodeAll is
    rw [addressed_eq_mapIdx] at h
    simpa only [encodeAll, Nat.zero_add] using h
  · intro i before after
    exact decode_at i rfl

end Instruction

end MicroJava
