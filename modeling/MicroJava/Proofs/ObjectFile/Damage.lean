import MicroJava.Proofs.ObjectFile.Storage

/-! # Damaged object files

A stored object file that was cut off is never read as a shorter one: wherever the cut is, the data
ends too early. Numbers may be padded with zero digits, so bytes that are read need not be the bytes
that are written; but what was read fits its fields, and is written in no more bytes. -/

namespace MicroJava

namespace Varint

/-! ## Numbers cut off -/

theorem decodeWithin_nil (lastBound more : Nat) :
    decodeWithin lastBound more [] = .error .endOfData := by
  cases more <;> rfl

/-- Every byte of a number but the last asks for another. -/
theorem decodeWithin_take_encode {lastBound : Nat} (hb : lastBound < 128) (more : Nat) {n : Nat}
    (h : n < (lastBound + 1) * 128 ^ more) {k : Nat} (hk : k < (encode n).length) :
    decodeWithin lastBound more ((encode n).take k) = .error .endOfData := by
  induction more generalizing n k with
  | zero =>
      have hn : n < 128 := by omega
      rw [encode_of_lt hn, List.length_singleton] at hk
      obtain rfl : k = 0 := by omega
      exact decodeWithin_nil lastBound 0
  | succ more ih =>
      cases k with
      | zero => exact decodeWithin_nil lastBound (more + 1)
      | succ k =>
          by_cases hn : n < 128
          · rw [encode_of_lt hn, List.length_singleton] at hk
            omega
          · rw [encode_of_le (Nat.not_lt.1 hn)] at hk ⊢
            have hhigh : n / 128 < (lastBound + 1) * 128 ^ more := by
              apply Nat.div_lt_of_lt_mul
              rwa [pow_succ, ← Nat.mul_assoc, Nat.mul_comm] at h
            have hdigit : n % 128 + 128 < 256 := by omega
            have hbyte : (UInt8.ofNat (n % 128 + 128)).toNat = n % 128 + 128 :=
              UInt8.toNat_ofNat_of_lt hdigit
            rw [List.take_succ_cons, decodeWithin, hbyte,
              if_neg (Nat.not_lt.2 (Nat.le_add_left 128 _)), ih hhigh (Nat.lt_of_succ_lt_succ hk)]

/-- A number in front of a cut is read, and a number that was cut is not. -/
theorem decode_take_append (field : VarintField) (hb : field.lastBound < 128) {n : Nat}
    (h : n < (field.lastBound + 1) * 128 ^ field.more) (rest : List UInt8) (k : Nat) :
    decode field ((encode n ++ rest).take k) =
      if k < (encode n).length then .error .endOfData
      else .ok (n, rest.take (k - (encode n).length)) := by
  rw [List.take_append, decode]
  split
  case isTrue hk =>
    rw [Nat.sub_eq_zero_of_le (Nat.le_of_lt hk), List.take_zero, List.append_nil]
    exact decodeWithin_take_encode hb field.more h hk
  case isFalse hk =>
    rw [List.take_of_length_le (Nat.not_lt.1 hk)]
    exact decodeWithin_encode hb field.more h _

theorem decode_short_take (n : UInt16) (rest : List UInt8) (k : Nat) :
    decode short ((encode n.toNat ++ rest).take k) =
      if k < (encode n.toNat).length then .error .endOfData
      else .ok (n.toNat, rest.take (k - (encode n.toNat).length)) :=
  decode_take_append short (by decide) n.toNat_lt rest k

theorem decode_long_take {n : Nat} (h : n < 2 ^ 64) (rest : List UInt8) (k : Nat) :
    decode long ((encode n ++ rest).take k) =
      if k < (encode n).length then .error .endOfData
      else .ok (n, rest.take (k - (encode n).length)) :=
  decode_take_append long (by decide) h rest k

/-! ## Numbers that are read -/

theorem length_encode_le {digit : Nat} (hd : digit < 128) (high : Nat) :
    (encode (digit + 128 * high)).length ≤ (encode high).length + 1 := by
  by_cases hn : digit + 128 * high < 128
  · rw [encode_of_lt hn, List.length_singleton]
    exact Nat.le_add_left 1 _
  · have hdiv : (digit + 128 * high) / 128 = high := by omega
    exact Nat.le_of_eq (by rw [encode_of_le (Nat.not_lt.1 hn), List.length_cons, hdiv])

/-- A number that is read fits its field, and was written in at least as many bytes as it takes. -/
theorem decodeWithin_bounds {lastBound more : Nat} {bytes rest : List UInt8} {n : Nat}
    (h : decodeWithin lastBound more bytes = .ok (n, rest)) :
    n < (lastBound + 1) * 128 ^ more ∧ (encode n).length + rest.length ≤ bytes.length := by
  induction more generalizing bytes n with
  | zero =>
      cases bytes with
      | nil => cases h
      | cons b tail =>
          rw [decodeWithin] at h
          split at h
          case isTrue hb =>
            cases h
            rw [encode_of_lt hb.1, pow_zero, Nat.mul_one]
            exact ⟨Nat.lt_succ_of_le hb.2, Nat.le_of_eq (Nat.add_comm 1 _)⟩
          case isFalse => cases h
  | succ more ih =>
      cases bytes with
      | nil => cases h
      | cons b tail =>
          have hbyte := b.toNat_lt
          rw [decodeWithin] at h
          split at h
          case isTrue hb =>
            cases h
            have hpow : 128 ≤ (lastBound + 1) * 128 ^ (more + 1) := by
              calc 128 ≤ 128 ^ (more + 1) := Nat.le_self_pow (Nat.succ_ne_zero more) 128
                _ ≤ (lastBound + 1) * 128 ^ (more + 1) := Nat.le_mul_of_pos_left _ (Nat.succ_pos _)
            rw [encode_of_lt hb]
            exact ⟨Nat.lt_of_lt_of_le hb hpow, Nat.le_of_eq (Nat.add_comm 1 _)⟩
          case isFalse hb =>
            split at h
            case h_1 => cases h
            case h_2 high tail' hhigh =>
              cases h
              obtain ⟨hfit, hlength⟩ := ih hhigh
              constructor
              · calc b.toNat - 128 + 128 * high < 128 * (high + 1) := by omega
                  _ ≤ 128 * ((lastBound + 1) * 128 ^ more) := Nat.mul_le_mul_left 128 hfit
                  _ = (lastBound + 1) * 128 ^ (more + 1) := by
                    rw [pow_succ, Nat.mul_comm, Nat.mul_assoc]
              · have hdigit : b.toNat - 128 < 128 := by omega
                have hencode := length_encode_le hdigit high
                rw [List.length_cons]
                omega

end Varint

namespace ObjectFile

/-- What stands behind the magic bytes. -/
def body (object : ObjectFile) : List UInt8 :=
  Varint.encode object.dataSize.toNat ++ (Varint.encode object.mainPc.toNat ++
    (Varint.encode object.code.size ++ object.code.toList))

theorem toBytes_eq (object : ObjectFile) : object.toBytes = 77 :: 74 :: object.body := by
  rw [toBytes, body, List.append_assoc, List.append_assoc]

/-- A body that was cut off ends too early, in one of its numbers or in the code. -/
theorem readBody_take {object : ObjectFile} (h : object.code.size < 2 ^ 64) {k : Nat}
    (hk : k < object.body.length) : readBody (object.body.take k) = .error .endOfData := by
  simp only [body, List.length_append, Array.length_toList] at hk
  rw [readBody, body, Varint.decode_short_take]
  by_cases hdata : k < (Varint.encode object.dataSize.toNat).length
  · rw [if_pos hdata]
    rfl
  · simp only [if_neg hdata, bind, Except.bind, Varint.decode_short_take]
    by_cases hmain : k - (Varint.encode object.dataSize.toNat).length <
        (Varint.encode object.mainPc.toNat).length
    · rw [if_pos hmain]
    · simp only [if_neg hmain, Varint.decode_long_take h]
      by_cases hlength : k - (Varint.encode object.dataSize.toNat).length -
          (Varint.encode object.mainPc.toNat).length < (Varint.encode object.code.size).length
      · rw [if_pos hlength]
      · -- all three numbers are whole, so it is the code that is cut
        have hcode : min object.code.size (min (k - (Varint.encode object.dataSize.toNat).length -
            (Varint.encode object.mainPc.toNat).length - (Varint.encode object.code.size).length)
              object.code.size) < object.code.size := by omega
        simp only [if_neg hlength, List.size_toArray, List.length_take, Array.length_toList,
          if_pos hcode]
        rfl

theorem exists_of_bind_eq_ok {ε α β : Type} {act : Except ε α} {f : α → Except ε β} {b : β}
    (h : act >>= f = .ok b) : ∃ a, act = .ok a ∧ f a = .ok b := by
  cases act with
  | error e => cases h
  | ok a => exact ⟨a, rfl, h⟩

/-- What was read stands behind the numbers that were read. -/
theorem readBody_cases {bytes : List UInt8} {object : ObjectFile} (h : readBody bytes = .ok object) :
    ∃ dataSize mainPc length rest rest' code,
      Varint.decode Varint.short bytes = .ok (dataSize, rest) ∧
      Varint.decode Varint.short rest = .ok (mainPc, rest') ∧
      Varint.decode Varint.long rest' = .ok (length, code) ∧ length ≤ code.length ∧
      object = ⟨UInt16.ofNat dataSize, UInt16.ofNat mainPc, (code.take length).toArray⟩ := by
  obtain ⟨⟨dataSize, rest⟩, hdata, h⟩ := exists_of_bind_eq_ok h
  obtain ⟨⟨mainPc, rest'⟩, hmain, h⟩ := exists_of_bind_eq_ok h
  obtain ⟨⟨length, code⟩, hlength, h⟩ := exists_of_bind_eq_ok h
  simp only at h
  split at h
  case isTrue => cases h
  case isFalse hsize =>
    rw [List.size_toArray, List.length_take] at hsize
    cases h
    exact ⟨_, _, _, _, _, _, hdata, hmain, hlength, by omega, rfl⟩

/-- What was read can be written: its code is not too long, and it takes no more bytes. -/
theorem readBody_bounds {bytes : List UInt8} {object : ObjectFile} (h : readBody bytes = .ok object) :
    object.code.size < 2 ^ 64 ∧ object.body.length ≤ bytes.length := by
  obtain ⟨dataSize, mainPc, length, rest, rest', code, hdata, hmain, hlength, hcode, rfl⟩ :=
    readBody_cases h
  obtain ⟨hfit, hbytes⟩ := Varint.decodeWithin_bounds hdata
  obtain ⟨hfit', hrest⟩ := Varint.decodeWithin_bounds hmain
  obtain ⟨hlong, hrest'⟩ := Varint.decodeWithin_bounds hlength
  have htake : (code.take length).length = length := List.length_take_of_le hcode
  have hdataSize : (UInt16.ofNat dataSize).toNat = dataSize := UInt16.toNat_ofNat_of_lt hfit
  have hmainPc : (UInt16.ofNat mainPc).toNat = mainPc := UInt16.toNat_ofNat_of_lt hfit'
  constructor
  · change (code.take length).length < 2 ^ 64
    rw [htake]
    exact hlong
  · simp only [body, List.length_append, List.size_toArray, htake, hdataSize, hmainPc]
    omega

/-- A stored object file that was cut off is rejected wherever the cut is, and what is read from any
bytes is written in no more bytes and read from these again. -/
theorem ofBytes_damaged :
    (∀ object : ObjectFile, object.code.size < 2 ^ 64 → ∀ k < object.toBytes.length,
      ofBytes (object.toBytes.take k) = .error (if k < 2 then .badMagic else .endOfData)) ∧
    FormatError.endOfData.text = "corrupt object file: Hit the end of buffer, expected more data" ∧
    ∀ bytes object, ofBytes bytes = .ok object →
      object.toBytes.length ≤ bytes.length ∧ ofBytes object.toBytes = .ok object := by
  refine ⟨?_, rfl, ?_⟩
  · intro object h k hk
    rw [toBytes_eq] at hk ⊢
    match k with
    | 0 => rfl
    | 1 => rfl
    | k + 2 =>
        rw [if_neg (Nat.not_lt.2 (Nat.le_add_left 2 k))]
        exact readBody_take h (Nat.lt_of_add_lt_add_right hk)
  · intro bytes object h
    unfold ofBytes at h
    split at h
    case h_1 rest =>
      obtain ⟨hsize, hlength⟩ := readBody_bounds h
      have hagain := readBody_append hsize []
      rw [List.append_nil] at hagain
      rw [toBytes_eq]
      exact ⟨Nat.add_le_add_right hlength 2, hagain⟩
    case h_2 => cases h

/-- The data size is cut in the middle of its two bytes, and all three numbers are padded. -/
theorem ofBytes_damaged_padded :
    (⟨300, 0, #[49]⟩ : ObjectFile).toBytes = [77, 74, 172, 2, 0, 1, 49] ∧
      ofBytes [77] = .error .badMagic ∧ ofBytes [77, 74, 172] = .error .endOfData ∧
      ofBytes [77, 74, 172, 130, 0, 128, 0, 129, 128, 0, 49] = .ok ⟨300, 0, #[49]⟩ ∧
      ofBytes (⟨300, 0, #[49]⟩ : ObjectFile).toBytes = .ok ⟨300, 0, #[49]⟩ := by
  have hstored : (⟨300, 0, #[49]⟩ : ObjectFile).toBytes = [77, 74, 172, 2, 0, 1, 49] := by
    simp [toBytes, Varint.encode]
  have hpadded : ofBytes [77, 74, 172, 130, 0, 128, 0, 129, 128, 0, 49] = .ok ⟨300, 0, #[49]⟩ := by
    simp [ofBytes, readBody, Varint.decode, Varint.short, Varint.long, Varint.decodeWithin, bind,
      Except.bind, pure, Except.pure]
  obtain ⟨hcut, -, hread⟩ := ofBytes_damaged
  have hmagic := hcut ⟨300, 0, #[49]⟩ (by decide) 1
  have hdata := hcut ⟨300, 0, #[49]⟩ (by decide) 3
  rw [hstored] at hmagic hdata
  exact ⟨hstored, hmagic (by decide), hdata (by decide), hpadded, (hread _ _ hpadded).2⟩

end ObjectFile

end MicroJava
