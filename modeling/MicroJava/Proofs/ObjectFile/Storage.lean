import Mathlib.Algebra.GroupWithZero.Nat
import MicroJava.ObjectFile.Format

/-! # Reading stored object files back

A number is read back from any field that it fits, with what stands behind it left over. So an
object file, which is three numbers and its code, is read back whatever follows it. -/

namespace MicroJava

namespace Varint

theorem encode_of_lt {n : Nat} (h : n < 128) : encode n = [UInt8.ofNat n] := by
  rw [encode, if_pos h]

theorem encode_of_le {n : Nat} (h : 128 ≤ n) :
    encode n = UInt8.ofNat (n % 128 + 128) :: encode (n / 128) := by
  rw [encode, if_neg (Nat.not_lt.2 h)]

/-- The last byte allowed holds a digit up to its bound, and every byte before it a digit of 128. -/
theorem decodeWithin_encode {lastBound : Nat} (hb : lastBound < 128) (more : Nat) {n : Nat}
    (h : n < (lastBound + 1) * 128 ^ more) (rest : List UInt8) :
    decodeWithin lastBound more (encode n ++ rest) = .ok (n, rest) := by
  have hbyte : ∀ {b : Nat}, b < 256 → (UInt8.ofNat b).toNat = b := UInt8.toNat_ofNat_of_lt
  induction more generalizing n with
  | zero =>
      rw [pow_zero, Nat.mul_one] at h
      have hn : n < 128 := by omega
      have hle : n ≤ lastBound := by omega
      rw [encode_of_lt hn, List.cons_append, decodeWithin, hbyte (by omega), if_pos ⟨hn, hle⟩,
        List.nil_append]
  | succ more ih =>
      by_cases hn : n < 128
      · rw [encode_of_lt hn, List.cons_append, decodeWithin, hbyte (by omega), if_pos hn,
          List.nil_append]
      · have hhigh : n / 128 < (lastBound + 1) * 128 ^ more := by
          apply Nat.div_lt_of_lt_mul
          rwa [pow_succ, ← Nat.mul_assoc, Nat.mul_comm] at h
        have hmore : ¬ n % 128 + 128 < 128 := by omega
        have hvalue : n % 128 + 128 - 128 + 128 * (n / 128) = n := by omega
        rw [encode_of_le (Nat.not_lt.1 hn), List.cons_append, decodeWithin, hbyte (by omega),
          if_neg hmore, ih hhigh]
        simp only [hvalue]

theorem decode_short_encode (n : UInt16) (rest : List UInt8) :
    decode short (encode n.toNat ++ rest) = .ok (n.toNat, rest) :=
  decodeWithin_encode (by decide) 2 n.toNat_lt rest

theorem decode_long_encode {n : Nat} (h : n < 2 ^ 64) (rest : List UInt8) :
    decode long (encode n ++ rest) = .ok (n, rest) :=
  decodeWithin_encode (by decide) 9 h rest

end Varint

namespace ObjectFile

/-- The three numbers and the code are read back, and nothing behind them is looked at. -/
theorem readBody_append {object : ObjectFile} (h : object.code.size < 2 ^ 64)
    (behind : List UInt8) :
    readBody (Varint.encode object.dataSize.toNat ++ (Varint.encode object.mainPc.toNat ++
      (Varint.encode object.code.size ++ (object.code.toList ++ behind)))) = .ok object := by
  have hcode : ((object.code.toList ++ behind).take object.code.size).toArray = object.code := by
    rw [← Array.length_toList, List.take_left]
  simp only [readBody, Varint.decode_short_encode, Varint.decode_long_encode h, hcode, bind,
    Except.bind, Nat.lt_irrefl, if_false, UInt16.ofNat_toNat]
  rfl

/-- A stored object file is read back, whatever follows it. -/
theorem ofBytes_toBytes {object : ObjectFile} (h : object.code.size < 2 ^ 64)
    (behind : List UInt8) : ofBytes (object.toBytes ++ behind) = .ok object := by
  rw [toBytes, List.cons_append, List.cons_append, ofBytes]
  simpa only [List.append_assoc] using readBody_append h behind

theorem ofBytes_toBytes_widest :
    (Array.replicate 128 (255 : UInt8)).size < 2 ^ 64 ∧
      ofBytes ((⟨65535, 16384, Array.replicate 128 255⟩ : ObjectFile).toBytes ++ [128, 0]) =
        .ok ⟨65535, 16384, Array.replicate 128 255⟩ := by
  have hsize : (Array.replicate 128 (255 : UInt8)).size < 2 ^ 64 := by simp
  exact ⟨hsize, ofBytes_toBytes hsize [128, 0]⟩

end ObjectFile

end MicroJava
