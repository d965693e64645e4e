/-! # Big-endian immediates

Addresses take two bytes and words four, most significant byte first. -/

namespace MicroJava.BigEndian

/-- The two bytes of an address. -/
def ofAddress (a : UInt16) : List UInt8 :=
  [UInt8.ofNat (a.toNat / 256), UInt8.ofNat (a.toNat % 256)]

def toAddress (high low : UInt8) : UInt16 :=
  UInt16.ofNat (high.toNat * 256 + low.toNat)

/-- The four bytes of a word in two's complement. -/
def ofWord (w : Int32) : List UInt8 :=
  let n := w.toUInt32.toNat
  [UInt8.ofNat (n / 16777216), UInt8.ofNat (n / 65536 % 256),
    UInt8.ofNat (n / 256 % 256), UInt8.ofNat (n % 256)]

def toWord (a b c d : UInt8) : Int32 :=
  (UInt32.ofNat (((a.toNat * 256 + b.toNat) * 256 + c.toNat) * 256 + d.toNat)).toInt32

@[simp] theorem length_ofAddress (a : UInt16) : (ofAddress a).length = 2 := rfl

@[simp] theorem length_ofWord (w : Int32) : (ofWord w).length = 4 := rfl

theorem toAddress_ofAddress (a : UInt16) :
    toAddress (UInt8.ofNat (a.toNat / 256)) (UInt8.ofNat (a.toNat % 256)) = a := by
  have h := a.toNat_lt
  apply UInt16.toNat_inj.1
  simp only [toAddress, UInt16.toNat_ofNat', UInt8.toNat_ofNat']
  omega

end MicroJava.BigEndian
