import MicroJava.ObjectFile
import MicroJava.ObjectFile.Varint

/-! # Stored object files

The two magic bytes, then data size, entry address and code length as numbers of variable length,
then the code. What stands behind the code is ignored. -/

namespace MicroJava

def FormatError.text : FormatError → String
  | badMagic => "not an object file (bad magic)"
  | endOfData => "corrupt object file: Hit the end of buffer, expected more data"
  | badVarint =>
      "corrupt object file: Found a varint that didn't terminate. Is the usize too big for this platform?"

namespace ObjectFile

def toBytes (object : ObjectFile) : List UInt8 :=
  77 :: 74 :: (Varint.encode object.dataSize.toNat ++ Varint.encode object.mainPc.toNat ++
    Varint.encode object.code.size ++ object.code.toList)

/-- Reads what stands behind the magic bytes. -/
def readBody (bytes : List UInt8) : Except FormatError ObjectFile := do
  let (dataSize, rest) ← Varint.decode Varint.short bytes
  let (mainPc, rest) ← Varint.decode Varint.short rest
  let (length, rest) ← Varint.decode Varint.long rest
  let code := (rest.take length).toArray
  if code.size < length then throw .endOfData
  return { dataSize := UInt16.ofNat dataSize, mainPc := UInt16.ofNat mainPc, code }

def ofBytes : List UInt8 → Except FormatError ObjectFile
  | 77 :: 74 :: body => readBody body
  | _ => .error .badMagic

end ObjectFile

end MicroJava
