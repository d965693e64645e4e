/-! # Object files

A compiled program as the machine loads it. -/

namespace MicroJava

structure ObjectFile where
  /-- Number of global words. -/
  dataSize : UInt16
  /-- Entry address of `main`. -/
  mainPc : UInt16
  code : Array UInt8
  deriving DecidableEq, Repr, Inhabited

end MicroJava
