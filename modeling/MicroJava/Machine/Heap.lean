/-! # The heap

Objects and arrays. A reference is the place of its object plus one, and zero refers to nothing.
Objects are never moved, resized or freed. -/

namespace MicroJava

inductive HeapObject where
  /-- An object with its fields. -/
  | record (fields : Array Int32)
  | words (elems : Array Int32)
  | bytes (elems : Array UInt8)
  deriving DecidableEq, Repr, Inhabited

namespace HeapObject

/-- Number of fields or elements. -/
def size : HeapObject → Nat
  | record fields => fields.size
  | words elems => elems.size
  | bytes elems => elems.size

def read (o : HeapObject) (i : Nat) : Int32 :=
  match o with
  | record fields => fields.getD i 0
  | words elems => elems.getD i 0
  | bytes elems => Int32.ofNat (elems.getD i 0).toNat

/-- A byte keeps the low eight bits of the value. -/
def write (o : HeapObject) (i : Nat) (value : Int32) : HeapObject :=
  match o with
  | record fields => record (fields.setIfInBounds i value)
  | words elems => words (elems.setIfInBounds i value)
  | bytes elems => bytes (elems.setIfInBounds i value.toUInt32.toUInt8)

end HeapObject

/-- Why a reference cannot be followed. -/
inductive AccessError where
  | nullReference
  /-- There is no object, or not one of the kind wanted. -/
  | wrongObject
  | noField (adr : Nat)
  | outOfBounds (index : Int32) (length : Nat)
  deriving DecidableEq, Repr

abbrev Heap := Array HeapObject

/-- A field or element on the heap. -/
structure HeapSlot where
  object : Nat
  offset : Nat
  deriving DecidableEq, Repr

namespace Heap

/-- A fresh object and its reference. -/
def alloc (h : Heap) (o : HeapObject) : Int32 × Heap := (Int32.ofNat (h.size + 1), h.push o)

/-- The place of the object that a reference points to. The subtraction wraps around at the least
word. -/
def locate (h : Heap) (ref : Int32) : Except AccessError Nat :=
  if ref = 0 then .error .nullReference
  else
    let place := ref - 1
    if 0 ≤ place ∧ place.toInt.toNat < h.size then .ok place.toInt.toNat
    else .error .wrongObject

/-- The slot of a field. -/
def field (h : Heap) (ref : Int32) (adr : Nat) : Except AccessError HeapSlot := do
  let i ← h.locate ref
  match h[i]? with
  | some (.record fields) =>
      if adr < fields.size then return ⟨i, adr⟩ else throw (.noField adr)
  | _ => throw .wrongObject

/-- The length of an array. -/
def length (h : Heap) (ref : Int32) : Except AccessError Nat := do
  let i ← h.locate ref
  match h[i]? with
  | some (.words elems) => return elems.size
  | some (.bytes elems) => return elems.size
  | _ => throw .wrongObject

/-- The slot of an array element. -/
def element (h : Heap) (ref index : Int32) : Except AccessError HeapSlot := do
  let i ← h.locate ref
  let n ← h.length ref
  if 0 ≤ index ∧ index.toInt.toNat < n then return ⟨i, index.toInt.toNat⟩
  else throw (.outOfBounds index n)

def read (h : Heap) (slot : HeapSlot) : Int32 := (h.getD slot.object default).read slot.offset

def write (h : Heap) (slot : HeapSlot) (value : Int32) : Heap :=
  h.modify slot.object fun o => o.write slot.offset value

end Heap

end MicroJava
