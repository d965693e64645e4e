import MicroJava.Proofs.Machine.Confinement

/-! # Array elements

A store changes one element of one array. A load there yields the stored value as far as the element
can hold it: a word holds any value, an element of a character array one byte. Every other load, of
elements, fields and lengths, yields what it did. -/

namespace MicroJava

namespace HeapObject

/-- What an element of the array keeps of a value. -/
def kept : HeapObject → Int32 → Int32
  | record _, value | words _, value => value
  | bytes _, value => Int32.ofInt (value.toInt % 256)

/-- The elements of the array can hold the value. -/
def Holds : HeapObject → Int32 → Prop
  | record _, _ => False
  | words _, _ => True
  | bytes _, value => 0 ≤ value.toInt ∧ value.toInt < 256

theorem kept_of_holds {o : HeapObject} {value : Int32} (h : o.Holds value) : o.kept value = value := by
  cases o with
  | record fields => exact h.elim
  | words elems => rfl
  | bytes elems => rw [kept, Int.emod_eq_of_lt h.1 h.2, Int32.ofInt_toInt]

/-- The low byte of a word, as a number. -/
theorem ofNat_lowByte (value : Int32) :
    Int32.ofNat value.toUInt32.toUInt8.toNat = Int32.ofInt (value.toInt % 256) := by
  have hbyte : (value.toUInt32.toUInt8.toNat : Int) = value.toInt % 256 := by
    have hsigned : value.toInt = value.toBitVec.toInt := rfl
    have hbits : value.toUInt32.toUInt8.toNat = value.toBitVec.toNat % 256 := UInt32.toNat_toUInt8 _
    rw [hbits, hsigned, BitVec.toInt_eq_toNat_cond]
    split <;> omega
  rw [← hbyte]
  rfl

theorem read_write_self {o : HeapObject} {i : Nat} (hi : i < o.size) (value : Int32) :
    (o.write i value).read i = o.kept value := by
  cases o with
  | record fields | words elems => simp_all [size, write, read, kept]
  | bytes elems =>
      rw [kept, ← ofNat_lowByte]
      simp_all [size, write, read]

theorem read_write_ne {o : HeapObject} {i j : Nat} (hij : j ≠ i) (value : Int32) :
    (o.write i value).read j = o.read j := by
  cases o <;> simp [write, read, Array.getElem?_setIfInBounds_ne hij.symm]

end HeapObject

namespace Heap

/-! ## Loads -/

/-- The value of an array element. -/
def loadElement (h : Heap) (ref index : Int32) : Except AccessError Int32 :=
  return h.read (← h.element ref index)

/-- The value of a field. -/
def loadField (h : Heap) (ref : Int32) (adr : Nat) : Except AccessError Int32 :=
  return h.read (← h.field ref adr)

/-- Nothing but one array element may differ. -/
structure SameBut (h h' : Heap) (ref index : Int32) : Prop where
  element : ∀ ref' index', (ref', index') ≠ (ref, index) →
    h'.loadElement ref' index' = h.loadElement ref' index'
  field : ∀ ref' adr, h'.loadField ref' adr = h.loadField ref' adr
  length : ∀ ref', h'.length ref' = h.length ref'
  object : ∀ i, h.locate ref ≠ .ok i → h'[i]? = h[i]?

variable {h : Heap} {ref index : Int32} {slot : HeapSlot}

/-- Two references to one object are the same. -/
theorem locate_inj {ref' : Int32} {i : Nat} (hi : h.locate ref = .ok i)
    (hi' : h.locate ref' = .ok i) : ref' = ref := by
  have hplace : ∀ r, h.locate r = .ok i → (r - 1).toInt = i := by
    intro r hr
    unfold locate at hr
    split at hr
    · cases hr
    · dsimp only at hr
      split at hr
      · next hlt =>
          obtain rfl := Except.ok.inj hr
          exact (Int.toNat_of_nonneg (Int32.le_iff_toInt_le.1 hlt.1)).symm
      · cases hr
  have hless : ref' - 1 = ref - 1 := Int32.toInt_inj.1 ((hplace ref' hi').trans (hplace ref hi).symm)
  rw [← Int32.sub_add_cancel ref' 1, hless, Int32.sub_add_cancel]

/-- Only arrays have a length. -/
theorem length_cases {n : Nat} (hn : h.length ref = .ok n) :
    ∃ i array, h.locate ref = .ok i ∧ h[i]? = some array ∧ array.size = n ∧
      ∀ fields, array ≠ .record fields := by
  unfold length at hn
  cases hl : h.locate ref with
  | error e =>
      rw [hl] at hn
      cases hn
  | ok i =>
      simp only [hl, bind, Except.bind, pure, Except.pure] at hn
      split at hn
      · next elems ho =>
          cases hn
          exact ⟨i, _, rfl, ho, rfl, nofun⟩
      · next elems ho =>
          cases hn
          exact ⟨i, _, rfl, ho, rfl, nofun⟩
      · cases hn

/-- An element is reached within the array that its reference points to. -/
theorem element_cases (hs : h.element ref index = .ok slot) :
    h.locate ref = .ok slot.object ∧ 0 ≤ index ∧ slot.offset = index.toInt.toNat ∧
      ∃ array, h[slot.object]? = some array ∧ slot.offset < array.size ∧
        ∀ fields, array ≠ .record fields := by
  unfold element at hs
  cases hl : h.locate ref with
  | error e =>
      rw [hl] at hs
      cases hs
  | ok i =>
      cases hn : h.length ref with
      | error e =>
          rw [hl, hn] at hs
          cases hs
      | ok n =>
          simp only [hl, hn, bind, Except.bind, pure, Except.pure] at hs
          split at hs
          · next hindex =>
              cases hs
              obtain ⟨j, array, hl', hget, rfl, hkind⟩ := length_cases hn
              cases hl.symm.trans hl'
              exact ⟨rfl, hindex.1, rfl, array, hget, hindex.2, hkind⟩
          · cases hs

/-- Fields are those of objects. -/
theorem field_cases {adr : Nat} (hs : h.field ref adr = .ok slot) :
    ∃ fields, h[slot.object]? = some (.record fields) := by
  unfold field at hs
  cases hl : h.locate ref with
  | error e =>
      rw [hl] at hs
      cases hs
  | ok i =>
      simp only [hl, bind, Except.bind, pure, Except.pure] at hs
      split at hs
      · next fields ho =>
          split at hs
          · cases hs
            exact ⟨fields, ho⟩
          · cases hs
      · cases hs

/-! ## Stores -/

section Write

variable (h : Heap) (slot : HeapSlot) (value : Int32)

theorem getElem?_write (i : Nat) : (h.write slot value)[i]? =
    if slot.object = i then h[i]?.map (·.write slot.offset value) else h[i]? :=
  Array.getElem?_modify

/-- An object is still of its kind and of its size after a store to it. -/
theorem getElem?_write_cases (i : Nat) : (h.write slot value)[i]? = h[i]? ∨
    ∃ o, h[i]? = some o ∧ (h.write slot value)[i]? = some (o.write slot.offset value) := by
  rw [getElem?_write]
  split
  · cases h[i]? with
    | none => exact .inl rfl
    | some o => exact .inr ⟨o, rfl, rfl⟩
  · exact .inl rfl

@[simp] theorem locate_write (ref : Int32) : (h.write slot value).locate ref = h.locate ref := by
  have hsize : (h.write slot value).size = h.size := Array.size_modify
  simp only [locate, hsize]

@[simp] theorem length_write (ref : Int32) : (h.write slot value).length ref = h.length ref := by
  simp only [length, locate_write]
  cases h.locate ref with
  | error e => rfl
  | ok i =>
      simp only [bind, Except.bind]
      rcases h.getElem?_write_cases slot value i with heq | ⟨o, ho, hwritten⟩
      · rw [heq]
      · rw [ho, hwritten]
        cases o <;> simp [HeapObject.write]

@[simp] theorem element_write (ref index : Int32) :
    (h.write slot value).element ref index = h.element ref index := by
  simp only [element, locate_write, length_write]

@[simp] theorem field_write (ref : Int32) (adr : Nat) :
    (h.write slot value).field ref adr = h.field ref adr := by
  simp only [field, locate_write]
  cases h.locate ref with
  | error e => rfl
  | ok i =>
      simp only [bind, Except.bind]
      rcases h.getElem?_write_cases slot value i with heq | ⟨o, ho, hwritten⟩
      · rw [heq]
      · rw [ho, hwritten]
        cases o <;> simp [HeapObject.write]

end Write

theorem read_write_ne {other : HeapSlot} (hne : other ≠ slot) (value : Int32) :
    (h.write slot value).read other = h.read other := by
  simp only [read, Array.getD_eq_getD_getElem?, getElem?_write]
  split
  · next hobject =>
      have hoffset : other.offset ≠ slot.offset := by
        intro heq
        obtain ⟨i, k⟩ := slot
        obtain ⟨j, l⟩ := other
        cases hobject
        cases heq
        exact hne rfl
      cases h[other.object]? with
      | none => rfl
      | some o => exact HeapObject.read_write_ne hoffset value
  · rfl

theorem read_write_self {array : HeapObject} (ho : h[slot.object]? = some array)
    (hi : slot.offset < array.size) (value : Int32) :
    (h.write slot value).read slot = array.kept value := by
  simp only [read, Array.getD_eq_getD_getElem?, getElem?_write, if_true, ho]
  exact HeapObject.read_write_self hi value

/-- Where a store goes to one element, nothing else differs afterwards. -/
theorem sameBut_write (hs : h.element ref index = .ok slot) (value : Int32) :
    h.SameBut (h.write slot value) ref index := by
  obtain ⟨hl, hindex, hoffset, array, ho, hlt, hkind⟩ := element_cases hs
  constructor
  · intro ref' index' hne
    simp only [loadElement, element_write]
    cases hs' : h.element ref' index' with
    | error e => rfl
    | ok other =>
        obtain ⟨hl', hindex', hoffset', -⟩ := element_cases hs'
        have hother : other ≠ slot := by
          rintro rfl
          have hplace : index'.toInt = index.toInt := by
            rw [Int32.le_iff_toInt_le] at hindex hindex'
            change 0 ≤ index.toInt at hindex
            change 0 ≤ index'.toInt at hindex'
            omega
          exact hne (Prod.ext (locate_inj hl hl') (Int32.toInt_inj.1 hplace))
        exact congrArg Except.ok (read_write_ne hother value)
  · intro ref' adr
    simp only [loadField, field_write]
    cases hs' : h.field ref' adr with
    | error e => rfl
    | ok other =>
        obtain ⟨fields, hfields⟩ := field_cases hs'
        have hother : other ≠ slot := by
          rintro rfl
          exact hkind fields (Option.some.inj (ho.symm.trans hfields))
        exact congrArg Except.ok (read_write_ne hother value)
  · exact length_write h slot value
  · intro i hi
    rw [getElem?_write, if_neg]
    rintro rfl
    exact hi hl

end Heap

/-! ## The instructions -/

namespace Exec

variable {limits : Limits} {pc next : Nat} {size : ElemSize} {m m' : Machine} {control : Control}
  {stack : Array Int32} {ref index value : Int32}

theorem pop_push {stack : Array Int32} {value : Int32} (hstack : m.stack = stack.push value) :
    pop pc m = .ok value { m with stack := stack } := by
  simp [pop, hstack]

theorem onHeap_ok {α : Type} {find : Heap → Except AccessError α} {a : α}
    (h : find m.heap = .ok a) :
    onHeap ref pc find m = .ok a (m.noting (overflows (ref.toInt - 1))) := by
  simp only [onHeap, Machine.noting, h]

theorem onHeap_error {α : Type} {find : Heap → Except AccessError α} {e : AccessError}
    (h : find m.heap = .error e) :
    onHeap ref pc find m = .error (.access e pc) (m.noting (overflows (ref.toInt - 1))) := by
  simp only [onHeap, Machine.noting, h]

/-- A store that succeeds takes its operands from the stack and writes to the element. -/
theorem storeElem_cases (hstack : m.stack = ((stack.push ref).push index).push value)
    (hstore : execute limits pc next (.storeElem size) m = .ok control m') :
    ∃ slot, m.heap.element ref index = .ok slot ∧ control = .goto next ∧
      m' = { m with stack := stack, heap := m.heap.write slot value }.noting
        (overflows (ref.toInt - 1)) := by
  simp only [execute] at hstore
  rw [bind_ok (pop_push hstack), bind_ok (pop_push rfl), bind_ok (pop_push rfl)] at hstore
  cases hs : m.heap.element ref index with
  | error e =>
      rw [bind_error (onHeap_error hs)] at hstore
      cases hstore
  | ok slot =>
      rw [bind_ok (onHeap_ok hs)] at hstore
      cases hstore
      exact ⟨slot, rfl, rfl, rfl⟩

/-- A load puts the element in the place of its operands. -/
theorem execute_loadElem (hstack : m.stack = (stack.push ref).push index)
    (hroom : stack.size < limits.stack) (hload : m.heap.loadElement ref index = .ok value) :
    execute limits pc next (.loadElem size) m = .ok (.goto next)
      ({ m with stack := stack.push value }.noting (overflows (ref.toInt - 1))) := by
  simp only [execute]
  rw [bind_ok (pop_push hstack), bind_ok (pop_push rfl)]
  cases hs : m.heap.element ref index with
  | error e =>
      rw [Heap.loadElement, hs] at hload
      cases hload
  | ok slot =>
      rw [Heap.loadElement, hs] at hload
      obtain rfl : m.heap.read slot = value := Except.ok.inj hload
      have hpush : ∀ k : Machine, k.stack = stack → push limits (m.heap.read slot) k =
          .ok () { k with stack := stack.push (m.heap.read slot) } := by
        rintro k rfl
        exact if_pos hroom
      rw [bind_ok (onHeap_ok hs)]
      exact bind_ok (hpush _ rfl)

/-- After a store that succeeds, a load there yields what was stored, if the array can hold it, and
the low byte of it in any case where the array is one of bytes. Nothing else on the heap differs,
and both do nothing else than note whether following the reference overflowed. -/
theorem loadElem_storeElem (hstack : m.stack = ((stack.push ref).push index).push value)
    (hstore : execute limits pc next (.storeElem size) m = .ok control m') :
    m' = { m with stack := stack, heap := m'.heap }.noting (overflows (ref.toInt - 1)) ∧
      m.heap.SameBut m'.heap ref index ∧
      ∃ slot array found, m.heap.element ref index = .ok slot ∧
        m.heap[slot.object]? = some array ∧ (array.Holds value → found = value) ∧
        (∀ elems, array = .bytes elems → found.toInt = value.toInt % 256) ∧
        ∀ (limits' : Limits) (pc' next' : Nat) (size' : ElemSize) (k : Machine)
          (rest : Array Int32), k.heap = m'.heap → k.stack = (rest.push ref).push index →
          rest.size < limits'.stack → execute limits' pc' next' (.loadElem size') k =
            .ok (.goto next')
              ({ k with stack := rest.push found }.noting (overflows (ref.toInt - 1))) := by
  obtain ⟨slot, hs, -, rfl⟩ := storeElem_cases hstack hstore
  obtain ⟨-, -, -, array, ho, hlt, -⟩ := Heap.element_cases hs
  refine ⟨rfl, Heap.sameBut_write hs value, slot, array, array.kept value, hs, ho,
    HeapObject.kept_of_holds, ?_, ?_⟩
  · rintro elems rfl
    rw [HeapObject.kept, Int32.toInt_ofInt_of_le] <;> omega
  · intro limits' pc' next' size' k rest hheap hrest hroom
    refine execute_loadElem hrest hroom ?_
    have hwritten : k.heap = m.heap.write slot value := hheap
    rw [hwritten, Heap.loadElement, Heap.element_write, hs]
    exact congrArg Except.ok (Heap.read_write_self ho hlt value)

/-- A record, an array of words and one of characters. -/
def stocked (stack : Array Int32) : Machine :=
  { Machine.load default with heap := #[.record #[7], .words #[1, 2], .bytes #[3]], stack := stack }

theorem loadElem_storeElem_negative :
    ∃ m', execute {} 0 1 (.storeElem .word) (stocked #[2, 1, -5]) = .ok (.goto 1) m' ∧
      m'.heap.loadElement 2 0 = .ok 1 ∧ m'.heap.loadField 1 0 = .ok 7 ∧
      execute {} 1 2 (.loadElem .word) { m' with stack := #[2, 1] } =
        .ok (.goto 2) { m' with stack := #[-5] } := by
  obtain ⟨m', hstore⟩ : ∃ m', execute {} 0 1 (.storeElem .word) (stocked #[2, 1, -5]) =
      .ok (.goto 1) m' := ⟨_, rfl⟩
  obtain ⟨-, hsame, slot, array, found, hslot, harray, hfound, -, hload⟩ :=
    @loadElem_storeElem {} 0 1 .word (stocked #[2, 1, -5]) m' (.goto 1) #[] 2 1 (-5) rfl hstore
  obtain rfl : ⟨1, 1⟩ = slot := Except.ok.inj hslot
  obtain rfl : .words #[1, 2] = array := Option.some.inj harray
  obtain rfl : found = -5 := hfound trivial
  have hsmall : overflows ((2 : Int32).toInt - 1) = false := by decide
  rw [hsmall] at hload
  refine ⟨m', hstore, ?_, ?_, ?_⟩
  · rw [hsame.element 2 0 (by decide)]
    rfl
  · rw [hsame.field 1 0]
    rfl
  · rw [hload {} 1 2 .word { m' with stack := #[2, 1] } #[] rfl rfl (by decide), Machine.noting_false]
    rfl

/-- Reads a character into an array of characters and prints it from there. -/
def mirror : ObjectFile :=
  ⟨1, 0, #[16, 32, 0, 12, 0, 0, 11, 0, 0, 15, 52, 36, 11, 0, 0, 15, 35, 15, 53, 47]⟩

/-- A character of more than one byte can be stored in an array of characters, and is another one
when it is loaded from there. -/
theorem loadElem_storeElem_euro :
    (∃ m', execute {} 0 1 (.storeElem .byte) (stocked #[3, 0, Int32.ofNat '€'.toNat]) =
        .ok (.goto 1) m' ∧
      execute {} 1 2 (.loadElem .byte) { m' with stack := #[3, 0] } =
        .ok (.goto 2) { m' with stack := #[Int32.ofNat '¬'.toNat] }) ∧
      Int32.ofNat '¬'.toNat ≠ Int32.ofNat '€'.toNat ∧
      (after (run mirror {} 20 ((Machine.load mirror).withInput "€"))).output = "¬" :=
  ⟨⟨_, rfl, rfl⟩, by decide, by decide +kernel⟩

end Exec

end MicroJava
