import MicroJava.Proofs.Resolved.Simulation

/-! # Single instructions

One instruction of the machine against one operation of an evaluation. -/

namespace MicroJava.Resolved

open Exec (execute)

/-! ## Operations of the machine inside a method -/

section Operations

variable {w : World} {s : Surroundings} {pc : Nat} {limits : Limits}

@[simp] theorem size_push (v : Value) : (s.push v).stack.size = s.stack.size + 1 := by
  simp [Surroundings.push]

@[simp] theorem roomy_stack : (w.active s).roomy.stack = s.stack.size + 1 := rfl

/-- There is room for a result where an operand was. -/
theorem room_of_push (w : World) (s : Surroundings) (v : Value) :
    s.stack.size < (w.active (s.push v)).roomy.stack := by
  rw [roomy_stack, size_push]
  omega

theorem room_of_push_push (w : World) (s : Surroundings) (v v' : Value) :
    s.stack.size < (w.active ((s.push v).push v')).roomy.stack := by
  rw [roomy_stack, size_push, size_push]
  omega

@[simp] theorem pop_active (v : Value) :
    Exec.pop pc (w.active (s.push v)) = .ok v.rep (w.active s) := by
  simp [Exec.pop, World.active, World.machine, Surroundings.push]

theorem push_active {v : Value} {x : Int32} (h : s.stack.size < limits.stack) (hx : v.rep = x) :
    Exec.push limits x (w.active s) = .ok () (w.active (s.push v)) := by
  subst hx
  simp [Exec.push, World.active, World.machine, Surroundings.push, h]

theorem pushWord_active {x : Int32} (h : s.stack.size < limits.stack) :
    Exec.push limits x (w.active s) = .ok () (w.active (s.push (.word x))) :=
  push_active h rfl

theorem getLocal_active {slot : Nat} {v : Value} (h : w.frame[slot]? = some v) :
    Exec.getLocal slot pc (w.active s) = .ok v.rep (w.active s) := by
  simp [Exec.getLocal, World.active, World.machine, h]

theorem setLocal_active {slot : Nat} (v : Value) (h : slot < w.frame.size) :
    Exec.setLocal slot pc v.rep (w.active s) =
      .ok () ({ w with frame := w.frame.setIfInBounds slot v }.active s) := by
  simp [Exec.setLocal, World.active, World.machine, h, Array.map_setIfInBounds]

theorem getGlobal_active {adr : Nat} {v : Value} (h : w.globals[adr]? = some v) :
    Exec.getGlobal adr pc (w.active s) = .ok v.rep (w.active s) := by
  simp [Exec.getGlobal, World.active, World.machine, h]

theorem setGlobal_active {adr : Nat} (v : Value) (h : adr < w.globals.size) :
    Exec.setGlobal adr pc v.rep (w.active s) =
      .ok () ({ w with globals := w.globals.setIfInBounds adr v }.active s) := by
  simp [Exec.setGlobal, World.active, World.machine, h, Array.map_setIfInBounds]

theorem alloc_active (o : Obj) : Exec.alloc o.rep (w.active s) =
    .ok (Int32.ofNat (w.heap.size + 1)) ({ w with heap := w.heap.push o }.active s) := by
  simp [Exec.alloc, Heap.alloc, World.active, World.machine]

theorem onHeap_active {α : Type} {ref : Int32} {find : Heap → Except AccessError α} {a : α}
    (h : find (w.heap.map Obj.rep) = .ok a) :
    Exec.onHeap ref pc find (w.active s) = .ok a (w.active s) := by
  simp [Exec.onHeap, World.active, World.machine, Machine.noting, h]

theorem onHeap_error {α : Type} {ref : Int32} {find : Heap → Except AccessError α} {e : AccessError}
    (h : find (w.heap.map Obj.rep) = .error e) :
    Exec.onHeap ref pc find (w.active s) = .error (.access e pc) (w.active s) := by
  simp [Exec.onHeap, World.active, World.machine, Machine.noting, h]

theorem readSlot_active (slot : HeapSlot) : Exec.readSlot slot (w.active s) =
    .ok (Heap.read (w.heap.map Obj.rep) slot) (w.active s) := rfl

theorem shows_active (w : World) (s : Surroundings) : Shows (w.active s) w := ⟨rfl, rfl⟩

end Operations

/-! ## The heap -/

section HeapAccess

variable {heap : Array Obj} {i : ObjectId}

theorem field_null (heap : Array Obj) (adr : Nat) :
    Heap.field (heap.map Obj.rep) (Value.ref none).rep adr = .error .nullReference := rfl

theorem length_null (heap : Array Obj) :
    Heap.length (heap.map Obj.rep) (Value.ref none).rep = .error .nullReference := rfl

theorem element_null (heap : Array Obj) (index : Int32) :
    Heap.element (heap.map Obj.rep) (Value.ref none).rep index = .error .nullReference := rfl

theorem locate_some {o : Obj} (h : heap[i.val]? = some o) :
    Heap.locate (heap.map Obj.rep) (Value.ref (some i)).rep = .ok i.val :=
  locate_ref (by simpa using (Array.getElem?_eq_some_iff.1 h).1)

theorem field_some {cls : ClassId} {fields : Array Value} {adr : Nat}
    (h : heap[i.val]? = some (.record cls fields)) (hadr : adr < fields.size) :
    Heap.field (heap.map Obj.rep) (Value.ref (some i)).rep adr = .ok ⟨i.val, adr⟩ := by
  simp [Heap.field, locate_some h, h, Obj.rep, hadr, bind, Except.bind, pure, Except.pure]

theorem Obj.exists_get? {o : Obj} {n k : Nat} (hn : o.length? = some n) (hk : k < n) :
    ∃ v, o.get? k = some v := by
  cases o with
  | record => cases hn
  | cells | chars =>
      cases hn
      simp [Obj.get?, hk]

theorem length_some {o : Obj} {n : Nat} (h : heap[i.val]? = some o) (hn : o.length? = some n) :
    Heap.length (heap.map Obj.rep) (Value.ref (some i)).rep = .ok n := by
  cases o with
  | record => cases hn
  | cells | chars =>
      cases hn
      simp [Heap.length, locate_some h, h, Obj.rep, bind, Except.bind, pure, Except.pure]

theorem element_some {o : Obj} {n : Nat} {index : Int32} (h : heap[i.val]? = some o)
    (hn : o.length? = some n) :
    Heap.element (heap.map Obj.rep) (Value.ref (some i)).rep index =
      if 0 ≤ index ∧ index.toInt.toNat < n then .ok ⟨i.val, index.toInt.toNat⟩
      else .error (.outOfBounds index n) := by
  simp only [Heap.element, locate_some h, length_some h hn, bind, Except.bind]
  rfl

theorem read_field {cls : ClassId} {fields : Array Value} {adr : Nat} {v : Value}
    (h : heap[i.val]? = some (.record cls fields)) (hv : fields[adr]? = some v) :
    Heap.read (heap.map Obj.rep) ⟨i.val, adr⟩ = v.rep := by
  simp [Heap.read, h, Obj.rep, HeapObject.read, hv]

theorem read_element {o : Obj} {k : Nat} {v : Value} (h : heap[i.val]? = some o)
    (hv : o.get? k = some v) : Heap.read (heap.map Obj.rep) ⟨i.val, k⟩ = v.rep := by
  cases o with
  | record => cases hv
  | cells elem elems =>
      change elems[k]? = some v at hv
      simp [Heap.read, h, Obj.rep, HeapObject.read, hv]
  | chars elems =>
      obtain ⟨b, hb, rfl⟩ := Option.map_eq_some_iff.1 hv
      simp [Heap.read, h, Obj.rep, HeapObject.read, hb]

/-- Replacing an object on the machine and in the world. -/
theorem write_some {o o' : Obj} {k : Nat} {v : Value} (h : heap[i.val]? = some o)
    (ho : o.rep.write k v.rep = o'.rep) :
    Heap.write (heap.map Obj.rep) ⟨i.val, k⟩ v.rep =
      (heap.setIfInBounds i.val o').map Obj.rep := by
  obtain ⟨hlt, rfl⟩ := Array.getElem?_eq_some_iff.1 h
  change (heap.map Obj.rep).modify i.val (fun o => o.write k v.rep) = _
  refine Array.ext ?_ fun j hj₁ hj₂ => ?_
  · rw [Array.size_modify, Array.size_map, Array.size_map, Array.size_setIfInBounds]
  rw [Array.getElem_modify, Array.getElem_map, Array.getElem_map]
  split
  · next hij =>
      subst hij
      simpa using ho
  · next hij =>
      rw [Array.size_map, Array.size_setIfInBounds] at hj₂
      rw [Array.getElem_setIfInBounds_ne hj₂ hij]

theorem write_field (cls : ClassId) (fields : Array Value) (adr : Nat) (v : Value) :
    (Obj.record cls fields).rep.write adr v.rep =
      (Obj.record cls (fields.setIfInBounds adr v)).rep := by
  simp [Obj.rep, HeapObject.write, Array.map_setIfInBounds]

theorem write_element {o o' : Obj} {k : Nat} {v : Value} (h : o.put k v = some o') :
    o.rep.write k v.rep = o'.rep := by
  cases o with
  | record => cases h
  | cells elem elems =>
      cases h
      simp [Obj.rep, HeapObject.write, Array.map_setIfInBounds]
  | chars elems =>
      cases v with
      | ref => cases h
      | word x =>
          cases h
          simp [Obj.rep, HeapObject.write, charByte_eq]

end HeapAccess

/-! ## Following references -/

theorem dereference_cases (v : Value) (w : World) :
    Eval.dereference v w = .error .stuck w ∨
    (v = .ref none ∧ Eval.dereference v w = .error (.failure .nullReference) w) ∨
    ∃ i o, v = .ref (some i) ∧ w.heap[i.val]? = some o ∧
      Eval.dereference v w = .ok (i.val, o) w := by
  match v with
  | .word _ => exact .inl rfl
  | .ref none => exact .inr (.inl ⟨rfl, rfl⟩)
  | .ref (some i) =>
      have hget : Eval.dereference (.ref (some i)) w =
          (do return (i.val, ← Eval.orStuck w.heap[i.val]?) : Eval (Nat × Obj)) w := rfl
      rw [hget]
      cases h : w.heap[i.val]? with
      | none => exact .inl rfl
      | some o => exact .inr (.inr ⟨i, o, rfl, h, rfl⟩)

theorem position_ok {k : Int32} {n : Nat} (h : 0 ≤ k ∧ k.toInt.toNat < n) (w : World) :
    Eval.position k n w = .ok k.toInt.toNat w := by
  have hle : 0 ≤ k.toInt := Int32.le_iff_toInt_le.1 h.1
  rw [Eval.position, if_pos ⟨hle, by omega⟩]
  rfl

theorem position_error {k : Int32} {n : Nat} (h : ¬(0 ≤ k ∧ k.toInt.toNat < n)) (w : World) :
    Eval.position k n w = .error (.failure (.outOfBounds k n)) w := by
  rw [Eval.position, if_neg fun hk => h ⟨Int32.le_iff_toInt_le.2 hk.1, by omega⟩]
  rfl

/-- How the record of a field is found. -/
theorem field_cases {α : Type} (ref : Value) (w : World)
    (f : Nat → ClassId → Array Value → Eval α) :
    let act : Eval α := do
      match ← Eval.dereference ref with
      | (i, .record cls fields) => f i cls fields
      | _ => Eval.stuck
    act w = .error .stuck w ∨
    (ref = .ref none ∧ act w = .error (.failure .nullReference) w) ∨
    ∃ (i : ObjectId) (cls : ClassId) (fields : Array Value), ref = .ref (some i) ∧
      w.heap[i.val]? = some (.record cls fields) ∧ act w = f i.val cls fields w := by
  intro act
  rcases dereference_cases ref w with hd | ⟨rfl, hd⟩ | ⟨i, o, rfl, ho, hd⟩
  · exact .inl (bind_error hd)
  · exact .inr (.inl ⟨rfl, bind_error hd⟩)
  · have hact := bind_ok (f := fun x : Nat × Obj => (match x with
      | (i, .record cls fields) => f i cls fields
      | _ => Eval.stuck : Eval α)) hd
    cases o with
    | cells | chars => exact .inl hact
    | record cls fields => exact .inr (.inr ⟨i, cls, fields, rfl, ho, hact⟩)

/-- How an element is found: the machine fails where the world does. -/
theorem element_cases {α : Type} (array : Value) (k : Int32) (w : World)
    (f : Nat → Obj → Nat → Eval α) :
    let act : Eval α := do
      let (i, o) ← Eval.dereference array
      let length ← Eval.orStuck o.length?
      let p ← Eval.position k length
      f i o p
    act w = .error .stuck w ∨
    (∃ (failure : Failure) (e : AccessError), (∀ pc, failure.fault pc = .access e pc) ∧
      act w = .error (.failure failure) w ∧
      Heap.element (w.heap.map Obj.rep) array.rep k = .error e) ∨
    ∃ (i : ObjectId) (o : Obj) (p : Nat), w.heap[i.val]? = some o ∧ (∃ v, o.get? p = some v) ∧
      Heap.element (w.heap.map Obj.rep) array.rep k = .ok ⟨i.val, p⟩ ∧ act w = f i.val o p w := by
  intro act
  rcases dereference_cases array w with hd | ⟨rfl, hd⟩ | ⟨i, o, rfl, ho, hd⟩
  · exact .inl (bind_error hd)
  · exact .inr (.inl ⟨.nullReference, .nullReference, fun _ => rfl, bind_error hd,
      element_null w.heap k⟩)
  · have hact := bind_ok (f := fun x : Nat × Obj => (do
      let length ← Eval.orStuck x.2.length?
      let p ← Eval.position k length
      f x.1 x.2 p : Eval α)) hd
    cases hn : o.length? with
    | none =>
        dsimp only at hact
        rw [hn] at hact
        exact .inl hact
    | some n =>
        dsimp only at hact
        rw [hn, bind_ok (show Eval.orStuck (some n) w = .ok n w from rfl)] at hact
        by_cases hk : 0 ≤ k ∧ k.toInt.toNat < n
        · rw [bind_ok (position_ok hk w)] at hact
          exact .inr (.inr ⟨i, o, k.toInt.toNat, ho, Obj.exists_get? hn hk.2,
            (element_some ho hn).trans (if_pos hk), hact⟩)
        · rw [bind_error (position_error hk w)] at hact
          exact .inr (.inl ⟨.outOfBounds k n, .outOfBounds k n, fun _ => rfl, hact,
            (element_some ho hn).trans (if_neg hk)⟩)

namespace Simulates

variable {α : Type} {object : ObjectFile} {fuel pc pc' : Nat} {i : Instruction}
  {is : List Instruction} {m m' : Machine} {post : α → World → Config → Prop} {a : α} {w : World}

/-- An instruction that goes on. -/
theorem instruction (hc : CodeAt object pc (i :: is)) (hv : m.visits = #[]) (hb : m.Balanced)
    (he : execute m.roomy pc (pc + i.size) i m = .ok (.goto pc') m')
    (hp : post a w ⟨pc', m'⟩) : Simulates object fuel ⟨pc, m⟩ post (.ok a w) :=
  ⟨1, _, .single hb ((hc.advance_eq hv).trans he), hp⟩

/-- An instruction that fails. -/
theorem failure {f : Failure} (hc : CodeAt object pc (i :: is)) (hv : m.visits = #[])
    (hb : m.Balanced) (he : execute m.roomy pc (pc + i.size) i m = .error (f.fault pc) m')
    (hm : Shows m' w) : Simulates object fuel ⟨pc, m⟩ post (.error (.failure f) w) :=
  ⟨0, pc, m, m', .refl _, hb, (hc.advance_eq hv).trans he, hm⟩

end Simulates

/-! ## Places -/

/-- The values that a place has on the stack. -/
def Slot.operands : Slot → List Value
  | .frame _ | .global _ => []
  | .field object _ => [object]
  | .element array index => [array, index]

/-- A place that a location can turn out to be. -/
inductive Slot.Fits : Location → Slot → Prop
  | frame (slot : Nat) : Fits (.frame slot) (.frame slot)
  | global (adr : Nat) : Fits (.global adr) (.global adr)
  | field (e : Expr) (object : Value) (adr : Nat) : Fits (.field e adr) (.field object adr)
  | element (e i : Expr) (elem : Ty) (array index : Value) :
      Fits (.element e i elem) (.element array index)

section Places

variable {object : ObjectFile} {fuel pc : Nat} {is : List Instruction} {w : World}
  {s : Surroundings}

theorem Slot.read_simulated_frame (hw : w.Sized) (hs : s.Even) {slot : Nat}
    (hc : CodeAt object pc ((Location.frame slot).fetch :: is)) :
    Simulates object fuel ⟨pc, w.active s⟩
      (fun v w' c' => w' = w ∧ c' = ⟨pc + (Location.frame slot).fetch.size, w.active (s.push v)⟩)
      ((Slot.frame slot).read w) := by
  change Simulates _ _ _ _ ((Eval.orStuck w.frame[slot]? : Eval Value) w)
  cases h : w.frame[slot]? with
  | none => trivial
  | some v =>
      have hlt := (Array.getElem?_eq_some_iff.1 h).1
      refine .instruction hc rfl (w.active_balanced hs) ?_ ⟨rfl, rfl⟩
      simp only [Location.fetch, execute]
      rw [toNat_slotOf (Nat.le_trans (Nat.le_of_lt hlt) hw.frame), bind_ok (getLocal_active h),
        bind_ok (push_active (Nat.lt_succ_self _) rfl)]
      rfl

theorem Slot.read_simulated_global (hw : w.Sized) (hs : s.Even) {adr : Nat}
    (hc : CodeAt object pc ((Location.global adr).fetch :: is)) :
    Simulates object fuel ⟨pc, w.active s⟩
      (fun v w' c' => w' = w ∧ c' = ⟨pc + (Location.global adr).fetch.size, w.active (s.push v)⟩)
      ((Slot.global adr).read w) := by
  change Simulates _ _ _ _ ((Eval.orStuck w.globals[adr]? : Eval Value) w)
  cases h : w.globals[adr]? with
  | none => trivial
  | some v =>
      have hlt := (Array.getElem?_eq_some_iff.1 h).1
      refine .instruction hc rfl (w.active_balanced hs) ?_ ⟨rfl, rfl⟩
      simp only [Location.fetch, execute]
      rw [toNat_addressOf (Nat.le_trans (Nat.le_of_lt hlt) hw.globals),
        bind_ok (getGlobal_active h), bind_ok (push_active (Nat.lt_succ_self _) rfl)]
      rfl

theorem Slot.read_simulated_field (hw : w.Sized) (hs : s.Even) (e : Expr) {adr : Nat}
    (hc : CodeAt object pc ((Location.field e adr).fetch :: is)) (ref : Value) :
    Simulates object fuel ⟨pc, w.active (s.push ref)⟩
      (fun v w' c' => w' = w ∧ c' = ⟨pc + (Location.field e adr).fetch.size, w.active (s.push v)⟩)
      ((Slot.field ref adr).read w) := by
  rcases field_cases ref w (fun _ _ fields => Eval.orStuck fields[adr]?) with
    hread | ⟨rfl, hread⟩ | ⟨i, cls, fields, rfl, ho, hread⟩
  · rw [show (Slot.field ref adr).read w = _ from hread]
    trivial
  · rw [show (Slot.field (.ref none) adr).read w = _ from hread]
    refine .failure hc rfl (w.active_balanced hs) ?_ (shows_active w s)
    simp only [Location.fetch, execute]
    rw [bind_ok (pop_active _), bind_error (onHeap_error (field_null w.heap _))]
    rfl
  · rw [show (Slot.field (.ref (some i)) adr).read w = Eval.orStuck fields[adr]? w from hread]
    cases h : fields[adr]? with
    | none => trivial
    | some v =>
        have hlt := (Array.getElem?_eq_some_iff.1 h).1
        refine .instruction hc rfl (w.active_balanced hs) ?_ ⟨rfl, rfl⟩
        simp only [Location.fetch, execute]
        rw [toNat_addressOf (Nat.le_trans (Nat.le_of_lt hlt) (hw.records _ _ _ ho)),
          bind_ok (pop_active _), bind_ok (onHeap_active (field_some ho hlt)),
          bind_ok (readSlot_active _),
          bind_ok (push_active (room_of_push w s _) (read_field ho h).symm)]
        rfl

theorem Slot.read_simulated_element (hs : s.Even) (e i : Expr) (elem : Ty)
    (hc : CodeAt object pc ((Location.element e i elem).fetch :: is)) (array index : Value) :
    Simulates object fuel ⟨pc, w.active ((s.push array).push index)⟩
      (fun v w' c' => w' = w ∧
        c' = ⟨pc + (Location.element e i elem).fetch.size, w.active (s.push v)⟩)
      ((Slot.element array index).read w) := by
  cases index with
  | ref => trivial
  | word k =>
  rcases element_cases array k w (fun _ o p => Eval.orStuck (o.get? p)) with
    hread | ⟨f, err, hfault, hread, herr⟩ | ⟨i, o, p, ho, ⟨v, hv⟩, hfound, hread⟩
  · rw [show (Slot.element array (.word k)).read w = _ from hread]
    trivial
  · rw [show (Slot.element array (.word k)).read w = _ from hread]
    refine .failure hc rfl (w.active_balanced hs) ?_ (shows_active w s)
    simp only [Location.fetch, execute]
    rw [hfault, bind_ok (pop_active _), bind_ok (pop_active _),
      bind_error (onHeap_error herr)]
  · rw [show (Slot.element array (.word k)).read w = Eval.orStuck (o.get? p) w from hread, hv]
    refine .instruction hc rfl (w.active_balanced hs) ?_ ⟨rfl, rfl⟩
    simp only [Location.fetch, execute]
    rw [bind_ok (pop_active _), bind_ok (pop_active _), bind_ok (onHeap_active hfound),
      bind_ok (readSlot_active _),
      bind_ok (push_active (room_of_push_push w s _ _) (read_element ho hv).symm)]
    rfl

/-- Reading a place is the instruction that fetches from its location. -/
theorem Slot.read_simulated {loc : Location} {slot : Slot} (hf : Fits loc slot) (hw : w.Sized)
    (hs : s.Even) (hc : CodeAt object pc (loc.fetch :: is)) :
    Simulates object fuel ⟨pc, w.active (s.pushAll slot.operands)⟩
      (fun v w' c' => w' = w ∧ c' = ⟨pc + loc.fetch.size, w.active (s.push v)⟩) (slot.read w) := by
  cases hf with
  | frame slot => exact read_simulated_frame hw hs hc
  | global adr => exact read_simulated_global hw hs hc
  | field e ref adr => exact read_simulated_field hw hs e hc ref
  | element e i elem array index => exact read_simulated_element hs e i elem hc array index

theorem writeSlot_active {i : ObjectId} {o o' : Obj} {k : Nat} {v : Value}
    (h : w.heap[i.val]? = some o) (ho : o.rep.write k v.rep = o'.rep) :
    Exec.writeSlot ⟨i.val, k⟩ v.rep (w.active s) =
      .ok () ({ w with heap := w.heap.setIfInBounds i.val o' }.active s) := by
  change EStateM.Result.ok () { w.active s with
    heap := Heap.write (w.heap.map Obj.rep) ⟨i.val, k⟩ v.rep } = _
  rw [write_some h ho]
  rfl

/-- An object is replaced by one with as many fields. -/
theorem World.Sized.replace (hw : w.Sized) {i : Nat} {o' : Obj}
    (h : ∀ cls fields, o' = .record cls fields → fields.size ≤ maxFields) :
    { w with heap := w.heap.setIfInBounds i o' }.Sized := by
  refine ⟨hw.frame, hw.globals, fun j cls fields hj => ?_⟩
  simp only [Array.getElem?_setIfInBounds] at hj
  split at hj
  · split at hj
    · exact h cls fields (Option.some.inj hj)
    · cases hj
  · exact hw.records j cls fields hj

theorem Obj.put_ne_record {o o' : Obj} {k : Nat} {v : Value} (h : o.put k v = some o')
    (cls : ClassId) (fields : Array Value) : o' ≠ .record cls fields := by
  cases o with
  | record => cases h
  | cells =>
      cases h
      simp
  | chars =>
      cases v with
      | ref => cases h
      | word =>
          cases h
          simp

theorem Slot.write_simulated_frame (hw : w.Sized) (hs : s.Even) {slot : Nat}
    (hc : CodeAt object pc ((Location.frame slot).store :: is)) (v : Value) :
    Simulates object fuel ⟨pc, w.active (s.push v)⟩
      (fun _ w' c' => w'.Sized ∧ c' = ⟨pc + (Location.frame slot).store.size, w'.active s⟩)
      ((Slot.frame slot).write v w) := by
  change Simulates _ _ _ _ ((if slot < w.frame.size then
    modify fun w => { w with frame := w.frame.setIfInBounds slot v } else Eval.stuck) w)
  split
  · next hlt =>
      refine .instruction hc rfl (w.active_balanced hs) ?_
        ⟨⟨by simpa using hw.frame, hw.globals, hw.records⟩, rfl⟩
      simp only [Location.store, execute]
      rw [toNat_slotOf (Nat.le_trans (Nat.le_of_lt hlt) hw.frame), bind_ok (pop_active _),
        bind_ok (setLocal_active v hlt)]
      rfl
  · trivial

theorem Slot.write_simulated_global (hw : w.Sized) (hs : s.Even) {adr : Nat}
    (hc : CodeAt object pc ((Location.global adr).store :: is)) (v : Value) :
    Simulates object fuel ⟨pc, w.active (s.push v)⟩
      (fun _ w' c' => w'.Sized ∧ c' = ⟨pc + (Location.global adr).store.size, w'.active s⟩)
      ((Slot.global adr).write v w) := by
  change Simulates _ _ _ _ ((if adr < w.globals.size then
    modify fun w => { w with globals := w.globals.setIfInBounds adr v } else Eval.stuck) w)
  split
  · next hlt =>
      refine .instruction hc rfl (w.active_balanced hs) ?_
        ⟨⟨hw.frame, by simpa using hw.globals, hw.records⟩, rfl⟩
      simp only [Location.store, execute]
      rw [toNat_addressOf (Nat.le_trans (Nat.le_of_lt hlt) hw.globals), bind_ok (pop_active _),
        bind_ok (setGlobal_active v hlt)]
      rfl
  · trivial

theorem Slot.write_simulated_field (hw : w.Sized) (hs : s.Even) (e : Expr) {adr : Nat}
    (hc : CodeAt object pc ((Location.field e adr).store :: is)) (ref : Value) (v : Value) :
    Simulates object fuel ⟨pc, w.active ((s.push ref).push v)⟩
      (fun _ w' c' => w'.Sized ∧ c' = ⟨pc + (Location.field e adr).store.size, w'.active s⟩)
      ((Slot.field ref adr).write v w) := by
  rcases field_cases ref w (fun i cls fields =>
    if adr < fields.size then Eval.replace i (.record cls (fields.setIfInBounds adr v))
    else Eval.stuck) with hwrite | ⟨rfl, hwrite⟩ | ⟨i, cls, fields, rfl, ho, hwrite⟩
  · rw [show (Slot.field ref adr).write v w = _ from hwrite]
    trivial
  · rw [show (Slot.field (.ref none) adr).write v w = _ from hwrite]
    refine .failure hc rfl (w.active_balanced hs) ?_ (shows_active w s)
    simp only [Location.store, execute]
    rw [bind_ok (pop_active _), bind_ok (pop_active _),
      bind_error (onHeap_error (field_null w.heap _))]
    rfl
  · rw [show (Slot.field (.ref (some i)) adr).write v w = (if adr < fields.size then
      Eval.replace i (.record cls (fields.setIfInBounds adr v)) else Eval.stuck) w from hwrite]
    split
    · next hlt =>
        have hsize := hw.records _ _ _ ho
        refine .instruction hc rfl (w.active_balanced hs) ?_ ⟨hw.replace ?_, rfl⟩
        · simp only [Location.store, execute]
          rw [toNat_addressOf (Nat.le_trans (Nat.le_of_lt hlt) hsize),
            bind_ok (pop_active _), bind_ok (pop_active _),
            bind_ok (onHeap_active (field_some ho hlt)),
            bind_ok (writeSlot_active ho (write_field cls fields adr v))]
          rfl
        · intro cls' fields' h
          cases h
          simpa using hsize
    · trivial

theorem Slot.write_simulated_element (hw : w.Sized) (hs : s.Even) (e i : Expr) (elem : Ty)
    (hc : CodeAt object pc ((Location.element e i elem).store :: is)) (array index v : Value) :
    Simulates object fuel ⟨pc, w.active (((s.push array).push index).push v)⟩
      (fun _ w' c' => w'.Sized ∧ c' = ⟨pc + (Location.element e i elem).store.size, w'.active s⟩)
      ((Slot.element array index).write v w) := by
  cases index with
  | ref => trivial
  | word k =>
  rcases element_cases array k w (fun i o p => do Eval.replace i (← Eval.orStuck (o.put p v)))
    with hwrite | ⟨f, err, hfault, hwrite, herr⟩ | ⟨i, o, p, ho, -, hfound, hwrite⟩
  · rw [show (Slot.element array (.word k)).write v w = _ from hwrite]
    trivial
  · rw [show (Slot.element array (.word k)).write v w = _ from hwrite]
    refine .failure hc rfl (w.active_balanced hs) ?_ (shows_active w s)
    simp only [Location.store, execute]
    rw [hfault, bind_ok (pop_active _), bind_ok (pop_active _), bind_ok (pop_active _),
      bind_error (onHeap_error herr)]
  · rw [show (Slot.element array (.word k)).write v w =
      (do Eval.replace i (← Eval.orStuck (o.put p v)) : Eval Unit) w from hwrite]
    cases hput : o.put p v with
    | none => trivial
    | some o' =>
        refine .instruction hc rfl (w.active_balanced hs) ?_ ⟨hw.replace ?_, rfl⟩
        · simp only [Location.store, execute]
          rw [bind_ok (pop_active _), bind_ok (pop_active _), bind_ok (pop_active _),
            bind_ok (onHeap_active hfound),
            bind_ok (writeSlot_active ho (write_element hput))]
          rfl
        · exact fun cls fields h => absurd h (Obj.put_ne_record hput cls fields)

/-- Writing to a place is the instruction that stores into its location. -/
theorem Slot.write_simulated {loc : Location} {slot : Slot} (hf : Fits loc slot) (hw : w.Sized)
    (hs : s.Even) (hc : CodeAt object pc (loc.store :: is)) (v : Value) :
    Simulates object fuel ⟨pc, w.active ((s.pushAll slot.operands).push v)⟩
      (fun _ w' c' => w'.Sized ∧ c' = ⟨pc + loc.store.size, w'.active s⟩) (slot.write v w) := by
  cases hf with
  | frame slot => exact write_simulated_frame hw hs hc v
  | global adr => exact write_simulated_global hw hs hc v
  | field e ref adr => exact write_simulated_field hw hs e hc ref v
  | element e i elem array index => exact write_simulated_element hw hs e i elem hc array index v

end Places

end MicroJava.Resolved
