import MicroJava.Proofs.Machine.Situation

/-! # Machines keep within their limits

The code may be any bytes at all, and runs may follow each other with whatever the earlier ones left
behind, faults included. At every instruction the machine is still within its limits, and nothing
that was printed or allocated is ever taken back. -/

namespace MicroJava

/-! ## Heaps that only grow -/

/-- Objects of one kind and length. -/
inductive HeapObject.Alike : HeapObject → HeapObject → Prop
  | record {fields fields' : Array Int32} (h : fields'.size = fields.size) :
      Alike (.record fields) (.record fields')
  | words {elems elems' : Array Int32} (h : elems'.size = elems.size) :
      Alike (.words elems) (.words elems')
  | bytes {elems elems' : Array UInt8} (h : elems'.size = elems.size) :
      Alike (.bytes elems) (.bytes elems')

namespace HeapObject.Alike

theorem refl (o : HeapObject) : o.Alike o := by
  cases o with
  | record fields => exact .record rfl
  | words elems => exact .words rfl
  | bytes elems => exact .bytes rfl

theorem trans {o o' o'' : HeapObject} (h : o.Alike o') (h' : o'.Alike o'') : o.Alike o'' := by
  cases h with
  | record h => cases h' with | record h' => exact .record (h'.trans h)
  | words h => cases h' with | words h' => exact .words (h'.trans h)
  | bytes h => cases h' with | bytes h' => exact .bytes (h'.trans h)

theorem write (o : HeapObject) (i : Nat) (value : Int32) : o.Alike (o.write i value) := by
  cases o with
  | record fields => exact .record Array.size_setIfInBounds
  | words elems => exact .words Array.size_setIfInBounds
  | bytes elems => exact .bytes Array.size_setIfInBounds

end HeapObject.Alike

/-- Every object is still there, under the same reference and of the same kind and length. -/
structure Heap.Persists (h h' : Heap) : Prop where
  locate : ∀ ref i, h.locate ref = .ok i → h'.locate ref = .ok i
  alike : ∀ (i : Nat) o, h[i]? = some o → ∃ o', h'[i]? = some o' ∧ o.Alike o'

namespace Heap

/-- References depend on the size of the heap alone. -/
theorem locate_of_le {h h' : Heap} (hs : h.size ≤ h'.size) {ref : Int32} {i : Nat}
    (hi : h.locate ref = .ok i) : h'.locate ref = .ok i := by
  unfold locate at hi ⊢
  split at hi
  · cases hi
  · next hne =>
      rw [if_neg hne]
      dsimp only at hi ⊢
      split at hi
      · next hlt => rwa [if_pos ⟨hlt.1, Nat.lt_of_lt_of_le hlt.2 hs⟩]
      · cases hi

namespace Persists

theorem refl (h : Heap) : h.Persists h := ⟨fun _ _ => id, fun _ o ho => ⟨o, ho, .refl o⟩⟩

theorem trans {h h' h'' : Heap} (h₁ : h.Persists h') (h₂ : h'.Persists h'') : h.Persists h'' := by
  refine ⟨fun ref i hi => h₂.locate ref i (h₁.locate ref i hi), fun i o ho => ?_⟩
  obtain ⟨o', ho', hkind⟩ := h₁.alike i o ho
  obtain ⟨o'', ho'', hkind'⟩ := h₂.alike i o' ho'
  exact ⟨o'', ho'', hkind.trans hkind'⟩

theorem push (h : Heap) (o : HeapObject) : h.Persists (h.push o) := by
  constructor
  · intro ref i hi
    exact locate_of_le (by simp) hi
  · intro i o' ho'
    obtain ⟨hi, -⟩ := Array.getElem?_eq_some_iff.1 ho'
    refine ⟨o', ?_, .refl o'⟩
    rw [Array.getElem?_push, if_neg (Nat.ne_of_lt hi), ho']

theorem write (h : Heap) (slot : HeapSlot) (value : Int32) : h.Persists (h.write slot value) := by
  constructor
  · intro ref i hi
    exact locate_of_le (by simp [Heap.write]) hi
  · intro i o ho
    rw [Heap.write, Array.getElem?_modify, ho]
    split
    · exact ⟨_, rfl, .write o slot.offset value⟩
    · exact ⟨o, rfl, .refl o⟩

end Persists

end Heap

/-! ## Parts of a run -/

namespace Machine

/-- What was printed and allocated is still there. -/
structure Retains (m m' : Machine) : Prop where
  output : ∃ text, m'.output = m.output ++ text
  heap : m.heap.Persists m'.heap

/-- What holds of a machine from one point of a run to a later one. -/
structure Later (limits : Limits) (m m' : Machine) : Prop extends m.Retains m' where
  stack : m.stack.size ≤ limits.stack → m'.stack.size ≤ limits.stack
  calls : m.calls.size ≤ limits.callDepth → m'.calls.size ≤ limits.callDepth
  globals : m'.globals.size = m.globals.size
  visits : m'.visits.size = m.visits.size
  input : m'.input <:+ m.input

variable {limits : Limits} {m m' m'' : Machine}

theorem Retains.refl (m : Machine) : m.Retains m :=
  ⟨⟨"", String.append_empty.symm⟩, .refl m.heap⟩

theorem Retains.trans (h : m.Retains m') (h' : m'.Retains m'') : m.Retains m'' := by
  refine ⟨?_, h.heap.trans h'.heap⟩
  obtain ⟨text, ht⟩ := h.output
  obtain ⟨text', ht'⟩ := h'.output
  exact ⟨text ++ text', by rw [ht', ht, String.append_assoc]⟩

theorem Later.refl (limits : Limits) (m : Machine) : m.Later limits m :=
  ⟨.refl m, id, id, rfl, rfl, List.suffix_rfl⟩

theorem Later.trans (h : m.Later limits m') (h' : m'.Later limits m'') : m.Later limits m'' where
  toRetains := h.toRetains.trans h'.toRetains
  stack hs := h'.stack (h.stack hs)
  calls hc := h'.calls (h.calls hc)
  globals := h'.globals.trans h.globals
  visits := h'.visits.trans h.visits
  input := h'.input.trans h.input

end Machine

namespace Exec

variable {α β : Type} {limits : Limits}

/-- A part of a run that keeps to the limits. -/
class Orderly (limits : Limits) (act : Exec α) : Prop where
  later : ∀ m : Machine, m.Later limits (after (act m))

instance (a : α) : Orderly limits (pure a : Exec α) := ⟨fun m => .refl limits m⟩

instance (f : Fault) : Orderly limits (throw f : Exec α) := ⟨fun m => .refl limits m⟩

instance (act : Exec α) (f : α → Exec β) [ha : Orderly limits act]
    [hf : ∀ a, Orderly limits (f a)] : Orderly limits (act >>= f) := by
  constructor
  intro m
  have hlater := ha.later m
  cases hr : act m with
  | ok a m' =>
      rw [hr] at hlater
      rw [bind_ok hr]
      exact hlater.trans ((hf a).later m')
  | error e m' =>
      rw [hr] at hlater
      rwa [bind_error hr]

instance (act : Exec α) [Orderly limits act] : Orderly limits (discard act) :=
  inferInstanceAs (Orderly limits (act >>= fun _ => pure ()))

instance (c : Prop) [Decidable c] (act other : Exec α) [Orderly limits act]
    [Orderly limits other] : Orderly limits (if c then act else other) := by
  split <;> infer_instance

instance (value : Int32) : Orderly limits (push limits value) := by
  constructor
  intro m
  unfold push
  split
  · next hroom =>
      refine { Machine.Later.refl limits m with stack := fun _ => ?_ }
      change (m.stack.push value).size ≤ limits.stack
      rwa [Array.size_push]
  · exact .refl limits m

instance (pc : Nat) : Orderly limits (pop pc) := by
  constructor
  intro m
  unfold pop
  split
  · refine { Machine.Later.refl limits m with stack := fun hs => ?_ }
    change m.stack.pop.size ≤ limits.stack
    rw [Array.size_pop]
    exact Nat.le_trans (Nat.sub_le _ _) hs
  · exact .refl limits m

instance (slot pc : Nat) : Orderly limits (getLocal slot pc) := by
  constructor
  intro m
  unfold getLocal
  split
  · exact .refl limits m
  · split <;> exact .refl limits m

instance (slot pc : Nat) (value : Int32) : Orderly limits (setLocal slot pc value) := by
  constructor
  intro m
  unfold setLocal
  split
  · exact .refl limits m
  · split
    · exact { Machine.Later.refl limits m with }
    · exact .refl limits m

instance (adr pc : Nat) : Orderly limits (getGlobal adr pc) := by
  constructor
  intro m
  unfold getGlobal
  split <;> exact .refl limits m

instance (adr pc : Nat) (value : Int32) : Orderly limits (setGlobal adr pc value) := by
  constructor
  intro m
  unfold setGlobal
  split
  · exact { Machine.Later.refl limits m with globals := Array.size_setIfInBounds }
  · exact .refl limits m

instance (o : HeapObject) : Orderly limits (alloc o) :=
  ⟨fun m => { Machine.Later.refl limits m with heap := .push m.heap o }⟩

instance (ref : Int32) (pc : Nat) (find : Heap → Except AccessError α) :
    Orderly limits (onHeap ref pc find) := by
  constructor
  intro m
  unfold onHeap
  dsimp only
  split <;> exact { Machine.Later.refl limits m with }

instance (slot : HeapSlot) : Orderly limits (readSlot slot) := ⟨fun m => .refl limits m⟩

instance (slot : HeapSlot) (value : Int32) : Orderly limits (writeSlot slot value) :=
  ⟨fun m => { Machine.Later.refl limits m with heap := .write m.heap slot value }⟩

instance (params size pc : Nat) : Orderly limits (enter params size pc) := by
  constructor
  intro m
  unfold enter
  split
  · refine { Machine.Later.refl limits m with stack := fun hs => ?_ }
    change (m.stack.shrink (m.stack.size - params)).size ≤ limits.stack
    rw [Array.size_shrink]
    omega
  · exact { Machine.Later.refl limits m with stack := fun _ => Nat.zero_le _ }

instance (pc : Nat) : Orderly limits (exit pc) := by
  constructor
  intro m
  unfold exit
  split
  · exact .refl limits m
  · exact { Machine.Later.refl limits m with }

instance (next : Nat) : Orderly limits (call limits next) := by
  constructor
  intro m
  unfold call
  split
  · next hroom =>
      refine { Machine.Later.refl limits m with calls := fun _ => ?_ }
      change (m.calls.push next).size ≤ limits.callDepth
      rwa [Array.size_push]
  · exact .refl limits m

instance : Orderly limits back := by
  constructor
  intro m
  unfold back
  split
  · refine { Machine.Later.refl limits m with calls := fun hc => ?_ }
    change m.calls.pop.size ≤ limits.callDepth
    rw [Array.size_pop]
    exact Nat.le_trans (Nat.sub_le _ _) hc
  · exact .refl limits m

instance (pc : Nat) : Orderly limits (readChar pc) := by
  constructor
  intro m
  unfold readChar
  split
  · exact .refl limits m
  · next c rest hinput =>
      refine { Machine.Later.refl limits m with input := ?_ }
      change rest <:+ m.input
      rw [hinput]
      exact List.suffix_cons c rest

/-- Reading a number moves on in the input, with or without success. -/
theorem read_suffix (input : List Char) : (Numeral.read input).rest <:+ input := by
  have hunsigned : ∀ cs : List Char, (Numeral.unsigned cs).rest <:+ cs :=
    fun _ => List.dropWhile_suffix _
  have hblank : input.dropWhile Text.isBlank <:+ input := List.dropWhile_suffix _
  unfold Numeral.read
  split
  · next rest hminus =>
      rw [hminus] at hblank
      exact (hunsigned rest).trans ((List.suffix_cons '-' rest).trans hblank)
  · exact (hunsigned _).trans hblank

instance (pc : Nat) : Orderly limits (readNumber pc) := by
  constructor
  intro m
  have hrest := read_suffix m.input
  unfold readNumber
  dsimp only
  split <;> exact { Machine.Later.refl limits m with input := hrest }

instance (text : String) : Orderly limits (print text) :=
  ⟨fun m => { Machine.Later.refl limits m with output := ⟨text, rfl⟩ }⟩

instance (op : Arithmetic) (pc : Nat) : Orderly limits (binary limits op pc) := by
  have hvalue : ∀ value : Option Int32, Orderly limits (match value with
      | some value => push limits value
      | none => throw (.divisionByZero pc)) := by
    intro value
    split <;> infer_instance
  unfold binary
  infer_instance

instance (size : ElemSize) (pc : Nat) : Orderly limits (newArray limits size pc) := by
  unfold newArray
  cases size <;> infer_instance

instance (pc next : Nat) (i : Instruction) : Orderly limits (execute limits pc next i) := by
  have hreturn : ∀ caller : Option Nat, Orderly limits (match caller with
      | some caller => (pure (Control.goto caller) : Exec Control)
      | none => pure Control.halt) := by
    intro caller
    split <;> infer_instance
  unfold execute
  cases i <;> infer_instance

instance (limits : Limits) : Orderly limits (tick limits) := by
  constructor
  intro m
  unfold tick
  dsimp only
  split
  · split <;> exact { Machine.Later.refl limits m with }
  · exact { Machine.Later.refl limits m with }

instance (object : ObjectFile) (pc : Nat) : Orderly limits (fetch object pc) := by
  constructor
  intro m
  unfold fetch
  split
  · exact { Machine.Later.refl limits m with visits := Array.size_modify }
  · split <;> exact .refl limits m

/-- No instruction leaves the limits, whether it is carried out or faults halfway. -/
instance (object : ObjectFile) (pc : Nat) : Orderly limits (step object limits pc) := by
  unfold step
  infer_instance

end Exec

/-! ## Every situation -/

namespace Situation

/-- The machine is within its limits, and its program is the one it was loaded with. -/
structure Confined (object : ObjectFile) (limits : Limits) (s : Situation) : Prop where
  stack : s.machine.stack.size ≤ limits.stack
  calls : s.machine.calls.size ≤ limits.callDepth
  globals : s.machine.globals.size = object.dataSize.toNat
  visits : s.machine.visits.size = object.code.size
  input : ∃ pos ≤ s.text.length, s.machine.input = s.text.toList.drop pos
  code : s.object.code = object.code
  mainPc : s.object.mainPc = object.mainPc

variable {object : ObjectFile} {limits : Limits} {s s' : Situation}

theorem later_step (limits : Limits) (pc : Nat) (s : Situation) :
    s.machine.Later limits (s.step limits pc).machine :=
  (inferInstance : Exec.Orderly limits (Exec.step s.object limits pc)).later s.machine

theorem fresh_confined (object : ObjectFile) (limits : Limits) :
    (fresh object).Confined object limits where
  stack := Nat.zero_le _
  calls := Nat.zero_le _
  globals := Array.size_replicate
  visits := Array.size_replicate
  input := ⟨0, Nat.le_refl _, rfl⟩
  code := rfl
  mainPc := rfl

theorem Confined.move (h : s.Confined object limits) (hm : Move limits s s') :
    s'.Confined object limits := by
  cases hm with
  | input hs text => exact { h with input := ⟨0, Nat.zero_le _, rfl⟩ }
  | start hs => exact { h with }
  | @step pc hs =>
      have hlater := later_step limits pc s
      refine ⟨hlater.stack h.stack, hlater.calls h.calls, hlater.globals.trans h.globals,
        hlater.visits.trans h.visits, ?_, h.code, h.mainPc⟩
      -- a step reads on from wherever the input stood
      obtain ⟨pos, -, hinput⟩ := h.input
      have hsuffix : (s.step limits pc).machine.input <:+ s.text.toList := by
        refine hlater.input.trans ?_
        rw [hinput]
        exact List.drop_suffix pos _
      refine ⟨_, ?_, List.suffix_iff_eq_drop.1 hsuffix⟩
      rw [String.length_toList]
      exact Nat.sub_le _ _

theorem Move.retains (hm : Move limits s s') : s.machine.Retains s'.machine := by
  cases hm with
  | input hs text => exact { Machine.Retains.refl s.machine with }
  | start hs => exact .refl s.machine
  | @step pc hs => exact (later_step limits pc s).toRetains

theorem Reaches.confined (h : Reaches limits s s') (hs : s.Confined object limits) :
    s'.Confined object limits := by
  induction h with
  | refl => exact hs
  | tail _ hm ih => exact ih.move hm

theorem Reaches.retains (h : Reaches limits s s') : s.machine.Retains s'.machine := by
  induction h with
  | refl => exact .refl s.machine
  | tail _ hm ih => exact ih.trans hm.retains

/-- Whatever the code is and however often the machine is run, it keeps within its limits at every
instruction, and it retains what it has printed and allocated. A run of any length is made of such
moves. -/
theorem confined_of_reaches (h : Reaches limits (fresh object) s) (h' : Reaches limits s s') :
    s.Confined object limits ∧ s.machine.Retains s'.machine ∧
      (s.stage = .idle → ∀ fuel, Reaches limits s (s.run limits fuel)) :=
  ⟨h.confined (fresh_confined object limits), h'.retains, fun hs fuel => reaches_run hs fuel⟩

/-- Prints a number, allocates an array and then adds with nothing but the array on the stack. -/
def unbalanced : ObjectFile := ⟨1, 0, #[16, 15, 51, 18, 32, 1, 23, 255]⟩

theorem confined_of_reaches_unbalanced :
    ((fresh unbalanced).run {} 9).Confined unbalanced {} ∧
      ((fresh unbalanced).run {} 9).machine.Retains
        (((fresh unbalanced).run {} 9).run {} 9).machine ∧
      ((fresh unbalanced).run {} 9).machine.heap = #[.words #[0, 0, 0]] ∧
      (((fresh unbalanced).run {} 9).run {} 9).machine.output = "11" := by
  have hfirst : Reaches {} (fresh unbalanced) ((fresh unbalanced).run {} 9) := reaches_run rfl 9
  have hidle : ((fresh unbalanced).run {} 9).stage = .idle := by decide +kernel
  obtain ⟨hconfined, hretains, -⟩ := confined_of_reaches hfirst (reaches_run hidle 9)
  exact ⟨hconfined, hretains, by decide +kernel, by decide +kernel⟩

end Situation

end MicroJava
