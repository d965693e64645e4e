import MicroJava.Machine.Run

/-! # Runs without limits

Limits can end a run but never change its course, and what a machine counts has no influence on
anything else. So there is one course that all runs from a state follow, each as far as its limits
allow. -/

namespace MicroJava

/-- Faults that are due to a limit. -/
def Fault.isLimit : Fault → Bool
  | stackOverflow _ | callDepth _ | stepLimit _ => true
  | _ => false

/-- The run has ended, and not because of a limit. -/
inductive Exec.Ended : EStateM.Result Fault Machine (Option Nat) → Prop
  | completed (m : Machine) : Ended (.ok none m)
  | failed {f : Fault} (m : Machine) (h : f.isLimit = false) : Ended (.error f m)

instance : DecidablePred Exec.Ended
  | .ok none m => isTrue (.completed m)
  | .ok (some _) _ => isFalse nofun
  | .error _ m => decidable_of_iff _ ⟨.failed m, fun | .failed _ h => h⟩

namespace Machine

/-- The machine without what it only keeps a record of. The mark is set, so that no overflow makes a
difference to it. -/
def bare (m : Machine) : Machine := { m with visits := #[], steps := 0, overflowed := true }

@[simp] theorem bare_bare (m : Machine) : m.bare.bare = m.bare := rfl

@[simp] theorem bare_heap (m : Machine) : m.bare.heap = m.heap := rfl

@[simp] theorem noting_false (m : Machine) : m.noting false = m := by
  rw [noting, Bool.or_false]

/-- There is no room for one more word or one more call. -/
def Full (m : Machine) (limits : Limits) : Prop :=
  limits.stack ≤ m.stack.size ∨ limits.callDepth ≤ m.calls.size

/-- Limits that leave room for one more word and one more call. -/
def roomy (m : Machine) : Limits := { callDepth := m.calls.size + 1, stack := m.stack.size + 1 }

end Machine

theorem bind_ok {ε σ α β : Type} {act : EStateM ε σ α} {f : α → EStateM ε σ β} {m m' : σ} {a : α}
    (h : act m = .ok a m') : (act >>= f) m = f a m' := by
  change EStateM.bind act f m = _
  rw [EStateM.bind, h]

theorem bind_error {ε σ α β : Type} {act : EStateM ε σ α} {f : α → EStateM ε σ β} {m m' : σ} {e : ε}
    (h : act m = .error e m') : (act >>= f) m = .error e m' := by
  change EStateM.bind act f m = _
  rw [EStateM.bind, h]

namespace Exec

variable {α β : Type}

/-- A result without what the machine counts. -/
def bareResult : EStateM.Result Fault Machine α → EStateM.Result Fault Machine α
  | .ok a m => .ok a m.bare
  | .error f m => .error f m.bare

/-- The machine at the end of a part of a run. -/
def after : EStateM.Result Fault Machine α → Machine
  | .ok _ m => m
  | .error _ m => m

/-! ## What one instruction depends on -/

/-- A part of a run that no limit applies to. It does not look at what the machine counts, never
needs more room than there was, and never frees an object. -/
class Plain (act : Exec α) : Prop where
  blind : ∀ m, act m.bare = bareResult (act m)
  heap : ∀ m, m.heap.size ≤ (after (act m)).heap.size
  stack : ∀ m, (after (act m)).stack.size ≤ m.stack.size
  calls : ∀ m, (after (act m)).calls.size ≤ m.calls.size

instance (a : α) : Plain (pure a : Exec α) :=
  ⟨fun _ => rfl, fun _ => Nat.le_refl _, fun _ => Nat.le_refl _, fun _ => Nat.le_refl _⟩

instance (f : Fault) : Plain (throw f : Exec α) :=
  ⟨fun _ => rfl, fun _ => Nat.le_refl _, fun _ => Nat.le_refl _, fun _ => Nat.le_refl _⟩

instance (act : Exec α) (f : α → Exec β) [ha : Plain act] [hf : ∀ a, Plain (f a)] :
    Plain (act >>= f) := by
  have hb := ha.blind
  have hh := ha.heap
  have hs := ha.stack
  have hc := ha.calls
  refine ⟨fun m => ?_, fun m => ?_, fun m => ?_, fun m => ?_⟩
  all_goals
    specialize hb m
    specialize hh m
    specialize hs m
    specialize hc m
    cases hr : act m with
    | ok a m' =>
        rw [hr] at hb hh hs hc
        rw [bind_ok hr]
        first
          | rw [bind_ok hb]; exact (hf a).blind m'
          | exact Nat.le_trans hh ((hf a).heap m')
          | exact Nat.le_trans ((hf a).stack m') hs
          | exact Nat.le_trans ((hf a).calls m') hc
    | error e m' =>
        rw [hr] at hb hh hs hc
        rw [bind_error hr]
        first
          | exact bind_error hb
          | exact hh
          | exact hs
          | exact hc

instance (pc : Nat) : Plain (pop pc) := by
  constructor <;> grind [pop, bareResult, after, Machine.bare]

instance (slot pc : Nat) : Plain (getLocal slot pc) := by
  constructor <;> grind [getLocal, bareResult, after, Machine.bare]

instance (slot pc : Nat) (value : Int32) : Plain (setLocal slot pc value) := by
  constructor <;> grind [setLocal, bareResult, after, Machine.bare]

instance (adr pc : Nat) : Plain (getGlobal adr pc) := by
  constructor <;> grind [getGlobal, bareResult, after, Machine.bare]

instance (adr pc : Nat) (value : Int32) : Plain (setGlobal adr pc value) := by
  constructor <;> grind [setGlobal, bareResult, after, Machine.bare]

instance (o : HeapObject) : Plain (alloc o) := by
  constructor <;> simp [alloc, Heap.alloc, bareResult, after, Machine.bare]

instance (ref : Int32) (pc : Nat) (find : Heap → Except AccessError α) :
    Plain (onHeap ref pc find) := by
  constructor <;> intro m <;> cases h : find m.heap <;>
    simp [onHeap, h, bareResult, after, Machine.bare, Machine.noting]

instance (slot : HeapSlot) : Plain (readSlot slot) :=
  ⟨fun _ => rfl, fun _ => Nat.le_refl _, fun _ => Nat.le_refl _, fun _ => Nat.le_refl _⟩

instance (slot : HeapSlot) (value : Int32) : Plain (writeSlot slot value) := by
  refine ⟨fun _ => rfl, fun m => ?_, fun _ => Nat.le_refl _, fun _ => Nat.le_refl _⟩
  change m.heap.size ≤ (m.heap.write slot value).size
  simp [Heap.write]

instance (params size pc : Nat) : Plain (enter params size pc) := by
  constructor <;> intro m <;> by_cases h : params ≤ m.stack.size <;>
    simp [enter, h, bareResult, after, Machine.bare]

instance (pc : Nat) : Plain (exit pc) := by
  constructor <;> grind [exit, bareResult, after, Machine.bare]

instance : Plain (back) := by
  constructor <;> grind [back, bareResult, after, Machine.bare]

instance (pc : Nat) : Plain (readChar pc) := by
  constructor <;> grind [readChar, bareResult, after, Machine.bare]

instance (pc : Nat) : Plain (readNumber pc) := by
  constructor <;> intro m <;> cases h : (Numeral.read m.input).number <;>
    simp [readNumber, h, bareResult, after, Machine.bare, Machine.noting]

instance (text : String) : Plain (print text) :=
  ⟨fun _ => rfl, fun _ => Nat.le_refl _, fun _ => Nat.le_refl _, fun _ => Nat.le_refl _⟩

/-- A part of a run under limits. It ends because of a limit, or it does what it would do under any
limits that leave room for one more word and one more call. -/
class Limited (act : Limits → Exec α) : Prop where
  heap : ∀ limits m, m.heap.size ≤ (after (act limits m)).heap.size
  course : ∀ limits free m, m.stack.size < free.stack → m.calls.size < free.callDepth →
    (∃ f m', act limits m = .error f m' ∧ f.isLimit ∧ m.Full limits) ∨
      act free m.bare = bareResult (act limits m)

instance (act : Exec α) [h : Plain act] : Limited fun _ => act :=
  ⟨fun _ m => h.heap m, fun _ _ m _ _ => .inr (h.blind m)⟩

instance (value : Int32) : Limited (push · value) := by
  constructor
  · grind [push, after]
  · intro limits free m hs _
    simp only [push, Machine.bare, hs, if_true]
    split
    · exact .inr rfl
    · next hfull => exact .inl ⟨_, _, rfl, rfl, .inl (Nat.le_of_not_lt hfull)⟩

instance (next : Nat) : Limited (call · next) := by
  constructor
  · grind [call, after]
  · intro limits free m _ hc
    simp only [call, Machine.bare, hc, if_true]
    split
    · exact .inr rfl
    · next hfull => exact .inl ⟨_, _, rfl, rfl, .inr (Nat.le_of_not_lt hfull)⟩

/-- Only the first part of a sequence can be sure of the room there was before. -/
theorem Limited.bind {act : Exec α} {f : Limits → α → Exec β} [ha : Plain act]
    (hf : ∀ a, Limited (f · a)) : Limited fun limits => act >>= f limits := by
  constructor
  · intro limits m
    have hh := ha.heap m
    cases hr : act m with
    | ok a m' =>
        rw [hr] at hh
        rw [bind_ok hr]
        exact Nat.le_trans hh ((hf a).heap limits m')
    | error e m' =>
        rw [hr] at hh
        rw [bind_error hr]
        exact hh
  · intro limits free m hs hc
    have hb := ha.blind m
    have hstack := ha.stack m
    have hcalls := ha.calls m
    cases hr : act m with
    | ok a m' =>
        rw [hr] at hb hstack hcalls
        rw [bind_ok hr, bind_ok hb]
        rcases (hf a).course limits free m' (Nat.lt_of_le_of_lt hstack hs)
          (Nat.lt_of_le_of_lt hcalls hc) with ⟨e, m₁, he, hl, hfull⟩ | hcourse
        · exact .inl ⟨e, m₁, he, hl, hfull.imp (Nat.le_trans · hstack) (Nat.le_trans · hcalls)⟩
        · exact .inr hcourse
    | error e m' =>
        rw [hr] at hb
        rw [bind_error hr, bind_error hb]
        exact .inr rfl

theorem Limited.seq {act : Limits → Exec α} {f : α → Exec β} [ha : Limited act]
    [hf : ∀ a, Plain (f a)] : Limited fun limits => act limits >>= f := by
  constructor
  · intro limits m
    have hh := ha.heap limits m
    cases hr : act limits m with
    | ok a m' =>
        rw [hr] at hh
        rw [bind_ok hr]
        exact Nat.le_trans hh ((hf a).heap m')
    | error e m' =>
        rw [hr] at hh
        rw [bind_error hr]
        exact hh
  · intro limits free m hs hc
    rcases ha.course limits free m hs hc with ⟨e, m', hr, he⟩ | hb
    · exact .inl ⟨e, m', bind_error hr, he⟩
    · cases hr : act limits m with
      | ok a m' =>
          rw [hr] at hb
          rw [bind_ok hr, bind_ok hb]
          exact .inr ((hf a).blind m')
      | error e m' =>
          rw [hr] at hb
          rw [bind_error hr, bind_error hb]
          exact .inr rfl

instance (act : Exec α) [Plain act] : Plain (discard act) :=
  inferInstanceAs (Plain (act >>= fun _ => pure ()))

instance (c : Prop) [Decidable c] (act other : Exec α) [Plain act] [Plain other] :
    Plain (if c then act else other) := by
  split <;> infer_instance

instance (op : Arithmetic) (pc : Nat) : Limited (binary · op pc) := by
  refine Limited.bind fun b => Limited.bind fun a => ?_
  split <;> infer_instance

instance (size : ElemSize) (pc : Nat) : Limited (newArray · size pc) := by
  refine Limited.bind fun n => ?_
  dsimp only
  split
  · exact Limited.bind fun _ => by cases size <;> exact Limited.bind inferInstance
  · cases size <;> exact Limited.bind inferInstance

instance (pc next : Nat) (i : Instruction) : Limited (execute · pc next i) := by
  have hret : ∀ caller : Option Nat, Plain (match caller with
      | some caller => (pure (Control.goto caller) : Exec Control)
      | none => pure Control.halt) := by
    intro caller
    split <;> infer_instance
  unfold execute
  cases i <;> dsimp only
  case jump | jumpIf | ret => infer_instance
  case loadElem =>
    exact Limited.bind fun _ => Limited.bind fun _ => Limited.bind fun _ =>
      Limited.bind fun _ => Limited.seq
  all_goals first
    | exact Limited.seq
    | exact Limited.bind fun _ => Limited.seq
    | exact Limited.bind fun _ => Limited.bind fun _ => Limited.seq
    | exact Limited.bind fun _ => Limited.bind fun _ => Limited.bind fun _ => Limited.seq

/-! ## Steps -/

/-- One instruction with all the room it needs, and without counting it. -/
def advance (object : ObjectFile) (pc : Nat) : Exec Control := fun m =>
  (do
    let (i, next) ← fetch object pc
    execute m.roomy pc next i) m

/-- A step ends because of a limit, or it does what it does without limits. -/
theorem step_course (object : ObjectFile) (limits : Limits) (pc : Nat) (m : Machine) :
    (∃ f m', step object limits pc m = .error f m' ∧ f.isLimit ∧
        (m.Full limits ∨ limits.steps.isSome)) ∨
      advance object pc m.bare = bareResult (step object limits pc m) := by
  have hfrom : (∃ f m', tick limits m = .error f m' ∧ f.isLimit ∧ limits.steps.isSome) ∨
      tick limits m = .ok () { m with steps := m.steps + 1 } := by
    simp only [tick]
    split
    · next hn =>
        split
        · exact .inl ⟨_, _, rfl, rfl, by simp [hn]⟩
        · exact .inr rfl
    · exact .inr rfl
  rcases hfrom with ⟨f, m', ht, hf, hn⟩ | ht
  · exact .inl ⟨f, m', bind_error ht, hf, .inr hn⟩
  · rw [step, bind_ok ht]
    simp only [advance]
    cases hd : Instruction.decode object.code pc with
    | ok found =>
        obtain ⟨i, next⟩ := found
        have hb : fetch object pc m.bare = .ok (i, next) m.bare := by
          simp only [fetch, hd, Machine.bare]
          rfl
        rw [bind_ok hb, bind_ok (by simp only [fetch, hd]; rfl)]
        have hi : Limited (execute · pc next i) := inferInstance
        rcases hi.course limits m.bare.roomy
          { m with visits := m.visits.modify pc (· + 1), steps := m.steps + 1 }
          (Nat.lt_succ_self _) (Nat.lt_succ_self _) with ⟨f, m', he, hl, hfull⟩ | hcourse
        · exact .inl ⟨f, m', he, hl, .inl hfull⟩
        · exact .inr hcourse
    | error e =>
        obtain ⟨f, hf⟩ : ∃ f, ∀ m, fetch object pc m = .error f m := by
          by_cases hpc : pc < object.code.size
          · exact ⟨.decode e, fun m => by simp [fetch, hd, hpc]⟩
          · exact ⟨.pcOutOfRange pc, fun m => by simp [fetch, hd, hpc]⟩
        rw [bind_error (hf _), bind_error (hf _)]
        exact .inr rfl

theorem step_heap (object : ObjectFile) (limits : Limits) (pc : Nat) (m : Machine) :
    m.heap.size ≤ (after (step object limits pc m)).heap.size := by
  have ht : (after (tick limits m)).heap = m.heap := by
    simp only [tick]
    split
    · split <;> rfl
    · rfl
  cases hr : tick limits m with
  | error f m' =>
      rw [step, bind_error hr]
      rw [hr] at ht
      exact Nat.le_of_eq (congrArg Array.size ht.symm)
  | ok u m₁ =>
      rw [step, bind_ok hr]
      rw [hr] at ht
      change m₁.heap = m.heap at ht
      have hf : (after (fetch object pc m₁)).heap = m₁.heap := by
        simp only [fetch]
        split
        · rfl
        · split <;> rfl
      cases hs : fetch object pc m₁ with
      | error f m' =>
          rw [bind_error hs]
          rw [hs] at hf
          exact Nat.le_of_eq (congrArg Array.size (hf.trans ht).symm)
      | ok found m₂ =>
          rw [bind_ok hs, ← ht]
          rw [hs] at hf
          change m₂.heap = m₁.heap at hf
          rw [← hf]
          have hi : Limited (execute · pc found.2 found.1) := inferInstance
          exact hi.heap limits m₂

theorem runFrom_heap (object : ObjectFile) (limits : Limits) (fuel pc : Nat) (m : Machine) :
    m.heap.size ≤ (after (runFrom object limits fuel pc m)).heap.size := by
  induction fuel generalizing pc m with
  | zero => exact Nat.le_refl _
  | succ fuel ih =>
      have hs := step_heap object limits pc m
      rw [runFrom]
      cases hr : step object limits pc m with
      | error f m' =>
          rw [bind_error hr]
          rwa [hr] at hs
      | ok control m' =>
          rw [bind_ok hr]
          rw [hr] at hs
          cases control with
          | goto pc' => exact Nat.le_trans hs (ih pc' m')
          | halt => exact hs

end Exec

end MicroJava
