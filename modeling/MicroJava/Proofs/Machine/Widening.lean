import MicroJava.Proofs.Machine.Unlimited

/-! # Wider limits

Limits are looked at when an instruction is counted, when a word is pushed and when a method is
called, and each time the only thing they can do is to end the run. So a run that no limit has ended
takes the same course under wider limits, counts included. -/

namespace MicroJava

/-- What the first limits allow, the second ones allow as well. To have no limit on the steps is to
allow any number of them. -/
structure Limits.Within (limits wider : Limits) : Prop where
  callDepth : limits.callDepth ≤ wider.callDepth
  stack : limits.stack ≤ wider.stack
  steps : ∀ n, wider.steps = some n → ∃ k ≤ n, limits.steps = some k

namespace Exec

variable {α β : Type} {limits wider : Limits}

/-- One part of a run under two limits: a limit ends the first of them, or the second does the
same. -/
class Widens (act act' : Exec α) : Prop where
  same : ∀ m, (∃ f m', act m = .error f m' ∧ f.isLimit) ∨ act' m = act m

instance (priority := low) (act : Exec α) : Widens act act := ⟨fun _ => .inr rfl⟩

theorem Widens.bind {act act' : Exec α} {f f' : α → Exec β} (ha : Widens act act')
    (hf : ∀ a, Widens (f a) (f' a)) : Widens (act >>= f) (act' >>= f') := by
  constructor
  intro m
  rcases ha.same m with ⟨e, m', hr, he⟩ | hsame
  · exact .inl ⟨e, m', bind_error hr, he⟩
  · cases hr : act m with
    | ok a m' =>
        rw [bind_ok hr, bind_ok (hsame.trans hr)]
        exact (hf a).same m'
    | error e m' =>
        rw [bind_error hr, bind_error (hsame.trans hr)]
        exact .inr rfl

instance (act act' : Exec α) (f f' : α → Exec β) [Widens act act'] [∀ a, Widens (f a) (f' a)] :
    Widens (act >>= f) (act' >>= f') :=
  .bind inferInstance inferInstance

instance (c : Prop) [Decidable c] (act act' other other' : Exec α) [Widens act act']
    [Widens other other'] : Widens (if c then act else other) (if c then act' else other') := by
  split <;> infer_instance

theorem widens_push (h : limits.Within wider) (value : Int32) :
    Widens (push limits value) (push wider value) := by
  constructor
  intro m
  unfold push
  by_cases hroom : m.stack.size < limits.stack
  · rw [if_pos hroom, if_pos (Nat.lt_of_lt_of_le hroom h.stack)]
    exact .inr rfl
  · rw [if_neg hroom]
    exact .inl ⟨_, _, rfl, rfl⟩

theorem widens_call (h : limits.Within wider) (back : Nat) :
    Widens (call limits back) (call wider back) := by
  constructor
  intro m
  unfold call
  by_cases hroom : m.calls.size < limits.callDepth
  · rw [if_pos hroom, if_pos (Nat.lt_of_lt_of_le hroom h.callDepth)]
    exact .inr rfl
  · rw [if_neg hroom]
    exact .inl ⟨_, _, rfl, rfl⟩

theorem widens_tick (h : limits.Within wider) : Widens (tick limits) (tick wider) := by
  constructor
  intro m
  cases hn : wider.steps with
  | none =>
      simp only [tick, hn]
      split
      · split
        · exact .inl ⟨_, _, rfl, rfl⟩
        · exact .inr rfl
      · exact .inr rfl
  | some n =>
      obtain ⟨k, hk, hsteps⟩ := h.steps n hn
      simp only [tick, hn, hsteps]
      by_cases hover : k < m.steps + 1
      · rw [if_pos hover]
        exact .inl ⟨_, _, rfl, rfl⟩
      · rw [if_neg hover, if_neg fun hlt => hover (Nat.lt_of_le_of_lt hk hlt)]
        exact .inr rfl

theorem widens_binary (h : limits.Within wider) (op : Arithmetic) (pc : Nat) :
    Widens (binary limits op pc) (binary wider op pc) := by
  unfold binary
  refine .bind inferInstance fun right => .bind inferInstance fun left => ?_
  cases op.eval left right with
  | some value => exact widens_push h value
  | none => infer_instance

theorem widens_newArray (h : limits.Within wider) (size : ElemSize) (pc : Nat) :
    Widens (newArray limits size pc) (newArray wider size pc) := by
  have hpush := widens_push h
  unfold newArray
  cases size <;> infer_instance

theorem widens_execute (h : limits.Within wider) (pc next : Nat) (i : Instruction) :
    Widens (execute limits pc next i) (execute wider pc next i) := by
  have hpush := widens_push h
  have hcall := widens_call h
  have hbinary := widens_binary h
  have hnewArray := widens_newArray h
  unfold execute
  cases i <;> infer_instance

/-- A step meets a limit, or it does the same under wider limits. -/
theorem widens_step (h : limits.Within wider) (object : ObjectFile) (pc : Nat) :
    Widens (step object limits pc) (step object wider pc) := by
  have htick := widens_tick h
  have hexecute := widens_execute h
  unfold step
  infer_instance

/-- The run lemma: no limit is met on the way, so every step is the same. -/
theorem runFrom_of_within (h : limits.Within wider) {object : ObjectFile} {fuel fuel' pc : Nat}
    {m : Machine} (hend : Ended (runFrom object limits fuel pc m)) (hfuel : fuel ≤ fuel') :
    runFrom object wider fuel' pc m = runFrom object limits fuel pc m := by
  induction fuel generalizing fuel' pc m with
  | zero => cases hend
  | succ fuel ih =>
      obtain ⟨fuel', rfl⟩ : ∃ n, fuel' = n + 1 := ⟨fuel' - 1, by omega⟩
      rw [runFrom] at hend ⊢
      rcases (widens_step h object pc).same m with ⟨f, m', hr, hf⟩ | hsame
      · rw [bind_error hr] at hend
        cases hend with
        | failed _ hf' => cases hf.symm.trans hf'
      · rw [runFrom]
        cases hr : step object limits pc m with
        | error f m' => rw [bind_error hr, bind_error (hsame.trans hr)]
        | ok control m' =>
            rw [bind_ok hr] at hend
            rw [bind_ok hr, bind_ok (hsame.trans hr)]
            cases control with
            | goto next => exact ih hend (Nat.le_of_succ_le_succ hfuel)
            | halt => rfl

/-- Wider limits change nothing about a run that no limit has ended: the result is the same, and so
is the machine in every part, whatever state the run started from. -/
theorem run_of_within (h : limits.Within wider) {object : ObjectFile} {fuel fuel' : Nat}
    {m : Machine} (hend : Ended (run object limits fuel m)) (hfuel : fuel ≤ fuel') :
    run object wider fuel' m = run object limits fuel m :=
  runFrom_of_within h hend hfuel

/-- Calls a method that reads a number and prints it. -/
def echo : ObjectFile := ⟨0, 0, #[46, 0, 4, 47, 50, 15, 51, 47]⟩

/-- Just enough for a run of `echo` and the first two instructions of another one. -/
def tight : Limits := { callDepth := 1, stack := 2, steps := some 8 }

theorem tight_within : tight.Within {} := ⟨by decide, by decide, by rintro n ⟨⟩⟩

/-- After a run that has printed the seven and has left the letter to be read. -/
def echoed : Machine := after (run echo tight 6 ((Machine.load echo).withInput "7 x"))

theorem run_of_within_echo :
    run echo {} 9 echoed = run echo tight 2 echoed ∧
      (after (run echo tight 2 echoed)).output = "7" ∧
      (after (run echo tight 2 echoed)).calls = #[3] ∧
      ¬ Ended (run echo { tight with steps := some 7 } 2 echoed) :=
  ⟨run_of_within tight_within (by decide +kernel) (by decide), by decide +kernel,
    by decide +kernel, by decide +kernel⟩

end Exec

end MicroJava
