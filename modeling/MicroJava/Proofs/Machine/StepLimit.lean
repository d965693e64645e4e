import Mathlib.Algebra.GroupWithZero.Nat
import MicroJava.Proofs.Machine.Overflow
import MicroJava.Proofs.Machine.Situation

/-! # The limit on the steps

An instruction is counted before it is looked at, and the count goes on from run to run. So a limit
on the steps ends every run, whatever the code is, and no more instructions are carried out in all
runs together than it allows. Once it has ended a run, the machine only counts on. -/

namespace MicroJava

namespace Machine

/-- Every instruction carried out was counted and allowed, and there was one at its address. -/
structure Metered (object : ObjectFile) (n : Nat) (m : Machine) : Prop where
  counted : m.visits.sum ≤ m.steps
  allowed : m.visits.sum ≤ n
  decoded : ∀ pc, m.visits.getD pc 0 ≠ 0 → ∃ found, Instruction.decode object.code pc = .ok found

/-- One more visit is one more in the sum, or none where there is no such address. -/
theorem sum_visits_modify_le (visits : Array Nat) (pc : Nat) :
    (visits.modify pc (· + 1)).sum ≤ visits.sum + 1 := by
  have hlist : ∀ (counts : List Nat) (i : Nat), (counts.modify i (· + 1)).sum ≤ counts.sum + 1 := by
    intro counts
    induction counts with
    | nil => simp
    | cons count counts ih =>
        intro i
        cases i with
        | zero => simp; omega
        | succ i => simpa [Nat.add_assoc] using ih i
  simpa [← Array.sum_toList, Array.toList_modify] using hlist visits.toList pc

end Machine

namespace Exec

variable {object : ObjectFile} {limits : Limits} {n : Nat}

/-! ## Steps and runs -/

/-- What a step does under a limit: it is one too many, there is no instruction at its address, or
the instruction there is carried out after it was counted. -/
theorem step_cases (hn : limits.steps = some n) (object : ObjectFile) (pc : Nat) (m : Machine) :
    (n ≤ m.steps ∧
        step object limits pc m = .error (.stepLimit n) { m with steps := m.steps + 1 }) ∨
      m.steps < n ∧
        ((∃ e f, Instruction.decode object.code pc = .error e ∧ (∀ k, f ≠ .stepLimit k) ∧
            step object limits pc m = .error f { m with steps := m.steps + 1 }) ∨
          ∃ i next, Instruction.decode object.code pc = .ok (i, next) ∧
            step object limits pc m = execute limits pc next i
              { m with visits := m.visits.modify pc (· + 1), steps := m.steps + 1 }) := by
  by_cases hover : n ≤ m.steps
  · have htick : tick limits m = .error (.stepLimit n) { m with steps := m.steps + 1 } := by
      simp only [tick, hn]
      rw [if_pos (Nat.lt_succ_of_le hover)]
    exact .inl ⟨hover, bind_error htick⟩
  · have htick : tick limits m = .ok () { m with steps := m.steps + 1 } := by
      simp only [tick, hn]
      rw [if_neg fun hlt => hover (Nat.le_of_lt_succ hlt)]
    refine .inr ⟨Nat.lt_of_not_le hover, ?_⟩
    rw [step, bind_ok htick]
    cases hd : Instruction.decode object.code pc with
    | ok found =>
        have hfetch : fetch object pc { m with steps := m.steps + 1 } = .ok found
            { m with visits := m.visits.modify pc (· + 1), steps := m.steps + 1 } := by
          simp only [fetch, hd]
        exact .inr ⟨found.1, found.2, rfl, bind_ok hfetch⟩
    | error e =>
        left
        by_cases hpc : pc < object.code.size
        · have hfetch : fetch object pc { m with steps := m.steps + 1 } =
              .error (.decode e) { m with steps := m.steps + 1 } := by
            simp [fetch, hd, hpc]
          exact ⟨e, .decode e, rfl, (fun _ h => by cases h), bind_error hfetch⟩
        · have hfetch : fetch object pc { m with steps := m.steps + 1 } =
              .error (.pcOutOfRange pc) { m with steps := m.steps + 1 } := by
            simp [fetch, hd, hpc]
          exact ⟨e, .pcOutOfRange pc, rfl, (fun _ h => by cases h), bind_error hfetch⟩

/-- A step is one too many, or it is counted, and then at most the instruction at its address is
visited. -/
theorem step_metered (hn : limits.steps = some n) (object : ObjectFile) (pc : Nat) (m : Machine) :
    (n ≤ m.steps ∧
        step object limits pc m = .error (.stepLimit n) { m with steps := m.steps + 1 }) ∨
      (m.steps < n ∧ (after (step object limits pc m)).steps = m.steps + 1 ∧
        ((after (step object limits pc m)).visits = m.visits ∨
          (∃ found, Instruction.decode object.code pc = .ok found) ∧
            (after (step object limits pc m)).visits = m.visits.modify pc (· + 1)) ∧
        ∀ f m', step object limits pc m = .error f m' → ∀ k, f ≠ .stepLimit k) := by
  rcases step_cases hn object pc m with hover | ⟨hlt, ⟨e, f, -, hf, hstep⟩ | ⟨i, next, hd, hstep⟩⟩
  · exact .inl hover
  · right
    rw [hstep]
    refine ⟨hlt, rfl, .inl rfl, ?_⟩
    rintro _ _ ⟨⟩
    exact hf
  · right
    have hexecute : Unmetered (execute limits pc next i) := inferInstance
    obtain ⟨hvisits, hsteps⟩ := hexecute.counts
      { m with visits := m.visits.modify pc (· + 1), steps := m.steps + 1 }
    rw [hstep]
    exact ⟨hlt, hsteps, .inr ⟨⟨_, hd⟩, hvisits⟩, hexecute.fault _⟩

/-- When a step overflows. -/
theorem step_overflowed (hn : limits.steps = some n) (object : ObjectFile) (pc : Nat) (m : Machine) :
    (after (step object limits pc m)).overflowed ↔ m.overflowed ∨ m.steps < n ∧
      ∃ i next, Instruction.decode object.code pc = .ok (i, next) ∧ i.Overflows m := by
  rcases step_cases hn object pc m with ⟨hover, hstep⟩ | ⟨hlt, ⟨e, f, hd, -, hstep⟩ |
    ⟨i, next, hd, hstep⟩⟩
  · rw [hstep, after]
    simp [Nat.not_lt.2 hover]
  · rw [hstep, after]
    simp [hd]
  · rw [hstep, overflowed_execute]
    simp [hlt, hd, Instruction.Overflows]

/-- The limit ends a run: what is left of it is enough fuel to see the end. -/
theorem ofRun_runFrom (hn : limits.steps = some n) {fuel : Nat} (pc : Nat) {m : Machine}
    (hfuel : n - m.steps < fuel) : Stage.ofRun (runFrom object limits fuel pc m) = .idle := by
  induction fuel generalizing pc m with
  | zero => exact absurd hfuel (Nat.not_lt_zero _)
  | succ fuel ih =>
      rw [runFrom]
      rcases step_metered hn object pc m with ⟨-, hstep⟩ | ⟨hlt, hsteps, -, -⟩
      · rw [bind_error hstep]
        rfl
      · cases hr : step object limits pc m with
        | error f m' =>
            rw [bind_error hr]
            rfl
        | ok control m' =>
            rw [bind_ok hr]
            rw [hr] at hsteps
            change m'.steps = m.steps + 1 at hsteps
            cases control with
            | goto next => exact ih next (by omega)
            | halt => rfl

/-- A run that has come to its end has come to it with any more fuel. -/
theorem runFrom_of_ofRun {fuel fuel' pc : Nat} {m : Machine}
    (hend : Stage.ofRun (runFrom object limits fuel pc m) = .idle) (hfuel : fuel ≤ fuel') :
    runFrom object limits fuel' pc m = runFrom object limits fuel pc m := by
  induction fuel generalizing fuel' pc m with
  | zero => cases hend
  | succ fuel ih =>
      obtain ⟨fuel', rfl⟩ : ∃ k, fuel' = k + 1 := ⟨fuel' - 1, by omega⟩
      rw [runFrom] at hend ⊢
      rw [runFrom]
      cases hr : step object limits pc m with
      | error f m' => rw [bind_error hr, bind_error hr]
      | ok control m' =>
          rw [bind_ok hr] at hend
          rw [bind_ok hr, bind_ok hr]
          cases control with
          | goto next => exact ih hend (Nat.le_of_succ_le_succ hfuel)
          | halt => rfl

/-- A run that the limit on the steps has ended has used them up. -/
theorem exhausted_of_runFrom (hn : limits.steps = some n) {fuel pc k : Nat} {m m' : Machine}
    (h : runFrom object limits fuel pc m = .error (.stepLimit k) m') : k = n ∧ n ≤ m'.steps := by
  induction fuel generalizing pc m with
  | zero => cases h
  | succ fuel ih =>
      rw [runFrom] at h
      rcases step_metered hn object pc m with ⟨hover, hstep⟩ | ⟨-, -, -, hfault⟩
      · rw [bind_error hstep] at h
        cases h
        exact ⟨rfl, Nat.le_succ_of_le hover⟩
      · cases hr : step object limits pc m with
        | error f m₁ =>
            rw [bind_error hr] at h
            cases h
            exact absurd rfl (hfault _ _ hr k)
        | ok control m₁ =>
            rw [bind_ok hr] at h
            cases control with
            | goto next => exact ih h
            | halt => cases h

end Exec

/-! ## Every situation -/

namespace Situation

variable {object : ObjectFile} {limits : Limits} {n : Nat} {s s' : Situation}

theorem Move.object_eq (hm : Move limits s s') : s'.object = s.object := by
  cases hm <;> rfl

theorem Reaches.object_eq (h : Reaches limits s s') : s'.object = s.object := by
  induction h with
  | refl => rfl
  | tail _ hm ih => exact hm.object_eq.trans ih

theorem fresh_metered (object : ObjectFile) (n : Nat) : (fresh object).machine.Metered object n := by
  have hnone : (fresh object).machine.visits.sum = 0 := by
    simp [fresh, Machine.load]
  refine ⟨Nat.le_of_eq hnone, hnone ▸ Nat.zero_le n, fun pc hpc => absurd ?_ hpc⟩
  simp only [fresh, Machine.load, Array.getD_eq_getD_getElem?, Array.getElem?_replicate]
  split <;> rfl

theorem metered_step (hn : limits.steps = some n) (pc : Nat) (h : s.machine.Metered s.object n) :
    (s.step limits pc).machine.Metered s.object n := by
  rcases Exec.step_metered hn s.object pc s.machine with
    ⟨-, hstep⟩ | ⟨hlt, hsteps, hvisits, -⟩
  · have hmachine : (s.step limits pc).machine = { s.machine with steps := s.machine.steps + 1 } := by
      simp only [step, hstep, Exec.after]
    rw [hmachine]
    exact ⟨Nat.le_succ_of_le h.counted, h.allowed, h.decoded⟩
  · change (s.step limits pc).machine.steps = s.machine.steps + 1 at hsteps
    rcases hvisits with hsame | ⟨hfound, hmore⟩
    · change (s.step limits pc).machine.visits = s.machine.visits at hsame
      constructor
      · rw [hsame, hsteps]
        exact Nat.le_succ_of_le h.counted
      · rw [hsame]
        exact h.allowed
      · rw [hsame]
        exact h.decoded
    · change (s.step limits pc).machine.visits = s.machine.visits.modify pc (· + 1) at hmore
      have hsum := Machine.sum_visits_modify_le s.machine.visits pc
      have hcounted := h.counted
      constructor
      · rw [hmore, hsteps]
        exact Nat.le_trans hsum (Nat.succ_le_succ hcounted)
      · rw [hmore]
        omega
      · intro other hother
        by_cases hpc : pc = other
        · exact hpc ▸ hfound
        · apply h.decoded
          rwa [hmore, Array.getD_eq_getD_getElem?, Array.getElem?_modify, if_neg hpc,
            ← Array.getD_eq_getD_getElem?] at hother

theorem Reaches.metered (hn : limits.steps = some n) (h : Reaches limits s s')
    (hs : s.machine.Metered s.object n) : s'.machine.Metered s'.object n := by
  induction h with
  | refl => exact hs
  | tail _ hm ih =>
      cases hm with
      | input _ text => exact ⟨ih.counted, ih.allowed, ih.decoded⟩
      | start _ => exact ih
      | @step pc _ => exact metered_step hn pc ih

/-- Steps are never taken back. -/
theorem Reaches.steps_le (hn : limits.steps = some n) (h : Reaches limits s s') :
    s.machine.steps ≤ s'.machine.steps := by
  induction h with
  | refl => exact Nat.le_refl _
  | @tail t _ _ hm ih =>
      refine Nat.le_trans ih ?_
      cases hm with
      | input _ text => exact Nat.le_refl _
      | start _ => exact Nat.le_refl _
      | @step pc _ =>
          rcases Exec.step_metered hn t.object pc t.machine with
            ⟨-, hstep⟩ | ⟨-, hsteps, -, -⟩
          · simp [step, hstep, Exec.after]
          · exact Nat.le_of_lt (Nat.lt_of_lt_of_eq (Nat.lt_succ_self _) hsteps.symm)

/-- The instruction that comes next is not one too many, and it overflows. -/
def Overflows (n : Nat) (s : Situation) : Prop :=
  ∃ pc i next, s.stage = .running pc ∧ s.machine.steps < n ∧
    Instruction.decode s.object.code pc = .ok (i, next) ∧ i.Overflows s.machine

theorem Move.overflowed (hn : limits.steps = some n) (hm : Move limits s s') :
    s'.machine.overflowed ↔ s.machine.overflowed ∨ s.Overflows n := by
  cases hm with
  | input hs text | start hs => simp [Overflows, hs, Machine.withInput]
  | @step pc hs =>
      rw [Situation.step, Exec.step_overflowed hn]
      simp [Overflows, hs]

/-- Overflow is noted for good. -/
theorem Reaches.overflowed_of_overflowed (hn : limits.steps = some n) (h : Reaches limits s s')
    (hmark : s.machine.overflowed) : s'.machine.overflowed := by
  induction h with
  | refl => exact hmark
  | tail _ hm ih => exact (hm.overflowed hn).2 (.inl ih)

/-- What has overflowed has done so at some move. -/
theorem Reaches.overflowed (hn : limits.steps = some n) (h : Reaches limits s s') :
    s'.machine.overflowed ↔ s.machine.overflowed ∨ ∃ t t', Reaches limits s t ∧ t.Overflows n ∧
      Move limits t t' ∧ Reaches limits t' s' := by
  constructor
  · intro hmark
    induction h with
    | refl => exact .inl hmark
    | tail hr hm ih =>
        rcases (hm.overflowed hn).1 hmark with hmark | hnext
        · rcases ih hmark with hfirst | ⟨t, t', ht, hover, hmove, ht'⟩
          · exact .inl hfirst
          · exact .inr ⟨t, t', ht, hover, hmove, ht'.tail hm⟩
        · exact .inr ⟨_, _, hr, hnext, hm, .refl⟩
  · rintro (hmark | ⟨t, t', -, hover, hmove, ht'⟩)
    · exact h.overflowed_of_overflowed hn hmark
    · exact ht'.overflowed_of_overflowed hn ((hmove.overflowed hn).2 (.inr hover))

/-- Where the steps are used up, a run ends before its first instruction. -/
theorem run_of_exhausted (hn : limits.steps = some n) (hover : n ≤ s.machine.steps) {fuel : Nat}
    (hfuel : 0 < fuel) : Exec.run s.object limits fuel s.machine =
      .error (.stepLimit n) { s.machine with steps := s.machine.steps + 1 } := by
  obtain ⟨fuel, rfl⟩ : ∃ k, fuel = k + 1 := ⟨fuel - 1, by omega⟩
  rw [Exec.run, Exec.runFrom]
  rcases Exec.step_metered hn s.object s.object.mainPc.toNat s.machine with
    ⟨-, hstep⟩ | ⟨hlt, -⟩
  · exact bind_error hstep
  · exact absurd hover (Nat.not_le.2 hlt)

/-- Under a limit on the steps no more instructions are carried out in all runs together than it
allows, and only where the code has one. Every run comes to an end, and its end is a result, unless
overflow is checked and an instruction before it overflows. Once the limit has ended a run, every
later one ends in the same way at its first step, and counting that step is all it does. -/
theorem metered_of_reaches (hn : limits.steps = some n) (h : Reaches limits (fresh object) s) :
    s.machine.visits.sum ≤ n ∧
      (∀ pc, s.machine.visits.getD pc 0 ≠ 0 →
        ∃ found, Instruction.decode object.code pc = .ok found) ∧
      (s.stage = .idle → ∃ result, Stage.ofRun result = .idle ∧
        ∀ fuel, n - s.machine.steps < fuel → Exec.run object limits fuel s.machine = result ∧
          (Exec.checked (Exec.run object limits fuel) s.machine = none ↔
            ∃ t t', Reaches limits (fresh object) t ∧ t.Overflows n ∧ Move limits t t' ∧
              Reaches limits t' (s.run limits fuel)) ∧
          ∀ r, Exec.checked (Exec.run object limits fuel) s.machine = some r → r = result) ∧
      ∀ fuel k m', Exec.run object limits fuel s.machine = .error (.stepLimit k) m' →
        k = n ∧ ∀ s', Reaches limits (s.run limits fuel) s' → ∀ more, 0 < more →
          Exec.run object limits more s'.machine =
            .error (.stepLimit n) { s'.machine with steps := s'.machine.steps + 1 } := by
  obtain rfl : s.object = object := h.object_eq
  have hmetered := h.metered hn (fresh_metered s.object n)
  refine ⟨hmetered.allowed, hmetered.decoded, fun hidle => ?_, ?_⟩
  · have hend : Stage.ofRun (Exec.run s.object limits (n - s.machine.steps + 1) s.machine) = .idle :=
      Exec.ofRun_runFrom hn s.object.mainPc.toNat (Nat.lt_succ_self _)
    refine ⟨_, hend, fun fuel hfuel => ?_⟩
    have hrun := Exec.runFrom_of_ofRun hend hfuel
    refine ⟨hrun, ?_, fun r hr => (Exec.checked_eq_some.1 hr).2.symm.trans hrun⟩
    have hreaches : Reaches limits (fresh s.object) (s.run limits fuel) :=
      h.trans (reaches_run hidle fuel)
    rw [Exec.checked_eq_none]
    exact (Reaches.overflowed hn hreaches).trans (or_iff_right Bool.false_ne_true)
  · intro fuel k m' hrun
    obtain ⟨rfl, hover⟩ := Exec.exhausted_of_runFrom hn hrun
    refine ⟨rfl, fun s' hs' more hmore => ?_⟩
    have hobject : s'.object = s.object := hs'.object_eq
    have hmachine : (s.run limits fuel).machine = m' := by
      simp only [run, hrun, Exec.after]
    have hlater : k ≤ s'.machine.steps := by
      refine Nat.le_trans hover ?_
      rw [← hmachine]
      exact hs'.steps_le hn
    rw [← hobject]
    exact run_of_exhausted hn hlater hmore

/-- Prints ones for ever. -/
def ones : ObjectFile := ⟨0, 0, #[16, 15, 51, 39, 0, 0]⟩

/-- Enough for two ones. -/
def seven : Limits := { steps := some 7 }

/-- The limit ends the first run, which has printed what it could. -/
theorem run_ones : ∃ m', Exec.run ones seven 8 (Machine.load ones) = .error (.stepLimit 7) m' ∧
    m'.output = "11" := by
  have hrun : (match Exec.run ones seven 8 (Machine.load ones) with
      | .error (.stepLimit k) m' => decide (k = 7 ∧ m'.output = "11")
      | _ => false) = true := by
    decide +kernel
  split at hrun
  · next k m' hresult =>
      obtain ⟨rfl, houtput⟩ := of_decide_eq_true hrun
      exact ⟨m', hresult, houtput⟩
  · cases hrun

theorem metered_of_reaches_ones :
    seven.steps = some 7 ∧ Reaches seven (fresh ones) ((fresh ones).run seven 8) ∧
      ((fresh ones).run seven 8).machine.visits.sum ≤ 7 ∧
      ((fresh ones).run seven 8).machine.visits = #[2, 2, 2, 1, 0, 0] ∧
      (∃ found, Instruction.decode ones.code 3 = .ok found) ∧
      Exec.run ones seven 1 ((fresh ones).run seven 8).machine = .error (.stepLimit 7)
        { ((fresh ones).run seven 8).machine with
          steps := ((fresh ones).run seven 8).machine.steps + 1 } := by
  have hlimit : seven.steps = some 7 := rfl
  have hfirst : Reaches seven (fresh ones) ((fresh ones).run seven 8) := reaches_run rfl 8
  obtain ⟨hsum, hdecoded, -, -⟩ := metered_of_reaches hlimit hfirst
  obtain ⟨-, -, -, hlater⟩ := metered_of_reaches hlimit (.refl (a := fresh ones))
  obtain ⟨m', hrun, -⟩ := run_ones
  exact ⟨hlimit, hfirst, hsum, by decide +kernel, hdecoded 3 (by decide +kernel),
    (hlater 8 7 m' hrun).2 _ .refl 1 Nat.one_pos⟩

/-- Follows the least word as a reference. -/
def astray : ObjectFile := ⟨0, 0, #[22, 128, 0, 0, 0, 13, 0, 0]⟩

/-- Where overflow is checked, a run may end without a result, long before the limit. Elsewhere the
same run ends with the fault of a reference to nothing. -/
theorem run_astray :
    Exec.checked (Exec.runWithin astray {} 10) (Machine.load astray) = none ∧
      ∃ m', Exec.runWithin astray {} 10 (Machine.load astray) =
        .error (.access .wrongObject 5) m' ∧ m'.visits = #[1, 0, 0, 0, 0, 1, 0, 0] := by
  refine ⟨Exec.checked_eq_none.2 (by decide +kernel), _, rfl, by decide +kernel⟩

end Situation

end MicroJava
