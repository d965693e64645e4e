import MicroJava.Proofs.Compile.TwoPass
import MicroJava.Proofs.Resolved.Outcome

/-! # What compiled code does

The code of a text without errors does on the machine what an evaluation of the text's program does,
and none of its runs ends with a fault of the code itself. -/

namespace MicroJava

open Resolved (resolveProgram Finished SameEnd)

/-- Compiled code runs without flaws: as long as fewer than 2^31 objects have been made, only the
program, its input or a limit can stop a run early, every return address has its frame, and nothing
is left behind at the end. -/
theorem compile_safe {source : String} {options : Options}
    (h : (compile source options).errors = []) (input : String) (limits : Limits) (fuel : Nat) :
    (∀ f m, (compile source options).code.runOn input limits fuel = .error f m →
      m.heap.size < 2 ^ 31 → f.isFlaw = false) ∧
    (∀ pc m, (compile source options).code.runOn input limits fuel = .ok (some pc) m →
      m.heap.size < 2 ^ 31 → m.Balanced) ∧
    ∀ m, (compile source options).code.runOn input limits fuel = .ok none m →
      m.heap.size < 2 ^ 31 → m.Idle := by
  obtain ⟨P, hp, hcode, hglobals, hsize⟩ := resolved_of_compile h
  have houtcome := (Resolved.resolveProgram_typed hp).run_outcome hsize hglobals input limits
    (Nat.lt_succ_self fuel)
  rw [hcode]
  generalize P.object.runOn input limits fuel = result at houtcome
  generalize P.evaluate input (fuel + 1) = r at houtcome
  refine ⟨?_, ?_, ?_⟩
  · rintro f m rfl hheap
    cases houtcome with
    | limited _ hf => exact Fault.isFlaw_of_isLimit hf
    | crowded hmany => exact absurd (Nat.lt_of_lt_of_le hheap hmany) (Nat.lt_irrefl _)
    | ended hend =>
        cases hend with
        | failed f pc _ => exact f.isFlaw_fault pc
  · rintro pc m rfl hheap
    cases houtcome with
    | running _ hb => exact hb
    | crowded hmany => exact absurd (Nat.lt_of_lt_of_le hheap hmany) (Nat.lt_irrefl _)
    | ended hend => cases hend
  · rintro m rfl hheap
    cases houtcome with
    | crowded hmany => exact absurd (Nat.lt_of_lt_of_le hheap hmany) (Nat.lt_irrefl _)
    | ended hend =>
        cases hend with
        | completed hm _ => exact hm

theorem run_countdownText :
    ∃ m, (compile countdownText {}).code.runOn "" {} 100 = .ok none m ∧ m.heap.size < 2 ^ 31 := by
  have hrun : (match (compile countdownText {}).code.runOn "" {} 100 with
      | .ok none m => decide (m.heap.size < 2 ^ 31)
      | _ => false) = true := by
    decide +kernel
  generalize (compile countdownText {}).code.runOn "" {} 100 = result at hrun
  match result with
  | .ok none m => exact ⟨m, rfl, of_decide_eq_true hrun⟩
  | .ok (some _) _ | .error _ _ => cases hrun

theorem compile_safe_countdown :
    ∃ m, (compile countdownText {}).code.runOn "" {} 100 = .ok none m ∧ m.Idle := by
  obtain ⟨m, hrun, hheap⟩ := run_countdownText
  exact ⟨m, hrun, (compile_safe errors_countdownText "" {} 100).2.2 m hrun hheap⟩

end MicroJava
