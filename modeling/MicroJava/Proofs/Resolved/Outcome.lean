import MicroJava.Proofs.Resolved.ProgramCode
import MicroJava.Proofs.Resolved.Safety

/-! # How runs end

A run of the code of a typed program ends as an evaluation of the program does, unless a limit ends
it. Under limits that are wide enough it does end when the evaluation ends. -/

namespace MicroJava

open Exec (advance runFrom bareResult)

/-- The fault is the code's own, whatever the program was meant to do. -/
def Fault.isFlaw : Fault → Bool
  | decode _ | pcOutOfRange _ | stackUnderflow _ | noFrame _ | noLocal _ _ | noGlobal _ _ => true
  | access .wrongObject _ | access (.noField _) _ => true
  | trap code _ => code ≠ Instruction.missingReturn
  | _ => false

theorem Fault.isFlaw_of_isLimit {f : Fault} (h : f.isLimit) : f.isFlaw = false := by
  cases f <;> simp_all [isLimit, isFlaw]

/-- A run of the code on a new machine. -/
def ObjectFile.runOn (object : ObjectFile) (input : String) (limits : Limits) (fuel : Nat) :
    EStateM.Result Fault Machine (Option Nat) :=
  Exec.run object limits fuel ((Machine.load object).withInput input)

/-- Nothing is left of the methods that were called. -/
structure Machine.Idle (m : Machine) : Prop where
  stack : m.stack = #[]
  frames : m.frames = []
  calls : m.calls = #[]

namespace Resolved

theorem Failure.isFlaw_fault (f : Failure) (pc : Nat) : (f.fault pc).isFlaw = false := by
  cases f <;> rfl

/-- A run and an evaluation end in the same way, with the same globals and the same output. -/
inductive SameEnd :
    EStateM.Result Fault Machine (Option Nat) → EStateM.Result Stop World (Option Value) → Prop
  | completed {m : Machine} {w : World} (hm : m.Idle) (h : Shows m w) :
      SameEnd (.ok none m) (.ok none w)
  | failed {m : Machine} {w : World} (f : Failure) (pc : Nat) (h : Shows m w) :
      SameEnd (.error (f.fault pc) m) (.error (.failure f) w)

theorem SameEnd.of_bareResult {result : EStateM.Result Fault Machine (Option Nat)}
    {r : EStateM.Result Stop World (Option Value)} (h : SameEnd (bareResult result) r) :
    SameEnd result r := by
  cases result with
  | ok pc m =>
      cases h with
      | completed hm h => exact .completed ⟨hm.stack, hm.frames, hm.calls⟩ ⟨h.globals, h.output⟩
  | error f m =>
      cases h with
      | failed f pc h => exact .failed f pc ⟨h.globals, h.output⟩

/-- The evaluation has come to its end: there was enough fuel, and all objects could be told
apart. -/
def Finished : EStateM.Result Stop World (Option Value) → Prop
  | .ok _ _ | .error (.failure _) _ | .error .stuck _ => True
  | .error .exhausted _ | .error .outOfFuel _ => False

/-- What a run can come to, next to an evaluation that is given more fuel. -/
inductive Outcome (r : EStateM.Result Stop World (Option Value)) :
    EStateM.Result Fault Machine (Option Nat) → Prop
  | limited {f : Fault} (m : Machine) (hf : f.isLimit) : Outcome r (.error f m)
  | running (pc : Nat) {m : Machine} (hb : m.Balanced) : Outcome r (.ok (some pc) m)
  | crowded {result : EStateM.Result Fault Machine (Option Nat)}
      (h : maxObjects < (Exec.after result).heap.size) : Outcome r result
  | ended {result : EStateM.Result Fault Machine (Option Nat)} (h : SameEnd result r) :
      Outcome r result

/-! ## The last instruction -/

/-- Nothing comes after the return from the main method. -/
theorem ret_halts {object : ObjectFile} {pc : Nat} {is : List Instruction}
    (hc : CodeAt object pc (.ret :: is)) (w : World) :
    advance object pc (w.machine #[] [] #[]) = .ok .halt (w.machine #[] [] #[]) := by
  have hback : Exec.back (w.machine #[] [] #[]) = .ok none (w.machine #[] [] #[]) := rfl
  refine (hc.advance_eq rfl).trans ?_
  simp only [Exec.execute]
  rw [bind_ok hback]
  rfl

theorem Completes.reaches_end {object : ObjectFile} {w : World} {c : Config}
    (h : Completes object none w c) :
    ∃ k c', Path object k c c' ∧ c'.machine.Balanced ∧ c'.IsLast object ∧
      SameEnd (c'.ending object) (.ok none w) := by
  obtain ⟨frame, -, pc, hcode, rfl⟩ := h
  have hempty : (Surroundings.empty.pushResult none).Even := rfl
  have hhalt := ret_halts hcode.tail w
  refine ⟨1, _, exit_path hempty hcode _, .inl rfl, ?_, ?_⟩
  · intro pc' m' hgoto
    cases hhalt.symm.trans hgoto
  · have hending : Config.ending object ⟨pc + Instruction.exit.size, w.machine #[] [] #[]⟩ =
        .ok none (w.machine #[] [] #[]) := by
      rw [Config.ending, hhalt]
    exact hending ▸ .completed ⟨rfl, rfl, rfl⟩ ⟨rfl, rfl⟩

namespace Program

variable {P : Program}

/-- Where a run on an input text starts. -/
def origin (P : Program) (input : String) : Config :=
  ⟨P.object.mainPc.toNat, (P.start input).machine #[] [] #[]⟩

theorem bare_load (hg : P.globals.length ≤ maxAddress) (input : String) :
    ((Machine.load P.object).withInput input).bare = (P.origin input).machine := by
  have hdata : P.object.dataSize.toNat = P.globals.length := toNat_addressOf hg
  have hzeros : (P.globals.map zeroOf).toArray.map Value.rep =
      Array.replicate P.globals.length 0 := by
    simp [Function.comp_def, List.map_const']
  simp only [Machine.load, Machine.withInput, Machine.bare, origin, World.machine, start, hdata,
    hzeros, Array.map_empty]

namespace Typed

variable (h : P.Typed) (ho : codeSize P.code ≤ maxAddress) (hg : P.globals.length ≤ maxAddress)
  (input : String)
include h ho hg

theorem origin_simulated (n : Nat) :
    Simulates P.object n (P.origin input) (Completes P.object) (P.evaluate input n) := by
  obtain ⟨i, m, hi, hm, hsig⟩ := h.main
  have hparams : m.params = [] := congrArg Signature.params hsig
  cases n with
  | zero =>
      have hfound : (Eval.orStuck (some i) : Eval Nat) (P.start input) = .ok i (P.start input) :=
        rfl
      rw [evaluate, hi, bind_ok hfound]
      exact ⟨0, _, Nat.le_refl _, .refl _⟩
  | succ n =>
      rw [origin, toNat_mainPc hi ho]
      exact evaluate_simulated ho hg h.frame hi hm hparams input n

/-- The machine gets to an instruction that ends the run when the evaluation ends. -/
theorem reaches_end {n : Nat} (hr : Finished (P.evaluate input n)) :
    ∃ k c', Path P.object k (P.origin input) c' ∧ c'.machine.Balanced ∧ c'.IsLast P.object ∧
      SameEnd (c'.ending P.object) (P.evaluate input n) := by
  have hsim := h.origin_simulated ho hg input n
  have hsafe := h.evaluate_safe input n
  match hev : P.evaluate input n with
  | .ok r w =>
      rw [hev] at hsim hsafe
      obtain ⟨k, c, hp, hc⟩ := hsim
      obtain rfl : r = none := hsafe
      obtain ⟨j, c', hp', hrest⟩ := hc.reaches_end
      exact ⟨k + j, c', hp.trans hp', hrest⟩
  | .error (.failure f) w =>
      rw [hev] at hsim
      obtain ⟨k, pc, m, m', hp, hb, ha, hshows⟩ := hsim
      refine ⟨k, ⟨pc, m⟩, hp, hb, fun pc' m'' hgoto => ?_, ?_⟩
      · cases ha.symm.trans hgoto
      · have hending : Config.ending P.object ⟨pc, m⟩ = .error (f.fault pc) m' := by
          rw [Config.ending, ha]
        exact hending ▸ .failed f pc hshows
  | .error .stuck _ =>
      rw [hev] at hsafe
      exact absurd rfl hsafe
  | .error .exhausted _ | .error .outOfFuel _ =>
      rw [hev] at hr
      exact hr.elim

/-- A run meets a limit, goes on, makes more objects than can be told apart, or ends as the
evaluation does. -/
theorem run_outcome (limits : Limits) {fuel n : Nat} (hn : fuel < n) :
    Outcome (P.evaluate input n) (P.object.runOn input limits fuel) := by
  have hm := bare_load hg input
  change Outcome _ (runFrom P.object limits fuel (P.origin input).pc _)
  by_cases hr : Finished (P.evaluate input n)
  · obtain ⟨k, c, hp, hb, hlast, hend⟩ := h.reaches_end ho hg input hr
    rcases hp.outcome hb hlast hm limits fuel with ⟨f, m, hrun, hf⟩ | ⟨pc, m, hrun, hbal⟩ | hended
    · exact hrun ▸ .limited m hf
    · exact hrun ▸ .running pc hbal
    · exact .ended (.of_bareResult (hended ▸ hend))
  · -- an evaluation that is cut short is a path that the run cannot leave
    have hpath : ∃ k c, Path P.object k (P.origin input) c ∧
        (maxObjects < c.machine.heap.size ∨ n ≤ k) := by
      have hsim := h.origin_simulated ho hg input n
      match hev : P.evaluate input n with
      | .ok _ _ | .error (.failure _) _ | .error .stuck _ =>
          rw [hev] at hr
          exact absurd trivial hr
      | .error .exhausted _ =>
          rw [hev] at hsim
          obtain ⟨k, c, hp, hheap⟩ := hsim
          exact ⟨k, c, hp, .inl hheap⟩
      | .error .outOfFuel _ =>
          rw [hev] at hsim
          obtain ⟨k, c, hk, hp⟩ := hsim
          exact ⟨k, c, hp, .inr hk⟩
    obtain ⟨k, c, hp, hlong⟩ := hpath
    rcases hp.follow hm limits fuel with
      ⟨f, m, hrun, hf⟩ | ⟨-, pc, m, hrun, hbal⟩ | ⟨hle, m, hm', hrest⟩
    · exact hrun ▸ .limited m hf
    · exact hrun ▸ .running pc hbal
    · have hheap : maxObjects < c.machine.heap.size := hlong.resolve_right (by omega)
      rw [← hm', Machine.bare_heap] at hheap
      rw [hrest]
      exact .crowded (Nat.lt_of_lt_of_le hheap (Exec.runFrom_heap _ _ _ _ _))

end Typed

end Program

end Resolved

end MicroJava
