import MicroJava.Proofs.Machine.Unlimited

/-! # Paths

The course of a machine from one instruction to a later one, without limits. A run follows the path
from where it starts, as far as its fuel and its limits allow. -/

namespace MicroJava

/-- Every return address has a frame, and the method that runs has one of its own between its entry
and its exit. -/
def Machine.Balanced (m : Machine) : Prop :=
  m.frames.length = m.calls.size ∨ m.frames.length = m.calls.size + 1

/-- A machine that is about to carry out an instruction. -/
structure Config where
  pc : Nat
  machine : Machine

open Exec (advance runFrom bareResult)

namespace Config

/-- How a run ends whose last instruction is the one at the given place. -/
def ending (object : ObjectFile) (c : Config) : EStateM.Result Fault Machine (Option Nat) :=
  match advance object c.pc c.machine with
  | .ok _ m => .ok none m
  | .error f m => .error f m

/-- A run does not go on from here. -/
def IsLast (object : ObjectFile) (c : Config) : Prop :=
  ∀ pc m, advance object c.pc c.machine ≠ .ok (.goto pc) m

theorem IsLast.runFrom_eq {object : ObjectFile} {c : Config} {limits : Limits} {m : Machine}
    (h : c.IsLast object) (fuel : Nat)
    (hs : advance object c.pc c.machine = bareResult (Exec.step object limits c.pc m)) :
    bareResult (runFrom object limits (fuel + 1) c.pc m) = c.ending object := by
  rw [runFrom, ending, hs]
  cases hr : Exec.step object limits c.pc m with
  | error f m' =>
      rw [bind_error hr]
      rfl
  | ok control m' =>
      rw [bind_ok hr]
      cases control with
      | goto pc =>
          rw [hr] at hs
          exact absurd hs (h pc m'.bare)
      | halt => rfl

end Config

/-- That many instructions lead from one place to another. -/
inductive Path (object : ObjectFile) : Nat → Config → Config → Prop
  | refl (c : Config) : Path object 0 c c
  | cons {k : Nat} {pc pc' : Nat} {m m' : Machine} {c : Config} (hb : m.Balanced)
      (h : advance object pc m = .ok (.goto pc') m') (hp : Path object k ⟨pc', m'⟩ c) :
      Path object (k + 1) ⟨pc, m⟩ c

namespace Path

variable {object : ObjectFile} {k j : Nat} {c c' d : Config}

theorem single {pc pc' : Nat} {m m' : Machine} (hb : m.Balanced)
    (h : advance object pc m = .ok (.goto pc') m') : Path object 1 ⟨pc, m⟩ ⟨pc', m'⟩ :=
  .cons hb h (.refl _)

theorem trans (h : Path object k c c') (h' : Path object j c' d) : Path object (k + j) c d := by
  induction h with
  | refl => rwa [Nat.zero_add]
  | @cons k _ _ _ _ _ hb h hp ih =>
      rw [Nat.add_right_comm]
      exact .cons hb h (ih h')

theorem ok_of_bareResult {α : Type} {r : EStateM.Result Fault Machine α} {a : α} {m : Machine}
    (h : .ok a m = bareResult r) : ∃ m', r = .ok a m' ∧ m'.bare = m := by
  cases r with
  | ok b m' =>
      cases h
      exact ⟨m', rfl, rfl⟩
  | error e m' => cases h

/-- A run follows the path until a limit or the lack of fuel ends it. -/
theorem follow (hp : Path object k c c') {m : Machine} (hm : m.bare = c.machine) (limits : Limits)
    (fuel : Nat) :
    (∃ f m', runFrom object limits fuel c.pc m = .error f m' ∧ f.isLimit) ∨
    (fuel < k ∧ ∃ pc' m', runFrom object limits fuel c.pc m = .ok (some pc') m' ∧ m'.Balanced) ∨
    (k ≤ fuel ∧ ∃ m', m'.bare = c'.machine ∧
      runFrom object limits fuel c.pc m = runFrom object limits (fuel - k) c'.pc m') := by
  induction hp generalizing m fuel with
  | refl => exact .inr (.inr ⟨Nat.zero_le _, m, hm, rfl⟩)
  | @cons k pc pc' m₀ m₁ c hb h hp ih =>
      cases fuel with
      | zero =>
          have hbal : m.Balanced := by
            change m.bare.Balanced
            rwa [hm]
          exact .inr (.inl ⟨Nat.succ_pos _, pc, m, rfl, hbal⟩)
      | succ fuel =>
          rw [runFrom]
          rcases Exec.step_course object limits pc m with ⟨f, m', hr, hf, -⟩ | hcourse
          · exact .inl ⟨f, m', bind_error hr, hf⟩
          · rw [hm, h] at hcourse
            obtain ⟨m', hr, hm'⟩ := ok_of_bareResult hcourse
            rw [bind_ok hr]
            rcases ih hm' fuel with hlimit | ⟨hlt, hstop⟩ | ⟨hle, hrest⟩
            · exact .inl hlimit
            · exact .inr (.inl ⟨Nat.succ_lt_succ hlt, hstop⟩)
            · exact .inr (.inr ⟨Nat.succ_le_succ hle, by rwa [Nat.add_sub_add_right]⟩)

/-- A run along a path to its last instruction: it gets there, or it stops on the way. -/
theorem outcome {m : Machine} (hp : Path object k c c') (hb : c'.machine.Balanced)
    (hlast : c'.IsLast object) (hm : m.bare = c.machine) (limits : Limits) (fuel : Nat) :
    (∃ f m', runFrom object limits fuel c.pc m = .error f m' ∧ f.isLimit) ∨
    (∃ pc' m', runFrom object limits fuel c.pc m = .ok (some pc') m' ∧ m'.Balanced) ∨
    bareResult (runFrom object limits fuel c.pc m) = c'.ending object := by
  rcases hp.follow hm limits fuel with hlimit | ⟨-, hstop⟩ | ⟨-, m₂, hm₂, hrest⟩
  · exact .inl hlimit
  · exact .inr (.inl hstop)
  · rw [hrest]
    cases hfuel : fuel - k with
    | zero =>
        have hbal : m₂.Balanced := by
          change m₂.bare.Balanced
          rwa [hm₂]
        exact .inr (.inl ⟨c'.pc, m₂, rfl, hbal⟩)
    | succ n =>
        rcases Exec.step_course object limits c'.pc m₂ with ⟨f, m₃, hs, hf, -⟩ | hcourse
        · exact .inl ⟨f, m₃, by rw [runFrom, bind_error hs], hf⟩
        · exact .inr (.inr (hlast.runFrom_eq n (hm₂ ▸ hcourse)))

end Path

end MicroJava
