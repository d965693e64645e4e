import MicroJava.Proofs.Compile.Faultless
import MicroJava.Proofs.Compile.Outline
import MicroJava.Proofs.Tree.Progress

/-! # The pass follows the reading

A tree is read to its end before the pass walks it, but one that checks each part as soon as it is
read would see the same tokens: started at the token where a part was read, the pass over this part
stops at the token where its reading stopped, after as many steps. This holds for every rule, so
every part of a text is walked in view of the tokens it was read from, however malformed the text
is. -/

namespace MicroJava

namespace Check

variable {α β : Type}

/-- Started at the same token, the pass over what was read stops where reading stopped, and both
have asked for the next token equally often. -/
def Lockstep (r : Reader α) (act : α → Check β) : Prop :=
  ∀ (up : Reading) (p : Pass), p.upcoming = up.toUpcoming →
    (act (r up).1 p).2.upcoming = (r up).2.toUpcoming ∧
      (act (r up).1 p).2.fetched + up.shifts = p.fetched + (r up).2.shifts

/-- Two walks along one outline are in step. -/
theorem Lockstep.of_outline {r : Reader α} {act : α → Check β} {outline : α → Outline}
    (hr : Reader.Asks r outline) (hact : ∀ a, Walks (act a) (outline a)) : Lockstep r act := by
  intro up p hup
  have hread : Reading.Took (outline (r up).1).tokens up (r up).2 := hr up
  have hwalk := hact (r up).1 p
  constructor
  · rw [hwalk.upcoming, hread.upcoming, hup]
  · rw [hwalk.fetched, hread.shifts]
    omega

theorem lockstep_designator (fuel : Nat) :
    Lockstep (Reader.designator fuel (Reader.expr fuel)) designator :=
  .of_outline (Reader.asks_designator (Reader.asks_expr fuel) fuel) walks_designator

theorem lockstep_expr (fuel : Nat) : Lockstep (Reader.expr fuel) expr :=
  .of_outline (Reader.asks_expr fuel) walks_expr

theorem lockstep_condition (fuel : Nat) :
    Lockstep (Reader.condition (Reader.expr fuel)) condition :=
  .of_outline (Reader.asks_condition (Reader.asks_expr fuel)) walks_condition

theorem lockstep_stmt (result : Ty) (fuel : Nat) : Lockstep (Reader.stmt fuel) (stmt result) :=
  .of_outline (Reader.asks_stmt fuel) (walks_stmt result)

theorem lockstep_declaration (fuel : Nat) : Lockstep (Reader.declaration fuel) declaration :=
  .of_outline (Reader.asks_declaration fuel) walks_declaration

theorem lockstep_method (fuel : Nat) : Lockstep (Reader.method fuel) method :=
  .of_outline (Reader.asks_method fuel) walks_method

theorem lockstep_program (fuel : Nat) : Lockstep (Reader.program fuel) program :=
  .of_outline (Reader.asks_program fuel) walks_program

end Check

/-- How often a draft asks for the next token. -/
def Draft.fetched (d : Draft) : Nat := d.log.countP LogEntry.isConsumed

theorem Pass.fetched_start (up : Upcoming) : (start up).fetched = 1 := by
  simp only [fetched, start, arrival]
  split <;> rfl

/-- The pass over a text asks for the tokens that reading asked for, besides the first one, which is
in view from the start, and it ends in view of the same token. -/
theorem Draft.follows_read (up : Upcoming) :
    (ofUpcoming up).fetched = up.read.2.shifts + 1 ∧
      (ofUpcoming up).endPos = up.read.2.ahead.pos := by
  have hread : Reader.program (up.later.length + 1) (.start up) = up.read := rfl
  have hstart : (Reading.start up).shifts = 0 := rfl
  have hsteps := Check.lockstep_program (up.later.length + 1) (.start up) (Pass.start up) rfl
  rw [hread, hstart, Pass.fetched_start, Nat.add_zero, Nat.add_comm] at hsteps
  rw [ofUpcoming_eq up (Prod.eta _).symm, Program.read]
  generalize Check.program up.read.1 (Pass.start up) = final at hsteps ⊢
  exact ⟨hsteps.2, congrArg (·.ahead.pos) hsteps.1⟩

end MicroJava
