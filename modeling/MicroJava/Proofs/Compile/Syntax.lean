import MicroJava.Proofs.Compile.Handles
import MicroJava.Proofs.Compile.Outline
import MicroJava.Proofs.Tree.Recognition

/-! # Syntax errors and the grammar

With an error distance of zero nothing is held back: the errors of a text are what the log says. So
the text is free of syntax errors if its tree has no gap, and that is so if the grammar derives it.
-/

namespace MicroJava

/-! ## Reports that hold nothing back -/

/-- The error that an event carries. -/
def Event.error? {μ : Type} : Event μ → Option (Diagnostic μ)
  | .error d | .unthrottled d => some d
  | _ => none

theorem Reporter.errors_recordAll {μ : Type} (r : Reporter μ) (h : r.minDistance = 0)
    (events : List (Event μ)) :
    (r.recordAll events).errors.toList = r.errors.toList ++ events.filterMap Event.error? := by
  induction events generalizing r with
  | nil => simp [recordAll]
  | cons e events ih =>
      have hone : (r.record e).minDistance = 0 ∧
          (r.record e).errors.toList = r.errors.toList ++ e.error?.toList := by
        have hkeeps : r.keeps = true := r.keeps_iff.2 (h ▸ Nat.zero_le _)
        cases e <;> simp [record, Event.error?, hkeeps, h]
      change (recordAll (r.record e) events).errors.toList = _
      rw [ih _ hone.1, hone.2, List.append_assoc, List.filterMap_cons]
      cases e.error? <;> rfl

/-- The error that a log entry is reported as, if nothing is held back. -/
def LogEntry.error? (strictLiterals : Bool) (e : LogEntry) : Option (Diagnostic Problem) :=
  (e.event strictLiterals).error?

/-- The errors that the pass over a text finds. -/
def Pass.errors (strictLiterals : Bool) (p : Pass) : List (Diagnostic Problem) :=
  p.log.toList.filterMap (LogEntry.error? strictLiterals)

theorem errors_compile (source : String) (strict : Bool) :
    (compile source ⟨strict, 0⟩).errors = (Pass.over source).2.errors strict ∨
      (compile source ⟨strict, 0⟩).errors =
        [⟨.tooLarge, (Pass.over source).2.upcoming.ahead.pos⟩] ∧
      (Pass.over source).2.errors strict = [] := by
  unfold compile Draft.ofString Pass.over Program.ofString
  generalize Upcoming.ofTokens (TokenList.ofString source) = up
  rw [Draft.ofUpcoming_eq up (Prod.eta _).symm]
  generalize Check.program (Program.read up) (Pass.start up) = q
  have hall := Reporter.errors_recordAll (.new 0) rfl (q.2.log.toList.map (LogEntry.event strict))
  rw [List.filterMap_map] at hall
  simp only [Draft.report]
  split
  · next hempty =>
      simp only [Bool.and_eq_true, Array.isEmpty_iff] at hempty
      have hnone := hall
      rw [hempty.2] at hnone
      exact .inr ⟨by simp [Reporter.record, hempty.2], hnone.symm⟩
  · exact .inl hall

theorem isSyntactic_error (strict : Bool) (e : LogEntry) :
    (∀ d, e.error? strict = some d → d.message.isSyntactic = false) ↔ e.isGap = false := by
  cases e with
  | issue i pos => cases i <;> cases strict <;> simp [LogEntry.error?, LogEntry.event,
      Event.error?, LogEntry.isGap]
  | _ => simp [LogEntry.error?, LogEntry.event, Event.error?, LogEntry.isGap]

/-- Errors are syntactic where the pass met a gap. -/
theorem isSyntactic_errors (source : String) (strict : Bool) :
    (∀ d ∈ (compile source ⟨strict, 0⟩).errors, d.message.isSyntactic = false) ↔
      (Pass.over source).2.gaps = 0 := by
  have hlog : (∀ d ∈ (Pass.over source).2.errors strict, d.message.isSyntactic = false) ↔
      (Pass.over source).2.gaps = 0 := by
    simp only [Pass.errors, Pass.gaps, List.mem_filterMap, List.countP_eq_zero,
      Bool.not_eq_true, ← isSyntactic_error strict]
    constructor
    · exact fun h e he d hd => h d ⟨e, he, hd⟩
    · rintro h d ⟨e, he, hd⟩
      exact h e he d hd
  rcases errors_compile source strict with heq | ⟨heq, hnone⟩
  · rw [heq, hlog]
  · rw [heq, ← hlog, hnone]
    simp

/-! ## Gaps and derivations -/

theorem gaps_over (source : String) :
    (Pass.over source).2.gaps = (Program.ofString source).outline.gaps := by
  have hwalks := (Check.walks_program (Program.ofString source)
    (Pass.start (Upcoming.ofTokens (TokenList.ofString source)))).gaps
  have hstart : ∀ up : Upcoming, (Pass.start up).gaps = 0 := by
    intro up
    simp only [Pass.gaps, Pass.start, Pass.arrival]
    split <;> simp [LogEntry.isGap]
  rwa [hstart, Nat.zero_add] at hwalks

/-- A tree without gaps was read from all tokens of the text. -/
theorem spans_of_gaps {source : String} (h : (Program.ofString source).outline.gaps = 0) :
    Spans 0 (Program.ofString source).outline (Program.ofString source).written
      (TokenList.ofString source).tokens (.rule .program) := by
  have hc := Upcoming.closed_ofString source
  have hlen := Upcoming.length_later_ofTokens (TokenList.ofString source)
  have hall := Upcoming.tokens_ofTokens (TokenList.ofString source)
  unfold Program.ofString Program.read at h ⊢
  generalize Upcoming.ofTokens (TokenList.ofString source) = up at h hc hlen hall ⊢
  obtain ⟨ts, hts, hspans, hend⟩ := Upcoming.spans_read hc
  have hsame : ts = (TokenList.ofString source).tokens := by
    exact (List.append_inj (hts.symm.trans hall) ((hend h).trans hlen)).1
  exact hsame ▸ hspans

/-- A tree without gaps was read from a text that the grammar derives. -/
theorem derives_of_gaps {source : String} (h : (Program.ofString source).outline.gaps = 0) :
    Derives (.rule .program) ((TokenList.ofString source).tokens.map (·.kind)) :=
  (spans_of_gaps h).derives h

/-- A text that the grammar derives is read without gaps. -/
theorem gaps_of_derives {source : String}
    (h : Derives (.rule .program) ((TokenList.ofString source).tokens.map (·.kind))) :
    (Program.ofString source).outline.gaps = 0 := by
  have hlen := Upcoming.length_later_ofTokens (TokenList.ofString source)
  have hkinds := TokenList.kinds_ofString source
  rw [← Upcoming.tokens_ofTokens] at hkinds
  unfold Program.ofString Program.read
  generalize Upcoming.ofTokens (TokenList.ofString source) = up at hlen hkinds ⊢
  refine (Reader.accepts_program h ?_ (List.cons_ne_nil _ _) (.start up) hkinds).1
  rw [List.length_map, hlen]
  exact Nat.lt_succ_self _

/-- Whatever the text, no syntax error is reported if and only if the grammar derives the kinds of
its tokens, with the end mark behind them. -/
theorem compile_grammatical (source : String) (strict : Bool) :
    (∀ d ∈ (compile source ⟨strict, 0⟩).errors, d.message.isSyntactic = false) ↔
      ∃ v, (TokenList.ofString source).all.map (·.kind) = v ++ [.eof] ∧
        Derives (.rule .program) v := by
  rw [isSyntactic_errors, gaps_over, TokenList.kinds_ofString]
  constructor
  · exact fun h => ⟨_, rfl, derives_of_gaps h⟩
  · rintro ⟨v, hv, hd⟩
    obtain rfl := (List.append_inj' hv rfl).1
    exact gaps_of_derives hd

end MicroJava
