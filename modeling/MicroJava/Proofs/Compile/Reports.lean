import Mathlib.Data.List.Basic
import MicroJava.Proofs.Compile.Syntax

/-! # What the options can change

The options are read when the log is turned into a report. The distance decides which errors are
held back, but never whether there is one: the first error is kept whatever the distance, since
reading starts afresh only behind an error. Strictness moves the remarks about overflowing numbers
from the warnings to the errors and touches nothing else. -/

namespace MicroJava

/-! ## Two reporters at different distances -/

namespace Reporter

variable {μ : Type} {r r' : Reporter μ}

/-- The first reporter keeps whatever the second one keeps. -/
structure Laxer (r r' : Reporter μ) : Prop where
  minDistance : r.minDistance ≤ r'.minDistance
  /-- The second reporter is at least as far from keeping the next error. -/
  distance : r.minDistance + r'.distance ≤ r'.minDistance + r.distance
  errors : r'.errors.toList.Sublist r.errors.toList
  warnings : r'.warnings = r.warnings

theorem laxer_new {d d' : Nat} (h : d ≤ d') : Laxer (new d : Reporter μ) (new d') :=
  ⟨h, Nat.le_of_eq (Nat.add_comm ..), .refl _, rfl⟩

theorem Laxer.keeps (h : Laxer r r') (hk : r'.keeps = true) : r.keeps = true := by
  rw [keeps_iff] at hk ⊢
  have hd := h.distance
  omega

theorem sublist_push {α : Type} {xs ys : Array α} (h : ys.toList.Sublist xs.toList) (a : α) :
    (ys.push a).toList.Sublist (xs.push a).toList := by
  simpa using h.append_right [a]

theorem Laxer.record (h : Laxer r r') (e : Event μ) : Laxer (r.record e) (r'.record e) := by
  have hreset : r.minDistance + 0 ≤ r'.minDistance + 0 := h.minDistance
  cases e with
  | consumed =>
      have hd := h.distance
      refine ⟨h.minDistance, ?_, h.errors, h.warnings⟩
      simp only [Reporter.record]
      omega
  | resynced => exact ⟨h.minDistance, hreset, h.errors, h.warnings⟩
  | unthrottled d => exact ⟨h.minDistance, h.distance, sublist_push h.errors d, h.warnings⟩
  | warning d => exact ⟨h.minDistance, h.distance, h.errors, congrArg (·.push d) h.warnings⟩
  | error d =>
      simp only [Reporter.record]
      by_cases hk' : r'.keeps = true
      · rw [if_pos (h.keeps hk'), if_pos hk']
        exact ⟨h.minDistance, hreset, sublist_push h.errors d, h.warnings⟩
      · rw [if_neg hk']
        split
        · have hpush : r.errors.toList.Sublist (r.errors.push d).toList := by simp
          exact ⟨h.minDistance, hreset, h.errors.trans hpush, h.warnings⟩
        · exact ⟨h.minDistance, hreset, h.errors, h.warnings⟩

theorem Laxer.recordAll (h : Laxer r r') (events : List (Event μ)) :
    Laxer (r.recordAll events) (r'.recordAll events) := by
  induction events generalizing r r' with
  | nil => exact h
  | cons e events ih => exact ih (h.record e)

/-! ## Errors and warnings of a run -/

/-- Errors that are not throttled are all kept. -/
theorem errors_of_unthrottled (r : Reporter μ) {events : List (Event μ)}
    (h : ∀ d, .error d ∉ events) :
    (r.recordAll events).errors.toList = r.errors.toList ++ events.filterMap Event.error? := by
  induction events generalizing r with
  | nil => simp [Reporter.recordAll]
  | cons e events ih =>
      have hrest := ih (r.record e) fun d hd => h d (List.mem_cons_of_mem _ hd)
      change ((r.record e).recordAll events).errors.toList = _
      rw [hrest, List.filterMap_cons]
      cases e with
      | error d => exact absurd (List.mem_cons_self ..) (h d)
      | unthrottled d => simp [Reporter.record, Event.error?]
      | consumed | resynced | warning => rfl

theorem errors_pos_of_unthrottled (r : Reporter μ) {events : List (Event μ)} {d : Diagnostic μ}
    (h : .unthrottled d ∈ events) : 0 < (r.recordAll events).errors.size := by
  induction events generalizing r with
  | nil => simp at h
  | cons e events ih =>
      change 0 < ((r.record e).recordAll events).errors.size
      rcases List.mem_cons.1 h with rfl | h
      · refine Nat.lt_of_lt_of_le ?_ (size_errors_recordAll _ _)
        simp [Reporter.record]
      · exact ih (r.record e) h

end Reporter

/-- The warning that an event carries. -/
def Event.warning? {μ : Type} : Event μ → Option (Diagnostic μ)
  | .warning d => some d
  | _ => none

theorem Reporter.warnings_recordAll {μ : Type} (r : Reporter μ) (events : List (Event μ)) :
    (r.recordAll events).warnings.toList =
      r.warnings.toList ++ events.filterMap Event.warning? := by
  induction events generalizing r with
  | nil => simp [Reporter.recordAll]
  | cons e events ih =>
      change ((r.record e).recordAll events).warnings.toList = _
      rw [ih (r.record e), List.filterMap_cons]
      cases e with
      | error d =>
          simp only [Reporter.record]
          split <;> rfl
      | warning d => simp [Reporter.record, Event.warning?]
      | consumed | resynced | unthrottled => rfl

/-! ## Logs -/

/-- The warning that a log entry is reported as. -/
def LogEntry.warning? (strictLiterals : Bool) (e : LogEntry) : Option (Diagnostic Problem) :=
  (e.event strictLiterals).warning?

namespace Reporter

variable {strict : Bool} {log : List LogEntry}

/-- What carries no error is no problem. -/
theorem error_not_mem (h : ∀ e ∈ log, e.error? strict = none) (d : Diagnostic Problem) :
    .error d ∉ log.map (LogEntry.event strict) := by
  intro hmem
  obtain ⟨e, he, hevent⟩ := List.mem_map.1 hmem
  have hnone := h e he
  rw [LogEntry.error?, hevent] at hnone
  cases hnone

/-- At every distance, no error is kept exactly when none was raised. -/
theorem errors_eq_empty_iff (strict : Bool) (hlog : Explained log) (distance : Nat) :
    ((new distance).recordAll (log.map (LogEntry.event strict))).errors = #[] ↔
      ∀ e ∈ log, e.error? strict = none := by
  constructor
  · intro h e he
    have hnone : ¬ 0 < ((new distance).recordAll (log.map (LogEntry.event strict))).errors.size := by
      simp [h]
    cases hevent : e.event strict with
    | consumed | resynced | warning => simp [LogEntry.error?, hevent, Event.error?]
    | unthrottled d =>
        exact absurd (errors_pos_of_unthrottled _ (List.mem_map.2 ⟨e, he, hevent⟩)) hnone
    | error d =>
        have hproblem : e.isProblem = true := by
          cases e with
          | problem => rfl
          | issue i => cases i <;> cases strict <;> cases hevent
          | consumed | resynced => cases hevent
        have hkeeps : (new distance : Reporter Problem).keeps = true := by simp [keeps, new]
        exact absurd (errors_of_problem strict _ hkeeps hlog ⟨e, he, hproblem⟩) hnone
  · intro h
    have hall := errors_of_unthrottled (new distance) (error_not_mem h)
    rw [List.filterMap_map] at hall
    exact Array.toList_eq_nil_iff.1 (hall.trans (List.filterMap_eq_nil_iff.2 h))

end Reporter

/-! ## Reports of a draft -/

namespace Draft

variable {d : Draft} {strict : Bool}

/-- No error was raised, and the program fits. -/
structure Flawless (d : Draft) (strictLiterals : Bool) : Prop where
  log : ∀ e ∈ d.log, e.error? strictLiterals = none
  fits : d.fits = true

theorem report_of_fits (h : d.fits = true) (options : Options) :
    d.report options = (Reporter.new options.errorDistance).recordAll
      (d.log.map (LogEntry.event options.strictLiterals)) := by
  simp [Draft.report, h]

theorem warnings_report (d : Draft) (options : Options) :
    (d.report options).warnings.toList =
      d.log.filterMap (LogEntry.warning? options.strictLiterals) := by
  have hall := Reporter.warnings_recordAll (.new options.errorDistance)
    (d.log.map (LogEntry.event options.strictLiterals))
  rw [List.filterMap_map] at hall
  simp only [Draft.report]
  split <;> exact hall

theorem errors_report_eq_empty_iff (hlog : Explained d.log) (distance : Nat) :
    (d.report ⟨strict, distance⟩).errors = #[] ↔ d.Flawless strict := by
  constructor
  · intro h
    obtain ⟨-, hover, hsize⟩ := quiet_of_errors hlog h
    have hfits : d.fits = true := by simp [Draft.fits, hover, hsize]
    rw [report_of_fits hfits] at h
    exact ⟨(Reporter.errors_eq_empty_iff strict hlog distance).1 h, hfits⟩
  · intro h
    rw [report_of_fits h.fits]
    exact (Reporter.errors_eq_empty_iff strict hlog distance).2 h.log

/-- Errors that are reported at some distance are among those reported at a smaller one. -/
theorem errors_report_sublist (strict : Bool) (hlog : Explained d.log) {near far : Nat}
    (h : near ≤ far) :
    (d.report ⟨strict, far⟩).errors.toList.Sublist (d.report ⟨strict, near⟩).errors.toList := by
  have hlax := (Reporter.laxer_new h).recordAll (d.log.map (LogEntry.event strict))
  have hnear := Reporter.errors_eq_empty_iff strict hlog near
  have hfar := Reporter.errors_eq_empty_iff strict hlog far
  cases hfits : d.fits with
  | true =>
      rw [report_of_fits hfits, report_of_fits hfits]
      exact hlax.errors
  | false =>
      by_cases hraised : ∀ e ∈ d.log, e.error? strict = none
      · -- that the program is too large is reported at both distances
        simp [Draft.report, hfits, hnear.2 hraised, hfar.2 hraised, Reporter.record]
      · have hnear' := hnear.not.2 hraised
        have hfar' := hfar.not.2 hraised
        simpa [Draft.report, hfits, hnear', hfar'] using hlax.errors

end Draft

/-- Every fresh start in the log of a text has its reason. -/
theorem Draft.explained_ofString (source : String) : Explained (ofString source).log := by
  unfold ofString
  generalize Upcoming.ofTokens (TokenList.ofString source) = up
  rw [ofUpcoming_eq up (Prod.eta _).symm]
  obtain ⟨added, hlog, hadded⟩ :=
    ((inferInstance : Check.Growing (Check.program (Program.read up))).grows (Pass.start up)).log
  generalize Check.program (Program.read up) (Pass.start up) = final at hlog ⊢
  change Explained final.2.log.toList
  rw [hlog]
  exact (log_start up).1.append hadded

theorem compile_eq (source : String) (options : Options) :
    compile source options =
      { errors := ((Draft.ofString source).report options).errors.toList
        warnings := ((Draft.ofString source).report options).warnings.toList
        code := (Draft.ofString source).code.toObject (Draft.ofString source).dataSize } := rfl

theorem errors_compile_eq_nil_iff (source : String) (strict : Bool) (distance : Nat) :
    (compile source ⟨strict, distance⟩).errors = [] ↔ (Draft.ofString source).Flawless strict := by
  rw [← Draft.errors_report_eq_empty_iff (Draft.explained_ofString source) distance, compile_eq,
    Array.toList_eq_nil_iff]

/-- A compilation without errors comes from a pass that finds none, over a tree without gaps. -/
theorem over_of_compile {source : String} {strict : Bool} {distance : Nat}
    (h : (compile source ⟨strict, distance⟩).errors = []) :
    (Pass.over source).2.errors strict = [] ∧ (Program.ofString source).outline.gaps = 0 := by
  have hnone : (compile source ⟨strict, 0⟩).errors = [] := by
    rw [errors_compile_eq_nil_iff] at h ⊢
    exact h
  constructor
  · rcases errors_compile source strict with heq | ⟨-, hover⟩
    · rw [← heq, hnone]
    · exact hover
  · rw [← gaps_over, ← isSyntactic_errors source strict, hnone]
    simp

/-- Whatever the text, a larger distance only drops errors from the report, and never all of them:
at every distance a compilation succeeds exactly when no error was raised at all. -/
theorem compile_throttled (source : String) (strict : Bool) {near far : Nat} (h : near ≤ far) :
    (compile source ⟨strict, far⟩).code = (compile source ⟨strict, near⟩).code ∧
      (compile source ⟨strict, far⟩).warnings = (compile source ⟨strict, near⟩).warnings ∧
      (compile source ⟨strict, far⟩).errors.Sublist (compile source ⟨strict, near⟩).errors ∧
      ((compile source ⟨strict, far⟩).errors = [] ↔ (compile source ⟨strict, near⟩).errors = []) ∧
      ∀ distance, (compile source ⟨strict, distance⟩).errors = [] ↔
        (Draft.ofString source).Flawless strict := by
  have hiff := errors_compile_eq_nil_iff source strict
  refine ⟨rfl, ?_, ?_, (hiff far).trans (hiff near).symm, hiff⟩
  · rw [compile_eq, compile_eq, Draft.warnings_report, Draft.warnings_report]
  · simp only [compile_eq]
    exact Draft.errors_report_sublist strict (Draft.explained_ofString source) h

/-- Two undeclared names in one statement: the second one is held back at distance three. -/
theorem compile_throttled_undeclared :
    let text := "program P \x7b void main() \x7b x = y; \x7d \x7d"
    (compile text ⟨false, 0⟩).errors.length = 2 ∧ (compile text ⟨false, 3⟩).errors.length = 1 ∧
      (compile text ⟨false, 3⟩).code = (compile text ⟨false, 0⟩).code ∧
      (compile text ⟨false, 3⟩).errors.Sublist (compile text ⟨false, 0⟩).errors := by
  have hnear : (compile "program P \x7b void main() \x7b x = y; \x7d \x7d"
      ⟨false, 0⟩).errors.length = 2 := by
    decide +kernel
  have hfar : (compile "program P \x7b void main() \x7b x = y; \x7d \x7d"
      ⟨false, 3⟩).errors.length = 1 := by
    decide +kernel
  obtain ⟨hcode, -, hsub, -⟩ := compile_throttled
    "program P \x7b void main() \x7b x = y; \x7d \x7d" false (by decide : 0 ≤ 3)
  exact ⟨hnear, hfar, hcode, hsub⟩

/-! ## Strict and lenient literals -/

theorem LogEntry.warning?_strict (e : LogEntry) : e.warning? true = none := by
  cases e with
  | issue i => cases i <;> rfl
  | consumed | resynced | problem => rfl

/-- What is no error for the lenient is an error for the strict where it is a warning otherwise. -/
theorem LogEntry.error?_strict {e : LogEntry} (h : e.error? false = none) :
    e.error? true = e.warning? false := by
  cases e with
  | problem => cases h
  | issue i =>
      cases i with
      | numberOverflow => rfl
      | emptyChar | invalidEscape | invalidChar | unterminatedChar => cases h
  | consumed | resynced => rfl

theorem LogEntry.error?_of_strict {e : LogEntry} (h : e.error? true = none) :
    e.error? false = none ∧ e.warning? false = none := by
  cases e with
  | problem => cases h
  | issue i => cases i <;> cases h
  | consumed | resynced => exact ⟨rfl, rfl⟩

theorem Draft.flawless_strict_iff (d : Draft) :
    d.Flawless true ↔ d.Flawless false ∧ d.log.filterMap (LogEntry.warning? false) = [] := by
  rw [List.filterMap_eq_nil_iff]
  constructor
  · intro h
    exact ⟨⟨fun e he => (LogEntry.error?_of_strict (h.log e he)).1, h.fits⟩,
      fun e he => (LogEntry.error?_of_strict (h.log e he)).2⟩
  · rintro ⟨h, hnone⟩
    exact ⟨fun e he => (LogEntry.error?_strict (h.log e he)).trans (hnone e he), h.fits⟩

/-- Where the lenient find no error, the errors of the strict are the warnings of the lenient. -/
theorem Draft.Flawless.errors_strict {d : Draft} (h : d.Flawless false) (distance : Nat) :
    (d.report ⟨true, distance⟩).errors.toList = d.log.filterMap (LogEntry.warning? false) := by
  have hunthrottled : ∀ x, .error x ∉ d.log.map (LogEntry.event true) := by
    intro x hmem
    obtain ⟨e, he, hevent⟩ := List.mem_map.1 hmem
    have hnone := h.log e he
    cases e with
    | problem => cases hnone
    | issue i => cases i <;> cases hevent
    | consumed | resynced => cases hevent
  have hall := Reporter.errors_of_unthrottled (.new distance) hunthrottled
  rw [List.filterMap_map] at hall
  rw [report_of_fits h.fits]
  calc
    _ = d.log.filterMap (LogEntry.error? true) := hall
    _ = d.log.filterMap (LogEntry.warning? false) :=
      List.filterMap_congr fun e he => LogEntry.error?_strict (h.log e he)

/-- Whatever the text and the distance, strictness changes the report and nothing else: the strict
have no warnings, they accept what the lenient accept without a warning, and where the lenient find
no error, the errors of the strict are the warnings of the lenient. -/
theorem compile_strict (source : String) (distance : Nat) :
    (compile source ⟨true, distance⟩).code = (compile source ⟨false, distance⟩).code ∧
      (compile source ⟨true, distance⟩).warnings = [] ∧
      ((compile source ⟨true, distance⟩).errors = [] ↔
        (compile source ⟨false, distance⟩).errors = [] ∧
          (compile source ⟨false, distance⟩).warnings = []) ∧
      ((compile source ⟨false, distance⟩).errors = [] →
        (compile source ⟨true, distance⟩).errors = (compile source ⟨false, distance⟩).warnings) := by
  have hwarnings (strict : Bool) : (compile source ⟨strict, distance⟩).warnings =
      (Draft.ofString source).log.filterMap (LogEntry.warning? strict) := by
    rw [compile_eq, Draft.warnings_report]
  refine ⟨rfl, ?_, ?_, ?_⟩
  · rw [hwarnings, List.filterMap_eq_nil_iff]
    exact fun e _ => e.warning?_strict
  · rw [errors_compile_eq_nil_iff, errors_compile_eq_nil_iff, hwarnings]
    exact Draft.flawless_strict_iff _
  · intro h
    rw [hwarnings]
    simp only [compile_eq]
    exact ((errors_compile_eq_nil_iff source false distance).1 h).errors_strict distance

/-- A number that is too large: one warning for the lenient, and the same remark as an error for the
strict. -/
theorem compile_strict_overflow :
    let text := "program P \x7b void main() \x7b print(2147483648); \x7d \x7d"
    (compile text ⟨false, 3⟩).errors = [] ∧ (compile text ⟨false, 3⟩).warnings.length = 1 ∧
      (compile text ⟨true, 3⟩).errors = (compile text ⟨false, 3⟩).warnings := by
  have hlenient : (compile "program P \x7b void main() \x7b print(2147483648); \x7d \x7d"
      ⟨false, 3⟩).errors = [] := by
    decide +kernel
  have hwarning : (compile "program P \x7b void main() \x7b print(2147483648); \x7d \x7d"
      ⟨false, 3⟩).warnings.length = 1 := by
    decide +kernel
  exact ⟨hlenient, hwarning, (compile_strict _ 3).2.2.2 hlenient⟩

end MicroJava
