import Mathlib.Data.List.DropRight
import MicroJava.Proofs.Compile.Reports

/-! # What the throttle keeps

The reporter sees one event at a time and remembers a count. What it keeps can be told from the
events alone: an error is kept if nothing before it started the count anew, or if enough tokens were
consumed since the last event that did. Dropped errors start the count anew as well, errors that are
not throttled never do. A count that stops at some bound is as good, as long as the distance that it
is compared with is within the bound. -/

namespace MicroJava

variable {μ : Type}

namespace Event

/-- Errors, kept or dropped, and resynchronisations start the count anew. -/
def restarts : Event μ → Bool
  | .error _ | .resynced => true
  | .consumed | .unthrottled _ | .warning _ => false

def isConsumed : Event μ → Bool
  | .consumed => true
  | .resynced | .error _ | .unthrottled _ | .warning _ => false

/-- The error that an event leaves in the report, given whether it is far enough from those before
it. -/
def kept? (clear : Bool) : Event μ → Option (Diagnostic μ)
  | .error d => if clear then some d else none
  | .unthrottled d => some d
  | .consumed | .resynced | .warning _ => none

/-! ## What came before -/

/-- The events behind the last one that starts the count anew; all of them if there is none. -/
def sinceRestart (past : List (Event μ)) : List (Event μ) := past.rtakeWhile fun e => !e.restarts

/-- Tokens consumed since the last error or resynchronisation. -/
def tokensSince (past : List (Event μ)) : Nat := (sinceRestart past).countP isConsumed

/-- There was no error and no resynchronisation. -/
def Untouched (past : List (Event μ)) : Prop := ∀ e ∈ past, e.restarts = false

instance (past : List (Event μ)) : Decidable (Untouched past) :=
  inferInstanceAs (Decidable (∀ e ∈ past, e.restarts = false))

/-- An error is far enough from those before it. -/
def Clear (minDistance : Nat) (past : List (Event μ)) : Prop :=
  Untouched past ∨ minDistance ≤ tokensSince past

instance (minDistance : Nat) (past : List (Event μ)) : Decidable (Clear minDistance past) :=
  inferInstanceAs (Decidable (_ ∨ _))

theorem untouched_concat (past : List (Event μ)) (e : Event μ) :
    Untouched (past ++ [e]) ↔ Untouched past ∧ e.restarts = false := by
  simp [Untouched, or_imp, forall_and]

theorem tokensSince_concat (past : List (Event μ)) (e : Event μ) :
    tokensSince (past ++ [e]) =
      if e.restarts then 0 else tokensSince past + if e.isConsumed then 1 else 0 := by
  rw [tokensSince, sinceRestart, List.rtakeWhile_concat]
  cases e.restarts
  · simp [tokensSince, sinceRestart, List.countP_append, List.countP_singleton]
  · rfl

end Event

namespace Reporter

/-! ## One event -/

theorem minDistance_record (r : Reporter μ) (e : Event μ) :
    (r.record e).minDistance = r.minDistance := by
  cases e with
  | error d => rw [record]; split <;> rfl
  | consumed | resynced | unthrottled | warning => rfl

theorem distance_record (r : Reporter μ) (e : Event μ) :
    (r.record e).distance =
      if e.restarts then 0 else r.distance + if e.isConsumed then 1 else 0 := by
  cases e with
  | error d => rw [record]; split <;> rfl
  | consumed | resynced | unthrottled | warning => rfl

theorem errors_record (r : Reporter μ) (e : Event μ) :
    (r.record e).errors.toList = r.errors.toList ++ (e.kept? r.keeps).toList := by
  cases e with
  | error d => cases hk : r.keeps <;> simp [record, Event.kept?, hk]
  | consumed | resynced | unthrottled | warning => simp [record, Event.kept?]

/-! ## Any number of events -/

theorem recordAll_concat (r : Reporter μ) (events : List (Event μ)) (e : Event μ) :
    r.recordAll (events ++ [e]) = (r.recordAll events).record e :=
  List.foldl_concat ..

theorem minDistance_recordAll (r : Reporter μ) (events : List (Event μ)) :
    (r.recordAll events).minDistance = r.minDistance := by
  induction events using List.reverseRecOn with
  | nil => rfl
  | append_singleton events e ih => rw [recordAll_concat, minDistance_record, ih]

/-- Up to the first error or resynchronisation the count is ahead by the distance it is compared
with. -/
theorem distance_recordAll (m : Nat) (events : List (Event μ)) :
    ((new m).recordAll events).distance =
      (if Event.Untouched events then m else 0) + Event.tokensSince events := by
  induction events using List.reverseRecOn with
  | nil => simp [recordAll, new, Event.Untouched, Event.tokensSince, Event.sinceRestart]
  | append_singleton events e ih =>
      rw [recordAll_concat, distance_record, ih, Event.tokensSince_concat]
      cases he : e.restarts <;> simp [Event.untouched_concat, he, Nat.add_assoc]

theorem keeps_recordAll (m : Nat) (events : List (Event μ)) :
    ((new m).recordAll events).keeps = true ↔ Event.Clear m events := by
  rw [keeps_iff, minDistance_recordAll, distance_recordAll, Event.Clear]
  by_cases h : Event.Untouched events <;> simp [h, new]

/-- The errors that the events leave in the report. -/
def keptErrors (m : Nat) (events : List (Event μ)) : List (Diagnostic μ) :=
  events.zipIdx.filterMap fun (e, i) => e.kept? (decide (Event.Clear m (events.take i)))

theorem keptErrors_concat (m : Nat) (events : List (Event μ)) (e : Event μ) :
    keptErrors m (events ++ [e]) =
      keptErrors m events ++ (e.kept? (decide (Event.Clear m events))).toList := by
  rw [keptErrors, List.zipIdx_append, List.filterMap_append]
  congr 1
  · refine List.filterMap_congr ?_
    rintro ⟨e', i⟩ hmem
    have hi : i ≤ events.length := Nat.le_of_lt (List.mem_zipIdx' hmem).1
    simp only [List.take_append_of_le_length hi]
  · have hpast : (events ++ [e]).take events.length = events := List.take_left
    simp only [List.zipIdx_singleton, Nat.zero_add, List.filterMap_cons, List.filterMap_nil, hpast]
    cases e.kept? _ <;> rfl

theorem errors_recordAll_new (m : Nat) (events : List (Event μ)) :
    ((new m).recordAll events).errors.toList = keptErrors m events := by
  induction events using List.reverseRecOn with
  | nil => rfl
  | append_singleton events e ih =>
      have hkeeps : ((new m).recordAll events).keeps = decide (Event.Clear m events) :=
        Bool.eq_iff_iff.2 ((keeps_recordAll m events).trans decide_eq_true_iff.symm)
      rw [recordAll_concat, errors_record, ih, hkeeps, keptErrors_concat]

/-! ## A count with a bound -/

/-- The reporter when the count goes no further than `limit`. -/
def upTo (limit : Nat) (r : Reporter μ) : Reporter μ :=
  { r with distance := min r.distance limit }

/-- The events on a count that stops at `limit`. -/
def recordAllUpTo (limit : Nat) (r : Reporter μ) (events : List (Event μ)) : Reporter μ :=
  events.foldl (fun r e => (r.record e).upTo limit) r

variable {limit : Nat} {r : Reporter μ}

theorem keeps_upTo (h : r.minDistance ≤ limit) : (r.upTo limit).keeps = r.keeps := by
  rw [Bool.eq_iff_iff, keeps_iff, keeps_iff]
  exact Nat.le_min.trans (and_iff_left h)

/-- What was cut off the count makes no difference to any event. -/
theorem record_upTo (h : r.minDistance ≤ limit) (e : Event μ) :
    ((r.upTo limit).record e).upTo limit = (r.record e).upTo limit := by
  cases e with
  | consumed =>
      have hcount : min (min r.distance limit + 1) limit = min (r.distance + 1) limit := by omega
      simp only [record, upTo, hcount]
  | error d =>
      rw [record, record, keeps_upTo h]
      cases r.keeps <;> simp [upTo]
  | resynced | unthrottled | warning => simp [record, upTo]

theorem recordAllUpTo_upTo (h : r.minDistance ≤ limit) (events : List (Event μ)) :
    (r.upTo limit).recordAllUpTo limit events = (r.recordAll events).upTo limit := by
  induction events generalizing r with
  | nil => rfl
  | cons e events ih =>
      calc
        (r.upTo limit).recordAllUpTo limit (e :: events) =
            (((r.upTo limit).record e).upTo limit).recordAllUpTo limit events := rfl
        _ = ((r.record e).upTo limit).recordAllUpTo limit events := by rw [record_upTo h]
        _ = (r.recordAll (e :: events)).upTo limit := ih (by rwa [minDistance_record])

/-! ## The report -/

/-- The report holds the errors that are far enough from those before them and those that are not
throttled, and all warnings; the next error is kept if it is far enough. -/
structure Exact (m : Nat) (events : List (Event μ)) (r : Reporter μ) : Prop where
  keeps : r.keeps = true ↔ Event.Clear m events
  errors : r.errors.toList = keptErrors m events
  warnings : r.warnings.toList = events.filterMap Event.warning?

theorem exact_recordAll (m : Nat) (events : List (Event μ)) :
    ((new m).recordAll events).Exact m events :=
  ⟨keeps_recordAll m events, errors_recordAll_new m events, warnings_recordAll (new m) events⟩

theorem Exact.upTo {m : Nat} {events : List (Event μ)} (h : r.Exact m events)
    (hlimit : r.minDistance ≤ limit) : (r.upTo limit).Exact m events :=
  ⟨by rw [keeps_upTo hlimit, h.keeps], h.errors, h.warnings⟩

/-- Whatever happens, a fresh reporter keeps just the distant errors, also if its count stops at
some bound that the distance is within. -/
theorem recordAll_throttled (m : Nat) (events : List (Event μ)) :
    ((new m).recordAll events).Exact m events ∧
      ∀ limit, m ≤ limit → ((new m).recordAllUpTo limit events).Exact m events := by
  constructor
  · exact exact_recordAll m events
  · intro limit hlimit
    have hnew : (new m : Reporter μ).upTo limit = new m := by simp [Reporter.upTo, new, hlimit]
    rw [← hnew, recordAllUpTo_upTo hlimit]
    apply (exact_recordAll m events).upTo
    rwa [minDistance_recordAll]

/-- The second error is too close to the first and the fourth to the resynchronisation. The third
is not throttled. -/
def crowded : List (Event String) :=
  [.error ⟨"first", 1, 0⟩, .consumed, .error ⟨"second", 1, 2⟩, .consumed,
    .unthrottled ⟨"third", 1, 4⟩, .consumed, .resynced, .consumed, .error ⟨"fourth", 2, 0⟩,
    .consumed, .warning ⟨"fifth", 2, 1⟩, .consumed, .error ⟨"sixth", 2, 2⟩]

theorem recordAll_throttled_crowded :
    ((new 2).recordAll crowded).errors.toList =
        [⟨"first", 1, 0⟩, ⟨"third", 1, 4⟩, ⟨"sixth", 2, 2⟩] ∧
      2 ≤ 2 ∧ ((new 2).recordAllUpTo 2 crowded).warnings.toList = [⟨"fifth", 2, 1⟩] ∧
      ((new 2).recordAllUpTo 2 crowded).keeps = false := by
  obtain ⟨hexact, hbounded⟩ := recordAll_throttled 2 crowded
  have hcount := hbounded 2 (by decide)
  refine ⟨hexact.errors.trans (by decide), by decide, hcount.warnings.trans (by decide), ?_⟩
  exact Bool.eq_false_iff.2 fun h => absurd (hcount.keeps.1 h) (by decide)

end Reporter

end MicroJava
