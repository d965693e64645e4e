import MicroJava.Proofs.Compile.Renaming
import MicroJava.Proofs.Compile.Reports
import MicroJava.Proofs.Source.Positions

/-! # Remarks in the order of the text

A remark is placed at the token in view: a problem wherever it is found, a malformed literal when it
comes into view. The token in view only ever moves on, so remarks come in the order of the text. A
literal comes into view once, so no two of them are remarked upon at the same place. -/

namespace MicroJava

namespace LogEntry

/-- Where a log entry is placed, if it is a remark. -/
def pos? : LogEntry → Option Position
  | problem _ pos | issue _ pos => some pos
  | consumed | resynced => none

/-- Where a literal is malformed. -/
def issuePos? : LogEntry → Option Position
  | issue _ pos => some pos
  | problem _ _ | consumed | resynced => none

theorem pos?_of_issuePos? {e : LogEntry} {pos : Position} (h : e.issuePos? = some pos) :
    e.pos? = some pos := by
  cases e with
  | issue => exact h
  | problem | consumed | resynced => cases h

end LogEntry

/-- The remarks in a log over the tokens `ts`, of which `up` are still to come. -/
structure Placed (ts : List Token) (up : Upcoming) (log : List LogEntry) : Prop where
  upcoming : up.tokens <:+ ts
  remarks : (log.filterMap LogEntry.pos?).Pairwise (· ≤ ·)
  issues : (log.filterMap LogEntry.issuePos?).Pairwise (· < ·)
  passed : ∀ pos ∈ log.filterMap LogEntry.pos?, pos ≤ up.ahead.pos
  places : ∀ pos ∈ log.filterMap LogEntry.pos?, pos ∈ ts.map (·.pos)

namespace Placed

variable {ts : List Token} {up : Upcoming} {log : List LogEntry}

theorem ahead_mem (h : Placed ts up log) : up.ahead ∈ ts := h.upcoming.mem (List.mem_cons_self ..)

theorem pairwise_push {r : Position → Position → Prop} {l : List Position} {pos : Position}
    (h : l.Pairwise r) (hpos : ∀ q ∈ l, r q pos) : (l ++ [pos]).Pairwise r :=
  List.pairwise_append.2 ⟨h, List.pairwise_singleton r pos, fun q hq p hp => by
    rw [List.mem_singleton.1 hp]
    exact hpos q hq⟩

/-- An entry that is no remark. -/
theorem push_silent (h : Placed ts up log) {e : LogEntry} (he : e.pos? = none) :
    Placed ts up (log ++ [e]) := by
  have hissue : e.issuePos? = none := by
    cases hi : e.issuePos? with
    | none => rfl
    | some pos => rw [LogEntry.pos?_of_issuePos? hi] at he; cases he
  have hremarks : (log ++ [e]).filterMap LogEntry.pos? = log.filterMap LogEntry.pos? := by
    simp [List.filterMap_append, he]
  have hissues : (log ++ [e]).filterMap LogEntry.issuePos? = log.filterMap LogEntry.issuePos? := by
    simp [List.filterMap_append, hissue]
  exact ⟨h.upcoming, hremarks ▸ h.remarks, hissues ▸ h.issues, hremarks ▸ h.passed,
    hremarks ▸ h.places⟩

/-- A remark about the token in view. -/
theorem push_remark (h : Placed ts up log) {e : LogEntry} (he : e.pos? = some up.ahead.pos)
    (hissue : ∀ pos, e.issuePos? = some pos → ∀ q ∈ log.filterMap LogEntry.issuePos?, q < pos) :
    Placed ts up (log ++ [e]) := by
  have hremarks : (log ++ [e]).filterMap LogEntry.pos? =
      log.filterMap LogEntry.pos? ++ [up.ahead.pos] := by
    simp [List.filterMap_append, he]
  have hissues : ((log ++ [e]).filterMap LogEntry.issuePos?).Pairwise (· < ·) := by
    cases hi : e.issuePos? with
    | none => simpa [List.filterMap_append, hi] using h.issues
    | some pos =>
        simpa [List.filterMap_append, hi] using pairwise_push h.issues (hissue pos hi)
  refine ⟨h.upcoming, hremarks ▸ pairwise_push h.remarks h.passed, hissues, ?_, ?_⟩
  · intro pos hpos
    rcases List.mem_append.1 (hremarks ▸ hpos) with hpos | hpos
    · exact h.passed pos hpos
    · exact (List.mem_singleton.1 hpos).le
  · intro pos hpos
    rcases List.mem_append.1 (hremarks ▸ hpos) with hpos | hpos
    · exact h.places pos hpos
    · rw [List.mem_singleton.1 hpos]
      exact List.mem_map_of_mem h.ahead_mem

/-- A token comes into view behind all remarks. -/
theorem arrive (h : Placed ts up log) {t : Token} {later : List Token}
    (hts : ts.Pairwise (·.pos < ·.pos)) (hup : up.later = t :: later) :
    Placed ts ⟨t, later⟩ (Pass.arrival t log.toArray).toList := by
  have hlt : up.ahead.pos < t.pos := by
    have hpairs := hts.sublist h.upcoming.sublist
    rw [Upcoming.tokens, hup] at hpairs
    exact (List.pairwise_cons.1 hpairs).1 t (List.mem_cons_self ..)
  have hnext : Placed ts ⟨t, later⟩ (log ++ [.consumed]) := by
    have hsilent := h.push_silent (e := .consumed) rfl
    refine ⟨?_, hsilent.remarks, hsilent.issues, ?_, hsilent.places⟩
    · have hsuffix : t :: later <:+ up.tokens := ⟨[up.ahead], by simp [Upcoming.tokens, hup]⟩
      exact hsuffix.trans h.upcoming
    · exact fun pos hpos => (hsilent.passed pos hpos).trans hlt.le
  unfold Pass.arrival
  split
  · next i _ =>
      have hissue : Placed ts ⟨t, later⟩ ((log ++ [.consumed]) ++ [.issue i t.pos]) := by
        refine hnext.push_remark rfl ?_
        rintro pos ⟨rfl⟩ q hq
        obtain ⟨e, he, hpos⟩ := List.mem_filterMap.1 hq
        have hremark := List.mem_filterMap.2 ⟨e, he, LogEntry.pos?_of_issuePos? hpos⟩
        exact ((h.push_silent (e := .consumed) rfl).passed q hremark).trans_lt hlt
      simpa using hissue
  · simpa using hnext

/-- What is followed of the pass over the tokens `ts`: its second pass is of no interest. -/
def journal (ts : List Token) (hts : ts.Pairwise (·.pos < ·.pos))
    (hend : ∀ t, [t] <:+ ts → t.issue = none) : Journal id where
  respelling := respelling_id
  Rel up log _ _ := Placed ts up log.toList
  consume := by
    intro up log _ _ h
    obtain ⟨t, later⟩ := up
    cases later with
    | nil =>
        have hissue : t.issue = none := hend t h.upcoming
        simpa [Upcoming.advance, Pass.arrival, hissue] using h.push_silent (e := .consumed) rfl
    | cons u later => simpa [Upcoming.advance] using h.arrive hts rfl
  report := by
    intro up log _ _ problem h
    simpa using h.push_remark (e := .problem problem up.ahead.pos) rfl (by simp [LogEntry.issuePos?])
  resync := by
    intro up log _ _ h
    simpa using h.push_silent (e := .resynced) rfl

theorem start (up : Upcoming) : Placed up.tokens up (Pass.arrival up.ahead #[]).toList := by
  have hconsumed : Placed up.tokens up [.consumed] := by
    have hnone : ([.consumed] : List LogEntry).filterMap LogEntry.pos? = [] := rfl
    exact ⟨List.suffix_refl _, .nil, .nil, by simp [hnone], by simp [hnone]⟩
  unfold Pass.arrival
  split
  · next i _ =>
      simpa using hconsumed.push_remark (e := .issue i up.ahead.pos) rfl (by
        simp [LogEntry.issuePos?])
  · simpa using hconsumed

/-- The log of a pass is in order, whatever the tree. -/
theorem program (p : Program) {up : Upcoming} (hts : up.tokens.Pairwise (·.pos < ·.pos))
    (hend : ∀ t, [t] <:+ up.tokens → t.issue = none) :
    Placed up.tokens (Check.program p (Pass.start up)).2.upcoming
      (Check.program p (Pass.start up)).2.log.toList := by
  have hstart : (Pass.start up).Mirrored (journal up.tokens hts hend) (Pass.start up) :=
    ⟨NameTable.renamed_initial respelling_id, rfl, start up⟩
  exact (Check.mirrors_program p _ _ hstart).2.journal

end Placed

theorem Pass.placed_over (source : String) :
    Placed (TokenList.ofString source).all (Pass.over source).2.upcoming
      (Pass.over source).2.log.toList := by
  have hts := TokenList.pairwise_pos source
  have hend : ∀ t, [t] <:+ (TokenList.ofString source).all → t.issue = none := by
    rintro t ⟨before, hbefore⟩
    obtain ⟨rfl, -⟩ := List.cons.inj (List.append_inj' hbefore rfl).2
    exact TokenList.issue_endMark source
  unfold Pass.over
  generalize Program.ofString source = p
  rw [← Upcoming.tokens_ofTokens] at hts hend ⊢
  generalize Upcoming.ofTokens (TokenList.ofString source) = up at hts hend ⊢
  exact Placed.program p hts hend

/-! ## What is reported -/

theorem map_pos_errors (log : List LogEntry) (strict : Bool) :
    ((log.filterMap (LogEntry.error? strict)).map (·.pos)).Sublist
      (log.filterMap LogEntry.pos?) := by
  induction log with
  | nil => exact .slnil
  | cons e log ih =>
      cases e with
      | consumed | resynced => exact ih
      | problem p pos => exact ih.cons_cons pos
      | issue i pos =>
          cases i with
          | numberOverflow =>
              cases strict with
              | true => exact ih.cons_cons pos
              | false => exact ih.cons pos
          | emptyChar | invalidEscape | invalidChar | unterminatedChar => exact ih.cons_cons pos

theorem map_pos_warnings (log : List LogEntry) (strict : Bool) :
    ((log.filterMap (LogEntry.warning? strict)).map (·.pos)).Sublist
      (log.filterMap LogEntry.issuePos?) := by
  induction log with
  | nil => exact .slnil
  | cons e log ih =>
      cases e with
      | consumed | resynced | problem => exact ih
      | issue i pos =>
          cases i with
          | numberOverflow =>
              cases strict with
              | true => exact ih.cons pos
              | false => exact ih.cons_cons pos
          | emptyChar | invalidEscape | invalidChar | unterminatedChar => exact ih.cons pos

namespace Draft

/-- If nothing is held back, the errors are those in the log, or else that the program is too
large. -/
theorem errors_report_zero (d : Draft) (strict : Bool) :
    (d.report ⟨strict, 0⟩).errors.toList = d.log.filterMap (LogEntry.error? strict) ∨
      (d.report ⟨strict, 0⟩).errors.toList = [⟨.tooLarge, d.endPos⟩] := by
  have hall := Reporter.errors_recordAll (.new 0) rfl (d.log.map (LogEntry.event strict))
  rw [List.filterMap_map] at hall
  simp only [Draft.report]
  split
  · next hempty =>
      simp only [Bool.and_eq_true, Array.isEmpty_iff] at hempty
      exact .inr (by simp [Reporter.record, hempty.2])
  · exact .inl hall

/-- Errors stand where the log has remarks, or else where the text ends. -/
theorem map_pos_errors_report {d : Draft} (hlog : Explained d.log) (options : Options) :
    ((d.report options).errors.toList.map (·.pos)).Sublist (d.log.filterMap LogEntry.pos?) ∨
      ((d.report options).errors.toList.map (·.pos)).Sublist [d.endPos] := by
  have hpos := (errors_report_sublist options.strictLiterals hlog
    (Nat.zero_le options.errorDistance)).map (·.pos)
  rcases d.errors_report_zero options.strictLiterals with heq | heq
  · rw [heq] at hpos
    exact .inl (hpos.trans (map_pos_errors ..))
  · rw [heq] at hpos
    exact .inr hpos

theorem map_pos_warnings_report (d : Draft) (options : Options) :
    ((d.report options).warnings.toList.map (·.pos)).Sublist
      (d.log.filterMap LogEntry.issuePos?) := by
  rw [warnings_report]
  exact map_pos_warnings ..

/-- The log of a text is in order, and the text is read to the end. -/
theorem placed_ofString (source : String) :
    ∃ up, (ofString source).endPos = up.ahead.pos ∧
      Placed (TokenList.ofString source).all up (ofString source).log := by
  have hplaced := Pass.placed_over source
  revert hplaced
  unfold ofString Pass.over Program.ofString
  generalize Upcoming.ofTokens (TokenList.ofString source) = up
  rw [ofUpcoming_eq up (Prod.eta _).symm]
  generalize Check.program (Program.read up) (Pass.start up) = final
  exact fun hplaced => ⟨final.2.upcoming, rfl, hplaced⟩

end Draft

/-- Whatever the text and the options, errors come in the order of the text, warnings one behind the
other, and each of them stands at the start of a token or at the end mark. -/
theorem compile_sourceOrder (source : String) (options : Options) :
    ((compile source options).errors.map (·.pos)).Pairwise (· ≤ ·) ∧
      ((compile source options).warnings.map (·.pos)).Pairwise (· < ·) ∧
      ∀ d ∈ (compile source options).errors ++ (compile source options).warnings,
        d.pos ∈ (TokenList.ofString source).all.map (·.pos) := by
  obtain ⟨up, hend, hplaced⟩ := Draft.placed_ofString source
  have hlog := Draft.explained_ofString source
  simp only [compile_eq]
  generalize Draft.ofString source = d at hend hplaced hlog ⊢
  have herrors := Draft.map_pos_errors_report hlog options
  have hwarnings := d.map_pos_warnings_report options
  have hsub : (d.log.filterMap LogEntry.issuePos?) ⊆ d.log.filterMap LogEntry.pos? := by
    intro pos hpos
    obtain ⟨e, he, hissue⟩ := List.mem_filterMap.1 hpos
    exact List.mem_filterMap.2 ⟨e, he, LogEntry.pos?_of_issuePos? hissue⟩
  have hlast : d.endPos ∈ (TokenList.ofString source).all.map (·.pos) :=
    hend ▸ List.mem_map_of_mem hplaced.ahead_mem
  refine ⟨?_, hplaced.issues.sublist hwarnings, ?_⟩
  · rcases herrors with hpos | hpos
    · exact hplaced.remarks.sublist hpos
    · exact (List.pairwise_singleton ..).sublist hpos
  · intro x hx
    rcases List.mem_append.1 hx with hx | hx
    · rcases herrors with hpos | hpos
      · exact hplaced.places _ (hpos.subset (List.mem_map_of_mem hx))
      · rw [List.mem_singleton.1 (hpos.subset (List.mem_map_of_mem hx))]
        exact hlast
    · exact hplaced.places _ (hsub (hwarnings.subset (List.mem_map_of_mem hx)))

end MicroJava
