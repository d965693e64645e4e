import MicroJava.Proofs.Compile.Lockstep
import MicroJava.Proofs.Compile.Syntax
import MicroJava.Proofs.Tree.Uniform

/-! # Every compilation comes to an end

Finding tokens and reading trees are bounded by numbers that are never met: with larger ones the
outcome is the same, and a bound that is met would show. Finding tokens would stop short of the end
mark, and reading would leave a mark of its own. On the way the next token is asked for about twice
per token at most, however malformed the text is. -/

namespace MicroJava

/-- The tokens of a text if at most `bound` of them are looked for before the end mark. -/
def TokenList.within (bound : Nat) (source : String) : TokenList :=
  let (tokens, endMark) := (Cursor.ofString source).collect bound #[]
  ⟨tokens.toList, endMark⟩

/-- The tree of the tokens to come and how far reading has come, if `bound` bounds the depth and the
length of every loop. -/
def Upcoming.readWithin (bound : Nat) (up : Upcoming) : Program × Reading :=
  (Reader.program bound).run (.start up)

/-- The draft of a text if `lexing` bounds the tokens and `reading` the depth and length of the
tree. -/
def Draft.within (lexing reading : Nat) (source : String) : Draft :=
  let up := Upcoming.ofTokens (TokenList.within lexing source)
  let final := Check.program (up.readWithin reading).1 (Pass.start up)
  { log := final.2.log.toList
    code := final.2.code
    dataSize := final.1
    endPos := final.2.upcoming.ahead.pos }

/-- Compilation with bounds of its own. -/
def compileWithin (lexing reading : Nat) (source : String) (options : Options) : Compilation :=
  let draft := Draft.within lexing reading source
  let r := draft.report options
  { errors := r.errors.toList
    warnings := r.warnings.toList
    code := draft.code.toObject draft.dataSize }

/-- A bound as large as the text is long lets every token be found. -/
theorem TokenList.within_eq {bound : Nat} {source : String} (h : source.length ≤ bound) :
    within bound source = ofString source := by
  have hlen : (Cursor.ofString source).rest.length = source.length := String.length_toList
  unfold within ofString
  rw [Cursor.collect_eq (hlen ▸ h) (Nat.le_refl _)]

theorem Upcoming.renamed_self {up : Upcoming} (h : Closed up.tokens) : up.Renamed id up :=
  ⟨List.forall₂_same.2 fun _ _ => ⟨rfl, rfl, fun _ => rfl⟩, h⟩

/-- A bound larger than the number of tokens is not met, and reading with it is the same. -/
theorem Upcoming.readWithin_eq {bound : Nat} {up : Upcoming} (hc : Closed up.tokens)
    (h : up.later.length < bound) :
    up.readWithin bound = up.read ∧ up.read.2.exhausted = false := by
  have hfollows := Reader.follows_program (up.later.length + 1) bound
    (Reading.Renamed.start (Upcoming.renamed_self hc)) (Nat.lt_succ_self _) h
  have hvalue : (up.readWithin bound).1 = up.read.1 :=
    hfollows.value.trans (Program.rename_id _)
  have hafter : (up.readWithin bound).2.toUpcoming = up.read.2.toUpcoming := by
    have hbound : Reading.Took (up.readWithin bound).1.outline.tokens (.start up)
        (up.readWithin bound).2 := Reader.asks_program bound (.start up)
    have hread : Reading.Took up.read.1.outline.tokens (.start up) up.read.2 :=
      Reader.asks_program (up.later.length + 1) (.start up)
    rw [hbound.upcoming, hread.upcoming, hvalue]
  have hreading : (up.readWithin bound).2 = up.read.2 := by
    have hshifts : (up.readWithin bound).2.shifts = up.read.2.shifts := hfollows.renamed.shifts
    have hexhausted : (up.readWithin bound).2.exhausted = up.read.2.exhausted :=
      hfollows.renamed.unbounded.trans hfollows.renamed.unbounded₀.symm
    exact Reading.ext (congrArg (·.ahead) hafter) (congrArg (·.later) hafter) hshifts hexhausted
  exact ⟨Prod.ext hvalue hreading, hfollows.renamed.unbounded₀⟩

/-- Reading asks for the next token no more than twice for every token. -/
theorem Upcoming.shifts_read {up : Upcoming} (hc : Closed up.tokens) :
    up.read.2.shifts ≤ 2 * up.later.length := by
  obtain ⟨ts, hts, hspans, -⟩ := Upcoming.spans_read hc
  have hcount : ts.length ≤ up.later.length := by
    have htotal := congrArg List.length hts
    simp only [Upcoming.tokens, List.length_append, List.length_cons] at htotal
    omega
  have htokens : up.read.1.outline.tokens ≤ 2 * ts.length := hspans.tokens
  have hasks : Reading.Took up.read.1.outline.tokens (.start up) up.read.2 :=
    Reader.asks_program (up.later.length + 1) (.start up)
  have hshifts : up.read.2.shifts = 0 + up.read.1.outline.tokens := hasks.shifts
  omega

theorem Draft.within_eq {lexing reading : Nat} {source : String} (hl : source.length ≤ lexing)
    (hr : (TokenList.ofString source).tokens.length < reading) :
    within lexing reading source = ofString source := by
  have hlen := Upcoming.length_later_ofTokens (TokenList.ofString source)
  have hread := (Upcoming.readWithin_eq (Upcoming.closed_ofString source) (hlen ▸ hr)).1
  unfold within ofString
  rw [ofUpcoming_eq _ (Prod.eta _).symm, Program.read]
  simp only [TokenList.within_eq hl, hread]

/-- Whatever the text and the options, a compilation comes to an end. Looking for tokens comes to
the end mark. Reading never meets its bound, and with a larger one it is the same, the number of
times that it asks for the next token included. The compilation asks for the first token and for
those that reading asks for, which makes `2 * n + 1` times at most for a text of `n` tokens. -/
theorem compile_terminates (source : String) (options : Options) :
    let ts := TokenList.ofString source
    let up := Upcoming.ofTokens ts
    (∀ lexing, source.length ≤ lexing → TokenList.within lexing source = ts) ∧
      ts.endMark.kind = .eof ∧
      (∀ reading, ts.tokens.length < reading → up.readWithin reading = up.read) ∧
      up.read.2.exhausted = false ∧
      (∀ lexing reading, source.length ≤ lexing → ts.tokens.length < reading →
        compileWithin lexing reading source options = compile source options ∧
          Draft.within lexing reading source = Draft.ofString source) ∧
      (Draft.ofString source).fetched = up.read.2.shifts + 1 ∧
      up.read.2.shifts + 1 ≤ 2 * ts.tokens.length + 1 := by
  intro ts up
  have hc : Closed up.tokens := Upcoming.closed_ofString source
  have hlen : up.later.length = ts.tokens.length := Upcoming.length_later_ofTokens ts
  refine ⟨fun lexing => TokenList.within_eq, (TokenList.reads_ofString source).kind_last,
    fun reading hr => (Upcoming.readWithin_eq hc (hlen ▸ hr)).1,
    (Upcoming.readWithin_eq hc (Nat.lt_succ_self _)).2, fun lexing reading hl hr => ?_,
    (Draft.follows_read up).1, ?_⟩
  · have hdraft := Draft.within_eq hl hr
    refine ⟨?_, hdraft⟩
    unfold compileWithin compile
    rw [hdraft]
  · have hshifts := Upcoming.shifts_read hc
    omega

/-- A text that breaks off behind an unfinished loop in an unfinished conditional: the end mark is
asked for once more for each statement that is missing. -/
theorem compile_terminates_unfinished :
    compileWithin 1000 1000 "program p \x7b void main() \x7b if (1 == 1) while (1 == 2)" {} =
        compile "program p \x7b void main() \x7b if (1 == 1) while (1 == 2)" {} ∧
      (Draft.ofString "program p \x7b void main() \x7b if (1 == 1) while (1 == 2)").fetched ≤
        2 * 20 + 1 := by
  have hlength : "program p \x7b void main() \x7b if (1 == 1) while (1 == 2)".length ≤ 1000 := by
    decide
  have htokens : (TokenList.ofString
      "program p \x7b void main() \x7b if (1 == 1) while (1 == 2)").tokens.length = 20 := by
    decide +kernel
  obtain ⟨-, -, -, -, hbounds, hfetched, hshifts⟩ :=
    compile_terminates "program p \x7b void main() \x7b if (1 == 1) while (1 == 2)" {}
  rw [htokens] at hbounds hshifts
  exact ⟨(hbounds 1000 1000 hlength (by decide)).1, hfetched ▸ hshifts⟩

end MicroJava
