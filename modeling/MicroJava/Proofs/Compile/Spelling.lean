import Mathlib.Logic.Equiv.Basic
import MicroJava.Proofs.Compile.Bounds
import MicroJava.Proofs.Compile.Renaming
import MicroJava.Proofs.Compile.Reports

/-! # Spelling and layout leave no trace

Two texts with the same tokens, up to their places and up to a renaming of the identifiers, are
compiled side by side. Their trees differ in names, their logs in the names that problems mention
and in places, and their reports in no more than that. The code is the same. -/

namespace MicroJava

/-! ## Renamings -/

/-- Whether a text is read as an identifier. -/
def isIdentifier (text : String) : Bool :=
  match text.toList with
  | [] => false
  | c :: cs => Lexeme.isNameStart c && cs.all Lexeme.isNamePart && (TokenKind.keyword? text).isNone

@[ext] structure Identifier where
  text : String
  valid : isIdentifier text = true
  deriving DecidableEq

/-- Identifiers that mean something by themselves: what is predeclared, and the name of the method
where a program starts. -/
def givenNames : List String := ["int", "char", "ord", "chr", "len", Check.mainName]

/-- Gives identifiers new names. Different ones stay different, and the given ones stay. -/
structure Renaming where
  apply : Identifier → Identifier
  injective : Function.Injective apply
  given : ∀ x, x.text ∈ givenNames → apply x = x

namespace Renaming

/-- The new name; what is no identifier stays. -/
def onName (r : Renaming) (name : String) : String :=
  if h : isIdentifier name = true then (r.apply ⟨name, h⟩).text else name

theorem isIdentifier_onName (r : Renaming) (name : String) :
    isIdentifier (r.onName name) = isIdentifier name := by
  unfold onName
  split
  · next h => rw [h, (r.apply ⟨name, h⟩).valid]
  · rfl

theorem respelling (r : Renaming) : Respelling r.onName := by
  constructor
  · intro a b hab
    have hvalid : isIdentifier a = isIdentifier b := by
      rw [← r.isIdentifier_onName, hab, r.isIdentifier_onName]
    by_cases ha : isIdentifier a = true
    · have hb := hvalid ▸ ha
      rw [onName, onName, dif_pos ha, dif_pos hb] at hab
      have hsame : (⟨a, ha⟩ : Identifier) = ⟨b, hb⟩ := r.injective (Identifier.ext hab)
      exact congrArg Identifier.text hsame
    · have hb := hvalid ▸ ha
      rwa [onName, onName, dif_neg ha, dif_neg hb] at hab
  · intro name hname
    unfold onName
    split
    · next h =>
        have hgiven : name ∈ givenNames := by
          simp only [List.mem_cons, List.not_mem_nil, or_false] at hname
          rcases hname with rfl | rfl | rfl | rfl | rfl | rfl | rfl | rfl
          all_goals first | decide | exact absurd h (by decide)
        rw [r.given ⟨name, h⟩ hgiven]
    · rfl

/-- Exchanges two identifiers. -/
def swap (x y : Identifier) (hx : x.text ∉ givenNames) (hy : y.text ∉ givenNames) : Renaming where
  apply := Equiv.swap x y
  injective := (Equiv.swap x y).injective
  given _ hz := Equiv.swap_apply_of_ne_of_ne (fun h => hx (h ▸ hz)) (fun h => hy (h ▸ hz))

end Renaming

/-! ## Logs -/

variable {f : String → String}

/-- The same entry, perhaps elsewhere and under other names. -/
inductive LogEntry.Renamed (f : String → String) : LogEntry → LogEntry → Prop where
  | consumed : Renamed f .consumed .consumed
  | resynced : Renamed f .resynced .resynced
  | problem (p : Problem) (pos pos' : Position) :
      Renamed f (.problem p pos) (.problem (p.rename f) pos')
  | issue (i : LiteralIssue) (pos pos' : Position) : Renamed f (.issue i pos) (.issue i pos')

/-- The same tokens are to come as far as logs tell, and the same has been noted up to names. -/
structure SameLog (f : String → String) (up : Upcoming) (log : Array LogEntry) (up' : Upcoming)
    (log' : Array LogEntry) : Prop where
  issues : List.Forall₂ (fun t t' => t'.issue = t.issue) up.tokens up'.tokens
  log : List.Forall₂ (LogEntry.Renamed f) log.toList log'.toList

namespace SameLog

variable {up up' : Upcoming} {log log' : Array LogEntry}

theorem push (h : SameLog f up log up' log') {e e' : LogEntry} (he : e.Renamed f e') :
    SameLog f up (log.push e) up' (log'.push e') := by
  refine ⟨h.issues, ?_⟩
  rw [Array.toList_push, Array.toList_push]
  exact List.rel_append h.log (.cons he .nil)

theorem arrival (h : SameLog f up log up' log') :
    SameLog f up (Pass.arrival up.ahead log) up' (Pass.arrival up'.ahead log') := by
  have hissue : up'.ahead.issue = up.ahead.issue := by
    cases h.issues with
    | cons hahead _ => exact hahead
  have hconsumed := h.push .consumed
  unfold Pass.arrival
  rw [hissue]
  split
  · exact hconsumed.push (.issue ..)
  · exact hconsumed

theorem advance (h : SameLog f up log up' log') : SameLog f up.advance log up'.advance log' :=
  ⟨Upcoming.forall₂_advance h.issues, h.log⟩

/-- Two passes keep the same log up to names. -/
def journal (hf : Respelling f) : Journal f where
  respelling := hf
  Rel := SameLog f
  consume h := h.advance.arrival
  report problem h := h.push (.problem problem ..)
  resync h := h.push .resynced

end SameLog

/-! ## Reports -/

/-- The same message, perhaps elsewhere and under other names. -/
def Diagnostic.Renamed (f : String → String) (d d' : Diagnostic Problem) : Prop :=
  d'.message = d.message.rename f

theorem map_message_of_renamed {ds ds' : List (Diagnostic Problem)}
    (h : List.Forall₂ (Diagnostic.Renamed f) ds ds') :
    ds'.map (·.message) = ds.map (·.message.rename f) := by
  induction h with
  | nil => rfl
  | cons hd _ ih => rw [List.map_cons, List.map_cons, hd, ih]

/-- The same event up to places and names. -/
inductive Event.Renamed (f : String → String) : Event Problem → Event Problem → Prop where
  | consumed : Renamed f .consumed .consumed
  | resynced : Renamed f .resynced .resynced
  | error {d d' : Diagnostic Problem} : d.Renamed f d' → Renamed f (.error d) (.error d')
  | unthrottled {d d' : Diagnostic Problem} :
      d.Renamed f d' → Renamed f (.unthrottled d) (.unthrottled d')
  | warning {d d' : Diagnostic Problem} : d.Renamed f d' → Renamed f (.warning d) (.warning d')

theorem LogEntry.Renamed.event {e e' : LogEntry} (h : e.Renamed f e') (strict : Bool) :
    (e.event strict).Renamed f (e'.event strict) := by
  cases h with
  | consumed => exact .consumed
  | resynced => exact .resynced
  | problem => exact .error rfl
  | issue i =>
      cases i with
      | numberOverflow =>
          cases strict with
          | true => exact .unthrottled rfl
          | false => exact .warning rfl
      | emptyChar | invalidEscape | invalidChar | unterminatedChar => exact .unthrottled rfl

namespace Reporter

variable {r r' : Reporter Problem}

/-- Two reporters that have kept the same up to places and names. -/
structure Renamed (f : String → String) (r r' : Reporter Problem) : Prop where
  minDistance : r'.minDistance = r.minDistance
  distance : r'.distance = r.distance
  errors : List.Forall₂ (Diagnostic.Renamed f) r.errors.toList r'.errors.toList
  warnings : List.Forall₂ (Diagnostic.Renamed f) r.warnings.toList r'.warnings.toList

theorem renamed_new (distance : Nat) : Renamed f (new distance) (new distance) :=
  ⟨rfl, rfl, .nil, .nil⟩

theorem forall₂_push {α β : Type} {R : α → β → Prop} {xs : Array α} {ys : Array β} {a : α} {b : β}
    (h : List.Forall₂ R xs.toList ys.toList) (hab : R a b) :
    List.Forall₂ R (xs.push a).toList (ys.push b).toList := by
  rw [Array.toList_push, Array.toList_push]
  exact List.rel_append h (.cons hab .nil)

theorem Renamed.record (h : Renamed f r r') {e e' : Event Problem} (he : e.Renamed f e') :
    Renamed f (r.record e) (r'.record e') := by
  cases he with
  | consumed => exact ⟨h.minDistance, congrArg (· + 1) h.distance, h.errors, h.warnings⟩
  | resynced => exact ⟨h.minDistance, rfl, h.errors, h.warnings⟩
  | unthrottled hd => exact ⟨h.minDistance, h.distance, forall₂_push h.errors hd, h.warnings⟩
  | warning hd => exact ⟨h.minDistance, h.distance, h.errors, forall₂_push h.warnings hd⟩
  | error hd =>
      have hkeeps : r'.keeps = r.keeps := by simp only [keeps, h.minDistance, h.distance]
      simp only [Reporter.record, hkeeps]
      split
      · exact ⟨h.minDistance, rfl, forall₂_push h.errors hd, h.warnings⟩
      · exact ⟨h.minDistance, rfl, h.errors, h.warnings⟩

theorem Renamed.recordAll (h : Renamed f r r') {events events' : List (Event Problem)}
    (hevents : List.Forall₂ (Event.Renamed f) events events') :
    Renamed f (r.recordAll events) (r'.recordAll events') := by
  induction hevents generalizing r r' with
  | nil => exact h
  | cons he _ ih => exact ih (h.record he)

theorem Renamed.isEmpty (h : Renamed f r r') : r'.errors.isEmpty = r.errors.isEmpty := by
  have hlength : r.errors.size = r'.errors.size := h.errors.length_eq
  simp only [Array.isEmpty, hlength]

end Reporter

/-! ## Drafts -/

/-- Two drafts with the same outcome up to places and names. -/
structure Draft.Renamed (f : String → String) (d d' : Draft) : Prop where
  log : List.Forall₂ (LogEntry.Renamed f) d.log d'.log
  code : d'.code = d.code
  dataSize : d'.dataSize = d.dataSize

theorem Draft.Renamed.report {d d' : Draft} (h : d.Renamed f d') (options : Options) :
    (d.report options).Renamed f (d'.report options) := by
  have hevents : List.Forall₂ (Event.Renamed f) (d.log.map (LogEntry.event options.strictLiterals))
      (d'.log.map (LogEntry.event options.strictLiterals)) :=
    List.forall₂_map_left_iff.2 (List.forall₂_map_right_iff.2
      (h.log.imp fun _ _ he => he.event options.strictLiterals))
  have hall := (Reporter.renamed_new options.errorDistance).recordAll hevents
  have hfits : d'.fits = d.fits := by simp only [Draft.fits, h.code, h.dataSize]
  simp only [Draft.report, hfits, hall.isEmpty]
  split
  · exact hall.record (.unthrottled rfl)
  · exact hall

/-- The same token up to its place, under another name if it has one. -/
structure Token.Alike (f : String → String) (t t' : Token) : Prop extends t.Renamed f t' where
  issue : t'.issue = t.issue

instance (f : String → String) (t t' : Token) : Decidable (t.Alike f t') :=
  decidable_of_iff (t'.kind = t.kind ∧ t'.value = t.value ∧ (t.kind = .ident → t'.text = f t.text) ∧
    t'.issue = t.issue)
    ⟨fun ⟨hkind, hvalue, htext, hissue⟩ => ⟨⟨hkind, hvalue, htext⟩, hissue⟩,
      fun h => ⟨h.kind, h.value, h.text, h.issue⟩⟩

theorem Program.read_renamed {up up' : Upcoming} (h : up.Renamed f up') :
    Program.read up' = (Program.read up).rename f := by
  have hlength : up'.later.length = up.later.length := by
    have htokens := h.tokens.length_eq
    simpa [Upcoming.tokens] using htokens.symm
  have hfollows := Reader.follows_program (up.later.length + 1) (up'.later.length + 1)
    (Reading.Renamed.start h) (Nat.lt_succ_self _) (Nat.lt_succ_of_le (Nat.le_of_eq hlength.symm))
  exact hfollows.value

theorem Draft.renamed_ofUpcoming {up up' : Upcoming} (hf : Respelling f) (hc : Closed up.tokens)
    (h : List.Forall₂ (Token.Alike f) up.tokens up'.tokens) :
    (ofUpcoming up).Renamed f (ofUpcoming up') := by
  have hread := Program.read_renamed ⟨h.imp fun _ _ ht => ht.toRenamed, hc⟩
  have hstart : (Pass.start up).Mirrored (SameLog.journal hf) (Pass.start up') := by
    have hsame : SameLog f up #[] up' #[] := ⟨h.imp fun _ _ ht => ht.issue, .nil⟩
    exact ⟨NameTable.renamed_initial hf, rfl, hsame.arrival⟩
  have hmirrors := Check.mirrors_program (Program.read up) _ _ hstart
  rw [← hread] at hmirrors
  rw [ofUpcoming_eq up (Prod.eta _).symm, ofUpcoming_eq up' (Prod.eta _).symm]
  generalize Check.program (Program.read up) (Pass.start up) = final at hmirrors ⊢
  generalize Check.program (Program.read up') (Pass.start up') = final' at hmirrors ⊢
  exact ⟨hmirrors.2.journal.log, hmirrors.2.code, hmirrors.1⟩

theorem Draft.renamed_ofString {source source' : String} (hf : Respelling f)
    (h : List.Forall₂ (Token.Alike f) (TokenList.ofString source).all
      (TokenList.ofString source').all) :
    (ofString source).Renamed f (ofString source') := by
  have hc := Upcoming.closed_ofString source
  rw [← Upcoming.tokens_ofTokens, ← Upcoming.tokens_ofTokens] at h
  unfold ofString
  generalize Upcoming.ofTokens (TokenList.ofString source) = up at hc h ⊢
  generalize Upcoming.ofTokens (TokenList.ofString source') = up' at h ⊢
  exact renamed_ofUpcoming hf hc h

/-! ## Compilations -/

/-- Two compilations with the same outcome up to places and names. -/
structure Compilation.Renamed (f : String → String) (c c' : Compilation) : Prop where
  code : c'.code = c.code
  errors : List.Forall₂ (Diagnostic.Renamed f) c.errors c'.errors
  warnings : List.Forall₂ (Diagnostic.Renamed f) c.warnings c'.warnings

theorem Compilation.Renamed.isEmpty {c c' : Compilation} (h : c.Renamed f c') :
    c'.errors.isEmpty = c.errors.isEmpty := by
  have hlength := h.errors.length_eq
  rw [Bool.eq_iff_iff, List.isEmpty_iff_length_eq_zero, List.isEmpty_iff_length_eq_zero, hlength]

theorem Compilation.Renamed.object? {c c' : Compilation} (h : c.Renamed f c') :
    c'.object? = c.object? := by
  rw [Compilation.object?, Compilation.object?, h.isEmpty, h.code]

theorem Draft.Renamed.compilation {d d' : Draft} (h : d.Renamed f d') (options : Options) :
    Compilation.Renamed f
      ⟨(d.report options).errors.toList, (d.report options).warnings.toList,
        d.code.toObject d.dataSize⟩
      ⟨(d'.report options).errors.toList, (d'.report options).warnings.toList,
        d'.code.toObject d'.dataSize⟩ := by
  refine ⟨?_, (h.report options).errors, (h.report options).warnings⟩
  rw [h.code, h.dataSize]

theorem renamed_compile {source source' : String} (hf : Respelling f) (options : Options)
    (h : List.Forall₂ (Token.Alike f) (TokenList.ofString source).all
      (TokenList.ofString source').all) :
    (compile source options).Renamed f (compile source' options) := by
  simp only [compile_eq]
  exact (Draft.renamed_ofString hf h).compilation options

/-- Texts with the same tokens up to places and a renaming of identifiers compile to the same object
file, or both fail; and their errors and warnings are the same up to places and the renaming. -/
theorem compile_renamed (r : Renaming) {source source' : String} (options : Options)
    (h : List.Forall₂ (Token.Alike r.onName) (TokenList.ofString source).all
      (TokenList.ofString source').all) :
    ((compile source' options).errors = [] ↔ (compile source options).errors = []) ∧
      (compile source' options).object? = (compile source options).object? ∧
      (compile source' options).errors.map (·.message) =
        (compile source options).errors.map (·.message.rename r.onName) ∧
      (compile source' options).warnings.map (·.message) =
        (compile source options).warnings.map (·.message.rename r.onName) := by
  have hsame := renamed_compile r.respelling options h
  refine ⟨?_, hsame.object?, map_message_of_renamed hsame.errors,
    map_message_of_renamed hsame.warnings⟩
  rw [← List.isEmpty_iff, ← List.isEmpty_iff, hsame.isEmpty]

/-- A faulty program twice, under other names and in another layout: the second text is told of
`sum` what the first one is told of `x`. -/
theorem compile_renamed_swapped :
    let text := "program P \x7b void main() int i; \x7b x = i; \x7d \x7d"
    let text' := "program P // sums\n\x7b void main()\n  int i; \x7b sum = i; \x7d\n\x7d"
    (compile text {}).errors.map (·.message) = [.name (.notDeclared "x")] ∧
      (compile text' {}).errors.map (·.message) = [.name (.notDeclared "sum")] := by
  let r := Renaming.swap ⟨"x", by decide⟩ ⟨"sum", by decide⟩ (by decide) (by decide)
  have hfirst : (compile "program P \x7b void main() int i; \x7b x = i; \x7d \x7d"
      {}).errors.map (·.message) = [.name (.notDeclared "x")] := by
    decide +kernel
  have htokens : List.Forall₂ (Token.Alike r.onName)
      (TokenList.ofString "program P \x7b void main() int i; \x7b x = i; \x7d \x7d").all
      (TokenList.ofString
        "program P // sums\n\x7b void main()\n  int i; \x7b sum = i; \x7d\n\x7d").all := by
    decide +kernel
  have hspelling : r.onName "x" = "sum" := by decide
  obtain ⟨-, -, herrors, -⟩ := compile_renamed r {} htokens
  refine ⟨hfirst, herrors.trans ?_⟩
  have hmapped := congrArg (List.map (Problem.rename r.onName)) hfirst
  rw [List.map_map] at hmapped
  refine hmapped.trans ?_
  simp [Problem.rename, NameError.rename, hspelling]

end MicroJava
