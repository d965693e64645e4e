import MicroJava.Proofs.Compile.Syntax
import MicroJava.Proofs.Names.Known
import MicroJava.Proofs.Tree.Renaming

/-! # One mistake is reported once

The pass over a program without mistakes, and beside it the pass over the same program with one
name misspelt. Up to that name nothing differs. There the second pass notes a problem, and from
then on some of what it knows has faded: every check accepts what is left. -/

namespace MicroJava

/-! ## The entry point -/

namespace Emit

variable {α β : Type}

/-- Writing that does not set the entry point. -/
class Aside (act : Emit α) : Prop where
  mainPc : ∀ b : CodeBuffer, (act b).2.mainPc = b.mainPc

instance (a : α) : Aside (pure a : Emit α) := ⟨fun _ => rfl⟩

instance (act : Emit α) (f : α → Emit β) [h : Aside act] [h' : ∀ a, Aside (f a)] :
    Aside (act >>= f) :=
  ⟨fun b => ((h' _).mainPc _).trans (h.mainPc b)⟩

instance (act : Emit α) [h : Aside act] : Aside (discard act) := ⟨fun b => h.mainPc b⟩

instance (i : Instruction) : Aside (instruction i) := ⟨fun _ => rfl⟩

instance (n : Nat) : Aside (fitByte n) := by
  constructor
  intro b
  unfold fitByte
  split <;> rfl

instance (n : Nat) : Aside (fitAddress n) := by
  constructor
  intro b
  unfold fitAddress
  split <;> rfl

instance (adr : UInt16) : Aside (land adr) := by
  constructor
  intro b
  change (b.patch adr b.pc).mainPc = b.mainPc
  unfold CodeBuffer.patch
  dsimp only
  split <;> rfl

instance (rel : Comparison) : Aside (jumpUnless rel) := by unfold jumpUnless; infer_instance

instance (target : UInt16) : Aside (jump target) := by unfold jump; infer_instance

instance (params frame : Nat) : Aside (enter params frame) := by unfold enter; infer_instance

instance : Aside leave := by unfold leave; infer_instance

instance : Aside missingReturn := by unfold missingReturn; infer_instance

instance (elem : Ty) : Aside (newArray elem) := by unfold newArray; infer_instance

instance (fields : Nat) : Aside (newObject fields) := by unfold newObject; infer_instance

theorem mainPc_fitByte (n : Nat) (make : UInt8 → Instruction) (b : CodeBuffer) :
    ((fitByte n b).2.append (make (fitByte n b).1)).mainPc = b.mainPc :=
  (inferInstance : Aside (fitByte n)).mainPc b

theorem mainPc_fitAddress (n : Nat) (make : UInt16 → Instruction) (b : CodeBuffer) :
    ((fitAddress n b).2.append (make (fitAddress n b).1)).mainPc = b.mainPc :=
  (inferInstance : Aside (fitAddress n)).mainPc b

instance (x : Operand) : Aside (load x).run := by
  constructor
  intro b
  obtain ⟨place, ty⟩ := x
  cases place with
  | frame slot => exact mainPc_fitByte slot .load b
  | global adr => exact mainPc_fitAddress adr .getStatic b
  | field adr => exact mainPc_fitAddress adr .getField b
  | constant | element | method | stack | unknown => rfl

instance (x : Operand) : Aside (store x).run := by
  constructor
  intro b
  obtain ⟨place, ty⟩ := x
  cases place with
  | frame slot => exact mainPc_fitByte slot .store b
  | global adr => exact mainPc_fitAddress adr .putStatic b
  | field adr => exact mainPc_fitAddress adr .putField b
  | constant | element | method | stack | unknown => rfl

instance (x y : Operand) : Aside (assign x y).run := by
  constructor
  intro b
  have hl := (inferInstance : Aside (load y).run).mainPc b
  rw [assign_run]
  rcases hy : (load y).run b with ⟨r | r, b₁⟩
  · rwa [hy] at hl
  · have hs := (inferInstance : Aside (store x).run).mainPc b₁
    rw [hy] at hl
    rcases hx : (store x).run b₁ with ⟨r₂ | r₂, b₂⟩
    · simp only [hx] at hs ⊢
      exact hs.trans hl
    · simp only [hx] at hs ⊢
      exact hs.trans hl

end Emit

namespace Operand

/-- What is left of an operand when it is loaded. Only the name of a method has no value. -/
def loaded (x : Operand) : Except OperandError Operand :=
  match x.place with
  | .method _ => .error .methodAsValue
  | .stack | .unknown => .ok x
  | _ => .ok (.onStack x.ty)

/-- Whether an operand takes a value. Constants, methods and intermediate results do not. -/
def stored (x : Operand) : Except OperandError Unit :=
  match x.place with
  | .constant _ => .error .assignToConstant
  | .method _ => .error .assignToMethod
  | .stack => .error .assignToExpression
  | _ => .ok ()

end Operand

namespace Emit

theorem load_fst (x : Operand) (b : CodeBuffer) : ((load x).run b).1 = x.loaded := by
  obtain ⟨place, ty⟩ := x
  cases place <;> rfl

theorem store_fst (x : Operand) (b : CodeBuffer) : ((store x).run b).1 = x.stored := by
  obtain ⟨place, ty⟩ := x
  cases place <;> rfl

theorem assign_fst (x y : Operand) (b : CodeBuffer) :
    ((assign x y).run b).1 = y.loaded.bind fun source => x.stored.map fun _ => source := by
  rw [assign_run, ← load_fst y b]
  rcases (load y).run b with ⟨r | r, b₁⟩
  · rfl
  · rw [← store_fst x b₁]
    simp only [Except.bind]
    rcases (store x).run b₁ with ⟨r₂ | r₂, b₂⟩
    · rfl
    · rfl

end Emit

/-! ## Two passes side by side -/

/-- A misspelt name. The names of a tree are told apart by `mark`; `spelling` says how they are
spelt, except for the marked one, which is spelt `fresh` by mistake. -/
structure Slip where
  strictLiterals : Bool
  spelling : String → String
  mark : String
  fresh : String
  /-- What the marked name is there for. -/
  role : Role
  /-- Which fields the classes are declared to have. -/
  declared : String → String → Prop
  /-- No name is spelt like the misspelt one. -/
  spelling_ne : ∀ name, spelling name ≠ fresh
  /-- Declarations are spelt as they should be. -/
  role_ne : role ≠ .declared

namespace Slip

/-- Spellings, the mistake included. -/
def misspelling (c : Slip) (name : String) : String :=
  if name = c.mark then c.fresh else c.spelling name

/-- How often the marked name is among these. -/
def hits (c : Slip) (names : List (Role × String)) : Nat := names.countP (·.2 == c.mark)

/-- What is to be said about the mistake: if a field was meant, then of a class that has it. -/
def Complaint (c : Slip) (problem : Problem) : Prop :=
  match c.role with
  | .selected =>
      ∃ cls, c.declared cls (c.spelling c.mark) ∧ problem = .name (.notAField c.fresh cls)
  | _ => problem = .name (.notDeclared c.fresh)

/-- After `n` mistakes at most one is still to come, and the marked name is there for what it should
be. -/
structure Due (c : Slip) (n : Nat) (names : List (Role × String)) : Prop where
  once : n + c.hits names ≤ 1
  role : ∀ r, (r, c.mark) ∈ names → r = c.role

/-- The first pass has found no mistake and the second one `n`. -/
structure Relates (c : Slip) (n : Nat) (p p' : Pass) : Prop where
  names : p.names.Fades n p'.names
  known : p.names.Known c.declared
  lacks : p'.names.Lacks c.fresh
  main : p.code.mainPc.isSome = true → p'.code.mainPc.isSome = true
  issues : List.Forall₂ (fun t t' : Token => t'.issue = t.issue) p.upcoming.tokens
    p'.upcoming.tokens
  count : (p'.errors c.strictLiterals).length = n
  complaints : ∀ d ∈ p'.errors c.strictLiterals, c.Complaint d.message

variable {c : Slip} {n : Nat} {p p' q q' : Pass} {ns ns' : List (Role × String)}

@[simp] theorem hits_append (c : Slip) (ns ns' : List (Role × String)) :
    c.hits (ns ++ ns') = c.hits ns + c.hits ns' := List.countP_append

theorem hits_mark (r : Role) : c.hits [(r, c.mark)] = 1 := by simp [hits]

theorem hits_of_ne {name : String} (h : name ≠ c.mark) (r : Role) : c.hits [(r, name)] = 0 := by
  simp [hits, h]

theorem misspelling_of_ne {name : String} (h : name ≠ c.mark) :
    c.misspelling name = c.spelling name := if_neg h

theorem misspelling_mark : c.misspelling c.mark = c.fresh := if_pos rfl

theorem Due.left (h : c.Due n (ns ++ ns')) : c.Due n ns := by
  refine ⟨?_, fun r hr => h.role r (List.mem_append_left _ hr)⟩
  have honce := h.once
  rw [hits_append] at honce
  omega

theorem Due.right (h : c.Due n (ns ++ ns')) : c.Due (n + c.hits ns) ns' := by
  refine ⟨?_, fun r hr => h.role r (List.mem_append_right _ hr)⟩
  have honce := h.once
  rw [hits_append] at honce
  omega

theorem Due.done (h : c.Due n ns) : c.Due (n + c.hits ns) [] := ⟨h.once, by simp⟩

theorem Due.ne_mark {name : String} (h : c.Due n [(.declared, name)]) : name ≠ c.mark := by
  rintro rfl
  exact c.role_ne (h.role .declared (List.mem_singleton_self _)).symm

theorem Due.zero {r : Role} (h : c.Due n [(r, c.mark)]) : n = 0 := by
  have honce := h.once
  rw [hits_mark] at honce
  omega

/-- The tables of the two passes change in step, and nothing else does. -/
theorem Relates.of_names (h : c.Relates n p p') {t t' : NameTable} (hnames : t.Fades n t')
    (hknown : t.Known c.declared) (hlacks : t'.Lacks c.fresh) :
    c.Relates n { p with names := t } { p' with names := t' } :=
  ⟨hnames, hknown, hlacks, h.main, h.issues, h.count, h.complaints⟩

theorem Relates.of_astray (h : c.Relates n p p') (astray astray' : Bool) :
    c.Relates n { p with astray } { p' with astray := astray' } :=
  ⟨h.names, h.known, h.lacks, h.main, h.issues, h.count, h.complaints⟩

/-- The second pass makes its mistake. -/
theorem Relates.report (h : c.Relates n p p') {problem : Problem} (hc : c.Complaint problem) :
    c.Relates (n + 1) p (Check.report problem p').2 := by
  have herrors : (Check.report problem p').2.errors c.strictLiterals =
      p'.errors c.strictLiterals ++ [⟨problem, p'.upcoming.ahead.pos⟩] := by
    simp only [Pass.errors, Check.report, Array.toList_push, List.filterMap_append]
    rfl
  refine ⟨h.names.mono (Nat.le_succ n), h.known, h.lacks, h.main, h.issues, ?_, ?_⟩
  · rw [herrors, List.length_append, h.count, List.length_singleton]
  · intro d hd
    rw [herrors] at hd
    rcases List.mem_append.1 hd with hd | hd
    · exact h.complaints d hd
    · rw [List.mem_singleton.1 hd]
      exact hc

end Slip

namespace Check

open Slip

variable {α α' β β' : Type} {c : Slip} {n : Nat} {ns ns' : List (Role × String)}
  {R : Nat → α → α' → Prop} {S : Nat → β → β' → Prop}

/-- Nothing is asked of the two values. -/
def any (_ : Nat) (_ : α) (_ : α') : Prop := True

/-- The first part of the pass, if it finds no mistake, and the second one with the names `ns` in it
keep the two passes related, and what they yield is related by `R`. -/
def Absorbs (c : Slip) (n : Nat) (ns : List (Role × String)) (act : Check α) (act' : Check α')
    (R : Nat → α → α' → Prop) : Prop :=
  c.Due n ns → ∀ p p', c.Relates n p p' → (act p).2.errors c.strictLiterals = [] →
    c.Relates (n + c.hits ns) (act p).2 (act' p').2 ∧ R (n + c.hits ns) (act p).1 (act' p').1

theorem errors_of_grows {strict : Bool} {p q : Pass} (h : p.Grows q) (hq : q.errors strict = []) :
    p.errors strict = [] := by
  obtain ⟨added, hlog, -⟩ := h.log
  rw [Pass.errors, hlog, List.filterMap_append, List.append_eq_nil_iff] at hq
  exact hq.1

namespace Absorbs

variable {act : Check α} {act' : Check α'} {f : α → Check β} {f' : α' → Check β'}

theorem imp {S : Nat → α → α' → Prop} (h : Absorbs c n ns act act' R)
    (hr : ∀ m a a', R m a a' → S m a a') : Absorbs c n ns act act' S :=
  fun hdue p p' hrel hclean =>
    ⟨(h hdue p p' hrel hclean).1, hr _ _ _ (h hdue p p' hrel hclean).2⟩

theorem pure {a : α} {a' : α'} (h : R n a a') : Absorbs c n [] (pure a) (pure a') R :=
  fun _ _ _ hrel _ => ⟨hrel, h⟩

theorem bind [hg : ∀ a, Growing (f a)] (h : Absorbs c n ns act act' R)
    (h' : ∀ a a', R (n + c.hits ns) a a' → Absorbs c (n + c.hits ns) ns' (f a) (f' a') S) :
    Absorbs c n (ns ++ ns') (act >>= f) (act' >>= f') S := by
  intro hdue p p' hrel hclean
  have hclean₁ : (act p).2.errors c.strictLiterals = [] :=
    errors_of_grows ((hg (act p).1).grows (act p).2) hclean
  obtain ⟨hrel₁, hr⟩ := h hdue.left p p' hrel hclean₁
  have hnext := h' _ _ hr hdue.right _ _ hrel₁ hclean
  rw [hits_append, ← Nat.add_assoc]
  exact hnext

/-- No name is in the first part. -/
theorem seq_of (hg : ∀ a, Growing (f a)) (h : Absorbs c n [] act act' R)
    (h' : ∀ a a', R n a a' → Absorbs c n ns (f a) (f' a') S) :
    Absorbs c n ns (act >>= f) (act' >>= f') S :=
  h.bind h'

theorem seq [hg : ∀ a, Growing (f a)] (h : Absorbs c n [] act act' R)
    (h' : ∀ a a', R n a a' → Absorbs c n ns (f a) (f' a') S) :
    Absorbs c n ns (act >>= f) (act' >>= f') S :=
  h.seq_of hg h'

/-- No name is in the second part. -/
theorem last [∀ a, Growing (f a)] (h : Absorbs c n ns act act' R)
    (h' : ∀ m a a', n ≤ m → R m a a' → Absorbs c m [] (f a) (f' a') S) :
    Absorbs c n ns (act >>= f) (act' >>= f') S := by
  have hbind := h.bind fun a a' hr => h' (n + c.hits ns) a a' (Nat.le_add_right ..) hr
  rwa [List.append_nil] at hbind

/-- The first pass does something on its own. -/
theorem ahead {act' : Check β'} {R : Nat → α → Unit → Prop} [∀ a, Growing (f a)]
    (h : Absorbs c n [] act (Pure.pure ()) R) (h' : ∀ a, R n a () → Absorbs c n ns (f a) act' S) :
    Absorbs c n ns (act >>= f) act' S := by
  change Absorbs c n ns (act >>= f) (Pure.pure () >>= fun _ => act') S
  exact h.seq fun a _ hr => h' a hr

/-- The second pass does something on its own. -/
theorem behind {act : Check β} [Growing act] {R : Nat → Unit → α' → Prop}
    (h : Absorbs c n [] (Pure.pure ()) act' R)
    (h' : ∀ a', R n () a' → Absorbs c n ns act (f' a') S) : Absorbs c n ns act (act' >>= f') S := by
  change Absorbs c n ns (Pure.pure () >>= fun _ => act) (act' >>= f') S
  exact h.seq fun _ a' hr => h' a' hr

theorem discard (h : Absorbs c n ns act act' R) :
    Absorbs c n ns (discard act) (discard act') any :=
  fun hdue p p' hrel hclean => ⟨(h hdue p p' hrel hclean).1, trivial⟩

/-- The first pass finds no mistake, so it reports none. -/
theorem not_report {problem : Problem} {p : Pass} :
    (Check.report problem p).2.errors c.strictLiterals ≠ [] := by
  have hsome : (LogEntry.problem problem p.upcoming.ahead.pos).error? c.strictLiterals =
      some ⟨problem, p.upcoming.ahead.pos⟩ := rfl
  simp [Pass.errors, Check.report, List.filterMap_append, hsome]

theorem of_report {problem : Problem} {f : Unit → Check α} {act' : Check α'} [hg : Growing (f ())] :
    Absorbs c n ns (Check.report problem >>= f) act' R :=
  fun _ p _ _ hclean => absurd (errors_of_grows (hg.grows _) hclean) (not_report (p := p))

theorem report {problem : Problem} {act' : Check α'} {R : Nat → Unit → α' → Prop} :
    Absorbs c n ns (Check.report problem) act' R :=
  fun _ p _ _ hclean => absurd hclean (not_report (p := p))

/-- Nothing is skipped in the first pass, since that is reported. -/
theorem of_resync (problem : Problem) (skip : Check Unit) (next : Check α) {act' : Check α'}
    [hs : Growing skip] [hn : Growing next] :
    Absorbs c n ns (do
      Check.report problem
      skip
      resync
      next) act' R := by
  intro _ p _ _ hclean
  have hresync := errors_of_grows (hn.grows (resync (skip (Check.report problem p).2).2).2) hclean
  have hskip : (skip (Check.report problem p).2).2.errors c.strictLiterals = [] := by
    have hnone : LogEntry.resynced.error? c.strictLiterals = none := rfl
    simpa [Pass.errors, resync, List.filterMap_append, hnone] using hresync
  exact absurd (errors_of_grows (hs.grows _) hskip) not_report

theorem of_junk (problem : Problem) (skipped : Nat) (semicolon : Bool) (next : Check α)
    {act' : Check α'} [Growing next] :
    Absorbs c n ns (do
      Check.report problem
      consumeMany skipped
      if semicolon then consume
      resync
      next) act' R := by
  cases semicolon
  · exact of_resync problem (consumeMany skipped) next
  · exact of_resync problem (do consumeMany skipped; consume) next

section Checks

variable {b b' : Prop} [Decidable b] [Decidable b'] {problem problem' : Problem}
  {next : Unit → Check α} {next' : Unit → Check α'}

/-- The first pass meets a demand. -/
theorem met [Growing (next ())] (h : b → Absorbs c n ns (next ()) act' R) :
    Absorbs c n ns (if b then next () else Check.report problem >>= next) act' R := by
  by_cases hb : b
  · rw [if_pos hb]
    exact h hb
  · rw [if_neg hb]
    exact of_report

/-- Both passes meet a demand. -/
theorem bothMeet [Growing (next ())] (h : b → b') (h' : Absorbs c n ns (next ()) (next' ()) R) :
    Absorbs c n ns (if b then next () else Check.report problem >>= next)
      (if b' then next' () else Check.report problem' >>= next') R := by
  refine met fun hb => ?_
  rwa [if_pos (h hb)]

/-- Both passes meet the last demand of a part. -/
theorem finish (h : b → b') :
    Absorbs c n [] (if b then Pure.pure () else Check.report problem)
      (if b' then Pure.pure () else Check.report problem') any := by
  by_cases hb : b
  · rw [if_pos hb, if_pos (h hb)]
    exact pure trivial
  · rw [if_neg hb]
    exact report

/-- Neither pass has anything to object to. -/
theorem neitherObjects [Growing (next ())] {other : Check α} {other' : Check α'} (h : b' → b)
    (h' : Absorbs c n ns other other' R) :
    Absorbs c n ns (if b then Check.report problem >>= next else other)
      (if b' then act' else other') R := by
  by_cases hb : b
  · rw [if_pos hb]
    exact of_report
  · rwa [if_neg hb, if_neg fun hb' => hb (h hb')]

end Checks

end Absorbs

theorem Absorbs.get {f : Pass → Check α} {f' : Pass → Check α'}
    (h : ∀ p p', c.Relates n p p' → Absorbs c n ns (f p) (f' p') R) :
    Absorbs c n ns (MonadState.get >>= f) (MonadState.get >>= f') R :=
  fun hdue p p' hrel hclean => h p p' hrel hdue p p' hrel hclean

theorem Absorbs.names {f : NameTable → Check α} {f' : NameTable → Check α'}
    (h : ∀ t t' : NameTable, t.Fades n t' → Absorbs c n ns (f t) (f' t') R) :
    Absorbs c n ns (Check.names >>= f) (Check.names >>= f') R :=
  fun hdue p p' hrel hclean => h p.names p'.names hrel.names hdue p p' hrel hclean

/-! ## Parts without names -/

/-- Where the first pass finds nothing wrong with a literal, neither does the second. -/
theorem issue_eq_none {strict : Bool} {i : LiteralIssue} {pos : Position}
    (h : (LogEntry.issue i pos).error? strict = none) (pos' : Position) :
    (LogEntry.issue i pos').error? strict = none := by
  cases i with
  | numberOverflow =>
      cases strict with
      | true => cases h
      | false => rfl
  | emptyChar | invalidEscape | invalidChar | unterminatedChar => cases h

/-- The token that comes into view in the second pass brings no error if its counterpart brings
none. -/
theorem errors_arrival {strict : Bool} {t t' : Token} (hissue : t'.issue = t.issue)
    {log : Array LogEntry} (log' : Array LogEntry)
    (h : (Pass.arrival t log).toList.filterMap (LogEntry.error? strict) = []) :
    (Pass.arrival t' log').toList.filterMap (LogEntry.error? strict) =
      log'.toList.filterMap (LogEntry.error? strict) := by
  have hconsumed : LogEntry.consumed.error? strict = none := rfl
  unfold Pass.arrival at h ⊢
  rw [hissue]
  cases hi : t.issue with
  | none => simp [List.filterMap_append, hconsumed]
  | some i =>
      have hnone : (LogEntry.issue i t.pos).error? strict = none := by
        simp only [hi, Array.toList_push] at h
        rw [List.filterMap_append, List.append_eq_nil_iff] at h
        simpa using h.2
      simp [List.filterMap_append, hconsumed, issue_eq_none hnone t'.pos]

theorem absorbs_consume : Absorbs c n [] consume consume any := by
  intro _ p p' hrel hclean
  have hissues := Upcoming.forall₂_advance hrel.issues
  have herrors : (consume p').2.errors c.strictLiterals = p'.errors c.strictLiterals := by
    refine errors_arrival ?_ p'.log hclean
    cases hissues with
    | cons hahead _ => exact hahead
  refine ⟨⟨hrel.names, hrel.known, hrel.lacks, hrel.main, hissues, ?_, ?_⟩, trivial⟩
  · rw [herrors]
    exact hrel.count
  · rw [herrors]
    exact hrel.complaints

theorem absorbs_require (k : TokenKind) (mark : Mark) :
    Absorbs c n [] (require k mark) (require k mark) any := by
  cases mark with
  | found => exact absorbs_consume
  | missing => exact .report

theorem absorbs_emitting {act : Emit α} {act' : Emit α'} [h : Emit.Aside act] [h' : Emit.Aside act']
    (hr : ∀ b b', R n (act b).1 (act' b').1) :
    Absorbs c n [] (emitting act) (emitting act') R := by
  intro _ p p' hrel _
  refine ⟨⟨hrel.names, hrel.known, hrel.lacks, ?_, hrel.issues, hrel.count,
    hrel.complaints⟩, hr p.code p'.code⟩
  change (act p.code).2.mainPc.isSome = true → (act' p'.code).2.mainPc.isSome = true
  rw [h.mainPc, h'.mainPc]
  exact hrel.main

/-- Code is written, whatever it is. -/
theorem absorbs_writing {act : Emit α} {act' : Emit α'} [Emit.Aside act] [Emit.Aside act'] :
    Absorbs c n [] (emitting act) (emitting act') any :=
  absorbs_emitting fun _ _ => trivial

/-- Code is written in the first pass only. -/
theorem absorbs_writing_alone {act : Emit α} [h : Emit.Aside act] :
    Absorbs c n [] (emitting act) (pure ()) any := by
  change Absorbs c n [] (emitting act) (emitting (pure ())) any
  exact absorbs_writing

theorem absorbs_emit (i i' : Instruction) : Absorbs c n [] (emit i) (emit i') any :=
  absorbs_writing.discard

theorem absorbs_following {inside inside' : NameTable → Bool} {read : NameTable → α}
    {read' : NameTable → α'}
    (h : ∀ p p', c.Relates n p p' → R n (read p.names) (read' p'.names)) :
    Absorbs c n [] (following inside read) (following inside' read') R :=
  fun _ p p' hrel _ => ⟨hrel.of_astray _ _, h p p' hrel⟩

/-- Looking something up leaves no trace. -/
theorem absorbs_following_alone {inside : NameTable → Bool} {read : NameTable → α} :
    Absorbs c n [] (following inside read) (pure ()) any :=
  fun _ _ p' hrel _ => ⟨hrel.of_astray _ p'.astray, trivial⟩

theorem absorbs_entityOf (id : EntityId) :
    Absorbs c n [] (entityOf id) (entityOf id) Entity.Fades :=
  absorbs_following fun _ _ hrel => hrel.names.entity id

instance (act : Check α) [h : Growing act] : Growing (inScope act) := h.inScope

theorem Absorbs.inScope {act : Check α} {act' : Check α'} (h : Absorbs c n ns act act' R) :
    Absorbs c n ns (inScope act) (Check.inScope act') R := by
  intro hdue p p' hrel hclean
  have hopen := hrel.of_names hrel.names.openScope hrel.known.openScope hrel.lacks.openScope
  obtain ⟨hinner, hr⟩ := h hdue _ _ hopen hclean
  exact ⟨hinner.of_names hinner.names.closeScope hinner.known.closeScope
    hinner.lacks.closeScope, hr⟩

/-! ## Names -/

theorem declare_apply (form : Form) (name : String) (ty : Ty) (p : Pass) :
    declare form name ty p = orUnknown (p.names.insert form name ty).1
      { p with names := (p.names.insert form name ty).2 } := rfl

theorem resolve_apply (name : String) (p : Pass) :
    resolve name p = orUnknown (p.names.find name) p := rfl

/-- A declaration is spelt as it should be. -/
theorem absorbs_declare (form : Form) (name : String) {a b : Ty} (hty : a.Fades n b) (ha : a.Known)
    (hnamed : form = .typeName → b = a ∧ a ≠ .void) :
    Absorbs c n [(.declared, name)] (declare form (c.spelling name) a)
      (declare form (c.misspelling name) b) fun _ id id' => id' = id := by
  intro hdue p p' hrel hclean
  rw [misspelling_of_ne hdue.ne_mark, hits_of_ne hdue.ne_mark, Nat.add_zero]
  obtain ⟨hvalue, hnames⟩ := hrel.names.insert hty form (c.spelling name) hnamed
  have hknown := hrel.known.insert form (c.spelling name) ha fun hform => (hnamed hform).2
  have hrel' := hrel.of_names hnames hknown (hrel.lacks.insert (c.spelling_ne name) form b)
  rw [declare_apply] at hclean
  rw [declare_apply, declare_apply, hvalue]
  cases hfound : (p.names.insert form (c.spelling name) a).1 with
  | ok id => exact ⟨hrel', rfl⟩
  | error e =>
      rw [hfound] at hclean
      exact absurd hclean Absorbs.not_report

/-- What a used name stands for in both passes. Where the name is misspelt, it stands for nothing in
the second one. -/
theorem absorbs_resolve (name : String) {f : EntityId → Entity → Check α}
    {f' : EntityId → Entity → Check α'} (hg : ∀ id, Growing (entityOf id >>= f id))
    (hfound : ∀ id e e', e.Known → e.Fades n e' → Absorbs c n ns (f id e) (f' id e') R)
    (hlost : ∀ id e, e.Known →
      Absorbs c (n + 1) ns (f id e) (f' NameTable.unknownId .unknown) R) :
    Absorbs c n ((.used, name) :: ns)
      (do let id ← resolve (c.spelling name); f id (← entityOf id))
      (do let id ← resolve (c.misspelling name); f' id (← entityOf id)) R := by
  intro hdue p p' hrel hclean
  have hdue : c.Due n ([(.used, name)] ++ ns) := hdue
  have hleft := hdue.left
  have hright := hdue.right
  have hhits : c.hits ((.used, name) :: ns) = c.hits [(.used, name)] + c.hits ns :=
    hits_append c [(.used, name)] ns
  rw [hhits, ← Nat.add_assoc]
  simp only [bind_apply] at hclean ⊢
  rw [resolve_apply] at hclean
  rw [resolve_apply, resolve_apply]
  cases hfind : p.names.find (c.spelling name) with
  | error e =>
      rw [hfind] at hclean
      have hgrows := (hg NameTable.unknownId).grows (report (.name e) p).2
      exact absurd (errors_of_grows hgrows hclean) Absorbs.not_report
  | ok id =>
      have hknown := hrel.known.find hfind
      rw [hfind] at hclean
      by_cases hmark : name = c.mark
      · subst hmark
        rw [hits_mark] at hright ⊢
        rw [misspelling_mark, hrel.lacks.find]
        have hrole : Role.used = c.role := hleft.role .used (List.mem_singleton_self _)
        have hcomplaint : c.Complaint (.name (.notDeclared c.fresh)) := by
          rw [Slip.Complaint, ← hrole]
        have hrel' := (hrel.report hcomplaint).of_astray
          (p.astray || !p.names.hasEntity id) (p'.astray || !p'.names.hasEntity NameTable.unknownId)
        have hnext := hlost id (p.names.entity id) hknown hright _ _ hrel' hclean
        rw [← hrel.lacks.unknown] at hnext
        exact hnext
      · rw [hits_of_ne hmark] at hright ⊢
        rw [misspelling_of_ne hmark, hrel.names.find, hfind]
        exact hfound id (p.names.entity id) (p'.names.entity id) hknown (hrel.names.entity id)
          hright _ _ (hrel.of_astray _ _) hclean

end Check

end MicroJava
