import MicroJava.Compilation
import MicroJava.Proofs.Compile.Growth

/-! # Passes without a fault

A compilation without errors comes from a pass that noted no problem and whose code fits the
address space. Such a pass can be taken apart: each of its parts was without fault as well, and what
a part without fault does to the names and to the code follows from its definition. -/

namespace MicroJava

/-- No problem has been noted, and the code fits. -/
structure Pass.Faultless (p : Pass) : Prop where
  quiet : ∀ e ∈ p.log.toList, e.isProblem = false
  fits : p.code.Fits

theorem Pass.Faultless.of_grows {p p' : Pass} (h : p'.Faultless) (hg : p.Grows p') :
    p.Faultless := by
  obtain ⟨⟨added, hl, -⟩, hc, -⟩ := hg
  refine ⟨?_, h.fits.of_grows hc⟩
  intro e he
  exact h.quiet e (by simp [hl, he])

namespace Check

variable {α β : Type} {t t' t'' : NameTable} {b b' b'' : CodeBuffer}

/-- A part of the pass without fault: with the names `t` and the code `b` in front of it, it yields
`a` and leaves `t'` and `b'` behind. -/
def Gives (act : Check α) (t : NameTable) (b : CodeBuffer) (a : α) (t' : NameTable)
    (b' : CodeBuffer) : Prop :=
  ∃ p p' : Pass, act p = (a, p') ∧ p'.Faultless ∧ p.names = t ∧ p.code = b ∧
    p'.names = t' ∧ p'.code = b'

theorem Gives.fits {act : Check α} {a : α} (h : act.Gives t b a t' b') : b'.Fits := by
  obtain ⟨p, p', -, hf, -, -, -, rfl⟩ := h
  exact hf.fits

theorem Gives.fits_before {act : Check α} [hg : Growing act] {a : α}
    (h : act.Gives t b a t' b') : b.Fits := by
  obtain ⟨p, p', hr, hf, -, rfl, -, -⟩ := h
  have hp := hg.grows p
  rw [hr] at hp
  exact (hf.of_grows hp).fits

theorem Gives.parts {act : Check α} {f : α → Check β} {c : β}
    (h : (act >>= f).Gives t b c t'' b'') (hg : ∀ a, Growing (f a)) :
    ∃ a t' b', act.Gives t b a t' b' ∧ (f a).Gives t' b' c t'' b'' := by
  obtain ⟨p, p'', hr, hf, hn, hc, hn'', hc''⟩ := h
  rw [bind_apply] at hr
  have hq : (act p).2.Faultless := by
    have hp := (hg (act p).1).grows (act p).2
    rw [hr] at hp
    exact hf.of_grows hp
  exact ⟨(act p).1, (act p).2.names, (act p).2.code, ⟨p, (act p).2, rfl, hq, hn, hc, rfl, rfl⟩,
    ⟨(act p).2, p'', hr, hf, rfl, rfl, hn'', hc''⟩⟩

theorem Gives.bind {act : Check α} {f : α → Check β} [hg : ∀ a, Growing (f a)] {c : β}
    (h : (act >>= f).Gives t b c t'' b'') :
    ∃ a t' b', act.Gives t b a t' b' ∧ (f a).Gives t' b' c t'' b'' :=
  h.parts hg

theorem Gives.pure {a c : α} (h : (pure a : Check α).Gives t b c t' b') :
    c = a ∧ t' = t ∧ b' = b := by
  obtain ⟨p, p', hr, -, rfl, rfl, rfl, rfl⟩ := h
  cases hr
  exact ⟨rfl, rfl, rfl⟩

theorem Gives.discard {act : Check α} {u : Unit} (h : (discard act).Gives t b u t' b') :
    ∃ a, act.Gives t b a t' b' := by
  obtain ⟨p, p', hr, hf, hn, hc, hn', hc'⟩ := h
  cases hr
  exact ⟨(act p).1, p, (act p).2, rfl, hf, hn, hc, hn', hc'⟩

/-- What is reported is a fault. -/
theorem not_gives_report {problem : Problem} {u : Unit} :
    ¬ (report problem).Gives t b u t' b' := by
  rintro ⟨p, p', hr, hf, -⟩
  cases hr
  have hq := hf.quiet (.problem problem p.upcoming.ahead.pos) (by simp)
  simp [LogEntry.isProblem] at hq

/-- What is skipped is reported before. -/
theorem not_gives_resync (problem : Problem) (skip : Check Unit) (next : Check α) [Growing skip]
    [Growing next] {a : α} :
    ¬ (do report problem; skip; resync; next).Gives t b a t' b' := by
  rintro ⟨p, p', hr, hf, -⟩
  have hn : (resync (skip (report problem p).2).2).2.Grows p' := by
    have hg := (inferInstance : Growing next).grows (resync (skip (report problem p).2).2).2
    change next (resync (skip (report problem p).2).2).2 = (a, p') at hr
    rwa [hr] at hg
  have hresync := hf.of_grows hn
  have hskip : (skip (report problem p).2).2.Faultless :=
    ⟨fun e he => hresync.quiet e (by simp [resync, he]), hresync.fits⟩
  have hreport := hskip.of_grows ((inferInstance : Growing skip).grows (report problem p).2)
  exact not_gives_report (t := p.names) ⟨p, _, rfl, hreport, rfl, rfl, rfl, rfl⟩

theorem not_gives_junk (problem : Problem) (skipped : Nat) (semicolon : Bool) (next : Check α)
    [Growing next] {a : α} :
    ¬ (do
      report problem
      consumeMany skipped
      if semicolon then consume
      resync
      next).Gives t b a t' b' := by
  cases semicolon
  · exact not_gives_resync problem (consumeMany skipped) next
  · exact not_gives_resync problem (do consumeMany skipped; consume) next

/-- A remark in the middle was left out. -/
theorem Gives.unreported {c : Prop} [Decidable c] {problem : Problem} {f : Unit → Check α}
    {act : Check α} [∀ u, Growing (f u)] {a : α}
    (h : (if c then report problem >>= f else act).Gives t b a t' b') :
    ¬ c ∧ act.Gives t b a t' b' := by
  by_cases hc : c
  · rw [if_pos hc] at h
    obtain ⟨u, t₁, b₁, hrep, -⟩ := h.bind
    exact absurd hrep not_gives_report
  · rw [if_neg hc] at h
    exact ⟨hc, h⟩

theorem Gives.required {c : Prop} [Decidable c] {problem : Problem} {f : Unit → Check α}
    {act : Check α} [∀ u, Growing (f u)] {a : α}
    (h : (if c then act else report problem >>= f).Gives t b a t' b') :
    c ∧ act.Gives t b a t' b' := by
  by_cases hc : c
  · rw [if_pos hc] at h
    exact ⟨hc, h⟩
  · rw [if_neg hc] at h
    obtain ⟨u, t₁, b₁, hrep, -⟩ := h.bind
    exact absurd hrep not_gives_report

theorem Gives.consume {u : Unit} (h : consume.Gives t b u t' b') : t' = t ∧ b' = b := by
  obtain ⟨p, p', hr, -, rfl, rfl, rfl, rfl⟩ := h
  cases hr
  exact ⟨rfl, rfl⟩

theorem Gives.consumed {f : Unit → Check α} {a : α} (h : (Check.consume >>= f).Gives t b a t' b') :
    (f ()).Gives t b a t' b' := by
  obtain ⟨p, p', hr, hf, rfl, rfl, hn', hc'⟩ := h
  exact ⟨(Check.consume p).2, p', hr, hf, rfl, rfl, hn', hc'⟩

theorem Gives.require {k : TokenKind} {mark : Mark} {u : Unit}
    (h : (require k mark).Gives t b u t' b') : t' = t ∧ b' = b := by
  cases mark with
  | found => exact Gives.consume h
  | missing => exact absurd h not_gives_report

theorem Gives.demanded {k : TokenKind} {mark : Mark} {f : Unit → Check α} [∀ u, Growing (f u)]
    {a : α} (h : (Check.require k mark >>= f).Gives t b a t' b') : (f ()).Gives t b a t' b' := by
  obtain ⟨u, t₁, b₁, h₁, k₁⟩ := h.bind
  obtain ⟨rfl, rfl⟩ := h₁.require
  exact k₁

theorem Gives.requireName {name : Option String} {u : Unit}
    (h : (requireName name).Gives t b u t' b') : (∃ n, name = some n) ∧ t' = t ∧ b' = b := by
  cases name with
  | some n => exact ⟨⟨n, rfl⟩, Gives.consume h⟩
  | none => exact absurd h not_gives_report

theorem Gives.get {q : Pass} (h : (get : Check Pass).Gives t b q t' b') :
    q.names = t ∧ q.code = b ∧ t' = t ∧ b' = b := by
  obtain ⟨p, p', hr, -, rfl, rfl, rfl, rfl⟩ := h
  cases hr
  exact ⟨rfl, rfl, rfl, rfl⟩

theorem Gives.names {r : NameTable} (h : names.Gives t b r t' b') :
    r = t ∧ t' = t ∧ b' = b := by
  obtain ⟨p, p', hr, -, rfl, rfl, rfl, rfl⟩ := h
  cases hr
  exact ⟨rfl, rfl, rfl⟩

theorem Gives.following {inside : NameTable → Bool} {read : NameTable → α} {a : α}
    (h : (following inside read).Gives t b a t' b') : a = read t ∧ t' = t ∧ b' = b := by
  obtain ⟨p, p', hr, -, rfl, rfl, rfl, rfl⟩ := h
  cases hr
  exact ⟨rfl, rfl, rfl⟩

theorem Gives.naming {act : NameTable → α × NameTable} {a : α}
    (h : (naming act).Gives t b a t' b') : act t = (a, t') ∧ b' = b := by
  obtain ⟨p, p', hr, -, rfl, rfl, rfl, rfl⟩ := h
  cases hr
  exact ⟨rfl, rfl⟩

/-- What a handle stands for is changed once it has been followed. -/
theorem Gives.followed {inside : NameTable → Bool} {read : NameTable → α}
    {f : NameTable → NameTable} {u : Unit}
    (h : (do Functor.discard (Check.following inside read); Check.modifyNames f).Gives t b u t' b') :
    t' = f t ∧ b' = b := by
  obtain ⟨p, p', hr, -, rfl, rfl, rfl, rfl⟩ := h
  cases hr
  exact ⟨rfl, rfl⟩

theorem Gives.emitting {act : Emit α} {a : α} (h : (emitting act).Gives t b a t' b') :
    t' = t ∧ act b = (a, b') := by
  obtain ⟨p, p', hr, -, rfl, rfl, rfl, rfl⟩ := h
  cases hr
  exact ⟨rfl, rfl⟩

theorem Gives.emit {i : Instruction} {u : Unit} (h : (emit i).Gives t b u t' b') :
    t' = t ∧ b' = b.written [i] := by
  have hf := h.fits
  obtain ⟨adr, h⟩ := Gives.discard h
  obtain ⟨ht, he⟩ := Gives.emitting h
  obtain ⟨-, rfl⟩ := Prod.mk.inj he
  exact ⟨ht, CodeBuffer.append_eq_written hf⟩

theorem Gives.orUnknown {r : Except NameError EntityId} {id : EntityId}
    (h : (orUnknown r).Gives t b id t' b') : r = .ok id ∧ t' = t ∧ b' = b := by
  cases r with
  | ok found =>
      obtain ⟨rfl, ht, hb⟩ := Gives.pure h
      exact ⟨rfl, ht, hb⟩
  | error e =>
      rw [Check.orUnknown] at h
      obtain ⟨u, t₁, b₁, hrep, -⟩ := h.bind
      exact absurd hrep not_gives_report

theorem Gives.declare {form : Form} {name : String} {ty : Ty} {id : EntityId}
    (h : (declare form name ty).Gives t b id t' b') :
    t.insert form name ty = (.ok id, t') ∧ b' = b := by
  rw [Check.declare] at h
  obtain ⟨r, t₁, b₁, h₁, h₂⟩ := h.bind
  obtain ⟨hi, rfl⟩ := Gives.naming h₁
  obtain ⟨rfl, rfl, hb⟩ := Gives.orUnknown h₂
  exact ⟨hi, hb⟩

theorem Gives.resolve {name : String} {id : EntityId}
    (h : (resolve name).Gives t b id t' b') : t.find name = .ok id ∧ t' = t ∧ b' = b := by
  rw [Check.resolve] at h
  obtain ⟨r, t₁, b₁, h₁, h₂⟩ := h.bind
  obtain ⟨rfl, rfl, rfl⟩ := Gives.names h₁
  exact Gives.orUnknown h₂

/-- A loaded operand is no method, and its code is complete. -/
theorem Gives.load {x y : Operand} (h : (load x).Gives t b y t' b') :
    (∀ id, x.place ≠ .method id) ∧ t' = t ∧ b' = b.written x.fetch ∧
      y = (if x.place = .unknown then x else .onStack x.ty) := by
  rw [Check.load] at h
  obtain ⟨r, t₁, b₁, h₁, h₂⟩ := h.parts fun r => by split <;> infer_instance
  obtain ⟨rfl, he⟩ := Gives.emitting h₁
  cases r with
  | ok z =>
      obtain ⟨rfl, rfl, rfl⟩ := Gives.pure h₂
      obtain ⟨hm, hb, hy⟩ := Emit.load_eq he h₁.fits
      exact ⟨hm, rfl, hb, hy⟩
  | error e =>
      obtain ⟨u, t₂, b₂, hrep, -⟩ := h₂.bind
      exact absurd hrep not_gives_report

theorem Gives.inScope {act : Check α} {a : α} (h : (inScope act).Gives t b a t' b') :
    ∃ t₁, act.Gives t.openScope b a t₁ b' ∧ t' = t₁.closeScope := by
  obtain ⟨p, p', hr, hf, rfl, rfl, rfl, rfl⟩ := h
  cases hr
  exact ⟨_, ⟨(Check.modifyNames NameTable.openScope p).2, _, rfl, ⟨hf.quiet, hf.fits⟩, rfl, rfl,
    rfl, rfl⟩, rfl⟩

end Check

/-! ## Reports without errors -/

namespace Reporter

variable {μ : Type}

theorem keeps_iff (r : Reporter μ) : r.keeps = true ↔ r.minDistance ≤ r.distance :=
  decide_eq_true_iff

theorem size_errors_record (r : Reporter μ) (e : Event μ) :
    r.errors.size ≤ (r.record e).errors.size := by
  cases e with
  | error d =>
      simp only [record]
      split
      · simp
      · exact Nat.le_refl _
  | unthrottled d => simp [record]
  | consumed | resynced | warning => exact Nat.le_refl _

theorem size_errors_recordAll (r : Reporter μ) (events : List (Event μ)) :
    r.errors.size ≤ (r.recordAll events).errors.size := by
  induction events generalizing r with
  | nil => exact Nat.le_refl _
  | cons e events ih => exact Nat.le_trans (r.size_errors_record e) (ih (r.record e))

/-- As long as nothing has been thrown away, the first problem is kept. -/
theorem errors_of_problem (strict : Bool) {log : List LogEntry} (r : Reporter Problem)
    (hr : r.keeps = true) (he : Explained log) (hp : ∃ e ∈ log, e.isProblem) :
    0 < (r.recordAll (log.map (LogEntry.event strict))).errors.size := by
  induction log generalizing r with
  | nil => simp at hp
  | cons e log ih =>
      -- what follows an entry that is no problem is explained by itself
      have hnext : ∀ r' : Reporter Problem, r'.keeps = true → e.isProblem = false →
          0 < (r'.recordAll (log.map (LogEntry.event strict))).errors.size := by
        intro r' hr' hne
        refine ih r' hr' ?_ ?_
        · intro before after hl
          obtain ⟨e', hin, hp'⟩ := he (e :: before) after (by simp [hl])
          rcases List.mem_cons.1 hin with rfl | hin
          · simp [hne] at hp'
          · exact ⟨e', hin, hp'⟩
        · obtain ⟨e', hin, hp'⟩ := hp
          rcases List.mem_cons.1 hin with rfl | hin
          · simp [hne] at hp'
          · exact ⟨e', hin, hp'⟩
      rw [List.map_cons]
      change 0 < (recordAll (r.record (e.event strict)) _).errors.size
      cases e with
      | problem p pos =>
          refine Nat.lt_of_lt_of_le ?_ (size_errors_recordAll _ _)
          simp [LogEntry.event, record, hr]
      | resynced =>
          obtain ⟨e', hin, -⟩ := he [] log rfl
          simp at hin
      | consumed =>
          have hd := r.keeps_iff.1 hr
          exact hnext _ ((keeps_iff _).2 (Nat.le_succ_of_le hd)) rfl
      | issue i pos =>
          have hd := r.keeps_iff.1 hr
          refine hnext _ ((keeps_iff _).2 ?_) rfl
          cases i <;> cases strict <;> exact hd

end Reporter

/-- The tree of a program text. -/
def Program.ofString (source : String) : Program :=
  Program.read (Upcoming.ofTokens (TokenList.ofString source))

theorem log_start (up : Upcoming) :
    Explained (Pass.start up).log.toList ∧ (Pass.start up).code.Honest := by
  obtain ⟨added, hl, hr, -⟩ := Check.arrival_toList up.ahead #[]
  constructor
  · exact explained_of_not_mem (by simpa [Pass.start, hl] using hr)
  · intro hlt
    simp [Pass.start] at hlt

/-- Nothing is wrong with a draft that is reported without errors. -/
theorem Draft.quiet_of_errors {d : Draft} {options : Options} (he : Explained d.log)
    (h : (d.report options).errors = #[]) :
    (∀ e ∈ d.log, e.isProblem = false) ∧ d.code.overflowed = false ∧ d.dataSize ≤ maxAddress := by
  simp only [Draft.report] at h
  split at h
  · next hbad =>
      simp [Reporter.record] at h
  · next hgood =>
      have hfits : d.fits = true := by simpa [h] using hgood
      simp only [Draft.fits, Bool.and_eq_true, Bool.not_eq_true', decide_eq_true_eq] at hfits
      refine ⟨?_, hfits.1, hfits.2⟩
      intro e hin
      cases hp : e.isProblem with
      | false => rfl
      | true =>
          have hr := Reporter.errors_of_problem options.strictLiterals
            (Reporter.new options.errorDistance) (by simp [Reporter.keeps, Reporter.new]) he
            ⟨e, hin, hp⟩
          simp [h] at hr

theorem Draft.ofUpcoming_eq (up : Upcoming) {n : Nat} {p : Pass}
    (h : Check.program (Program.read up) (Pass.start up) = (n, p)) :
    ofUpcoming up = ⟨p.log.toList, p.code, n, p.upcoming.ahead.pos⟩ := by
  unfold ofUpcoming StateT.run
  rw [h]

/-- A compilation without errors comes from a pass without a fault. -/
theorem gives_of_compile {source : String} {options : Options}
    (h : (compile source options).errors = []) :
    ∃ n t b, (Check.program (Program.ofString source)).Gives .initial {} n t b ∧
      n ≤ maxAddress ∧ (compile source options).code = b.toObject n := by
  unfold compile Draft.ofString at h ⊢
  unfold Program.ofString
  generalize Upcoming.ofTokens (TokenList.ofString source) = up at h ⊢
  obtain ⟨n, p, hrun⟩ : ∃ n p, Check.program (Program.read up) (Pass.start up) = (n, p) :=
    ⟨_, _, (Prod.eta _).symm⟩
  have hg : (Pass.start up).Grows p := by
    have hp := (inferInstance : Check.Growing (Check.program (Program.read up))).grows
      (Pass.start up)
    rwa [hrun] at hp
  obtain ⟨hs, hh⟩ := log_start up
  have hlog : Explained p.log.toList := by
    obtain ⟨⟨added, hl, ha⟩, -⟩ := hg
    rw [hl]
    exact hs.append ha
  rw [Draft.ofUpcoming_eq up hrun] at h ⊢
  obtain ⟨hq, ho, hn⟩ := Draft.quiet_of_errors hlog (Array.toList_eq_nil_iff.1 h)
  have hf : p.Faultless := ⟨hq, (hg.code.honest hh).fits ho⟩
  exact ⟨n, p.names, p.code, ⟨Pass.start up, p, hrun, hf, rfl, rfl, rfl, rfl⟩, hn, rfl⟩

end MicroJava
