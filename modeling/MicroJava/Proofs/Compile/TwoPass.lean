import MicroJava.Proofs.Compile.Declarations
import MicroJava.Proofs.Compile.Reports
import MicroJava.Proofs.Tree.Shape

/-! # One pass against two

The code of a text without errors is the code of its resolved program, byte for byte. The program is
resolved from the tree of the text, which has every token of it in its place. -/

namespace MicroJava

open Resolved (Env resolveProgram addressOf toNat_addressOf)

namespace Check

variable {t t' : NameTable} {b b' : CodeBuffer}

set_option synthInstance.maxSize 512

/-- The layout of a program is the one that all its calls were written with. -/
theorem covers_layout {env : Env} {g : Progress} {P : Resolved.Program}
    (hc : P.classes = env.classes.map fun fields => fields.map Prod.snd)
    (he : g.entries = startsFrom 0 P.methods) : Covers env g P.layout := by
  refine ⟨fun cls => ?_, fun i a ha => ?_⟩
  · rw [← env.length_fields]
    simp only [Resolved.Program.layout, Resolved.Program.fields, hc, Resolved.Context.fields,
      Env.context]
  · rw [he, startsFrom, List.getElem?_map, Option.map_eq_some_iff] at ha
    obtain ⟨j, hj, rfl⟩ := ha
    obtain ⟨-, rfl⟩ := List.getElem?_eq_some_iff.1 hj
    simp [Resolved.Program.layout, Resolved.Program.entry]

theorem program_agrees {p : Program} {n : Nat} (h : (program p).Gives .initial {} n t b) :
    ∃ P, resolveProgram p = some P ∧ n = P.globals.length ∧
      b.mainPc = some (addressOf P.mainEntry) ∧
      b.bytes = (Instruction.encodeAll P.code).toArray := by
  have hinside : Growing (inScope do
      declarations p.declarations
      require .lbrace p.lbrace
      methods p.methods
      require .rbrace p.rbrace
      if (← get).code.mainPc.isNone then report .mainMissing
      return (← names).current.varCount) := by
    refine Growing.inScope ?_
    refine Growing.bind inferInstance fun _ => Growing.bind inferInstance fun _ => ?_
    refine Growing.bind inferInstance fun _ => Growing.bind inferInstance fun _ => ?_
    exact Growing.bind inferInstance fun q => Growing.noting inferInstance inferInstance
  rw [program] at h
  obtain ⟨u₁, t₁, b₁, h₁, k₁⟩ := h.demanded.bind
  obtain ⟨globals, t₂, b₂, h₂, k₂⟩ := k₁.bind
  obtain ⟨-, k₃⟩ := k₂.unreported
  obtain ⟨rfl, rfl, rfl⟩ := k₃.pure
  obtain ⟨t₃, h₃, rfl⟩ := h₂.inScope
  obtain ⟨u₄, t₄, b₄, h₄, k₄⟩ := h₃.bind
  obtain ⟨u₅, t₅, b₅, h₅, k₅⟩ := k₄.demanded.bind
  obtain ⟨q, t₆, b₆, h₆, k₆⟩ := k₅.demanded.bind
  obtain ⟨hmain, k₇⟩ := k₆.unreported
  obtain ⟨table, t₈, b₈, h₈, k₈⟩ := k₇.bind
  obtain ⟨rfl, rfl, rfl⟩ := h₈.names
  obtain ⟨rfl, rfl, rfl⟩ := k₈.pure
  obtain ⟨id, h₁⟩ := h₁.discard
  obtain ⟨rfl, name, hname, hi⟩ := h₁.declareName
  obtain ⟨env₁, hd, ha₁⟩ := NameTable.initial_agrees.declareProgram hi
  have hw₁ := Resolved.initial_wellFormed.declare hd trivial
  obtain ⟨-, rfl⟩ := Resolved.Env.declare_eq_some hd
  obtain ⟨ha₂, -⟩ := ha₁.openScope
  have hw₂ := hw₁.nested_of_context rfl
  obtain ⟨rfl, env₂, hdecls, ha₃⟩ := declarations_agrees h₄ ha₂ rfl hw₂ rfl
  obtain ⟨hw₃, ho₃, hs₃⟩ := Resolved.resolveDeclarations_ok hw₂ rfl hdecls
  have hsig : env₂.signatures = [] := hs₃
  obtain ⟨rms, env₃, g, hms, hr, hg, hpc, hbytes⟩ := methods_agrees h₅
    ⟨ha₃, hw₃, rfl, by simp [hsig]⟩ (by rw [ho₃]; rfl) (by simp [hsig])
  obtain ⟨-, hcode, rfl, rfl⟩ := h₆.get
  obtain ⟨i, hi⟩ : ∃ i, rms.findIdx? (fun m => m.name == Resolved.Program.mainName) = some i := by
    rw [hcode, hpc] at hmain
    cases hfind : rms.findIdx? fun m => m.name == Resolved.Program.mainName with
    | none => simp [mainFrom, hfind] at hmain
    | some i => exact ⟨i, rfl⟩
  have hcovers : Covers env₃ g (Resolved.Program.layout ⟨env₃.inner.vars.map Prod.snd,
      env₃.classes.map fun fields => fields.map Prod.snd, rms⟩) :=
    covers_layout rfl (by simpa using hg)
  have hfound : Resolved.Program.main? ⟨env₃.inner.vars.map Prod.snd,
      env₃.classes.map fun fields => fields.map Prod.snd, rms⟩ = some i := hi
  refine ⟨⟨env₃.inner.vars.map Prod.snd, env₃.classes.map fun fields => fields.map Prod.snd, rms⟩,
    ?_, ?_, ?_, ?_⟩
  · simp only [resolveProgram, hname, hd, hdecls, hms, hfound, Option.bind_eq_bind,
      Option.bind_some, Option.isSome_some, if_true]
  · rw [List.length_map]
    exact hr.agrees.varCount
  · rw [hpc]
    simp only [Resolved.Program.mainEntry, hfound, mainFrom, hi]
    simp [Resolved.Program.entry]
  · rw [hbytes _ hcovers]
    simp [CodeBuffer.written, Resolved.Program.code]

end Check

/-- The code of a text without errors is that of its resolved program, and everything in it can be
addressed. -/
theorem resolved_of_compile {source : String} {options : Options}
    (h : (compile source options).errors = []) :
    ∃ P, resolveProgram (Program.ofString source) = some P ∧
      (compile source options).code = P.object ∧ P.globals.length ≤ maxAddress ∧
      Resolved.codeSize P.code ≤ maxAddress := by
  obtain ⟨n, t, b, hg, hn, hcode⟩ := gives_of_compile h
  obtain ⟨P, hp, rfl, hmain, hbytes⟩ := Check.program_agrees hg
  refine ⟨P, hp, ?_, hn, ?_⟩
  · rw [hcode]
    simp [CodeBuffer.toObject, Resolved.Program.object, hmain, hbytes, clampAddress,
      Nat.min_eq_left hn, addressOf]
  · have hsize := hg.fits.size_le
    rwa [hbytes, List.size_toArray] at hsize

/-- The tree of a text without errors is the text's own: written out again it gives the tokens one
by one, and its parts belong together as the language says. -/
theorem tree_of_compile {source : String} {options : Options}
    (h : (compile source options).errors = []) :
    (Program.ofString source).written = (TokenList.ofString source).tokens.map Token.face ∧
      (Program.ofString source).Grouped := by
  have hgaps := (over_of_compile h).2
  exact ⟨(spans_of_gaps hgaps).faces hgaps, Program.grouped_read _⟩

/-- Writing code while reading, with targets filled in later, gives the bytes that two passes over
the resolved tree give: one for the sizes, one for the code. The tree has all tokens of the text, in
their order and grouped as the language says. -/
theorem compile_eq_twoPass {source : String} {options : Options}
    (h : (compile source options).errors = []) :
    (Program.ofString source).written = (TokenList.ofString source).tokens.map Token.face ∧
      (Program.ofString source).Grouped ∧
      ∃ P main, resolveProgram (Program.ofString source) = some P ∧ P.main? = some main ∧
        (compile source options).code.code.toList = Instruction.encodeAll P.code ∧
        (compile source options).code.dataSize.toNat = P.globals.length ∧
        (compile source options).code.mainPc.toNat = P.entry main := by
  obtain ⟨hwritten, hgrouped⟩ := tree_of_compile h
  obtain ⟨P, hp, hcode, hglobals, hsize⟩ := resolved_of_compile h
  obtain ⟨main, -, hmain, -⟩ := (Resolved.resolveProgram_typed hp).main
  rw [hcode]
  exact ⟨hwritten, hgrouped, P, main, hp, hmain, rfl, toNat_addressOf hglobals,
    Resolved.Program.toNat_mainPc hmain hsize⟩

/-- A program with a global variable, a recursive method and a loop. -/
def countdownText : String :=
  "program P int g; \x7b int f(int n) \x7b if (n > 0) return f(n - 1); else return 7; \x7d " ++
  "void main() \x7b while (g < 3) g = f(g); print(g); \x7d \x7d"

theorem errors_countdownText : (compile countdownText {}).errors = [] := by
  decide +kernel

theorem compile_eq_twoPass_countdown :
    (Program.ofString countdownText).written =
        (TokenList.ofString countdownText).tokens.map Token.face ∧
      (Program.ofString countdownText).Grouped ∧
      ∃ P main, resolveProgram (Program.ofString countdownText) = some P ∧ P.main? = some main ∧
        (compile countdownText {}).code.code.toList = Instruction.encodeAll P.code ∧
        (compile countdownText {}).code.dataSize.toNat = P.globals.length ∧
        (compile countdownText {}).code.mainPc.toNat = P.entry main :=
  compile_eq_twoPass errors_countdownText

end MicroJava
