import MicroJava.Proofs.Compile.TwoPass
import MicroJava.Proofs.Resolved.Shape

/-! # Emitted code

The code of a text without errors can be decoded, and its instructions are those of one method after
the other, each keeping to itself apart from calls. -/

namespace MicroJava

open Resolved (resolveProgram toNat_addressOf)

/-- Emitted code is well formed. -/
theorem compile_wellFormed {source : String} {options : Options}
    (h : (compile source options).errors = []) :
    ∃ P bodies, resolveProgram (Program.ofString source) = some P ∧
      (compile source options).code.code.size ≤ maxAddress ∧
      Instruction.decodeAll (compile source options).code.code = .ok bodies.flatten.toArray ∧
      bodies.length = P.methods.length ∧
      (∀ (i : Nat) m body, P.methods[i]? = some m → bodies[i]? = some body →
        P.ListsMethod (compile source options).code.dataSize.toNat bodies i m body) ∧
      ∃ main ∈ bodies, ∃ locals,
        main.entry? = some ((compile source options).code.mainPc.toNat, 0, locals) := by
  obtain ⟨P, hp, hcode, hglobals, hsize⟩ := resolved_of_compile h
  have hP := Resolved.resolveProgram_typed hp
  rw [hcode]
  have hdata : P.object.dataSize.toNat = P.globals.length := toNat_addressOf hglobals
  refine ⟨P, P.listings, hp, ?_, ?_, ?_, ?_, ?_⟩
  · rwa [Resolved.Program.object, List.size_toArray]
  · rw [Resolved.Program.listings, Resolved.flatten_listings]
    exact Instruction.decodeAll_encodeAll P.code
  · exact Resolved.length_listings _ _ _
  · intro i m body hm hbody
    rw [Resolved.Program.getElem?_listings hm, Option.some.injEq] at hbody
    rw [← hbody, hdata]
    exact hP.listsMethod hsize hm
  · obtain ⟨i, m, hmain, hm, hsig⟩ := hP.main
    refine ⟨_, List.mem_of_getElem? (Resolved.Program.getElem?_listings hm),
      Resolved.slotOf m.frame.length, ?_⟩
    have hparams : m.params = [] := congrArg Resolved.Signature.params hsig
    rw [Resolved.Method.entry?_addressed, Resolved.Program.toNat_mainPc hmain hsize, hparams]
    rfl

theorem compile_wellFormed_countdown :
    ∃ P bodies, resolveProgram (Program.ofString countdownText) = some P ∧
      (compile countdownText {}).code.code.size ≤ maxAddress ∧
      Instruction.decodeAll (compile countdownText {}).code.code = .ok bodies.flatten.toArray ∧
      bodies.length = P.methods.length ∧
      (∀ (i : Nat) m body, P.methods[i]? = some m → bodies[i]? = some body →
        P.ListsMethod (compile countdownText {}).code.dataSize.toNat bodies i m body) ∧
      ∃ main ∈ bodies, ∃ locals,
        main.entry? = some ((compile countdownText {}).code.mainPc.toNat, 0, locals) :=
  compile_wellFormed errors_countdownText

end MicroJava
