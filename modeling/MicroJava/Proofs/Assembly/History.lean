import Mathlib.Data.List.Forall2
import MicroJava.Proofs.Assembly.Writing
import MicroJava.Proofs.Resolved.Sizes

/-! # The history of a buffer

What the operations on a new buffer asked for, one instruction after the other: the address that was
next at the time, the numbers wanted as immediates, whatever their size, and the address a jump was
last made to land on. Decoding an unmarked buffer gives exactly this list back. -/

namespace MicroJava

open Resolved (codeSize addressOf slotOf)

/-! ## Instructions asked for -/

/-- One instruction that is asked for. Its numbers may be too large for it. -/
inductive Request where
  | exactly (i : Instruction)
  | slot (form : UInt8 → Instruction) (n : Nat)
  | address (form : UInt16 → Instruction) (n : Nat)
  | frame (params locals : Nat)

/-- The instruction has the form and the very numbers asked for. -/
inductive Request.Met : Request → Instruction → Prop
  | exactly (i : Instruction) : Met (.exactly i) i
  | slot (form : UInt8 → Instruction) (n : UInt8) : Met (.slot form n.toNat) (form n)
  | address (form : UInt16 → Instruction) (n : UInt16) : Met (.address form n.toNat) (form n)
  | frame (params locals : UInt8) :
      Met (.frame params.toNat locals.toNat) (.enter params locals)

/-- A request as it was made. -/
structure Issue where
  /-- The next address at that time. -/
  pc : UInt16
  request : Request
  /-- The place of its target, if that was handed out. -/
  field : Option UInt16 := none
  /-- The next address when it was last made to land. -/
  landed : Option UInt16 := none

namespace Instruction

/-- The same jump to another target. -/
def landing (target : UInt16) : Instruction → Instruction
  | jump _ => jump target
  | jumpIf rel _ => jumpIf rel target
  | i => i

/-- Jumps whose target may be settled later. -/
inductive IsJump : Instruction → Prop
  | jump (target : UInt16) : IsJump (.jump target)
  | jumpIf (rel : Comparison) (target : UInt16) : IsJump (.jumpIf rel target)

theorem landing_landing (i : Instruction) (s t : UInt16) :
    (i.landing s).landing t = i.landing t := by
  cases i <;> rfl

theorem IsJump.landing {i : Instruction} (h : i.IsJump) (t : UInt16) : (i.landing t).IsJump := by
  cases h with
  | jump old => exact .jump t
  | jumpIf rel old => exact .jumpIf rel t

/-- A jump is one form applied to its target. -/
theorem IsJump.exists_form {i : Instruction} (h : i.IsJump) : ∃ form, CodeBuffer.Targeted form ∧
    (∃ old, i = form old) ∧ ∀ t, i.landing t = form t := by
  cases h with
  | jump old => exact ⟨.jump, CodeBuffer.targeted_jump, ⟨old, rfl⟩, fun _ => rfl⟩
  | jumpIf rel old => exact ⟨.jumpIf rel, CodeBuffer.targeted_jumpIf rel, ⟨old, rfl⟩, fun _ => rfl⟩

end Instruction

/-- An instruction and its address are what became of a request. -/
structure Issue.Yields (e : Issue) (found : Nat × Instruction) : Prop where
  pc : found.1 = e.pc.toNat
  instruction : ∃ i, e.request.Met i ∧ found.2 = e.landed.elim i fun t => i.landing t

/-! ## Operations -/

/-- What brings the value of an operand to the stack. -/
def Operand.loadRequest? (x : Operand) : Option Request :=
  match x.place with
  | .constant value => some (.exactly (.const value))
  | .frame slot => some (.slot .load slot)
  | .global adr => some (.address .getStatic adr)
  | .field adr => some (.address .getField adr)
  | .element => some (.exactly (.loadElem (Emit.elemSize x.ty)))
  | .method _ | .stack | .unknown => none

/-- What pops a value into the place of an operand. -/
def Operand.storeRequest? (x : Operand) : Option Request :=
  match x.place with
  | .frame slot => some (.slot .store slot)
  | .global adr => some (.address .putStatic adr)
  | .field adr => some (.address .putField adr)
  | .element => some (.exactly (.storeElem (Emit.elemSize x.ty)))
  | .constant _ | .method _ | .stack | .unknown => none

/-- The operations that append to a buffer. -/
inductive Operation where
  | emit (i : Instruction)
  | load (x : Operand)
  | store (x : Operand)
  | assign (dest source : Operand)
  | jumpUnless (rel : Comparison)
  | jump (target : UInt16)
  | enter (params frame : Nat)
  | leave
  | missingReturn
  | newArray (elem : Ty)
  | newObject (fields : Nat)

/-- The buffer after an operation, whether or not it succeeds. -/
def Operation.perform (b : CodeBuffer) : Operation → CodeBuffer
  | emit i => (Emit.instruction i b).2
  | load x => ((Emit.load x).run b).2
  | store x => ((Emit.store x).run b).2
  | assign dest source => ((Emit.assign dest source).run b).2
  | jumpUnless rel => (Emit.jumpUnless rel b).2
  | jump target => (Emit.jump target b).2
  | enter params frame => (Emit.enter params frame b).2
  | leave => (Emit.leave b).2
  | missingReturn => (Emit.missingReturn b).2
  | newArray elem => (Emit.newArray elem b).2
  | newObject fields => (Emit.newObject fields b).2

/-- A request that may be made of the buffer as it is. -/
def CodeBuffer.issues (b : CodeBuffer) (r : Option Request) : List Issue :=
  r.toList.map fun request => { pc := b.pc, request }

/-- The requests an operation makes, in order. Nothing is stored when the source of an assignment
has no value. -/
def Operation.issues (b : CodeBuffer) : Operation → List Issue
  | emit i => b.issues (some (.exactly i))
  | load x => b.issues x.loadRequest?
  | store x => b.issues x.storeRequest?
  | assign dest source =>
      match (Emit.load source).run b with
      | (.ok _, loaded) => b.issues source.loadRequest? ++ loaded.issues dest.storeRequest?
      | (.error _, _) => b.issues source.loadRequest?
  | jumpUnless rel =>
      [{ pc := b.pc, request := .exactly (.jumpIf rel.negation 0),
         field := some (Emit.jumpUnless rel b).1 }]
  | jump target =>
      [{ pc := b.pc, request := .exactly (.jump target), field := some (Emit.jump target b).1 }]
  | enter params frame => b.issues (some (.frame params frame))
  | leave => b.issues (some (.exactly .exit)) ++
      (Emit.instruction .exit b).2.issues (some (.exactly .ret))
  | missingReturn => b.issues (some (.exactly (.trap Instruction.missingReturn)))
  | newArray elem => b.issues (some (.exactly (.newArray (Emit.elemSize elem))))
  | newObject fields => b.issues (some (.address .new fields))

/-- A buffer and all that was asked of it since it was new. A jump whose place was handed out may be
made to land any number of times. -/
inductive History : CodeBuffer → List Issue → Prop
  | new : History {} []
  | operation {b : CodeBuffer} {log : List Issue} (h : History b log) (op : Operation) :
      History (op.perform b) (log ++ op.issues b)
  | land {b : CodeBuffer} {before after : List Issue} {e : Issue} {adr : UInt16}
      (h : History b (before ++ e :: after)) (hadr : e.field = some adr) :
      History (Emit.land adr b).2 (before ++ { e with landed := some b.pc } :: after)

/-! ## What a stretch of operations writes -/

namespace CodeBuffer

open Instruction (addressed)

/-- An instruction became of a request, and it is a jump if the place of its target is known. -/
structure Answers (e : Issue) (found : Nat × Instruction) : Prop where
  yields : e.Yields found
  field : ∀ adr, e.field = some adr → adr.toNat = found.1 + 1 ∧ found.2.IsJump

/-- From one buffer to another exactly the instructions asked for were written, unless that left its
mark. -/
structure Takes (b b' : CodeBuffer) (log : List Issue) : Prop where
  grows : b.Grows b'
  writes : b'.Fits →
    ∃ is, b' = b.written is ∧ List.Forall₂ Answers log (addressed b.bytes.size is)

theorem Takes.refl (b : CodeBuffer) : b.Takes b [] := by
  refine ⟨.refl b, fun _ => ⟨[], ?_, ?_⟩⟩
  · rw [written_nil]
  · exact .nil

theorem Takes.trans {b c d : CodeBuffer} {log more : List Issue} (h : b.Takes c log)
    (h' : c.Takes d more) : b.Takes d (log ++ more) := by
  refine ⟨h.grows.trans h'.grows, fun hf => ?_⟩
  obtain ⟨js, rfl, hjs⟩ := h'.writes hf
  -- the mark stays, so nothing was lost in the first stretch either
  obtain ⟨is, rfl, his⟩ := h.writes (hf.of_grows h'.grows)
  refine ⟨is ++ js, written_written b is js, ?_⟩
  rw [Instruction.addressed_append]
  rw [size_written] at hjs
  exact List.rel_append his hjs

/-- A single instruction. -/
theorem Takes.single {b b' : CodeBuffer} {r : Request} {field : Option UInt16} (hg : b.Grows b')
    (h : b'.Fits → ∃ i, r.Met i ∧ b' = b.written [i] ∧
      ∀ adr, field = some adr → adr.toNat = b.bytes.size + 1 ∧ i.IsJump) :
    b.Takes b' [{ pc := b.pc, request := r, field }] := by
  refine ⟨hg, fun hf => ?_⟩
  obtain ⟨i, hi, hw, hj⟩ := h hf
  refine ⟨[i], hw, .cons ⟨⟨?_, i, hi, rfl⟩, hj⟩ .nil⟩
  exact (pc_toNat (hf.of_grows hg)).symm

theorem takes_exactly (b : CodeBuffer) (i : Instruction) :
    b.Takes (b.append i) (b.issues (some (.exactly i))) := by
  apply Takes.single (b.append_grows i)
  intro hf
  exact ⟨i, .exactly i, append_eq_written hf, fun _ h => nomatch h⟩

theorem takes_jump (b : CodeBuffer) {i : Instruction} (hi : i.IsJump) :
    b.Takes (b.append i)
      [{ pc := b.pc, request := .exactly i, field := some (Emit.targetField b.pc) }] := by
  apply Takes.single (b.append_grows i)
  intro hf
  refine ⟨i, .exactly i, append_eq_written hf, ?_⟩
  rintro adr ⟨⟩
  exact ⟨Emit.targetField_toNat hf, hi⟩

theorem met_slot {n : Nat} (h : n ≤ 255) (form : UInt8 → Instruction) :
    (Request.slot form n).Met (form (slotOf n)) := by
  have hn : (slotOf n).toNat = n := Resolved.toNat_slotOf h
  simpa only [hn] using Request.Met.slot form (slotOf n)

theorem met_address {n : Nat} (h : n ≤ maxAddress) (form : UInt16 → Instruction) :
    (Request.address form n).Met (form (addressOf n)) := by
  have hn : (addressOf n).toNat = n := Resolved.toNat_addressOf h
  simpa only [hn] using Request.Met.address form (addressOf n)

theorem met_frame {params locals : Nat} (hp : params ≤ 255) (hl : locals ≤ 255) :
    (Request.frame params locals).Met (.enter (slotOf params) (slotOf locals)) := by
  have hp' : (slotOf params).toNat = params := Resolved.toNat_slotOf hp
  have hl' : (slotOf locals).toNat = locals := Resolved.toNat_slotOf hl
  simpa only [hp', hl'] using Request.Met.frame (slotOf params) (slotOf locals)

theorem takes_slot (b : CodeBuffer) (form : UInt8 → Instruction) (n : Nat) :
    b.Takes ((Emit.fitByte n b).2.append (form (Emit.fitByte n b).1))
      (b.issues (some (.slot form n))) := by
  apply Takes.single (Emit.grows_append_fitByte n form b)
  intro hf
  obtain ⟨hn, -⟩ := Emit.fitByte_eq (hf.of_grows (append_grows _ _))
  exact ⟨form (slotOf n), met_slot hn form, Emit.append_fitByte hf, fun _ h => nomatch h⟩

theorem takes_address (b : CodeBuffer) (form : UInt16 → Instruction) (n : Nat) :
    b.Takes ((Emit.fitAddress n b).2.append (form (Emit.fitAddress n b).1))
      (b.issues (some (.address form n))) := by
  apply Takes.single (Emit.grows_append_fitAddress n form b)
  intro hf
  obtain ⟨hn, -⟩ := Emit.fitAddress_eq (hf.of_grows (append_grows _ _))
  exact ⟨form (addressOf n), met_address hn form, Emit.append_fitAddress hf, fun _ h => nomatch h⟩

theorem takes_frame (b : CodeBuffer) (params locals : Nat) :
    b.Takes (Emit.enter params locals b).2 (b.issues (some (.frame params locals))) := by
  have hgrow : ∀ n, Emit.Growing (Emit.fitByte n) := fun n => inferInstance
  apply Takes.single ((inferInstance : Emit.Growing (Emit.enter params locals)).grows b)
  intro hf
  have hl : (Emit.fitByte locals (Emit.fitByte params b).2).2.Fits :=
    hf.of_grows (append_grows _ _)
  obtain ⟨hlocals, -⟩ := Emit.fitByte_eq hl
  obtain ⟨hparams, -⟩ := Emit.fitByte_eq (hl.of_grows ((hgrow locals).grows _))
  obtain ⟨-, hw⟩ := Emit.enter_eq rfl hf
  exact ⟨_, met_frame hparams hlocals, hw, fun _ h => nomatch h⟩

theorem takes_load (b : CodeBuffer) (x : Operand) :
    b.Takes ((Emit.load x).run b).2 (b.issues x.loadRequest?) := by
  obtain ⟨place, ty⟩ := x
  cases place with
  | constant value => exact b.takes_exactly (.const value)
  | frame slot => exact b.takes_slot .load slot
  | global adr => exact b.takes_address .getStatic adr
  | field adr => exact b.takes_address .getField adr
  | element => exact b.takes_exactly (.loadElem (Emit.elemSize ty))
  | method id => exact .refl b
  | stack => exact .refl b
  | unknown => exact .refl b

theorem takes_store (b : CodeBuffer) (x : Operand) :
    b.Takes ((Emit.store x).run b).2 (b.issues x.storeRequest?) := by
  obtain ⟨place, ty⟩ := x
  cases place with
  | frame slot => exact b.takes_slot .store slot
  | global adr => exact b.takes_address .putStatic adr
  | field adr => exact b.takes_address .putField adr
  | element => exact b.takes_exactly (.storeElem (Emit.elemSize ty))
  | constant value => exact .refl b
  | method id => exact .refl b
  | stack => exact .refl b
  | unknown => exact .refl b

theorem takes_assign (b : CodeBuffer) (dest source : Operand) :
    b.Takes ((Emit.assign dest source).run b).2 ((Operation.assign dest source).issues b) := by
  have hload := b.takes_load source
  rw [Emit.assign_run, Operation.issues]
  rcases hl : (Emit.load source).run b with ⟨r | r, loaded⟩
  · rwa [hl] at hload
  · rw [hl] at hload
    have hstore := loaded.takes_store dest
    rcases hs : (Emit.store dest).run loaded with ⟨r₂ | r₂, stored⟩
    · rw [hs] at hstore
      simpa only [hs] using hload.trans hstore
    · rw [hs] at hstore
      simpa only [hs] using hload.trans hstore

/-- Every operation writes what it asks for. -/
theorem takes_perform (b : CodeBuffer) (op : Operation) : b.Takes (op.perform b) (op.issues b) := by
  cases op with
  | emit i => exact b.takes_exactly i
  | load x => exact b.takes_load x
  | store x => exact b.takes_store x
  | assign dest source => exact b.takes_assign dest source
  | jumpUnless rel => exact b.takes_jump (.jumpIf rel.negation 0)
  | jump target => exact b.takes_jump (.jump target)
  | enter params frame => exact b.takes_frame params frame
  | leave => exact (b.takes_exactly .exit).trans ((b.append .exit).takes_exactly .ret)
  | missingReturn => exact b.takes_exactly _
  | newArray elem => exact b.takes_exactly _
  | newObject fields => exact b.takes_address .new fields

/-! ## Landing -/

/-- What answers the parts of a log are the parts of the code. -/
theorem split_addressed {before after : List Issue} {e : Issue} {start : Nat}
    {is : List Instruction}
    (h : List.Forall₂ Answers (before ++ e :: after) (addressed start is)) :
    ∃ is₁ i is₂, is = is₁ ++ i :: is₂ ∧ List.Forall₂ Answers before (addressed start is₁) ∧
      Answers e (start + codeSize is₁, i) ∧
      List.Forall₂ Answers after (addressed (start + codeSize is₁ + i.size) is₂) := by
  induction before generalizing start is with
  | nil =>
      cases is with
      | nil => cases h
      | cons i is =>
          cases h with
          | cons he hafter => exact ⟨[], i, is, rfl, .nil, he, hafter⟩
  | cons d before ih =>
      cases is with
      | nil => cases h
      | cons i is =>
          cases h with
          | cons hd hrest =>
              obtain ⟨is₁, j, is₂, rfl, hbefore, he, hafter⟩ := ih hrest
              have hsize : start + i.size + codeSize is₁ = start + codeSize (i :: is₁) := by
                rw [Resolved.codeSize_cons, Nat.add_assoc]
              rw [hsize] at he hafter
              exact ⟨i :: is₁, j, is₂, rfl, .cons hd hbefore, he, hafter⟩

theorem Targeted.size_eq {form : UInt16 → Instruction} (h : Targeted form) (s t : UInt16) :
    (form s).size = (form t).size := by
  obtain ⟨opcode, hop⟩ := h
  simp [Instruction.size, hop]

theorem Answers.land {e : Issue} {n : Nat} {i : Instruction} (h : Answers e (n, i)) (t : UInt16) :
    Answers { e with landed := some t } (n, i.landing t) := by
  obtain ⟨⟨hpc, j, hj, hi⟩, hfield⟩ := h
  refine ⟨⟨hpc, j, hj, ?_⟩, fun adr hadr => ?_⟩
  · change i = _ at hi
    change i.landing t = j.landing t
    rw [hi]
    cases e.landed with
    | none => rfl
    | some s => exact j.landing_landing s t
  · obtain ⟨hplace, hjump⟩ := hfield adr hadr
    exact ⟨hplace, hjump.landing t⟩

/-- Making a jump land changes its target and nothing else. -/
theorem Takes.land {b b' : CodeBuffer} {before after : List Issue} {e : Issue} {adr : UInt16}
    (h : b.Takes b' (before ++ e :: after)) (hadr : e.field = some adr) :
    b.Takes (b'.patch adr b'.pc) (before ++ { e with landed := some b'.pc } :: after) := by
  have hpatch := b'.patch_grows adr b'.pc
  refine ⟨h.grows.trans hpatch, fun hf => ?_⟩
  obtain ⟨is, hw, his⟩ := h.writes (hf.of_grows hpatch)
  obtain ⟨is₁, i, is₂, rfl, hbefore, he, hafter⟩ := split_addressed his
  obtain ⟨hpos, hjump⟩ := he.field adr hadr
  obtain ⟨form, hform, ⟨old, rfl⟩, hland⟩ := hjump.exists_form
  -- a jump has the same size whatever its target, so no address behind it moves
  generalize b'.pc = t at *
  refine ⟨is₁ ++ form t :: is₂, ?_, ?_⟩
  · have hplace : adr.toNat = (b.written is₁).bytes.size + 1 := by rw [size_written, hpos]
    rw [hw, ← written_written, patch_written hform _ old t is₂ adr hplace, written_written]
  · have hanswer := he.land t
    rw [hland] at hanswer
    rw [hform.size_eq old t] at hafter
    rw [Instruction.addressed_append]
    exact List.rel_append hbefore (.cons hanswer hafter)

end CodeBuffer

namespace History

/-- A new buffer has come to hold what its history asks for. -/
theorem takes {b : CodeBuffer} {log : List Issue} (h : History b log) :
    ({} : CodeBuffer).Takes b log := by
  induction h with
  | new => exact .refl _
  | @operation b log h op ih => exact ih.trans (b.takes_perform op)
  | land h hadr ih => exact ih.land hadr

theorem fits {b : CodeBuffer} {log : List Issue} (h : History b log) (ho : b.overflowed = false) :
    b.Fits := by
  have hnew : ({} : CodeBuffer).Honest := fun hlt => absurd hlt (by decide)
  exact (h.takes.grows.honest hnew).fits ho

/-- Decoding an unmarked buffer gives its history back: the instructions asked for, in order, each
at the address that was next at the time, with the very numbers asked for. A jump goes where it was
last made to land, or where it went from the start. -/
theorem decodes {b : CodeBuffer} {log : List Issue} (h : History b log)
    (ho : b.overflowed = false) :
    ∃ found : List (Nat × Instruction), Instruction.decodeAll b.bytes = .ok found.toArray ∧
      List.Forall₂ Issue.Yields log found := by
  obtain ⟨is, hw, his⟩ := h.takes.writes (h.fits ho)
  refine ⟨Instruction.addressed 0 is, ?_, his.imp fun _ _ answer => answer.yields⟩
  rw [hw]
  simpa [CodeBuffer.written] using Instruction.decodeAll_encodeAll is

theorem decodes_guarded :
    Instruction.decodeAll #[45, 0, 5, 1, 7] = .ok #[(0, .jumpIf .ge 5), (3, .load 7)] ∧
      List.Forall₂ Issue.Yields
        [⟨0, .exactly (.jumpIf .ge 0), some 1, some 5⟩, ⟨3, .slot .load 7, none, none⟩]
        [(0, .jumpIf .ge 5), (3, .load 7)] := by
  have hwritten : History ⟨#[45, 0, 0, 1, 7], none, false⟩
      ([] ++ ⟨0, .exactly (.jumpIf .ge 0), some 1, none⟩ :: [⟨3, .slot .load 7, none, none⟩]) :=
    operation (operation new (.jumpUnless .lt)) (.load ⟨.frame 7, .int⟩)
  have hlanded : History ⟨#[45, 0, 5, 1, 7], none, false⟩
      [⟨0, .exactly (.jumpIf .ge 0), some 1, some 5⟩, ⟨3, .slot .load 7, none, none⟩] :=
    hwritten.land rfl
  have hcode : Instruction.decodeAll #[45, 0, 5, 1, 7] =
      .ok #[(0, .jumpIf .ge 5), (3, .load 7)] := by rfl
  obtain ⟨found, hfound, hyields⟩ := decodes hlanded rfl
  rw [hcode, Except.ok.injEq] at hfound
  refine ⟨hcode, ?_⟩
  rwa [← List.toArray_inj hfound] at hyields

end History

end MicroJava
