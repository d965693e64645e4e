import MicroJava.Assembly.Buffer
import MicroJava.Proofs.Instruction.RoundTrip
import MicroJava.Proofs.Resolved.Generation

/-! # Writing into a buffer that does not overflow

As long as the mark of a buffer is not set, writing appends exactly the instructions asked for, and
pointing a jump to the current address is the same as having written it with that target. -/

namespace MicroJava

open Resolved (codeSize addressOf slotOf)

namespace CodeBuffer

attribute [ext] CodeBuffer

/-- Everything written so far fits the address space. -/
structure Fits (b : CodeBuffer) : Prop where
  unmarked : b.overflowed = false
  size_le : b.bytes.size ≤ maxAddress

/-- Code beyond the address space has left its mark. -/
def Honest (b : CodeBuffer) : Prop := maxAddress < b.bytes.size → b.overflowed = true

theorem Honest.fits {b : CodeBuffer} (h : b.Honest) (hb : b.overflowed = false) : b.Fits := by
  refine ⟨hb, Nat.le_of_not_lt fun hlt => ?_⟩
  simp [h hlt] at hb

/-- What is written later only adds to a buffer. -/
structure Grows (b b' : CodeBuffer) : Prop where
  marked : b.overflowed = true → b'.overflowed = true
  size_le : b.bytes.size ≤ b'.bytes.size
  honest : b.Honest → b'.Honest

theorem Grows.refl (b : CodeBuffer) : b.Grows b := ⟨id, Nat.le_refl _, id⟩

theorem Grows.trans {b c d : CodeBuffer} (h₁ : b.Grows c) (h₂ : c.Grows d) : b.Grows d :=
  ⟨fun h => h₂.marked (h₁.marked h), Nat.le_trans h₁.size_le h₂.size_le,
    fun h => h₂.honest (h₁.honest h)⟩

theorem Fits.of_grows {b b' : CodeBuffer} (h : b'.Fits) (hg : b.Grows b') : b.Fits := by
  refine ⟨?_, Nat.le_trans hg.size_le h.size_le⟩
  cases hb : b.overflowed with
  | false => rfl
  | true => exact absurd (hg.marked hb) (by simp [h.unmarked])

/-- The buffer with more instructions behind it. -/
def written (b : CodeBuffer) (is : List Instruction) : CodeBuffer :=
  { b with bytes := b.bytes ++ (Instruction.encodeAll is).toArray }

@[simp] theorem written_nil (b : CodeBuffer) : b.written [] = b := by
  simp [written]

@[simp] theorem written_written (b : CodeBuffer) (is js : List Instruction) :
    (b.written is).written js = b.written (is ++ js) := by
  simp [written]

@[simp] theorem size_written (b : CodeBuffer) (is : List Instruction) :
    (b.written is).bytes.size = b.bytes.size + codeSize is := by
  simp [written, codeSize]

@[simp] theorem mainPc_written (b : CodeBuffer) (is : List Instruction) :
    (b.written is).mainPc = b.mainPc := rfl

theorem bytes_append (b : CodeBuffer) (i : Instruction) :
    (b.append i).bytes = (b.written [i]).bytes := by
  apply Array.toList_inj.1
  simp [append, written]

theorem append_grows (b : CodeBuffer) (i : Instruction) : b.Grows (b.append i) := by
  constructor
  · intro h
    simp [append, h]
  · rw [bytes_append, size_written]
    exact Nat.le_add_right _ _
  · intro _ hlt
    exact Bool.or_eq_true_iff.2 (Or.inr (decide_eq_true hlt))

theorem append_eq_written {b : CodeBuffer} {i : Instruction} (h : (b.append i).Fits) :
    b.append i = b.written [i] := by
  have hb := bytes_append b i
  have ho : (b.append i).overflowed = b.overflowed := by
    rw [h.unmarked, (h.of_grows (append_grows b i)).unmarked]
  exact CodeBuffer.ext hb rfl ho

theorem pc_toNat {b : CodeBuffer} (h : b.Fits) : b.pc.toNat = b.bytes.size := by
  have hs : b.bytes.size ≤ 65535 := h.size_le
  simp only [pc, clampAddress, maxAddress, UInt16.toNat_ofNat', Nat.min_eq_left hs]
  omega

theorem pc_eq {b : CodeBuffer} (h : b.Fits) : b.pc = addressOf b.bytes.size := by
  rw [addressOf, ← pc_toNat h, UInt16.ofNat_toNat]

theorem patch_grows (b : CodeBuffer) (adr target : UInt16) : b.Grows (b.patch adr target) := by
  simp only [patch]
  split
  · exact ⟨id, by simp, fun h => by simpa [Honest] using h⟩
  · exact Grows.refl b

/-- Instructions that are an opcode and a target. -/
def Targeted (make : UInt16 → Instruction) : Prop :=
  ∃ opcode, ∀ target, (make target).encode = opcode :: BigEndian.ofAddress target

theorem targeted_jump : Targeted .jump := ⟨39, fun _ => rfl⟩

theorem targeted_jumpIf (rel : Comparison) : Targeted (.jumpIf rel) :=
  ⟨UInt8.ofNat (40 + rel.index), fun _ => rfl⟩

/-- Overwriting the target of a jump gives what writing that target at once would have given. -/
theorem patch_written {make : UInt16 → Instruction} (hm : Targeted make) (b : CodeBuffer)
    (old target : UInt16) (is : List Instruction) (adr : UInt16)
    (hadr : adr.toNat = b.bytes.size + 1) :
    (b.written (make old :: is)).patch adr target = b.written (make target :: is) := by
  obtain ⟨opcode, hop⟩ := hm
  have hlt : adr.toNat + 1 < (b.written (make old :: is)).bytes.size := by
    simp only [size_written, codeSize, Instruction.encodeAll_cons, hop, List.length_append,
      List.length_cons, BigEndian.length_ofAddress, hadr]
    omega
  rw [patch, if_pos hlt]
  simp only [written, hadr, CodeBuffer.mk.injEq, and_true]
  apply Array.toList_inj.1
  have hbig : ¬ b.bytes.size + 1 + 1 < b.bytes.size := by omega
  have hsub : b.bytes.size + 1 + 1 - b.bytes.size = 2 := by omega
  simp [hop, BigEndian.ofAddress, List.set_append, hbig, hsub]

end CodeBuffer

/-! ## Emitting -/

namespace Emit

/-- Never makes a buffer smaller or unmarked. -/
class Growing {α : Type} (act : Emit α) : Prop where
  grows : ∀ b : CodeBuffer, b.Grows (act b).2

variable {α β : Type}

theorem bind_apply (act : Emit α) (f : α → Emit β) (b : CodeBuffer) :
    (act >>= f) b = f (act b).1 (act b).2 := rfl

instance (a : α) : Growing (pure a : Emit α) := ⟨fun b => .refl b⟩

instance (act : Emit α) (f : α → Emit β) [h₁ : Growing act] [h₂ : ∀ a, Growing (f a)] :
    Growing (act >>= f) :=
  ⟨fun b => (h₁.grows b).trans ((h₂ (act b).1).grows (act b).2)⟩

instance (i : Instruction) : Growing (instruction i) := ⟨fun b => b.append_grows i⟩

instance (n : Nat) : Growing (fitByte n) := by
  constructor
  intro b
  unfold fitByte
  split
  · exact .refl b
  · exact ⟨fun _ => rfl, Nat.le_refl _, fun _ _ => rfl⟩

instance (n : Nat) : Growing (fitAddress n) := by
  constructor
  intro b
  unfold fitAddress
  split
  · exact .refl b
  · exact ⟨fun _ => rfl, Nat.le_refl _, fun _ _ => rfl⟩

instance (adr : UInt16) : Growing (land adr) := ⟨fun b => b.patch_grows adr b.pc⟩

instance (pc : UInt16) : Growing (setMain pc) := ⟨fun _ => ⟨id, Nat.le_refl _, id⟩⟩

instance (rel : Comparison) : Growing (jumpUnless rel) := by unfold jumpUnless; infer_instance

instance (target : UInt16) : Growing (jump target) := by unfold jump; infer_instance

instance (params frame : Nat) : Growing (enter params frame) := by unfold enter; infer_instance

instance : Growing leave := ⟨fun b => (b.append_grows .exit).trans (CodeBuffer.append_grows _ .ret)⟩

instance : Growing missingReturn := ⟨fun b => b.append_grows _⟩

instance (elem : Ty) : Growing (newArray elem) := ⟨fun b => b.append_grows _⟩

instance (fields : Nat) : Growing (newObject fields) :=
  ⟨fun b => ((inferInstance : Growing (fitAddress fields)).grows b).trans
    (CodeBuffer.append_grows _ _)⟩

theorem fitByte_eq {n : Nat} {b : CodeBuffer} (h : (fitByte n b).2.Fits) :
    n ≤ 255 ∧ fitByte n b = (slotOf n, b) := by
  by_cases hn : n ≤ 255
  · exact ⟨hn, by simp [fitByte, hn, slotOf]⟩
  · have hu := h.unmarked
    simp [fitByte, hn] at hu

theorem fitAddress_eq {n : Nat} {b : CodeBuffer} (h : (fitAddress n b).2.Fits) :
    n ≤ maxAddress ∧ fitAddress n b = (addressOf n, b) := by
  by_cases hn : n ≤ maxAddress
  · exact ⟨hn, by simp [fitAddress, hn, addressOf]⟩
  · have hu := h.unmarked
    simp [fitAddress, hn] at hu

/-- A clipped number in an instruction was not clipped if nothing overflowed. -/
theorem append_fitByte {n : Nat} {b : CodeBuffer} {make : UInt8 → Instruction}
    (h : ((fitByte n b).2.append (make (fitByte n b).1)).Fits) :
    (fitByte n b).2.append (make (fitByte n b).1) = b.written [make (slotOf n)] := by
  obtain ⟨-, he⟩ := fitByte_eq (h.of_grows (CodeBuffer.append_grows _ _))
  rw [he] at h ⊢
  exact CodeBuffer.append_eq_written h

theorem append_fitAddress {n : Nat} {b : CodeBuffer} {make : UInt16 → Instruction}
    (h : ((fitAddress n b).2.append (make (fitAddress n b).1)).Fits) :
    (fitAddress n b).2.append (make (fitAddress n b).1) = b.written [make (addressOf n)] := by
  obtain ⟨-, he⟩ := fitAddress_eq (h.of_grows (CodeBuffer.append_grows _ _))
  rw [he] at h ⊢
  exact CodeBuffer.append_eq_written h

end Emit

/-- What still has to be written to have the value of an operand on the stack. -/
def Operand.fetch (x : Operand) : List Instruction :=
  match x.place with
  | .constant v => [.const v]
  | .frame slot => [.load (slotOf slot)]
  | .global adr => [.getStatic (addressOf adr)]
  | .field adr => [.getField (addressOf adr)]
  | .element => [.loadElem (Emit.elemSize x.ty)]
  | .method _ | .stack | .unknown => []

/-- The instruction that pops a value into the place of an operand. -/
def Operand.storing? (x : Operand) : Option Instruction :=
  match x.place with
  | .frame slot => some (.store (slotOf slot))
  | .global adr => some (.putStatic (addressOf adr))
  | .field adr => some (.putField (addressOf adr))
  | .element => some (.storeElem (Emit.elemSize x.ty))
  | .constant _ | .method _ | .stack | .unknown => none

namespace Emit

theorem load_eq {x y : Operand} {b b' : CodeBuffer} (h : (load x).run b = (.ok y, b'))
    (hf : b'.Fits) :
    (∀ id, x.place ≠ .method id) ∧ b' = b.written x.fetch ∧
      y = (if x.place = .unknown then x else .onStack x.ty) := by
  obtain ⟨place, ty⟩ := x
  cases place with
  | constant v =>
      cases h
      exact ⟨by simp, CodeBuffer.append_eq_written hf, rfl⟩
  | frame slot =>
      cases h
      exact ⟨by simp, append_fitByte hf, rfl⟩
  | global adr =>
      cases h
      exact ⟨by simp, append_fitAddress hf, rfl⟩
  | field adr =>
      cases h
      exact ⟨by simp, append_fitAddress hf, rfl⟩
  | element =>
      cases h
      exact ⟨by simp, CodeBuffer.append_eq_written hf, rfl⟩
  | method id => cases h
  | stack =>
      cases h
      exact ⟨by simp, by simp [Operand.fetch], rfl⟩
  | unknown =>
      cases h
      exact ⟨by simp, by simp [Operand.fetch], rfl⟩

theorem store_eq {x : Operand} {b b' : CodeBuffer} (h : (store x).run b = (.ok (), b'))
    (hf : b'.Fits) (hx : x.place ≠ .unknown) :
    ∃ i, x.storing? = some i ∧ b' = b.written [i] := by
  obtain ⟨place, ty⟩ := x
  cases place with
  | frame slot =>
      cases h
      exact ⟨_, rfl, append_fitByte hf⟩
  | global adr =>
      cases h
      exact ⟨_, rfl, append_fitAddress hf⟩
  | field adr =>
      cases h
      exact ⟨_, rfl, append_fitAddress hf⟩
  | element =>
      cases h
      exact ⟨_, rfl, CodeBuffer.append_eq_written hf⟩
  | unknown => exact absurd rfl hx
  | constant v => cases h
  | method id => cases h
  | stack => cases h

theorem grows_append_fitByte (n : Nat) (make : UInt8 → Instruction) (b : CodeBuffer) :
    b.Grows ((fitByte n b).2.append (make (fitByte n b).1)) :=
  ((inferInstance : Growing (fitByte n)).grows b).trans (CodeBuffer.append_grows _ _)

theorem grows_append_fitAddress (n : Nat) (make : UInt16 → Instruction) (b : CodeBuffer) :
    b.Grows ((fitAddress n b).2.append (make (fitAddress n b).1)) :=
  ((inferInstance : Growing (fitAddress n)).grows b).trans (CodeBuffer.append_grows _ _)

instance (x : Operand) : Growing (load x).run := by
  constructor
  intro b
  obtain ⟨place, ty⟩ := x
  cases place with
  | constant v => exact b.append_grows _
  | frame slot => exact grows_append_fitByte slot .load b
  | global adr => exact grows_append_fitAddress adr .getStatic b
  | field adr => exact grows_append_fitAddress adr .getField b
  | element => exact b.append_grows _
  | method id => exact .refl b
  | stack => exact .refl b
  | unknown => exact .refl b

instance (x : Operand) : Growing (store x).run := by
  constructor
  intro b
  obtain ⟨place, ty⟩ := x
  cases place with
  | constant v => exact .refl b
  | frame slot => exact grows_append_fitByte slot .store b
  | global adr => exact grows_append_fitAddress adr .putStatic b
  | field adr => exact grows_append_fitAddress adr .putField b
  | element => exact b.append_grows _
  | method id => exact .refl b
  | stack => exact .refl b
  | unknown => exact .refl b

/-- Nothing is stored when the source has no value. -/
theorem assign_run (x y : Operand) (b : CodeBuffer) :
    (assign x y).run b =
      match (load y).run b with
      | (.ok source, loaded) =>
          match (store x).run loaded with
          | (.ok _, stored) => (.ok source, stored)
          | (.error e, stored) => (.error e, stored)
      | (.error e, loaded) => (.error e, loaded) := by
  rw [assign, ExceptT.run_bind, bind_apply]
  rcases (load y).run b with ⟨r | r, b₁⟩
  · rfl
  · dsimp only
    rw [ExceptT.run_bind, bind_apply]
    rcases (store x).run b₁ with ⟨r₂ | r₂, b₂⟩
    · rfl
    · rfl

instance (x y : Operand) : Growing (assign x y).run := by
  constructor
  intro b
  have hl := (inferInstance : Growing (load y).run).grows b
  rw [assign_run]
  rcases hy : (load y).run b with ⟨r | r, b₁⟩
  · rwa [hy] at hl
  · have hs := (inferInstance : Growing (store x).run).grows b₁
    rw [hy] at hl
    rcases hx : (store x).run b₁ with ⟨r₂ | r₂, b₂⟩
    · simp only [hx] at hs ⊢
      exact hl.trans hs
    · simp only [hx] at hs ⊢
      exact hl.trans hs

theorem assign_eq {x y z : Operand} {b b' : CodeBuffer} (h : (assign x y).run b = (.ok z, b'))
    (hf : b'.Fits) (hx : x.place ≠ .unknown) :
    ∃ i, (∀ id, y.place ≠ .method id) ∧ x.storing? = some i ∧ b' = b.written (y.fetch ++ [i]) := by
  rw [assign_run] at h
  rcases hl : (load y).run b with ⟨r | r, b₁⟩
  · simp only [hl] at h
    cases h
  · rcases hs : (store x).run b₁ with ⟨r₂ | r₂, b₂⟩
    · simp only [hl, hs] at h
      cases h
    · simp only [hl, hs] at h
      cases h
      have hf₁ : b₁.Fits := by
        have hg := (inferInstance : Growing (store x).run).grows b₁
        rw [hs] at hg
        exact hf.of_grows hg
      obtain ⟨hm, rfl, -⟩ := load_eq hl hf₁
      obtain ⟨i, hi, rfl⟩ := store_eq hs hf hx
      exact ⟨i, hm, hi, CodeBuffer.written_written _ _ _⟩

/-! ## Jumps and frames -/

theorem targetField_toNat {b : CodeBuffer} {i : Instruction} (h : (b.append i).Fits) :
    (targetField b.pc).toNat = b.bytes.size + 1 := by
  have hb : b.Fits := h.of_grows (b.append_grows i)
  have hs := h.size_le
  rw [CodeBuffer.bytes_append, CodeBuffer.size_written] at hs
  have hi : 0 < codeSize [i] := by simpa [codeSize, Instruction.size] using i.size_pos
  have hm : maxAddress = 65535 := rfl
  simp only [targetField, clampAddress, CodeBuffer.pc_toNat hb, UInt16.toNat_ofNat']
  omega

theorem jumpUnless_eq {rel : Comparison} {b b' : CodeBuffer} {adr : UInt16}
    (h : jumpUnless rel b = (adr, b')) (hf : b'.Fits) :
    b' = b.written [.jumpIf rel.negation 0] ∧ adr.toNat = b.bytes.size + 1 := by
  cases h
  exact ⟨CodeBuffer.append_eq_written hf, targetField_toNat hf⟩

theorem jump_eq {target : UInt16} {b b' : CodeBuffer} {adr : UInt16}
    (h : jump target b = (adr, b')) (hf : b'.Fits) :
    b' = b.written [.jump target] ∧ adr.toNat = b.bytes.size + 1 := by
  cases h
  exact ⟨CodeBuffer.append_eq_written hf, targetField_toNat hf⟩

theorem land_eq {adr : UInt16} {b b' : CodeBuffer} {u : Unit} (h : land adr b = (u, b')) :
    b' = b.patch adr b.pc := by
  cases h
  rfl

/-- A jump that lands behind the code written since might have had that target from the start. -/
theorem land_written {make : UInt16 → Instruction} (hm : CodeBuffer.Targeted make)
    {b b' : CodeBuffer} {old adr : UInt16} {is : List Instruction} {u : Unit}
    (hadr : adr.toNat = b.bytes.size + 1) (hf : (b.written (make old :: is)).Fits)
    (h : land adr (b.written (make old :: is)) = (u, b')) :
    b' = b.written (make (addressOf (b.bytes.size + codeSize (make old :: is))) :: is) := by
  rw [land_eq h, CodeBuffer.pc_eq hf, CodeBuffer.patch_written hm b old _ is adr hadr,
    CodeBuffer.size_written]

theorem leave_eq {b b' : CodeBuffer} {u : Unit} (h : leave b = (u, b')) (hf : b'.Fits) :
    b' = b.written [.exit, .ret] := by
  cases h
  have hf₁ : (b.append .exit).Fits := hf.of_grows (CodeBuffer.append_grows _ .ret)
  change (b.append .exit).append .ret = _
  rw [CodeBuffer.append_eq_written hf, CodeBuffer.append_eq_written hf₁,
    CodeBuffer.written_written]
  rfl

theorem enter_eq {params frame : Nat} {b b' : CodeBuffer} {adr : UInt16}
    (h : enter params frame b = (adr, b')) (hf : b'.Fits) :
    adr = b.pc ∧ b' = b.written [.enter (slotOf params) (slotOf frame)] := by
  have he : enter params frame b =
      ((fitByte frame (fitByte params b).2).2.pc,
        (fitByte frame (fitByte params b).2).2.append
          (.enter (fitByte params b).1 (fitByte frame (fitByte params b).2).1)) := rfl
  obtain ⟨rfl, rfl⟩ := Prod.mk.inj (he.symm.trans h)
  have hf₂ := hf.of_grows (CodeBuffer.append_grows _ _)
  have hf₁ : (fitByte params b).2.Fits :=
    hf₂.of_grows ((inferInstance : Growing (fitByte frame)).grows _)
  obtain ⟨-, h₁⟩ := fitByte_eq hf₁
  obtain ⟨-, h₂⟩ := fitByte_eq hf₂
  rw [h₁] at h₂ hf ⊢
  rw [h₂] at hf ⊢
  exact ⟨rfl, CodeBuffer.append_eq_written hf⟩

end Emit

end MicroJava
