import Mathlib.Data.List.Forall2
import MicroJava.Assembly.Operand
import MicroJava.Proofs.Names.Handles

/-! # What a mistake leaves unknown

Two tables side by side: one of a program without mistakes, the other of the same program after `n`
mistakes. Where a mistake has touched a declaration, the type that stands in for anything takes the
place of a type or of the elements of an array; everything else is as it was. Whatever a check
accepts it also accepts then, and without a mistake nothing differs. -/

namespace MicroJava

variable {n m : Nat}

/-- The second type is what `n` mistakes may leave of the first. -/
inductive Ty.Fades (n : Nat) : Ty → Ty → Prop
  | refl (a : Ty) : Fades n a a
  | error (a : Ty) (h : n ≠ 0) : Fades n a .error
  | array {a b : Ty} (h : Fades n a b) : Fades n (.array a) (.array b)

namespace Ty.Fades

variable {a b c d : Ty}

theorem mono (h : Fades n a b) (hnm : n ≤ m) : Fades m a b := by
  induction h with
  | refl a => exact .refl a
  | error a h => exact .error a (by omega)
  | array _ ih => exact .array ih

/-- Without mistakes nothing fades. -/
theorem eq_of_zero (h : Fades 0 a b) : a = b := by
  induction h with
  | refl a => rfl
  | error a h => exact absurd rfl h
  | array _ ih => rw [ih]

theorem ne_void (h : Fades n a b) (ha : a ≠ .void) : b ≠ .void := by
  cases h with
  | refl => exact ha
  | error | array => simp

theorem isInt (h : Fades n a b) (ha : a.isInt = true) : b.isInt = true := by
  cases h with
  | refl => exact ha
  | error => rfl
  | array => simp [Ty.isInt] at ha

/-- What is still known to be a reference was one before. -/
theorem isReference (h : Fades n a b) (hb : b.isReference = true) : a.isReference = true := by
  cases h with
  | refl => exact hb
  | error => cases hb
  | array => rfl

end Ty.Fades

/-- The unknown type is compatible with every other, so one mistake does not cause a second. -/
theorem Ty.compatible_error (a : Ty) : a.compatible .error = true := by
  cases a <;> simp [Ty.compatible]

theorem Ty.error_compatible (a : Ty) : Ty.error.compatible a = true := by
  cases a <;> simp [Ty.compatible]

namespace Ty.Fades

variable {a b c d : Ty}

/-- What was compatible stays so when types fade. -/
theorem compatible (h : Fades n a b) (h' : Fades n c d) (hac : a.compatible c = true) :
    b.compatible d = true := by
  induction h generalizing c d with
  | error => exact error_compatible d
  | refl a =>
      induction h' generalizing a with
      | refl => exact hac
      | error => exact compatible_error a
      | array h' ih =>
          cases a with
          | array elem =>
              rw [Ty.compatible] at hac ⊢
              exact ih elem hac
          | error => exact error_compatible _
          | void | int | char | object => simp [Ty.compatible] at hac
  | array h ih =>
      cases h' with
      | error => exact compatible_error _
      | array h' =>
          rw [Ty.compatible] at hac ⊢
          exact ih h' hac
      | refl c =>
          cases c with
          | array elem =>
              rw [Ty.compatible] at hac ⊢
              exact ih (.refl elem) hac
          | error => exact compatible_error _
          | void | int | char | object => simp [Ty.compatible] at hac

end Ty.Fades

/-- An array may be stored where any array may; otherwise the types must be compatible. -/
theorem Ty.assignableTo_iff (a b : Ty) :
    a.assignableTo b = true ↔
      (∃ elem, a = .array elem) ∧ b = .array .void ∨ a.compatible b = true := by
  unfold Ty.assignableTo
  split
  · simp
  · next hne =>
      refine ⟨.inr, ?_⟩
      rintro (⟨⟨elem, rfl⟩, rfl⟩ | h)
      · exact absurd rfl (hne elem rfl)
      · exact h

/-- What could be assigned still can. -/
theorem Ty.Fades.assignableTo {a b c d : Ty} (h : Fades n a b) (h' : Fades n c d)
    (hac : a.assignableTo c = true) : b.assignableTo d = true := by
  rw [Ty.assignableTo_iff] at hac ⊢
  rcases hac with ⟨⟨elem, rfl⟩, rfl⟩ | hac
  · -- an array may be stored where any array may, and where anything may
    cases h with
    | error => exact .inr (Ty.error_compatible d)
    | refl | array =>
        cases h' with
        | error => exact .inr (Ty.compatible_error _)
        | refl => exact .inl ⟨⟨_, rfl⟩, rfl⟩
        | array h' =>
            cases h' with
            | refl => exact .inl ⟨⟨_, rfl⟩, rfl⟩
            | error => exact .inr (by rw [Ty.compatible]; exact Ty.compatible_error _)
  · exact .inr (h.compatible h' hac)

/-- The second operand is what `n` mistakes may leave of the first. A constant that is no longer
known to be one is on the stack. -/
inductive Operand.Fades (n : Nat) : Operand → Operand → Prop
  | kept {place : Place} {a b : Ty} (h : a.Fades n b) : Fades n ⟨place, a⟩ ⟨place, b⟩
  | loaded {value : Int32} {a b : Ty} (h : a.Fades n b) (hn : n ≠ 0) :
      Fades n ⟨.constant value, a⟩ ⟨.stack, b⟩
  | lost {x : Operand} (hn : n ≠ 0) : Fades n x .unknown

namespace Operand.Fades

variable {x y : Operand}

theorem refl (x : Operand) : Fades n x x := .kept (.refl x.ty)

theorem ty (h : Fades n x y) : x.ty.Fades n y.ty := by
  cases h with
  | kept h => exact h
  | loaded h => exact h
  | lost hn => exact .error _ hn

theorem mono (h : Fades n x y) (hnm : n ≤ m) : Fades m x y := by
  cases h with
  | kept h => exact .kept (h.mono hnm)
  | loaded h hn => exact .loaded (h.mono hnm) (by omega)
  | lost hn => exact .lost (by omega)

end Operand.Fades

/-- Methods that differ in nothing but where their code begins. -/
structure Callee.Alike (callee callee' : Callee) : Prop where
  paramCount : callee'.paramCount = callee.paramCount
  locals : callee'.locals = callee.locals
  builtin : callee'.builtin = callee.builtin

inductive EntityKind.Fades (n : Nat) : EntityKind → EntityKind → Prop
  | refl (kind : EntityKind) : Fades n kind kind
  | method {callee callee' : Callee} (h : callee.Alike callee') :
      Fades n (.method callee) (.method callee')

/-- The second entity is what `n` mistakes may leave of the first. Names of types keep their
meaning. -/
structure Entity.Fades (n : Nat) (e e' : Entity) : Prop where
  name : e'.name = e.name
  kind : e.kind.Fades n e'.kind
  ty : e.ty.Fades n e'.ty
  named : e.kind = .typeName → e'.ty = e.ty ∧ e.ty ≠ .void

theorem EntityKind.Fades.mono {k k' : EntityKind} (h : k.Fades n k') : k.Fades m k' := by
  cases h with
  | refl => exact .refl _
  | method h => exact .method h

theorem EntityKind.Fades.eq_var {kind : EntityKind} {adr level : Nat}
    (h : Fades n (.var adr level) kind) : kind = .var adr level := by
  cases h with
  | refl => rfl

theorem Entity.Fades.mono {e e' : Entity} (h : e.Fades n e') (hnm : n ≤ m) : e.Fades m e' :=
  ⟨h.name, h.kind.mono, h.ty.mono hnm, h.named⟩

namespace NameTable

/-- The second table is what `n` mistakes may leave of the first. -/
structure Fades (n : Nat) (t t' : NameTable) : Prop where
  current : t'.current = t.current
  enclosing : t'.enclosing = t.enclosing
  classes : t'.classes = t.classes
  size : t'.entities.size = t.entities.size
  entity : ∀ id, (t.entity id).Fades n (t'.entity id)

variable {t t' : NameTable}

theorem Fades.mono (h : Fades n t t') (hnm : n ≤ m) : Fades m t t' :=
  ⟨h.current, h.enclosing, h.classes, h.size, fun id => (h.entity id).mono hnm⟩

theorem Fades.refl (h : ∀ id, (t.entity id).kind = .typeName → (t.entity id).ty ≠ .void) :
    Fades n t t :=
  ⟨rfl, rfl, rfl, rfl, fun id => ⟨rfl, .refl _, .refl _, fun hk => ⟨rfl, h id hk⟩⟩⟩

/-- A name leads to the same handle in both tables. -/
theorem Fades.find (h : Fades n t t') (name : String) : t'.find name = t.find name := by
  rw [NameTable.find, NameTable.find, h.current, h.enclosing]

theorem Fades.findField (h : Fades n t t') (cls : ClassId) (name : String) :
    t'.findField cls name = t.findField cls name := by
  have hname : (fun id => (t'.entity id).name == name) = fun id => (t.entity id).name == name := by
    funext id
    rw [(h.entity id).name]
  rw [NameTable.findField, NameTable.findField, NameTable.classInfo, NameTable.classInfo, h.classes,
    hname]

/-- Parameters fade one by one, and stay as many. -/
theorem Fades.paramTypes (h : Fades n t t') {callee callee' : Callee}
    (hc : callee.Alike callee') :
    List.Forall₂ (Ty.Fades n) (t.paramTypes callee) (t'.paramTypes callee') := by
  rw [NameTable.paramTypes, NameTable.paramTypes, Callee.paramIds, Callee.paramIds, hc.locals,
    hc.paramCount, List.forall₂_map_left_iff, List.forall₂_map_right_iff]
  exact List.forall₂_same.2 fun id _ => (h.entity id).ty

theorem Fades.newEntity (h : Fades n t t') {a b : Ty} (hty : a.Fades n b) (form : Form)
    (name : String) (hnamed : form = .typeName → b = a ∧ a ≠ .void) :
    (t.newEntity form name a).Fades n (t'.newEntity form name b) := by
  have hlevel : t'.level = t.level := by rw [NameTable.level, NameTable.level, h.enclosing]
  unfold NameTable.newEntity
  rw [hlevel, h.current]
  cases form with
  | typeName => exact ⟨rfl, .refl _, hty, fun _ => hnamed rfl⟩
  | constant | var | method | program => exact ⟨rfl, .refl _, hty, by simp⟩

/-- A declaration succeeds or fails in both tables, under the same handle. -/
theorem Fades.insert (h : Fades n t t') {a b : Ty} (hty : a.Fades n b) (form : Form)
    (name : String) (hnamed : form = .typeName → b = a ∧ a ≠ .void) :
    (t'.insert form name b).1 = (t.insert form name a).1 ∧
      Fades n (t.insert form name a).2 (t'.insert form name b).2 := by
  have hnew := h.newEntity hty form name hnamed
  rw [NameTable.insert, NameTable.insert, h.current]
  split
  · exact ⟨rfl, h⟩
  · refine ⟨by rw [h.size], by rw [h.size], h.enclosing, h.classes, ?_, fun id => ?_⟩
    · simp [h.size]
    · rw [entity_push, entity_push, h.size]
      split
      · exact hnew
      · exact h.entity id

theorem Fades.openScope (h : Fades n t t') : Fades n t.openScope t'.openScope := by
  refine ⟨rfl, ?_, h.classes, h.size, h.entity⟩
  rw [NameTable.openScope, NameTable.openScope, h.current, h.enclosing]

theorem Fades.closeScope (h : Fades n t t') : Fades n t.closeScope t'.closeScope := by
  obtain ⟨entities, classes, current, enclosing⟩ := t
  obtain ⟨entities', classes', current', enclosing'⟩ := t'
  obtain ⟨rfl, rfl, hclasses, hsize, hentity⟩ := h
  cases enclosing' with
  | nil => exact ⟨rfl, rfl, hclasses, hsize, hentity⟩
  | cons outer rest => exact ⟨rfl, rfl, hclasses, hsize, hentity⟩

theorem Fades.newClass (h : Fades n t t') (name : String) :
    (t'.newClass name).1 = (t.newClass name).1 ∧
      Fades n (t.newClass name).2 (t'.newClass name).2 := by
  rw [NameTable.newClass, NameTable.newClass, h.classes]
  exact ⟨rfl, h.current, h.enclosing, rfl, h.size, h.entity⟩

theorem Fades.setFields (h : Fades n t t') (cls : ClassId) :
    Fades n (t.setFields cls) (t'.setFields cls) := by
  refine ⟨h.current, h.enclosing, ?_, h.size, h.entity⟩
  rw [NameTable.setFields, NameTable.setFields, h.classes, h.current]

/-- Corresponding changes of corresponding entities. -/
theorem Fades.modify (h : Fades n t t') (i : Nat) {f g : Entity → Entity}
    (hf : f .unknown = .unknown) (hg : g .unknown = .unknown)
    (hfg : ∀ e e', e.Fades n e' → (f e).Fades n (g e')) :
    Fades n { t with entities := t.entities.modify i f }
      { t' with entities := t'.entities.modify i g } := by
  refine ⟨h.current, h.enclosing, h.classes, by simp [h.size], fun id => ?_⟩
  rw [entity_modify t i f hf, entity_modify t' i g hg]
  split
  · exact hfg _ _ (h.entity id)
  · exact h.entity id

theorem Fades.setConstant (h : Fades n t t') (id : EntityId) (value : Int32) :
    Fades n (t.setConstant id value) (t'.setConstant id value) := by
  refine h.modify id.index rfl rfl fun e e' he => ?_
  obtain ⟨name, kind, ty⟩ := e
  obtain ⟨name', kind', ty'⟩ := e'
  obtain ⟨rfl, hkind, hty, hnamed⟩ := he
  cases hkind with
  | method h => exact ⟨rfl, .method h, hty, by simp⟩
  | refl kind =>
      cases kind with
      | constant => exact ⟨rfl, .refl _, hty, by simp⟩
      | var | typeName | method | program | unknown => exact ⟨rfl, .refl _, hty, hnamed⟩

theorem Fades.setCallee (h : Fades n t t') (id : EntityId) {callee callee' : Callee}
    (hc : callee.Alike callee') :
    Fades n (t.setCallee id callee) (t'.setCallee id callee') := by
  refine h.modify id.index rfl rfl fun e e' he => ?_
  obtain ⟨name, kind, ty⟩ := e
  obtain ⟨name', kind', ty'⟩ := e'
  obtain ⟨rfl, hkind, hty, hnamed⟩ := he
  cases hkind with
  | method => exact ⟨rfl, .method hc, hty, by simp⟩
  | refl kind =>
      cases kind with
      | method => exact ⟨rfl, .method hc, hty, by simp⟩
      | constant | var | typeName | program | unknown => exact ⟨rfl, .refl _, hty, hnamed⟩

/-! ## Names that stand for nothing -/

/-- The name stands for nothing, and neither does the first handle. -/
structure Lacks (t : NameTable) (name : String) : Prop where
  scopes : ∀ s ∈ t.current :: t.enclosing, s.ids[name]? = none
  entities : ∀ id, t.Exposes id → (t.entity id).name ≠ name
  size : 0 < t.entities.size
  unknown : t.entity unknownId = .unknown

variable {name : String}

/-- A name that stands for nothing is not found. -/
theorem Lacks.find (h : t.Lacks name) : t.find name = .error (.notDeclared name) := by
  have hnone : (t.current :: t.enclosing).findSome? (fun scope => scope.ids[name]?) = none :=
    List.findSome?_eq_none_iff.2 h.scopes
  rw [NameTable.find, hnone]

theorem Lacks.findField (h : t.Lacks name) (cls : ClassId) :
    t.findField cls name = .error (.notAField name (t.classInfo cls).name) := by
  have hnone : (t.classInfo cls).fields.find? (fun id => (t.entity id).name == name) = none := by
    rw [Array.find?_eq_none]
    intro id hid
    simpa using h.entities id (exposes_field hid)
  rw [NameTable.findField, hnone]

/-- Declaring another name does not make it stand for anything. -/
theorem Lacks.insert (h : t.Lacks name) {other : String} (hne : other ≠ name) (form : Form)
    (ty : Ty) : (t.insert form other ty).2.Lacks name := by
  have hexposed : ∀ id, (t.insert form other ty).2.Exposes id →
      t.Exposes id ∨ id.index = t.entities.size := fun _ hid => hid.of_insert
  revert hexposed
  rw [NameTable.insert]
  split
  · exact fun _ => h
  · intro hexposed
    refine ⟨?_, fun id hid => ?_, by simp, ?_⟩
    · intro s hs
      rcases List.mem_cons.1 hs with rfl | hs
      · have hcmp : compare other name ≠ .eq := by
          rw [Ne, Std.LawfulEqOrd.compare_eq_iff_eq]
          exact hne
        change (t.current.ids.insert other _)[name]? = none
        rw [Std.TreeMap.getElem?_insert, if_neg hcmp]
        exact h.scopes _ (List.mem_cons_self ..)
      · exact h.scopes s (List.mem_cons_of_mem _ hs)
    · rw [entity_push]
      split
      · rw [name_newEntity]
        exact hne
      · next hold => exact h.entities id ((hexposed id hid).resolve_right hold)
    · have hold : unknownId.index ≠ t.entities.size := Nat.ne_of_lt h.size
      rw [entity_push, if_neg hold]
      exact h.unknown

theorem Lacks.openScope (h : t.Lacks name) : t.openScope.Lacks name := by
  refine ⟨?_, fun id hid => h.entities id hid.of_openScope, h.size, h.unknown⟩
  intro s hs
  rcases List.mem_cons.1 hs with rfl | hs
  · exact Std.TreeMap.getElem?_emptyc
  · exact h.scopes s hs

theorem Lacks.closeScope (h : t.Lacks name) : t.closeScope.Lacks name := by
  have hexposed : ∀ id, t.closeScope.Exposes id → t.Exposes id := fun _ hid => hid.of_closeScope
  obtain ⟨entities, classes, current, enclosing⟩ := t
  cases enclosing with
  | nil => exact h
  | cons outer rest =>
      exact ⟨fun s hs => h.scopes s (List.mem_cons_of_mem _ hs),
        fun id hid => h.entities id (hexposed id hid), h.size, h.unknown⟩

theorem Lacks.newClass (h : t.Lacks name) (cls : String) : (t.newClass cls).2.Lacks name :=
  ⟨h.scopes, fun id hid => h.entities id hid.of_newClass, h.size, h.unknown⟩

theorem Lacks.setFields (h : t.Lacks name) (cls : ClassId) : (t.setFields cls).Lacks name :=
  ⟨h.scopes, fun id hid => h.entities id hid.of_setFields, h.size, h.unknown⟩

theorem Lacks.modify (h : t.Lacks name) (i : Nat) {f : Entity → Entity}
    (hf : f .unknown = .unknown) (hname : ∀ e, (f e).name = e.name) :
    ({ t with entities := t.entities.modify i f } : NameTable).Lacks name := by
  refine ⟨h.scopes, fun id hid => ?_, by simpa using h.size, ?_⟩
  · rw [entity_modify t i f hf]
    split
    · rw [hname]
      exact h.entities id hid
    · exact h.entities id hid
  · rw [entity_modify t i f hf, h.unknown]
    split
    · exact hf
    · rfl

theorem Lacks.setConstant (h : t.Lacks name) (id : EntityId) (value : Int32) :
    (t.setConstant id value).Lacks name := by
  refine h.modify id.index rfl fun e => ?_
  split <;> rfl

theorem Lacks.setCallee (h : t.Lacks name) (id : EntityId) (callee : Callee) :
    (t.setCallee id callee).Lacks name := by
  refine h.modify id.index rfl fun e => ?_
  split <;> rfl

end NameTable

end MicroJava
