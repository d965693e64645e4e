import MicroJava.Proofs.Names.Agreement
import MicroJava.Proofs.Names.Fading

/-! # Tables in which everything is known

As long as no mistake has been found, every name in scope stands for something whose type is known,
and the fields of a class are variables that its declaration names. -/

namespace MicroJava

/-- Nothing in the type is left open. -/
def Ty.Known : Ty → Prop
  | .error => False
  | .array elem => elem.Known
  | .void | .int | .char | .object _ => True

/-- The operand is somewhere, and its type is known. -/
structure Operand.Known (x : Operand) : Prop where
  place : x.place ≠ .unknown
  ty : x.ty.Known

/-- The entity is what its declaration says. The name of a type denotes the type of something. -/
structure Entity.Known (e : Entity) : Prop where
  kind : e.kind ≠ .unknown
  ty : e.ty.Known
  named : e.kind = .typeName → e.ty ≠ .void

def EntityKind.IsVar : EntityKind → Prop
  | .var _ _ => True
  | .constant _ | .typeName | .method _ | .program | .unknown => False

theorem EntityKind.IsVar.exists_eq {kind : EntityKind} (h : kind.IsVar) :
    ∃ adr level, kind = .var adr level := by
  cases kind with
  | var adr level => exact ⟨adr, level, rfl⟩
  | constant | typeName | method | program | unknown => exact h.elim

/-- The entity is a field of the class `cls`, one of those that it is `declared` to have. -/
structure Entity.IsField (declared : String → String → Prop) (cls : String) (e : Entity) :
    Prop where
  known : e.Known
  var : e.kind.IsVar
  name : declared cls e.name

namespace NameTable

/-- Everything in scope is known, and so are the fields of all classes. -/
structure Known (declared : String → String → Prop) (t : NameTable) : Prop where
  ids : ∀ s ∈ t.current :: t.enclosing, ∀ (name : String) id, s.ids[name]? = some id →
    (t.entity id).Known
  locals : ∀ s ∈ t.current :: t.enclosing, ∀ id ∈ s.locals, (t.entity id).Known
  fields : ∀ info ∈ t.classes, ∀ id ∈ info.fields, (t.entity id).IsField declared info.name

/-- The innermost scope declares nothing but variables with names that are `allowed`. -/
def OnlyVars (allowed : String → Prop) (t : NameTable) : Prop :=
  ∀ id ∈ t.current.locals, (t.entity id).kind.IsVar ∧ allowed (t.entity id).name

variable {declared : String → String → Prop} {allowed : String → Prop} {t : NameTable}

theorem Known.find (h : t.Known declared) {name : String} {id : EntityId}
    (hf : t.find name = .ok id) : (t.entity id).Known := by
  rw [NameTable.find] at hf
  split at hf
  · next found hsome =>
      cases hf
      obtain ⟨s, hs, hid⟩ := List.exists_of_findSome?_eq_some hsome
      exact h.ids s hs name id hid
  · cases hf

theorem Known.findField (h : t.Known declared) {cls : ClassId} {name : String} {id : EntityId}
    (hf : t.findField cls name = .ok id) :
    (t.entity id).name = name ∧ (t.entity id).IsField declared (t.classInfo cls).name := by
  rw [NameTable.findField] at hf
  split at hf
  · next found hfind =>
      cases hf
      have hmem := Array.mem_of_find?_eq_some hfind
      have hname := Array.find?_some hfind
      by_cases hcls : cls.index < t.classes.size
      · have hinfo : t.classInfo cls ∈ t.classes := by
          simp only [NameTable.classInfo, Array.getD_eq_getD_getElem?,
            Array.getElem?_eq_getElem hcls]
          exact Array.getElem_mem hcls
        exact ⟨by simpa using hname, h.fields _ hinfo id hmem⟩
      · have hnone : t.classInfo cls = default := by simp [NameTable.classInfo, hcls]
        rw [hnone] at hmem
        exact absurd hmem (Array.not_mem_empty id)
  · cases hf

/-! ## Declaring -/

/-- A handle to something leads into the store. -/
theorem index_ne_size {id : EntityId} (h : (t.entity id).kind ≠ .unknown) :
    id.index ≠ t.entities.size := by
  intro hsize
  refine h ?_
  simp [NameTable.entity, hsize, Entity.unknown]

theorem entity_insert_of_known {id : EntityId} (h : (t.entity id).kind ≠ .unknown) (form : Form)
    (name : String) (ty : Ty) : (t.insert form name ty).2.entity id = t.entity id := by
  rw [NameTable.insert]
  split
  · rfl
  · rw [entity_push, if_neg (index_ne_size h)]

theorem known_newEntity (t : NameTable) (form : Form) (name : String) {ty : Ty} (h : ty.Known)
    (hnamed : form = .typeName → ty ≠ .void) : (t.newEntity form name ty).Known := by
  cases form with
  | typeName => exact ⟨by simp [NameTable.newEntity], h, fun _ => hnamed rfl⟩
  | constant | var | method | program =>
      exact ⟨by simp [NameTable.newEntity], h, by simp [NameTable.newEntity]⟩

theorem Known.insert (h : t.Known declared) (form : Form) (name : String) {ty : Ty} (hty : ty.Known)
    (hnamed : form = .typeName → ty ≠ .void) : (t.insert form name ty).2.Known declared := by
  have hold {id : EntityId} (hid : (t.entity id).Known) :
      ((t.insert form name ty).2.entity id).Known := by
    rwa [entity_insert_of_known hid.kind]
  have hnew : (t.insert form name ty).1 = .ok ⟨t.entities.size⟩ →
      ((t.insert form name ty).2.entity ⟨t.entities.size⟩).Known := by
    rw [NameTable.insert]
    split
    · rintro ⟨⟩
    · intro _
      rw [entity_push, if_pos rfl]
      exact known_newEntity t form name hty hnamed
  have hfields : ∀ info ∈ t.classes, ∀ id ∈ info.fields,
      ((t.insert form name ty).2.entity id).IsField declared info.name := by
    intro info hinfo id hid
    have hfield := h.fields info hinfo id hid
    rwa [entity_insert_of_known hfield.known.kind]
  revert hold hnew hfields
  rw [NameTable.insert]
  split
  · exact fun _ _ _ => h
  · intro hold hnew hfields
    refine ⟨?_, ?_, hfields⟩
    · intro s hs other id hid
      rcases List.mem_cons.1 hs with rfl | hs
      · change (t.current.ids.insert name _)[other]? = some id at hid
        rw [Std.TreeMap.getElem?_insert] at hid
        split at hid
        · cases hid
          exact hnew rfl
        · exact hold (h.ids _ (List.mem_cons_self ..) other id hid)
      · exact hold (h.ids s (List.mem_cons_of_mem _ hs) other id hid)
    · intro s hs id hid
      rcases List.mem_cons.1 hs with rfl | hs
      · rcases Array.mem_push.1 hid with hid | rfl
        · exact hold (h.locals _ (List.mem_cons_self ..) id hid)
        · exact hnew rfl
      · exact hold (h.locals s (List.mem_cons_of_mem _ hs) id hid)

theorem OnlyVars.insert (h : t.OnlyVars allowed) {name : String} (hname : allowed name) (ty : Ty) :
    (t.insert .var name ty).2.OnlyVars allowed := by
  have hold : ∀ id ∈ t.current.locals, ((t.insert .var name ty).2.entity id).kind.IsVar ∧
      allowed ((t.insert .var name ty).2.entity id).name := by
    intro id hid
    have hvar := h id hid
    have hknown : (t.entity id).kind ≠ .unknown := by
      intro hunknown
      rw [hunknown] at hvar
      exact hvar.1
    rwa [entity_insert_of_known hknown]
  revert hold
  rw [NameTable.insert]
  split
  · exact fun _ => h
  · intro hold id hid
    rcases Array.mem_push.1 hid with hid | rfl
    · exact hold id hid
    · rw [entity_push, if_pos rfl]
      exact ⟨trivial, hname⟩

/-! ## Scopes, classes and completed declarations -/

theorem Known.openScope (h : t.Known declared) : t.openScope.Known declared := by
  refine ⟨?_, ?_, h.fields⟩
  · intro s hs name id hid
    rcases List.mem_cons.1 hs with rfl | hs
    · have hnone : ({} : Scope).ids[name]? = none := Std.TreeMap.getElem?_emptyc
      exact absurd (hnone.symm.trans hid) (by simp)
    · exact h.ids s hs name id hid
  · intro s hs id hid
    rcases List.mem_cons.1 hs with rfl | hs
    · exact absurd hid (Array.not_mem_empty id)
    · exact h.locals s hs id hid

theorem onlyVars_openScope (t : NameTable) : t.openScope.OnlyVars allowed :=
  fun id hid => absurd hid (Array.not_mem_empty id)

theorem Known.closeScope (h : t.Known declared) : t.closeScope.Known declared := by
  obtain ⟨entities, classes, current, enclosing⟩ := t
  cases enclosing with
  | nil => exact h
  | cons outer rest =>
      exact ⟨fun s hs => h.ids s (List.mem_cons_of_mem _ hs),
        fun s hs => h.locals s (List.mem_cons_of_mem _ hs), h.fields⟩

theorem Known.newClass (h : t.Known declared) (name : String) :
    (t.newClass name).2.Known declared := by
  refine ⟨h.ids, h.locals, ?_⟩
  intro info hinfo id hid
  rcases Array.mem_push.1 hinfo with hinfo | rfl
  · exact h.fields info hinfo id hid
  · exact absurd hid (Array.not_mem_empty id)

theorem mem_setFields {cls : ClassId} {info : ClassInfo}
    (h : info ∈ (t.setFields cls).classes) :
    info ∈ t.classes ∨ info = { t.classInfo cls with fields := t.current.locals } := by
  obtain ⟨i, hi, rfl⟩ := Array.mem_iff_getElem.1 h
  simp only [NameTable.setFields, Array.size_modify] at hi
  simp only [NameTable.setFields, Array.getElem_modify]
  split
  · next hindex =>
      right
      simp [NameTable.classInfo, hindex, hi]
  · exact .inl (Array.getElem_mem hi)

theorem Known.setFields (h : t.Known declared) {cls : ClassId}
    (hvars : t.OnlyVars (declared (t.classInfo cls).name)) : (t.setFields cls).Known declared := by
  refine ⟨h.ids, h.locals, ?_⟩
  intro info hinfo id hid
  rcases mem_setFields hinfo with hinfo | rfl
  · exact h.fields info hinfo id hid
  · obtain ⟨hvar, hname⟩ := hvars id hid
    exact ⟨h.locals _ (List.mem_cons_self ..) id hid, hvar, hname⟩

theorem Known.modify (h : t.Known declared) (i : Nat) {f : Entity → Entity}
    (hf : f .unknown = .unknown) (hknown : ∀ e : Entity, e.Known → (f e).Known)
    (hfield : ∀ (e : Entity) cls, e.IsField declared cls → (f e).IsField declared cls) :
    ({ t with entities := t.entities.modify i f } : NameTable).Known declared := by
  have hkeep {id : EntityId} (hid : (t.entity id).Known) :
      (({ t with entities := t.entities.modify i f } : NameTable).entity id).Known := by
    rw [entity_modify t i f hf]
    split
    · exact hknown _ hid
    · exact hid
  refine ⟨fun s hs name id hid => hkeep (h.ids s hs name id hid),
    fun s hs id hid => hkeep (h.locals s hs id hid), fun info hinfo id hid => ?_⟩
  have hid := h.fields info hinfo id hid
  rw [entity_modify t i f hf]
  split
  · exact hfield _ _ hid
  · exact hid

theorem Known.setConstant (h : t.Known declared) (id : EntityId) (value : Int32) :
    (t.setConstant id value).Known declared := by
  refine h.modify id.index rfl ?_ ?_
  · rintro ⟨name, kind, ty⟩ he
    cases kind with
    | constant => exact ⟨by simp, he.ty, by simp⟩
    | var | typeName | method | program | unknown => exact he
  · rintro ⟨name, kind, ty⟩ cls he
    cases kind with
    | var => exact he
    | constant | typeName | method | program | unknown => exact he.var.elim

theorem Known.setCallee (h : t.Known declared) (id : EntityId) (callee : Callee) :
    (t.setCallee id callee).Known declared := by
  refine h.modify id.index rfl ?_ ?_
  · rintro ⟨name, kind, ty⟩ he
    cases kind with
    | method => exact ⟨by simp, he.ty, by simp⟩
    | var | typeName | constant | program | unknown => exact he
  · rintro ⟨name, kind, ty⟩ cls he
    cases kind with
    | var => exact he
    | constant | typeName | method | program | unknown => exact he.var.elim

/-! ## Before any declaration -/

theorem locals_outermost : outermost.locals = #[⟨1⟩, ⟨2⟩, ⟨3⟩, ⟨5⟩, ⟨7⟩] := rfl

theorem known_initial : initial.Known declared := by
  have hpredeclared : ∀ i, 0 < i → i < predeclaredCount → (initial.entity ⟨i⟩).Known := by
    intro i hpos hlt
    match i, hpos, hlt with
    | 1, _, _ | 2, _, _ | 3, _, _ | 4, _, _ | 5, _, _ | 6, _, _ | 7, _, _ | 8, _, _ =>
      exact ⟨by decide, trivial, by decide⟩
  refine ⟨?_, ?_, ?_⟩
  · intro s hs name id hid
    obtain rfl := List.mem_singleton.1 hs
    change outermost.ids[name]? = some id at hid
    rw [getElem?_ids_outermost] at hid
    simp only [List.lookup_cons, List.lookup_nil] at hid
    repeat' split at hid
    all_goals cases hid
    all_goals exact hpredeclared _ (by decide) (by decide)
  · intro s hs id hid
    obtain rfl := List.mem_singleton.1 hs
    rw [current_initial, locals_outermost] at hid
    simp only [List.mem_toArray, List.mem_cons, List.not_mem_nil, or_false] at hid
    rcases hid with rfl | rfl | rfl | rfl | rfl <;> exact hpredeclared _ (by decide) (by decide)
  · intro info hinfo
    exact absurd hinfo (Array.not_mem_empty info)

theorem fades_initial {n : Nat} : Fades n initial initial := by
  refine .refl ?_
  rintro ⟨i⟩
  match i with
  | 0 | 1 | 2 | 3 | 4 | 5 | 6 | 7 | 8 => decide
  | i + 9 => exact fun h => absurd h (by simp [entity, entities_initial, Entity.unknown])

/-- The names that a text need not declare. -/
def predeclared : List String := ["int", "char", "ord", "chr", "len"]

theorem lacks_initial {name : String} (h : name ∉ predeclared) : initial.Lacks name := by
  simp only [predeclared, List.mem_cons, List.not_mem_nil, or_false, not_or] at h
  obtain ⟨hint, hchar, hord, hchr, hlen⟩ := h
  refine ⟨?_, ?_, by decide, rfl⟩
  · intro s hs
    obtain rfl := List.mem_singleton.1 hs
    change outermost.ids[name]? = none
    rw [getElem?_ids_outermost, List.lookup_eq_none_iff]
    simp [hint, hchar, hord, hchr, hlen]
  · rintro id (⟨s, hs, hid⟩ | ⟨info, hinfo, -⟩)
    · obtain rfl := List.mem_singleton.1 hs
      rw [current_initial, locals_outermost] at hid
      simp only [List.mem_toArray, List.mem_cons, List.not_mem_nil, or_false] at hid
      rcases hid with rfl | rfl | rfl | rfl | rfl
      · exact Ne.symm hint
      · exact Ne.symm hchar
      · exact Ne.symm hord
      · exact Ne.symm hchr
      · exact Ne.symm hlen
    · exact absurd hinfo (Array.not_mem_empty info)

end NameTable

end MicroJava
