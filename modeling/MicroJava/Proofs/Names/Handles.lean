import MicroJava.Names.Table

/-! # Handles that lead somewhere

A table is in order when every handle in it leads to an entity or a class of its store. Declaring a
name, opening and closing scopes and completing what was declared keep it in order, never make the
store smaller and leave the predeclared entities alone. -/

namespace MicroJava

/-- All classes in the type are among the first `n`. -/
def Ty.Within (n : Nat) : Ty → Prop
  | .object cls => cls.index < n
  | .array elem => elem.Within n
  | .void | .int | .char | .error => True

theorem Ty.Within.mono {n m : Nat} {ty : Ty} (hty : ty.Within n) (h : n ≤ m) : ty.Within m := by
  induction ty with
  | object cls => exact Nat.lt_of_lt_of_le hty h
  | array elem ih => exact ih hty
  | void | int | char | error => trivial

theorem Ty.within_array {n : Nat} {elem : Ty} : (Ty.array elem).Within n ↔ elem.Within n := .rfl

/-- All names of the scope stand for one of the first `n` entities. -/
structure Scope.Within (n : Nat) (s : Scope) : Prop where
  locals : ∀ id ∈ s.locals, id.index < n
  ids : ∀ (name : String) id, s.ids[name]? = some id → id.index < n

theorem Scope.Within.mono {s : Scope} {n m : Nat} (hs : s.Within n) (h : n ≤ m) : s.Within m :=
  ⟨fun id hid => Nat.lt_of_lt_of_le (hs.locals id hid) h,
    fun name id hid => Nat.lt_of_lt_of_le (hs.ids name id hid) h⟩

theorem Scope.within_empty (n : Nat) : ({} : Scope).Within n := by
  constructor
  · intro id hid
    simp at hid
  · intro name id hid
    simp at hid

/-- All variables of the method's frame are among the first `n` entities. -/
def Callee.Within (n : Nat) (c : Callee) : Prop := ∀ id ∈ c.locals, id.index < n

theorem Callee.Within.mono {c : Callee} {n m : Nat} (hc : c.Within n) (h : n ≤ m) : c.Within m :=
  fun id hid => Nat.lt_of_lt_of_le (hc id hid) h

theorem Callee.within_empty (n : Nat) : ({} : Callee).Within n := by
  intro id hid
  simp at hid

namespace NameTable

/-- Number of open scopes. The innermost one is always there. -/
def depth (t : NameTable) : Nat := t.enclosing.length + 1

/-- Number of entities that are there before any declaration of a program. -/
def predeclaredCount : Nat := 9

theorem entities_initial :
    initial.entities =
      #[.unknown, ⟨"int", .typeName, .int⟩, ⟨"char", .typeName, .char⟩,
        ⟨"ord", .method { paramCount := 1, locals := #[⟨4⟩], builtin := some .ord }, .int⟩,
        ⟨"ch", .var 0 0, .char⟩,
        ⟨"chr", .method { paramCount := 1, locals := #[⟨6⟩], builtin := some .chr }, .char⟩,
        ⟨"i", .var 0 0, .int⟩,
        ⟨"len", .method { paramCount := 1, locals := #[⟨8⟩], builtin := some .len }, .int⟩,
        ⟨"arr", .var 0 0, .array .void⟩] := rfl

@[simp] theorem classes_initial : initial.classes = #[] := rfl

@[simp] theorem current_initial : initial.current = outermost := rfl

@[simp] theorem enclosing_initial : initial.enclosing = [] := rfl

/-- Every handle in the table leads somewhere, and the predeclared entities are as they were. -/
structure InOrder (t : NameTable) : Prop where
  predeclared : ∀ i < predeclaredCount, t.entities[i]? = initial.entities[i]?
  scopes : ∀ s ∈ t.current :: t.enclosing, s.Within t.entities.size
  fields : ∀ info ∈ t.classes, ∀ id ∈ info.fields, id.index < t.entities.size
  types : ∀ e ∈ t.entities, e.ty.Within t.classes.size
  callees : ∀ e ∈ t.entities, ∀ c ∈ e.callee?, c.Within t.entities.size

/-- The store of the second table has room for every handle of the first. -/
structure Below (t t' : NameTable) : Prop where
  entities : t.entities.size ≤ t'.entities.size
  classes : t.classes.size ≤ t'.classes.size

/-- What can happen to a table inside one scope. -/
structure Follows (t t' : NameTable) : Prop extends Below t t' where
  enclosing : t'.enclosing = t.enclosing
  kept : ∀ (name : String) id, t.current.ids[name]? = some id → t'.current.ids[name]? = some id

variable {t t' t'' : NameTable}

/-- Entities are only added. -/
def Extends (t t' : NameTable) : Prop :=
  ∀ (i : Nat) e, t.entities[i]? = some e → t'.entities[i]? = some e

theorem Below.refl (t : NameTable) : t.Below t := ⟨Nat.le_refl _, Nat.le_refl _⟩

theorem Below.trans (h : t.Below t') (h' : t'.Below t'') : t.Below t'' :=
  ⟨Nat.le_trans h.entities h'.entities, Nat.le_trans h.classes h'.classes⟩

theorem Follows.refl (t : NameTable) : t.Follows t := ⟨.refl t, rfl, fun _ _ h => h⟩

theorem Follows.trans (h : t.Follows t') (h' : t'.Follows t'') : t.Follows t'' :=
  ⟨h.toBelow.trans h'.toBelow, h'.enclosing.trans h.enclosing,
    fun name id hid => h'.kept name id (h.kept name id hid)⟩

/-! ## Looking up -/

namespace InOrder

variable (h : t.InOrder)
include h

theorem size : predeclaredCount ≤ t.entities.size := by
  have hlast : t.entities[8]? = initial.entities[8]? := h.predeclared 8 (by decide)
  obtain ⟨hlt, -⟩ := Array.getElem?_eq_some_iff.1 (hlast.trans rfl)
  exact hlt

theorem unknownId_lt : unknownId.index < t.entities.size := Nat.lt_of_lt_of_le (by decide) h.size

theorem find_lt {name : String} {id : EntityId} (hf : t.find name = .ok id) :
    id.index < t.entities.size := by
  rw [find] at hf
  split at hf
  · next found hsome =>
      cases hf
      obtain ⟨s, hs, hid⟩ := List.exists_of_findSome?_eq_some hsome
      exact (h.scopes s hs).ids name id hid
  · cases hf

theorem ty_entity (id : EntityId) : (t.entity id).ty.Within t.classes.size := by
  by_cases hid : id.index < t.entities.size
  · have he : t.entity id = t.entities[id.index] := by simp [entity, hid]
    rw [he]
    exact h.types _ (Array.getElem_mem hid)
  · have he : t.entity id = .unknown := by simp [entity, hid]
    rw [he]
    trivial

theorem entity_predeclared {id : EntityId} (hid : id.index < predeclaredCount) :
    t.entity id = initial.entity id := by
  rw [entity, entity, Array.getD_eq_getD_getElem?, Array.getD_eq_getD_getElem?,
    h.predeclared id.index hid]

/-- The parameters of the predeclared methods are still there. -/
theorem paramTypes_predeclared {id : EntityId} (hid : id.index < predeclaredCount) {c : Callee}
    (hc : c ∈ (initial.entity id).callee?) : t.paramTypes c = c.params := by
  have hstart : ∀ i < predeclaredCount, ∀ c ∈ (initial.entity ⟨i⟩).callee?,
      initial.paramTypes c = c.params ∧ ∀ id ∈ c.paramIds, id.index < predeclaredCount := by
    decide
  obtain ⟨htypes, hids⟩ := hstart id.index hid c hc
  rw [← htypes, NameTable.paramTypes, NameTable.paramTypes]
  exact List.map_congr_left fun id hid => by rw [h.entity_predeclared (hids id hid)]

theorem hasFields {cls : ClassId} (hc : cls.index < t.classes.size) : t.hasFields cls = true := by
  have hinfo : t.classInfo cls = t.classes[cls.index] := by simp [classInfo, hc]
  have hmem : t.classes[cls.index] ∈ t.classes := Array.getElem_mem hc
  rw [NameTable.hasFields, Bool.and_eq_true, hinfo]
  refine ⟨decide_eq_true hc, ?_⟩
  rw [Array.all_eq_true']
  intro id hid
  exact decide_eq_true (h.fields _ hmem id hid)

theorem findField_lt {cls : ClassId} (hc : cls.index < t.classes.size) {name : String}
    {id : EntityId} (hf : t.findField cls name = .ok id) : id.index < t.entities.size := by
  have hinfo : t.classInfo cls = t.classes[cls.index] := by simp [classInfo, hc]
  rw [findField, hinfo] at hf
  split at hf
  · next found hfind =>
      cases hf
      exact h.fields _ (Array.getElem_mem hc) id (Array.mem_of_find?_eq_some hfind)
  · cases hf

theorem callee_entity {id : EntityId} {c : Callee} (hc : (t.entity id).callee? = some c) :
    c.Within t.entities.size := by
  by_cases hid : id.index < t.entities.size
  · have he : t.entity id = t.entities[id.index] := by simp [entity, hid]
    exact h.callees _ (Array.getElem_mem hid) c (he ▸ hc)
  · have he : t.entity id = .unknown := by simp [entity, hid]
    rw [he] at hc
    cases hc

end InOrder

theorem hasParams_of_within {callee : Callee} (hc : callee.Within t.entities.size) :
    t.hasParams callee = true := by
  rw [NameTable.hasParams, List.all_eq_true]
  intro id hid
  have hmem : id ∈ callee.locals := Array.mem_def.2 (List.mem_of_mem_take hid)
  exact decide_eq_true (hc id hmem)

theorem find_current {name : String} {id : EntityId} (h : t.current.ids[name]? = some id) :
    t.find name = .ok id := by
  simp [find, h]

/-- The names that are there before any declaration. -/
theorem outermost_ids {name : String} (h : name ∈ ["int", "char", "ord", "chr", "len"]) :
    ∃ id, outermost.ids[name]? = some id ∧ id.index < predeclaredCount := by
  simp only [List.mem_cons, List.not_mem_nil, or_false] at h
  rcases h with rfl | rfl | rfl | rfl | rfl <;> exact ⟨_, rfl, by decide⟩

theorem ids_outermost :
    outermost.ids =
      (((((∅ : Std.TreeMap String EntityId).insert "int" ⟨1⟩).insert "char" ⟨2⟩).insert "ord"
        ⟨3⟩).insert "chr" ⟨5⟩).insert "len" ⟨7⟩ := rfl

theorem getElem?_ids_outermost (name : String) :
    outermost.ids[name]? =
      [("int", EntityId.mk 1), ("char", ⟨2⟩), ("ord", ⟨3⟩), ("chr", ⟨5⟩), ("len", ⟨7⟩)].lookup
        name := by
  by_cases hname : name ∈ ["int", "char", "ord", "chr", "len"]
  · simp only [List.mem_cons, List.not_mem_nil, or_false] at hname
    rcases hname with rfl | rfl | rfl | rfl | rfl <;> decide +kernel
  · simp only [List.mem_cons, List.not_mem_nil, or_false, not_or] at hname
    obtain ⟨h₁, h₂, h₃, h₄, h₅⟩ := hname
    simp [ids_outermost, List.lookup_cons, beq_false_of_ne h₁,
      beq_false_of_ne h₂, beq_false_of_ne h₃, beq_false_of_ne h₄, beq_false_of_ne h₅,
      Ne.symm h₁, Ne.symm h₂, Ne.symm h₃, Ne.symm h₄, Ne.symm h₅]

/-! ## Changing the table -/

theorem initial_inOrder : initial.InOrder := by
  refine ⟨fun _ _ => rfl, ?_, ?_, ?_, ?_⟩
  · intro s hs
    obtain rfl : s = outermost := by simpa using hs
    have hlocals : ∀ id ∈ outermost.locals, id.index < initial.entities.size := by decide
    refine ⟨hlocals, ?_⟩
    intro name id hid
    have hmem : (name, id) ∈ outermost.ids.toList := by
      rw [Std.TreeMap.mem_toList_iff_getElem?_eq_some]
      exact hid
    have hall : ∀ entry ∈ outermost.ids.toList, entry.2.index < initial.entities.size := by decide
    exact hall _ hmem
  · intro info hinfo
    simp at hinfo
  · simp [entities_initial, Entity.unknown, Ty.Within]
  · simp [entities_initial, Entity.unknown, Entity.callee?, Callee.Within]

theorem ty_newEntity (form : Form) (name : String) (ty : Ty) :
    (t.newEntity form name ty).ty = ty := by
  cases form <;> rfl

theorem name_newEntity (t : NameTable) (form : Form) (name : String) (ty : Ty) :
    (t.newEntity form name ty).name = name := by
  cases form <;> rfl

theorem callee?_newEntity {form : Form} {name : String} {ty : Ty} {c : Callee}
    (hc : c ∈ (t.newEntity form name ty).callee?) : c = {} := by
  cases form <;> simp_all [newEntity, Entity.callee?]

theorem InOrder.insert (h : t.InOrder) {ty : Ty} (hty : ty.Within t.classes.size) (form : Form)
    (name : String) : (t.insert form name ty).2.InOrder := by
  rw [NameTable.insert]
  split
  · exact h
  · have hcurrent := h.scopes _ (List.mem_cons_self ..)
    have hgrow : t.entities.size ≤ (t.entities.push (t.newEntity form name ty)).size := by simp
    refine ⟨?_, ?_, ?_, ?_, ?_⟩
    · intro i hi
      have hlt : i < t.entities.size := Nat.lt_of_lt_of_le hi h.size
      rw [← h.predeclared i hi, Array.getElem?_push_lt hlt, Array.getElem?_eq_getElem hlt]
    · intro s hs
      rcases List.mem_cons.1 hs with rfl | hs
      · constructor
        · intro id hid
          rcases Array.mem_push.1 hid with hid | rfl
          · exact Nat.lt_of_lt_of_le (hcurrent.locals id hid) hgrow
          · simp
        · intro n id hid
          rw [Std.TreeMap.getElem?_insert] at hid
          split at hid
          · cases hid
            simp
          · exact Nat.lt_of_lt_of_le (hcurrent.ids n id hid) hgrow
      · exact (h.scopes s (List.mem_cons_of_mem _ hs)).mono hgrow
    · intro info hinfo id hid
      exact Nat.lt_of_lt_of_le (h.fields info hinfo id hid) hgrow
    · intro e he
      rcases Array.mem_push.1 he with he | rfl
      · exact h.types e he
      · rw [ty_newEntity]
        exact hty
    · intro e he c hc
      rcases Array.mem_push.1 he with he | rfl
      · exact (h.callees e he c hc).mono hgrow
      · rw [callee?_newEntity hc]
        exact Callee.within_empty _

/-- A name that is declared already is refused, so no name gets another meaning. -/
theorem extends_push {e : Entity} (h : t'.entities = t.entities.push e) : t.Extends t' := by
  intro i e' he
  obtain ⟨hi, rfl⟩ := Array.getElem?_eq_some_iff.1 he
  rw [h, Array.getElem?_push_lt hi]

theorem follows_insert (t : NameTable) (form : Form) (name : String) (ty : Ty) :
    t.Follows (t.insert form name ty).2 := by
  rw [insert]
  split
  · exact .refl t
  · next hfree =>
      refine ⟨⟨by simp, Nat.le_refl _⟩, rfl, ?_⟩
      intro n id hid
      have hmem : n ∈ t.current.ids := by
        rw [Std.TreeMap.mem_iff_isSome_getElem?, hid]
        rfl
      have hne : name ≠ n := by
        rintro rfl
        exact hfree (Std.TreeMap.mem_iff_contains.1 hmem)
      rw [Std.TreeMap.getElem?_insert]
      simpa [hne] using hid

theorem InOrder.insert_ok (h : t.InOrder) {form : Form} {name : String} {ty : Ty} {id : EntityId}
    (hok : (t.insert form name ty).1 = .ok id) :
    predeclaredCount ≤ id.index ∧ id.index < (t.insert form name ty).2.entities.size := by
  rw [NameTable.insert] at hok ⊢
  split at hok
  · cases hok
  · cases hok
    exact ⟨h.size, by simp [*]⟩

theorem InOrder.openScope (h : t.InOrder) : t.openScope.InOrder := by
  refine ⟨h.predeclared, ?_, h.fields, h.types, h.callees⟩
  intro s hs
  rcases List.mem_cons.1 hs with rfl | hs
  · exact Scope.within_empty _
  · exact h.scopes s hs

theorem InOrder.closeScope (h : t.InOrder) : t.closeScope.InOrder := by
  obtain ⟨entities, classes, current, enclosing⟩ := t
  cases enclosing with
  | nil => exact h
  | cons outer rest =>
      refine ⟨h.predeclared, ?_, h.fields, h.types, h.callees⟩
      intro s hs
      exact h.scopes s (List.mem_cons_of_mem _ hs)

theorem enclosing_closeScope (t : NameTable) : t.closeScope.enclosing = t.enclosing.tail := by
  obtain ⟨entities, classes, current, enclosing⟩ := t
  cases enclosing <;> rfl

/-- Opening a scope, working in it and closing it leaves the other scopes as they were. -/
theorem Follows.nested (h : t.openScope.Follows t') : t.Follows t'.closeScope := by
  obtain ⟨entities, classes, current, enclosing⟩ := t'
  obtain ⟨⟨he, hc⟩, henc, -⟩ := h
  obtain rfl : enclosing = t.current :: t.enclosing := henc
  exact ⟨⟨he, hc⟩, rfl, fun _ _ hid => hid⟩

/-- An entity is completed, which does not concern the predeclared ones. -/
theorem InOrder.modify (h : t.InOrder) {i : Nat} {f : Entity → Entity}
    (hf : ∀ e, (f e).ty = e.ty)
    (hcallee : ∀ e, ∀ c ∈ (f e).callee?, c ∈ e.callee? ∨ c.Within t.entities.size)
    (hi : predeclaredCount ≤ i ∨ t.entities[i]?.map f = t.entities[i]?) :
    { t with entities := t.entities.modify i f }.InOrder := by
  have hsize : (t.entities.modify i f).size = t.entities.size := by simp
  refine ⟨?_, hsize ▸ h.scopes, hsize ▸ h.fields, ?_, ?_⟩
  · intro j hj
    rw [← h.predeclared j hj, Array.getElem?_modify]
    split
    · next hij =>
        subst hij
        rcases hi with hi | hi
        · omega
        · exact hi
    · rfl
  · intro e he
    obtain ⟨j, hj, rfl⟩ := Array.mem_iff_getElem.1 he
    have hj' : j < t.entities.size := hsize ▸ hj
    rw [Array.getElem_modify]
    split
    · rw [hf]
      exact h.types _ (Array.getElem_mem hj')
    · exact h.types _ (Array.getElem_mem hj')
  · intro e he c hc
    rw [hsize]
    obtain ⟨j, hj, rfl⟩ := Array.mem_iff_getElem.1 he
    have hj' : j < t.entities.size := hsize ▸ hj
    rw [Array.getElem_modify] at hc
    split at hc
    · rcases hcallee _ c hc with hc | hc
      · exact h.callees _ (Array.getElem_mem hj') c hc
      · exact hc
    · exact h.callees _ (Array.getElem_mem hj') c hc

theorem follows_modify (t : NameTable) (i : Nat) (f : Entity → Entity) :
    t.Follows { t with entities := t.entities.modify i f } :=
  ⟨⟨by simp, Nat.le_refl _⟩, rfl, fun _ _ hid => hid⟩

/-- The handle of a declaration, successful or not. -/
def IsDeclared (id : EntityId) : Prop := id = unknownId ∨ predeclaredCount ≤ id.index

/-- The entity behind failed declarations is never completed. -/
theorem InOrder.complete (h : t.InOrder) {id : EntityId} (hid : IsDeclared id)
    {f : Entity → Entity} (hf : ∀ e, (f e).ty = e.ty)
    (hcallee : ∀ e, ∀ c ∈ (f e).callee?, c ∈ e.callee? ∨ c.Within t.entities.size)
    (hu : f .unknown = .unknown) :
    { t with entities := t.entities.modify id.index f }.InOrder := by
  refine h.modify hf hcallee ?_
  rcases hid with rfl | hid
  · have h₀ : t.entities[unknownId.index]? = some .unknown := h.predeclared 0 (by decide)
    exact .inr (by rw [h₀, Option.map_some, hu])
  · exact .inl hid

theorem InOrder.setConstant (h : t.InOrder) {id : EntityId} (hid : IsDeclared id) (value : Int32) :
    (t.setConstant id value).InOrder := by
  refine h.complete hid ?_ ?_ rfl
  · intro e
    split <;> rfl
  · intro e c hc
    split at hc
    · cases hc
    · exact .inl hc

theorem InOrder.setCallee (h : t.InOrder) {id : EntityId} (hid : IsDeclared id)
    {callee : Callee} (hcallee : callee.Within t.entities.size) :
    (t.setCallee id callee).InOrder := by
  refine h.complete hid ?_ ?_ rfl
  · intro e
    split <;> rfl
  · intro e c hc
    split at hc
    · cases hc
      exact .inr hcallee
    · exact .inl hc

theorem follows_newClass (t : NameTable) (name : String) : t.Follows (t.newClass name).2 :=
  ⟨⟨Nat.le_refl _, by simp [newClass]⟩, rfl, fun _ _ hid => hid⟩

theorem newClass_lt (t : NameTable) (name : String) :
    (t.newClass name).1.index < (t.newClass name).2.classes.size := by
  simp [newClass]

theorem InOrder.newClass (h : t.InOrder) (name : String) : (t.newClass name).2.InOrder := by
  refine ⟨h.predeclared, h.scopes, ?_,
    fun e he => (h.types e he).mono (follows_newClass t name).classes, h.callees⟩
  intro info hinfo id hid
  rcases Array.mem_push.1 hinfo with hinfo | rfl
  · exact h.fields info hinfo id hid
  · simp at hid

theorem follows_setFields (t : NameTable) (cls : ClassId) : t.Follows (t.setFields cls) :=
  ⟨⟨Nat.le_refl _, by simp [setFields]⟩, rfl, fun _ _ hid => hid⟩

theorem InOrder.setFields (h : t.InOrder) (cls : ClassId) : (t.setFields cls).InOrder := by
  have hsize : (t.setFields cls).classes.size = t.classes.size := by simp [NameTable.setFields]
  refine ⟨h.predeclared, h.scopes, ?_, hsize ▸ h.types, h.callees⟩
  intro info hinfo id hid
  obtain ⟨j, hj, rfl⟩ := Array.mem_iff_getElem.1 hinfo
  have hj' : j < t.classes.size := hsize ▸ hj
  simp only [NameTable.setFields, Array.getElem_modify] at hid
  split at hid
  · exact (h.scopes _ (List.mem_cons_self ..)).locals id hid
  · exact h.fields _ (Array.getElem_mem hj') id hid

/-- The entity behind a handle once another one has been added. -/
theorem entity_push (t : NameTable) (e : Entity) (current : Scope) (id : EntityId) :
    ({ t with entities := t.entities.push e, current } : NameTable).entity id =
      if id.index = t.entities.size then e else t.entity id := by
  simp only [NameTable.entity, Array.getD_eq_getD_getElem?, Array.getElem?_push]
  split <;> rfl

/-- The entity behind a handle once one of them has been completed. -/
theorem entity_modify (t : NameTable) (i : Nat) (f : Entity → Entity) (hf : f .unknown = .unknown)
    (id : EntityId) :
    ({ t with entities := t.entities.modify i f } : NameTable).entity id =
      if id.index = i then f (t.entity id) else t.entity id := by
  simp only [NameTable.entity, Array.getD_eq_getD_getElem?, Array.getElem?_modify]
  by_cases hi : i = id.index
  · rw [if_pos hi, if_pos hi.symm]
    cases t.entities[id.index]? with
    | none => exact hf.symm
    | some e => rfl
  · rw [if_neg hi, if_neg fun h => hi h.symm]

/-! ## What can be looked up by a name -/

/-- The handle is in an open scope or stands for a field. The parameters of predeclared methods are
in the store, but nothing ever looks them up by their names. -/
def Exposes (t : NameTable) (id : EntityId) : Prop :=
  (∃ s ∈ t.current :: t.enclosing, id ∈ s.locals) ∨ ∃ info ∈ t.classes, id ∈ info.fields

variable {id : EntityId}

theorem Exposes.of_insert {form : Form} {name : String} {ty : Ty}
    (h : (t.insert form name ty).2.Exposes id) : t.Exposes id ∨ id.index = t.entities.size := by
  rw [NameTable.insert] at h
  split at h
  · exact .inl h
  · rcases h with ⟨s, hs, hid⟩ | hfield
    · rcases List.mem_cons.1 hs with rfl | hs
      · rcases Array.mem_push.1 hid with hid | rfl
        · exact .inl (.inl ⟨_, List.mem_cons_self .., hid⟩)
        · exact .inr rfl
      · exact .inl (.inl ⟨s, List.mem_cons_of_mem _ hs, hid⟩)
    · exact .inl (.inr hfield)

theorem Exposes.of_openScope (h : t.openScope.Exposes id) : t.Exposes id := by
  refine h.imp_left ?_
  rintro ⟨s, hs, hid⟩
  rcases List.mem_cons.1 hs with rfl | hs
  · exact absurd hid (Array.not_mem_empty id)
  · exact ⟨s, hs, hid⟩

theorem Exposes.of_closeScope (h : t.closeScope.Exposes id) : t.Exposes id := by
  obtain ⟨entities, classes, current, enclosing⟩ := t
  cases enclosing with
  | nil => exact h
  | cons outer rest =>
      refine h.imp_left ?_
      rintro ⟨s, hs, hid⟩
      exact ⟨s, List.mem_cons_of_mem _ hs, hid⟩

theorem Exposes.of_newClass {name : String} (h : (t.newClass name).2.Exposes id) :
    t.Exposes id := by
  refine h.imp_right ?_
  rintro ⟨info, hinfo, hid⟩
  rcases Array.mem_push.1 hinfo with hinfo | rfl
  · exact ⟨info, hinfo, hid⟩
  · exact absurd hid (Array.not_mem_empty id)

theorem Exposes.of_setFields {cls : ClassId} (h : (t.setFields cls).Exposes id) :
    t.Exposes id := by
  rcases h with hscope | ⟨info, hinfo, hid⟩
  · exact .inl hscope
  · obtain ⟨j, hj, rfl⟩ := Array.mem_iff_getElem.1 hinfo
    simp only [NameTable.setFields, Array.getElem_modify] at hid
    split at hid
    · exact .inl ⟨_, List.mem_cons_self .., hid⟩
    · exact .inr ⟨_, Array.getElem_mem _, hid⟩

theorem exposes_field {cls : ClassId} (h : id ∈ (t.classInfo cls).fields) : t.Exposes id := by
  by_cases hcls : cls.index < t.classes.size
  · have hinfo : t.classInfo cls = t.classes[cls.index] := by simp [classInfo, hcls]
    exact .inr ⟨_, Array.getElem_mem hcls, hinfo ▸ h⟩
  · have hnone : t.classInfo cls = default := by simp [classInfo, hcls]
    rw [hnone] at h
    exact absurd h (Array.not_mem_empty id)

end NameTable

end MicroJava
