import Mathlib.Data.List.Find
import Mathlib.Data.List.Forall2
import MicroJava.Compile.Problem
import MicroJava.Names.Table
import MicroJava.Proofs.Names.Agreement

/-! # Tables under other names

Two tables side by side that differ in the spelling of their names and in nothing else. Names that
differ in one table differ in the other, and names that mean something by themselves stay as they
are; so whatever is declared or looked up in both tables gives the same handle, or fails for the
same reason. -/

namespace MicroJava

variable {f : String → String}

/-- A way of spelling names anew. Different names stay different, and what is reserved stays: the
predeclared names, the name of the method where a program starts, and the names that stand in for a
missing one. -/
structure Respelling (f : String → String) : Prop where
  injective : Function.Injective f
  reserved : ∀ name ∈ ["int", "char", "ord", "chr", "len", "main", "???", ""], f name = name

theorem respelling_id : Respelling id := ⟨Function.injective_id, fun _ _ => rfl⟩

section Rename

variable (f)

def NameError.rename : NameError → NameError
  | declaredTwice name => .declaredTwice (f name)
  | notDeclared name => .notDeclared (f name)
  | notAField field cls => .notAField (f field) (f cls)

/-- The same problem of a program under other names. -/
def Problem.rename : Problem → Problem
  | name error => .name (error.rename f)
  | problem => problem

def ClassInfo.rename (info : ClassInfo) : ClassInfo := { info with name := f info.name }

end Rename

/-- The same scope under other names. -/
structure Scope.Renamed (f : String → String) (s s' : Scope) : Prop where
  locals : s'.locals = s.locals
  ids : ∀ name, s'.ids[f name]? = s.ids[name]?
  varCount : s'.varCount = s.varCount

namespace NameTable

/-- The same table under other names. What nothing looks up may be called as before. -/
structure Renamed (f : String → String) (t t' : NameTable) : Prop where
  size : t'.entities.size = t.entities.size
  kind : ∀ id, (t'.entity id).kind = (t.entity id).kind
  ty : ∀ id, (t'.entity id).ty = (t.entity id).ty
  name : ∀ id, t.Exposes id → (t'.entity id).name = f (t.entity id).name
  classes : t'.classes = t.classes.map (ClassInfo.rename f)
  scopes : List.Forall₂ (Scope.Renamed f) (t.current :: t.enclosing) (t'.current :: t'.enclosing)

variable {t t' : NameTable}

theorem Renamed.current (h : Renamed f t t') : t.current.Renamed f t'.current :=
  (List.forall₂_cons.1 h.scopes).1

theorem Renamed.enclosing (h : Renamed f t t') :
    List.Forall₂ (Scope.Renamed f) t.enclosing t'.enclosing :=
  (List.forall₂_cons.1 h.scopes).2

/-! ## Looking up -/

theorem Renamed.classInfo (h : Renamed f t t') (hf : Respelling f) (cls : ClassId) :
    t'.classInfo cls = (t.classInfo cls).rename f := by
  have hdefault : ClassInfo.rename f default = default := by
    change (⟨f "", #[]⟩ : ClassInfo) = ⟨"", #[]⟩
    rw [hf.reserved "" (by simp)]
  simp only [NameTable.classInfo, h.classes, Array.getD_eq_getD_getElem?, Array.getElem?_map]
  cases t.classes[cls.index]? with
  | none => exact hdefault.symm
  | some info => rfl

theorem findSome?_renamed {ss ss' : List Scope} (h : List.Forall₂ (Scope.Renamed f) ss ss')
    (name : String) :
    ss'.findSome? (fun s => s.ids[f name]?) = ss.findSome? fun s => s.ids[name]? := by
  induction h with
  | nil => rfl
  | cons hs _ ih => rw [List.findSome?_cons, List.findSome?_cons, hs.ids, ih]

theorem Renamed.find (h : Renamed f t t') (name : String) :
    t'.find (f name) = (t.find name).mapError (NameError.rename f) := by
  rw [NameTable.find, NameTable.find, findSome?_renamed h.scopes]
  split <;> rfl

theorem Renamed.findField (h : Renamed f t t') (hf : Respelling f) (cls : ClassId)
    (name : String) :
    t'.findField cls (f name) = (t.findField cls name).mapError (NameError.rename f) := by
  have hfind : (t.classInfo cls).fields.find? (fun id => (t'.entity id).name == f name) =
      (t.classInfo cls).fields.find? fun id => (t.entity id).name == name := by
    rw [← Array.find?_toList, ← Array.find?_toList]
    refine List.find?_congr fun id hid => ?_
    rw [h.name id (exposes_field (Array.mem_def.2 hid)), Bool.eq_iff_iff, beq_iff_eq, beq_iff_eq]
    exact hf.injective.eq_iff
  simp only [NameTable.findField, h.classInfo hf, ClassInfo.rename, hfind]
  split <;> rfl

theorem Renamed.paramTypes (h : Renamed f t t') (callee : Callee) :
    t'.paramTypes callee = t.paramTypes callee := by
  rw [NameTable.paramTypes, NameTable.paramTypes, funext h.ty]

theorem renamed_initial (hf : Respelling f) : Renamed f initial initial := by
  have hfixed := hf.reserved
  simp only [List.mem_cons, List.not_mem_nil, or_false, forall_eq_or_imp, forall_eq] at hfixed
  obtain ⟨hint, hchar, hord, hchr, hlen, -, hunknown, -⟩ := hfixed
  refine ⟨rfl, fun _ => rfl, fun _ => rfl, ?_, by simp, .cons ⟨rfl, fun name => ?_, rfl⟩ .nil⟩
  · rintro id (⟨s, hs, hid⟩ | ⟨info, hinfo, -⟩)
    · obtain rfl := List.mem_singleton.1 hs
      change id ∈ #[⟨1⟩, ⟨2⟩, ⟨3⟩, ⟨5⟩, ⟨7⟩] at hid
      simp only [List.mem_toArray, List.mem_cons, List.not_mem_nil, or_false] at hid
      rcases hid with rfl | rfl | rfl | rfl | rfl
      · exact hint.symm
      · exact hchar.symm
      · exact hord.symm
      · exact hchr.symm
      · exact hlen.symm
    · exact absurd hinfo (Array.not_mem_empty info)
  · change outermost.ids[f name]? = outermost.ids[name]?
    have hbeq : ∀ fixed, f fixed = fixed → (f name == fixed) = (name == fixed) := by
      intro fixed hfix
      rw [Bool.eq_iff_iff, beq_iff_eq, beq_iff_eq]
      conv_lhs => rw [← hfix]
      exact hf.injective.eq_iff
    simp only [getElem?_ids_outermost, List.lookup_cons, List.lookup_nil, hbeq _ hint,
      hbeq _ hchar, hbeq _ hord, hbeq _ hchr, hbeq _ hlen]

/-! ## Declaring -/

theorem Renamed.level (h : Renamed f t t') : t'.level = t.level := by
  rw [NameTable.level, NameTable.level, h.enclosing.length_eq]

theorem Renamed.newEntity (h : Renamed f t t') (form : Form) (name : String) (ty : Ty) :
    (t'.newEntity form (f name) ty).kind = (t.newEntity form name ty).kind ∧
      (t'.newEntity form (f name) ty).ty = (t.newEntity form name ty).ty := by
  unfold NameTable.newEntity
  rw [h.level, h.current.varCount]
  cases form <;> exact ⟨rfl, rfl⟩

/-- A declaration succeeds or fails in both tables. -/
theorem Renamed.insert (h : Renamed f t t') (hf : Respelling f) (form : Form) (name : String)
    (ty : Ty) :
    (t'.insert form (f name) ty).1 = (t.insert form name ty).1.mapError (NameError.rename f) ∧
      Renamed f (t.insert form name ty).2 (t'.insert form (f name) ty).2 := by
  have hcontains : t'.current.ids.contains (f name) = t.current.ids.contains name := by
    rw [Std.TreeMap.contains_eq_isSome_getElem?, Std.TreeMap.contains_eq_isSome_getElem?,
      h.current.ids]
  obtain ⟨hkind, hty⟩ := h.newEntity form name ty
  have hexposed : ∀ id, (t.insert form name ty).2.Exposes id →
      t.Exposes id ∨ id.index = t.entities.size := fun _ hid => hid.of_insert
  revert hexposed
  rw [NameTable.insert, NameTable.insert, hcontains]
  split
  · exact fun _ => ⟨rfl, h⟩
  · intro hexposed
    refine ⟨?_, ?_, fun id => ?_, fun id => ?_, fun id hid => ?_, h.classes,
      .cons ⟨?_, ?_, ?_⟩ h.enclosing⟩
    · simp only [h.size]
      rfl
    · simp [h.size]
    · simp only [entity_push, h.size]
      split
      · exact hkind
      · exact h.kind id
    · simp only [entity_push, h.size]
      split
      · exact hty
      · exact h.ty id
    · simp only [entity_push, h.size]
      split
      · rw [name_newEntity, name_newEntity]
      · next hold => exact h.name id ((hexposed id hid).resolve_right hold)
    · simp only [h.size, h.current.locals]
    · intro other
      simp only [Std.TreeMap.getElem?_insert, Std.LawfulEqOrd.compare_eq_iff_eq,
        hf.injective.eq_iff, h.current.ids, h.size]
    · simp only [h.current.varCount]

theorem Renamed.openScope (h : Renamed f t t') : Renamed f t.openScope t'.openScope := by
  refine ⟨h.size, h.kind, h.ty, fun id hid => h.name id hid.of_openScope, h.classes,
    .cons ⟨rfl, fun name => ?_, rfl⟩ h.scopes⟩
  change (∅ : Std.TreeMap String EntityId)[f name]? = (∅ : Std.TreeMap String EntityId)[name]?
  rw [Std.TreeMap.getElem?_emptyc, Std.TreeMap.getElem?_emptyc]

theorem Renamed.closeScope (h : Renamed f t t') : Renamed f t.closeScope t'.closeScope := by
  have hexposed : ∀ id, t.closeScope.Exposes id → t.Exposes id := fun _ hid => hid.of_closeScope
  obtain ⟨entities, classes, current, enclosing⟩ := t
  obtain ⟨entities', classes', current', enclosing'⟩ := t'
  obtain ⟨hsize, hkind, hty, hname, hclasses, hscopes⟩ := h
  cases hscopes with
  | cons hcurrent henclosing =>
      cases henclosing with
      | nil => exact ⟨hsize, hkind, hty, hname, hclasses, .cons hcurrent .nil⟩
      | cons houter hrest =>
          exact ⟨hsize, hkind, hty, fun id hid => hname id (hexposed id hid), hclasses,
            .cons houter hrest⟩

theorem Renamed.newClass (h : Renamed f t t') (name : String) :
    (t'.newClass (f name)).1 = (t.newClass name).1 ∧
      Renamed f (t.newClass name).2 (t'.newClass (f name)).2 := by
  refine ⟨?_, h.size, h.kind, h.ty, fun id hid => h.name id hid.of_newClass, ?_, h.scopes⟩
  · rw [NameTable.newClass, NameTable.newClass, h.classes, Array.size_map]
  · simp only [NameTable.newClass, h.classes, Array.map_push]
    rfl

theorem map_modify {α : Type} (xs : Array α) (i : Nat) {g g' k : α → α}
    (h : ∀ a, g' (k a) = k (g a)) : (xs.map k).modify i g' = (xs.modify i g).map k := by
  apply Array.ext_getElem?
  intro j
  simp only [Array.getElem?_modify, Array.getElem?_map]
  split
  · cases xs[j]? with
    | none => rfl
    | some a => exact congrArg some (h a)
  · rfl

/-- The change does not look at names and leaves them alone. -/
theorem Renamed.modify (h : Renamed f t t') (i : Nat) {g : Entity → Entity}
    (hunknown : g .unknown = .unknown) (hname : ∀ e, (g e).name = e.name)
    (hg : ∀ e e' : Entity, e'.kind = e.kind → e'.ty = e.ty →
      (g e').kind = (g e).kind ∧ (g e').ty = (g e).ty) :
    Renamed f { t with entities := t.entities.modify i g }
      { t' with entities := t'.entities.modify i g } := by
  have hchanged := fun id => hg (t.entity id) (t'.entity id) (h.kind id) (h.ty id)
  refine ⟨by simp [h.size], fun id => ?_, fun id => ?_, fun id hid => ?_, h.classes, h.scopes⟩
  all_goals rw [entity_modify t i g hunknown, entity_modify t' i g hunknown]
  all_goals split
  · exact (hchanged id).1
  · exact h.kind id
  · exact (hchanged id).2
  · exact h.ty id
  · rw [hname, hname]
    exact h.name id hid
  · exact h.name id hid

theorem Renamed.setConstant (h : Renamed f t t') (id : EntityId) (value : Int32) :
    Renamed f (t.setConstant id value) (t'.setConstant id value) := by
  refine h.modify id.index rfl (fun e => by split <;> rfl) ?_
  rintro ⟨_, kind, ty⟩ ⟨_, kind', ty'⟩ hkind hty
  obtain rfl : kind' = kind := hkind
  obtain rfl : ty' = ty := hty
  cases kind' <;> exact ⟨rfl, rfl⟩

theorem Renamed.setCallee (h : Renamed f t t') (id : EntityId) (callee : Callee) :
    Renamed f (t.setCallee id callee) (t'.setCallee id callee) := by
  refine h.modify id.index rfl (fun e => by split <;> rfl) ?_
  rintro ⟨_, kind, ty⟩ ⟨_, kind', ty'⟩ hkind hty
  obtain rfl : kind' = kind := hkind
  obtain rfl : ty' = ty := hty
  cases kind' <;> exact ⟨rfl, rfl⟩

theorem Renamed.setFields (h : Renamed f t t') (cls : ClassId) :
    Renamed f (t.setFields cls) (t'.setFields cls) := by
  refine ⟨h.size, h.kind, h.ty, fun id hid => h.name id hid.of_setFields, ?_, h.scopes⟩
  simp only [NameTable.setFields, h.classes, h.current.locals]
  exact map_modify t.classes cls.index (k := ClassInfo.rename f)
    (g := fun info => { info with fields := t.current.locals }) fun _ => rfl

end NameTable

end MicroJava
