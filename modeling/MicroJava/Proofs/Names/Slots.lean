import Mathlib.Data.List.Induction
import Mathlib.Data.List.Nodup
import Mathlib.Data.List.Pairwise
import MicroJava.Proofs.Names.Known
import MicroJava.Proofs.Names.ScopeStack

/-! # Where variables are stored

A scope numbers its variables in the order of declaration, whatever else it declares, whatever is
refused and whatever happens in the scopes inside it. So two variables of one scope never share a
slot, and the fields of a class lie where their position says. -/

namespace MicroJava

/-- Address and level of a variable. -/
def EntityKind.slot? : EntityKind → Option (Nat × Nat)
  | .var adr level => some (adr, level)
  | .constant _ | .typeName | .method _ | .program | .unknown => none

/-- Scopes from the inside outwards, each with the number of scopes from the outermost up to it. -/
def layers {α : Type} : List α → List (Nat × α)
  | [] => []
  | scope :: outer => (outer.length + 1, scope) :: layers outer

theorem exists_of_mem_layers {α β : Type} {R : α → β → Prop} {as : List α} {bs : List β}
    (h : List.Forall₂ R as bs) {depth : Nat} {a : α} (ha : (depth, a) ∈ layers as) :
    ∃ b, (depth, b) ∈ layers bs ∧ R a b := by
  induction h with
  | nil => cases ha
  | @cons a' b' as bs hab htail ih =>
      rw [layers, List.mem_cons] at ha
      rcases ha with heq | ha
      · cases heq
        refine ⟨b', ?_, hab⟩
        rw [layers, htail.length_eq]
        exact List.mem_cons_self ..
      · obtain ⟨b, hb, hR⟩ := ih ha
        exact ⟨b, List.mem_cons_of_mem _ hb, hR⟩

theorem eq_of_nodup_filterMap {α β : Type} {f : α → Option β} {as : List α}
    (h : (as.filterMap f).Nodup) {a a' : α} (ha : a ∈ as) (ha' : a' ∈ as) {b : β}
    (hb : f a = some b) (hb' : f a' = some b) : a = a' := by
  have hsymm : Std.Symm fun a a' => ∀ b, f a = some b → ∀ b', f a' = some b' → b ≠ b' :=
    ⟨fun _ _ hne b hb b' hb' heq => hne b' hb' b hb heq.symm⟩
  by_contra hne
  exact (List.pairwise_filterMap.1 h).forall ha ha' hne b hb b hb' rfl

/-! ## Numbers in a stack of name maps -/

namespace Declared

theorem isVar_eq (d : Declared) : d.isVar = d.entity.kind.slot?.isSome := by
  rw [isVar]
  cases d.entity.kind <;> rfl

/-- The variables are numbered from zero in the order of declaration, all at the level of a scope
that is one of `depth` open ones. -/
def Numbered (depth : Nat) (ds : List Declared) : Prop :=
  ds.filterMap (fun d => d.entity.kind.slot?) =
    (List.range (ds.countP isVar)).map fun adr => (adr, depth - 2)

theorem Numbered.append {depth : Nat} {ds : List Declared} (h : Numbered depth ds) {d : Declared}
    (hd : ∀ slot, d.entity.kind.slot? = some slot → slot = (ds.countP isVar, depth - 2)) :
    Numbered depth (ds ++ [d]) := by
  rw [Numbered, List.filterMap_append, h, List.countP_append, List.countP_singleton, isVar_eq]
  cases hslot : d.entity.kind.slot? with
  | none => simp [hslot]
  | some slot => simp [hslot, hd slot hslot, List.range_succ]

theorem lookup_of_mem {ds : List Declared} (hdistinct : (ds.map (·.name)).Nodup) {d : Declared}
    (hd : d ∈ ds) : lookup d.name ds = some d := by
  cases h : lookup d.name ds with
  | none => exact absurd ⟨d, hd, rfl⟩ (lookup_eq_none.1 h)
  | some found =>
      obtain ⟨hmem, hname⟩ := name_of_lookup h
      rw [List.inj_on_of_nodup_map hdistinct hmem hd hname]

end Declared

namespace ScopeStack

def Numbered (st : ScopeStack) : Prop :=
  ∀ depth ds, (depth, ds) ∈ layers (st.inner :: st.outer) → Declared.Numbered depth ds

variable {st : ScopeStack}

theorem initial_numbered : initial.Numbered := by
  intro depth ds hds
  have houter : initial.outer = [] := rfl
  obtain ⟨rfl, rfl⟩ : depth = 1 ∧ ds = initial.inner := by simpa [layers, houter] using hds
  rfl

theorem slot_newEntity {form : Form} {name : String} {ty : Ty} {slot : Nat × Nat}
    (h : (st.newEntity form name ty).kind.slot? = some slot) :
    slot = (st.inner.countP Declared.isVar, st.outer.length - 1) := by
  cases form with
  | var => exact (Option.some.inj h).symm
  | constant | typeName | method | program => cases h

theorem Numbered.insert (h : st.Numbered) (form : Form) (name : String) (ty : Ty) :
    (st.insert form name ty).Numbered := by
  rw [ScopeStack.insert]
  split
  · exact h
  · intro depth ds hds
    rw [layers, List.mem_cons] at hds
    rcases hds with heq | hds
    · cases heq
      have hinner := h _ _ (List.mem_cons_self ..)
      exact hinner.append fun slot hslot => slot_newEntity hslot
    · exact h depth ds (List.mem_cons_of_mem _ hds)

theorem Numbered.perform (h : st.Numbered) (op : NameOp) : (st.perform op).Numbered := by
  cases op with
  | openScope =>
      intro depth ds hds
      rcases List.mem_cons.1 hds with heq | hds
      · cases heq
        rfl
      · exact h depth ds hds
  | closeScope =>
      obtain ⟨inner, outer, used⟩ := st
      cases outer with
      | nil => exact h
      | cons scope outer => exact fun depth ds hds => h depth ds (List.mem_cons_of_mem _ hds)
  | insert form name ty => exact h.insert form name ty

theorem Numbered.performAll (h : st.Numbered) (ops : List NameOp) :
    (st.performAll ops).Numbered := by
  induction ops generalizing st with
  | nil => exact h
  | cons op ops ih => exact ih (h.perform op)

end ScopeStack

/-! ## Scopes of a table -/

namespace NameTable

/-- The entities that the scope declares, in order. -/
def declaredIn (t : NameTable) (s : Scope) : List Entity := s.locals.toList.map t.entity

/-- The open scopes, each with the number of open scopes up to it. -/
def openScopes (t : NameTable) : List (Nat × Scope) := layers (t.current :: t.enclosing)

/-- The scope that an operation closes, with the number of scopes that were open. -/
def closed? (t : NameTable) : NameOp → Option (Nat × Scope)
  | .closeScope => t.closeScope?.map fun (s, _) => (t.depth, s)
  | .openScope | .insert _ _ _ => none

/-- The scopes that the operations close, in order. -/
def closedScopes (t : NameTable) : List NameOp → List (Nat × Scope)
  | [] => []
  | op :: ops => (t.closed? op).toList ++ (t.perform op).closedScopes ops

end NameTable

/-- List, map and count of the scope agree, its names are distinct, and its variables are numbered
in the order of declaration. When names are declared in it, `depth` scopes are open. -/
structure Scope.LaidOut (t : NameTable) (depth : Nat) (s : Scope) : Prop where
  stored : ∀ id ∈ s.locals, t.hasEntity id = true
  distinct : ((t.declaredIn s).map (·.name)).Nodup
  ids : ∀ (name : String) id,
    s.ids[name]? = some id ↔ id ∈ s.locals ∧ (t.entity id).name = name
  varCount : s.varCount = (t.declaredIn s).countP fun e => e.kind.slot?.isSome
  slots : (t.declaredIn s).filterMap (fun e => e.kind.slot?) =
    (List.range s.varCount).map fun adr => (adr, depth - 2)

namespace Scope

variable {t t' : NameTable} {depth : Nat} {s : Scope} {ds : List Declared}

theorem Holds.declaredIn (h : s.Holds t.entities ds) : t.declaredIn s = ds.map (·.entity) := by
  rw [NameTable.declaredIn, h.locals, List.map_map]
  exact List.map_congr_left fun d hd => NameTable.entity_eq (h.stored d hd)

theorem Holds.mem_locals (h : s.Holds t.entities ds) {id : EntityId} :
    id ∈ s.locals ↔ ∃ d ∈ ds, d.id = id := by
  rw [← Array.mem_toList_iff, h.locals, List.mem_map]

/-- The declarations of a scope stay in the store. -/
theorem Holds.extends (h : s.Holds t.entities ds) (ht : t.Extends t') :
    s.Holds t'.entities ds :=
  { h with stored := fun d hd => ht _ _ (h.stored d hd) }

theorem Holds.laidOut (h : s.Holds t.entities ds) (hn : Declared.Numbered depth ds) :
    s.LaidOut t depth := by
  constructor
  case stored =>
    intro id hid
    obtain ⟨d, hd, rfl⟩ := h.mem_locals.1 hid
    exact decide_eq_true (Array.getElem?_eq_some_iff.1 (h.stored d hd)).1
  case distinct =>
    rw [h.declaredIn, List.map_map]
    exact h.distinct
  case ids =>
    intro name id
    rw [h.ids, Option.map_eq_some_iff, h.mem_locals]
    constructor
    · rintro ⟨d, hd, rfl⟩
      obtain ⟨hmem, hname⟩ := Declared.name_of_lookup hd
      exact ⟨⟨d, hmem, rfl⟩, (NameTable.entity_eq (h.stored d hmem)).symm ▸ hname⟩
    · rintro ⟨⟨d, hd, rfl⟩, rfl⟩
      rw [NameTable.entity_eq (h.stored d hd)]
      exact ⟨d, Declared.lookup_of_mem h.distinct hd, rfl⟩
  case varCount =>
    rw [h.varCount, h.declaredIn, List.countP_map]
    exact List.countP_congr fun d _ => by rw [Declared.isVar_eq]; rfl
  case slots =>
    rw [h.varCount, h.declaredIn, List.filterMap_map]
    exact hn

namespace LaidOut

theorem mem_declaredIn {id : EntityId} (hid : id ∈ s.locals) : t.entity id ∈ t.declaredIn s :=
  List.mem_map_of_mem (Array.mem_toList_iff.2 hid)

/-- Addresses are below the number of variables, and all variables are at the level of the scope. -/
theorem slot_lt (h : s.LaidOut t depth) {id : EntityId} (hid : id ∈ s.locals) {adr level : Nat}
    (hvar : (t.entity id).kind = .var adr level) : adr < s.varCount ∧ level = depth - 2 := by
  have hmem : (adr, level) ∈ (t.declaredIn s).filterMap fun e => e.kind.slot? :=
    List.mem_filterMap.2 ⟨_, mem_declaredIn hid, by rw [hvar]; rfl⟩
  rw [h.slots, List.mem_map] at hmem
  obtain ⟨a, ha, heq⟩ := hmem
  cases heq
  exact ⟨List.mem_range.1 ha, rfl⟩

/-- Variables of one scope with the same address are the same. -/
theorem eq_of_slot (h : s.LaidOut t depth) {id id' : EntityId} (hid : id ∈ s.locals)
    (hid' : id' ∈ s.locals) {adr level level' : Nat} (hvar : (t.entity id).kind = .var adr level)
    (hvar' : (t.entity id').kind = .var adr level') : id = id' := by
  have hnodup : (s.locals.toList.filterMap fun id => (t.entity id).kind.slot?).Nodup := by
    have hslots := h.slots
    rw [NameTable.declaredIn, List.filterMap_map] at hslots
    exact hslots ▸ List.Nodup.map (fun a b heq => (Prod.mk.inj heq).1) List.nodup_range
  obtain rfl : level' = level := by rw [(h.slot_lt hid hvar).2, (h.slot_lt hid' hvar').2]
  exact eq_of_nodup_filterMap hnodup (Array.mem_toList_iff.2 hid) (Array.mem_toList_iff.2 hid')
    (by rw [hvar]; rfl) (by rw [hvar']; rfl)

/-- In a scope with variables only, the address of each is its position. -/
theorem kind_getElem (h : s.LaidOut t depth) (hvars : ∀ id ∈ s.locals, (t.entity id).kind.IsVar)
    {i : Nat} (hi : i < s.locals.size) :
    (t.entity s.locals[i]).kind = .var i (depth - 2) := by
  -- nothing is left out where there are only variables
  have hall : (t.declaredIn s).filterMap (fun e => e.kind.slot?) =
      (t.declaredIn s).map fun e => e.kind.slot?.getD (0, 0) := by
    rw [List.filterMap_eq_map_iff_forall_eq_some]
    intro e he
    obtain ⟨id, hid, rfl⟩ := List.mem_map.1 he
    obtain ⟨adr, level, hkind⟩ := (hvars id (Array.mem_toList_iff.1 hid)).exists_eq
    rw [hkind]
    rfl
  have hcount : s.varCount = s.locals.size := by
    have hlength := congrArg List.length (hall.symm.trans h.slots)
    simpa [NameTable.declaredIn] using hlength.symm
  have hat := congrArg (·[i]?) (hall.symm.trans h.slots)
  obtain ⟨adr, level, hkind⟩ := (hvars _ (Array.getElem_mem hi)).exists_eq
  have hslot : (adr, level) = (i, depth - 2) := by
    simpa [NameTable.declaredIn, hi, hcount, hkind, EntityKind.slot?] using hat
  cases hslot
  exact hkind

/-- Where the locals of a scope are the fields of a class, each name leads to the field that has
it. -/
theorem findField (h : s.LaidOut t depth) {cls : ClassId}
    (hfields : (t.classInfo cls).fields = s.locals) {i : Nat} (hi : i < s.locals.size) :
    t.findField cls (t.entity s.locals[i]).name = .ok s.locals[i] := by
  have hmem : s.locals[i] ∈ s.locals := Array.getElem_mem hi
  have hnames : (s.locals.toList.map fun id => (t.entity id).name).Nodup := by
    have hdistinct := h.distinct
    rwa [NameTable.declaredIn, List.map_map] at hdistinct
  simp only [NameTable.findField, hfields]
  cases hfind : s.locals.find? fun id => (t.entity id).name == (t.entity s.locals[i]).name with
  | none => exact absurd (beq_self_eq_true _) (Array.find?_eq_none.1 hfind _ hmem)
  | some found =>
      have hfound := Array.mem_of_find?_eq_some hfind
      have hname : (t.entity found).name = (t.entity s.locals[i]).name := by
        simpa using Array.find?_some hfind
      exact congrArg Except.ok (List.inj_on_of_nodup_map hnames (Array.mem_toList_iff.2 hfound)
        (Array.mem_toList_iff.2 hmem) hname)

end LaidOut

end Scope

/-! ## After any operations -/

namespace NameTable

variable {t t' : NameTable} {depth : Nat} {s : Scope}

theorem performAll_append (t : NameTable) (before after : List NameOp) :
    t.performAll (before ++ after) = (t.performAll before).performAll after :=
  List.foldl_append ..

/-- A scope that is closed was open before. -/
theorem mem_openScopes_of_closed {ops : List NameOp} (h : (depth, s) ∈ t.closedScopes ops) :
    ∃ before after, ops = before ++ after ∧ (depth, s) ∈ (t.performAll before).openScopes := by
  induction ops generalizing t with
  | nil => cases h
  | cons op ops ih =>
      rw [closedScopes, List.mem_append, Option.mem_toList] at h
      rcases h with h | h
      · refine ⟨[], op :: ops, rfl, ?_⟩
        cases op with
        | openScope | insert => cases h
        | closeScope =>
            obtain ⟨entities, classes, current, enclosing⟩ := t
            cases enclosing with
            | nil => cases h
            | cons outer rest =>
                cases h
                exact List.mem_cons_self ..
      · obtain ⟨before, after, rfl, hmem⟩ := ih h
        exact ⟨op :: before, after, rfl, hmem⟩

theorem exists_open {ops : List NameOp}
    (hs : (depth, s) ∈ (t.performAll ops).openScopes ++ t.closedScopes ops) :
    ∃ before after, ops = before ++ after ∧ (depth, s) ∈ (t.performAll before).openScopes := by
  rcases List.mem_append.1 hs with hopen | hclosed
  · exact ⟨ops, [], (List.append_nil ops).symm, hopen⟩
  · exact mem_openScopes_of_closed hclosed

/-- What is declared in a scope that is open at some time can be told from then on. -/
theorem exists_holds {ops : List NameOp}
    (hs : (depth, s) ∈ (initial.performAll ops).openScopes ++ initial.closedScopes ops) :
    ∃ ds, s.Holds (initial.performAll ops).entities ds ∧ Declared.Numbered depth ds := by
  obtain ⟨before, after, rfl, hmem⟩ := exists_open hs
  have hrefines := initial_refines.performAll before
  obtain ⟨ds, hds, hholds⟩ := exists_of_mem_layers hrefines.scopes hmem
  rw [performAll_append]
  exact ⟨ds, hholds.extends (extends_performAll _ after),
    ScopeStack.initial_numbered.performAll before depth ds hds⟩

theorem Extends.size_le (h : t.Extends t') : t.entities.size ≤ t'.entities.size := by
  by_contra hlt
  have hin : t'.entities.size < t.entities.size := Nat.lt_of_not_le hlt
  have hsome := h _ _ (Array.getElem?_eq_getElem hin)
  rw [Array.getElem?_eq_none (Nat.le_refl _)] at hsome
  cases hsome

/-- Only what is declared is exposed anew. -/
theorem Exposes.of_perform {op : NameOp} {id : EntityId} (h : (t.perform op).Exposes id) :
    t.Exposes id ∨ t.entities.size ≤ id.index := by
  cases op with
  | openScope => exact .inl h.of_openScope
  | closeScope => exact .inl h.of_closeScope
  | insert form name ty => exact h.of_insert.imp_right fun hid => Nat.le_of_eq hid.symm

theorem Exposes.of_performAll {ops : List NameOp} {id : EntityId}
    (h : (t.performAll ops).Exposes id) : t.Exposes id ∨ t.entities.size ≤ id.index := by
  induction ops generalizing t with
  | nil => exact .inl h
  | cons op ops ih =>
      rcases ih h with h | hid
      · exact h.of_perform
      · exact .inr (Nat.le_trans (extends_perform t op).size_le hid)

theorem exposes_of_mem_layers {scopes : List Scope} {id : EntityId}
    (hs : (depth, s) ∈ layers scopes) (hid : id ∈ s.locals) : ∃ s ∈ scopes, id ∈ s.locals := by
  induction scopes with
  | nil => cases hs
  | cons scope outer ih =>
      rcases List.mem_cons.1 hs with heq | hs
      · cases heq
        exact ⟨s, List.mem_cons_self .., hid⟩
      · obtain ⟨s, hs, hid⟩ := ih hs
        exact ⟨s, List.mem_cons_of_mem _ hs, hid⟩

/-- The parameters of the predeclared methods are the only variables at the start, and they are in
no scope. -/
theorem slot_initial {ops : List NameOp} {id : EntityId}
    (hs : (depth, s) ∈ (initial.performAll ops).openScopes ++ initial.closedScopes ops)
    (hid : id ∈ s.locals) : (initial.entity id).kind.slot? = none := by
  obtain ⟨before, after, rfl, hmem⟩ := exists_open hs
  have hexposed : (initial.performAll before).Exposes id := .inl (exposes_of_mem_layers hmem hid)
  rcases hexposed.of_performAll with (⟨s, hs, hid⟩ | ⟨info, hinfo, -⟩) | hid
  · obtain rfl := List.mem_singleton.1 hs
    have hall : ∀ id ∈ outermost.locals, (initial.entity id).kind.slot? = none := by decide
    exact hall id hid
  · exact absurd hinfo (Array.not_mem_empty info)
  · have hunknown : initial.entity id = .unknown := by
      rw [entity, Array.getD_eq_getD_getElem?, Array.getElem?_eq_none hid]
      rfl
    rw [hunknown]
    rfl

/-- An operation leaves the variables alone or declares one. -/
theorem var_perform {op : NameOp} {id : EntityId} {adr level : Nat}
    (h : ((t.perform op).entity id).kind = .var adr level) :
    (t.entity id).kind = .var adr level ∨
      ∃ name ty, op = .insert .var name ty ∧ (t.insert .var name ty).1 = .ok id ∧
        level = t.depth - 2 := by
  cases op with
  | openScope => exact .inl h
  | closeScope =>
      obtain ⟨entities, classes, current, enclosing⟩ := t
      cases enclosing <;> exact .inl h
  | insert form name ty =>
      rw [perform, insert] at h
      split at h
      · exact .inl h
      · next hfree =>
          rw [entity_push] at h
          split at h
          · next hid =>
              cases form with
              | var =>
                  obtain ⟨-, rfl⟩ := EntityKind.var.inj h
                  exact .inr ⟨name, ty, rfl, by rw [insert, if_neg hfree, ← hid], rfl⟩
              | constant | typeName | method | program => cases h
          · exact .inl h

/-- Every variable that was not there before goes back to a declaration, and its level tells how
many scopes were open then. -/
theorem exists_insert_of_var {ops : List NameOp} {id : EntityId} {adr level : Nat}
    (hnone : (initial.entity id).kind.slot? = none)
    (h : ((initial.performAll ops).entity id).kind = .var adr level) :
    ∃ before name ty after, ops = before ++ .insert .var name ty :: after ∧
      ((initial.performAll before).insert .var name ty).1 = .ok id ∧
      level = (initial.performAll before).depth - 2 := by
  induction ops using List.reverseRecOn with
  | nil =>
      have hvar : (initial.entity id).kind = .var adr level := h
      rw [hvar] at hnone
      cases hnone
  | append_singleton ops op ih =>
      rw [performAll_append] at h
      rcases var_perform h with h | ⟨name, ty, rfl, hok, hlevel⟩
      · obtain ⟨before, name, ty, after, rfl, hdeclared⟩ := ih h
        exact ⟨before, name, ty, after ++ [op], by simp, hdeclared⟩
      · exact ⟨ops, name, ty, [], rfl, hok, hlevel⟩

/-- A class takes its fields from the innermost scope. -/
theorem fields_setFields (cls : ClassId) (h : t.hasClass cls = true) :
    ((t.setFields cls).classInfo cls).fields = t.current.locals := by
  have hcls : cls.index < t.classes.size := of_decide_eq_true h
  simp [setFields, classInfo, hcls, Array.getElem_modify]

/-- Every scope that the operations leave open or close is laid out; its variables go back to
declarations, and where its locals became the fields of a class, each field is found at its
position. -/
theorem performAll_laidOut (ops : List NameOp) {depth : Nat} {s : Scope}
    (hs : (depth, s) ∈ (initial.performAll ops).openScopes ++ initial.closedScopes ops) :
    s.LaidOut (initial.performAll ops) depth ∧
      (∀ id ∈ s.locals, ∀ id' ∈ s.locals, ∀ adr level adr' level',
        ((initial.performAll ops).entity id).kind = .var adr level →
        ((initial.performAll ops).entity id').kind = .var adr' level' →
          adr < s.varCount ∧ (adr = adr' → id = id')) ∧
      (∀ id ∈ s.locals, ∀ adr level, ((initial.performAll ops).entity id).kind = .var adr level →
        ∃ before name ty after, ops = before ++ .insert .var name ty :: after ∧
          ((initial.performAll before).insert .var name ty).1 = .ok id ∧
          level = (initial.performAll before).depth - 2) ∧
      ∀ t' cls, (initial.performAll ops).Extends t' → (t'.classInfo cls).fields = s.locals →
        (∀ id ∈ s.locals, (t'.entity id).kind.IsVar) → ∀ i (hi : i < s.locals.size),
          t'.findField cls (t'.entity s.locals[i]).name = .ok s.locals[i] ∧
            (t'.entity s.locals[i]).kind = .var i (depth - 2) ∧
            i < (t'.classInfo cls).fields.size := by
  obtain ⟨ds, hholds, hnumbered⟩ := exists_holds hs
  have hlaid := hholds.laidOut hnumbered
  refine ⟨hlaid, ?_, fun id hid adr level hvar =>
    exists_insert_of_var (slot_initial hs hid) hvar, ?_⟩
  · intro id hid id' hid' adr level adr' level' hvar hvar'
    refine ⟨(hlaid.slot_lt hid hvar).1, ?_⟩
    rintro rfl
    exact hlaid.eq_of_slot hid hid' hvar hvar'
  · intro t' cls ht hfields hvars i hi
    have hlaid' := (hholds.extends ht).laidOut hnumbered
    exact ⟨hlaid'.findField hfields hi, hlaid'.kind_getElem hvars hi, hfields ▸ hi⟩

/-- A scope with a constant and a refused declaration, and in it one with variables only. -/
def framed : List NameOp :=
  [.openScope, .insert .var "a" .int, .insert .constant "k" .int, .insert .var "b" .int,
    .insert .var "a" .char, .openScope, .insert .var "x" .int, .insert .var "y" .int]

/-- The innermost scope gives a class its fields and is closed. -/
def framedClass : NameTable :=
  (((initial.performAll framed).newClass "Point").2.setFields ⟨0⟩).closeScope

theorem performAll_laidOut_framed :
    (3, (initial.performAll framed).current) ∈
        (initial.performAll framed).openScopes ++ initial.closedScopes framed ∧
      (initial.performAll framed).current.locals = #[⟨12⟩, ⟨13⟩] ∧
      (initial.performAll framed).current.ids["x"]? = some ⟨12⟩ ∧
      framedClass.findField ⟨0⟩ "y" = .ok ⟨13⟩ ∧
      (framedClass.entity ⟨13⟩).kind = .var 1 1 := by
  have hmem : (3, (initial.performAll framed).current) ∈
      (initial.performAll framed).openScopes ++ initial.closedScopes framed :=
    List.mem_append_left _ (List.mem_cons_self ..)
  have hlocals : (initial.performAll framed).current.locals = #[⟨12⟩, ⟨13⟩] := rfl
  obtain ⟨hlaid, -, -, hfields⟩ := performAll_laidOut framed hmem
  have hx := (hlaid.ids "x" ⟨12⟩).2 ⟨by simp [hlocals], rfl⟩
  have hvars : ∀ id ∈ (initial.performAll framed).current.locals,
      (framedClass.entity id).kind.IsVar := by
    rw [hlocals]
    intro id hid
    obtain rfl | rfl : id = ⟨12⟩ ∨ id = ⟨13⟩ := by simpa using hid
    · trivial
    · trivial
  obtain ⟨hfind, hkind, -⟩ :=
    hfields framedClass ⟨0⟩ (fun _ _ h => h) (fields_setFields ⟨0⟩ rfl) hvars 1
      (by rw [hlocals]; decide)
  exact ⟨hmem, hlocals, hx, hfind, hkind⟩

end NameTable

end MicroJava
