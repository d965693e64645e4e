import Mathlib.Data.List.Forall2
import MicroJava.Proofs.Names.Handles

/-! # The table as a stack of name maps

A table keeps every scope three times over, as a list, as a map and as a count, above a store that
all scopes share. What it answers is what a plain stack of lists of declarations answers, whatever
scopes were opened and closed and whatever was declared or refused before. -/

namespace MicroJava

/-- What is done to a table while names are declared. -/
inductive NameOp where
  | openScope
  | closeScope
  | insert (form : Form) (name : String) (ty : Ty)
  deriving DecidableEq, Repr

namespace NameTable

def perform (t : NameTable) : NameOp → NameTable
  | .openScope => t.openScope
  | .closeScope => t.closeScope
  | .insert form name ty => (t.insert form name ty).2

def performAll (t : NameTable) (ops : List NameOp) : NameTable := ops.foldl perform t

end NameTable

/-! ## Stacks of name maps -/

/-- An entity and the handle that its declaration got. -/
structure Declared where
  id : EntityId
  entity : Entity
  deriving DecidableEq, Repr

namespace Declared

def name (d : Declared) : String := d.entity.name

def isVar (d : Declared) : Bool :=
  match d.entity.kind with
  | .var _ _ => true
  | _ => false

/-- What a scope declares under a name. -/
def lookup (name : String) (scope : List Declared) : Option Declared :=
  scope.find? fun d => d.name == name

end Declared

/-- The open scopes, each with its declarations in order. -/
structure ScopeStack where
  inner : List Declared
  /-- From the inside outwards. -/
  outer : List (List Declared)
  /-- Number of handles given out. -/
  used : Nat
  deriving DecidableEq, Repr

namespace ScopeStack

def openScope (st : ScopeStack) : ScopeStack :=
  { st with inner := [], outer := st.inner :: st.outer }

/-- The outermost scope stays. -/
def closeScope (st : ScopeStack) : ScopeStack :=
  match st.outer with
  | [] => st
  | scope :: outer => { st with inner := scope, outer }

/-- What a declaration in the innermost scope makes of a name. Variables are numbered by scope. -/
def newEntity (st : ScopeStack) (form : Form) (name : String) (ty : Ty) : Entity :=
  match form with
  | .constant => ⟨name, .constant 0, ty⟩
  | .var => ⟨name, .var (st.inner.countP Declared.isVar) (st.outer.length - 1), ty⟩
  | .typeName => ⟨name, .typeName, ty⟩
  | .method => ⟨name, .method {}, ty⟩
  | .program => ⟨name, .program, ty⟩

/-- The innermost scope declares the name. -/
def Declares (st : ScopeStack) (name : String) : Prop := ∃ d ∈ st.inner, d.name = name

instance (st : ScopeStack) (name : String) : Decidable (st.Declares name) :=
  inferInstanceAs (Decidable (∃ d ∈ st.inner, d.name = name))

def insert (st : ScopeStack) (form : Form) (name : String) (ty : Ty) : ScopeStack :=
  if st.Declares name then st
  else
    { st with
      inner := st.inner ++ [⟨⟨st.used⟩, st.newEntity form name ty⟩]
      used := st.used + 1 }

/-- Completes a method of the innermost scope. -/
def complete (st : ScopeStack) (id : EntityId) (callee : Callee) : ScopeStack :=
  { st with inner := st.inner.map fun d =>
      if d.id = id then ⟨d.id, { d.entity with kind := .method callee }⟩ else d }

/-- Declares a method that is always there. Its parameter is in a scope that is left at once. -/
def predeclareMethod (st : ScopeStack) (b : Builtin) : ScopeStack :=
  let declared := st.insert .method b.name b.result
  let left := (declared.openScope.insert .var b.paramName b.paramType).closeScope
  left.complete ⟨st.used⟩
    { paramCount := 1, locals := #[⟨declared.used⟩], builtin := some b }

/-- One handle has been given out, to what stands in for unknown names. -/
def empty : ScopeStack := ⟨[], [], 1⟩

/-- Before any declaration of a program. -/
def initial : ScopeStack :=
  ((((empty.insert .typeName "int" .int).insert .typeName "char" .char).predeclareMethod
    .ord).predeclareMethod .chr).predeclareMethod .len

/-- What the innermost scope that declares the name declares it as. -/
def find? (st : ScopeStack) (name : String) : Option Declared :=
  (st.inner :: st.outer).findSome? (Declared.lookup name)

def perform (st : ScopeStack) : NameOp → ScopeStack
  | .openScope => st.openScope
  | .closeScope => st.closeScope
  | .insert form name ty => st.insert form name ty

def performAll (st : ScopeStack) (ops : List NameOp) : ScopeStack := ops.foldl perform st

end ScopeStack

/-! ## Refinement -/

/-- The list, the map and the count of the scope agree with its declarations, which are distinct and
in the store. -/
structure Scope.Holds (entities : Array Entity) (s : Scope) (ds : List Declared) : Prop where
  locals : s.locals.toList = ds.map (·.id)
  ids : ∀ name : String, s.ids[name]? = (Declared.lookup name ds).map (·.id)
  varCount : s.varCount = ds.countP Declared.isVar
  stored : ∀ d ∈ ds, entities[d.id.index]? = some d.entity
  distinct : (ds.map (·.name)).Nodup

structure NameTable.Refines (t : NameTable) (st : ScopeStack) : Prop where
  scopes : List.Forall₂ (Scope.Holds t.entities) (t.current :: t.enclosing) (st.inner :: st.outer)
  used : t.entities.size = st.used

theorem Scope.Holds.push {entities : Array Entity} {s : Scope} {ds : List Declared}
    (h : s.Holds entities ds) (e : Entity) : s.Holds (entities.push e) ds := by
  refine { h with stored := fun d hd => ?_ }
  obtain ⟨hlt, hentity⟩ := Array.getElem?_eq_some_iff.1 (h.stored d hd)
  rw [Array.getElem?_push_lt hlt, hentity]

namespace Declared

theorem lookup_eq_none {name : String} {ds : List Declared} :
    lookup name ds = none ↔ ¬ ∃ d ∈ ds, d.name = name := by
  simp [lookup]

theorem name_of_lookup {name : String} {ds : List Declared} {d : Declared}
    (h : lookup name ds = some d) : d ∈ ds ∧ d.name = name :=
  ⟨List.mem_of_find?_eq_some h, by simpa using List.find?_some h⟩

/-- The same map, as pairs of names and handles. -/
theorem lookup_pairs (name : String) (ds : List Declared) :
    (ds.map fun d => (d.name, d.id)).lookup name = (lookup name ds).map (·.id) := by
  induction ds with
  | nil => rfl
  | cons d ds ih =>
      rw [List.map_cons, List.lookup_cons, lookup, List.find?_cons, BEq.comm, ih]
      cases d.name == name <;> rfl

theorem lookup_append (name : String) (ds : List Declared) (d : Declared) :
    lookup name (ds ++ [d]) = (lookup name ds).or (if d.name = name then some d else none) := by
  simp only [lookup, List.find?_append, List.find?_singleton, beq_iff_eq]

end Declared

/-- A new declaration goes to the end of the list, into the map and into the store. -/
theorem Scope.Holds.insert {entities : Array Entity} {s : Scope} {ds : List Declared}
    (h : s.Holds entities ds) {e : Entity} (hfree : ¬ ∃ d ∈ ds, d.name = e.name) :
    Scope.Holds (entities.push e)
      { locals := s.locals.push ⟨entities.size⟩
        ids := s.ids.insert e.name ⟨entities.size⟩
        varCount := s.varCount + if Declared.isVar ⟨⟨entities.size⟩, e⟩ then 1 else 0 }
      (ds ++ [⟨⟨entities.size⟩, e⟩]) := by
  have hnew : Declared.lookup e.name ds = none := Declared.lookup_eq_none.2 hfree
  refine ⟨?_, ?_, ?_, ?_, ?_⟩
  · simp [h.locals]
  · intro name
    rw [Std.TreeMap.getElem?_insert, Declared.lookup_append, h.ids]
    by_cases hname : e.name = name
    · subst hname
      simp [hnew, Declared.name]
    · simp [hname, Declared.name]
  · simp [h.varCount, List.countP_append, List.countP_singleton]
  · intro d hd
    rcases List.mem_append.1 hd with hd | hd
    · exact (h.push e).stored d hd
    · obtain rfl := List.mem_singleton.1 hd
      exact Array.getElem?_push_size
  · rw [List.map_append, List.nodup_append]
    refine ⟨h.distinct, by simp, ?_⟩
    intro name hname other hother
    obtain ⟨d, hd, rfl⟩ := List.mem_map.1 hname
    obtain rfl := List.mem_singleton.1 hother
    exact fun heq => hfree ⟨d, hd, heq⟩

namespace NameTable

variable {t : NameTable} {st : ScopeStack}

theorem Refines.inner (h : t.Refines st) : t.current.Holds t.entities st.inner :=
  (List.forall₂_cons.1 h.scopes).1

theorem Refines.outer (h : t.Refines st) :
    List.Forall₂ (Scope.Holds t.entities) t.enclosing st.outer :=
  (List.forall₂_cons.1 h.scopes).2

theorem Refines.level (h : t.Refines st) : t.level = st.outer.length - 1 := by
  rw [NameTable.level, h.outer.length_eq]

theorem Refines.newEntity (h : t.Refines st) (form : Form) (name : String) (ty : Ty) :
    t.newEntity form name ty = st.newEntity form name ty := by
  cases form with
  | var => rw [NameTable.newEntity, ScopeStack.newEntity, h.inner.varCount, h.level]
  | constant | typeName | method | program => rfl

theorem Refines.contains (h : t.Refines st) (name : String) :
    t.current.ids.contains name ↔ st.Declares name := by
  rw [← Std.TreeMap.mem_iff_contains, Std.TreeMap.mem_iff_isSome_getElem?, h.inner.ids,
    Option.isSome_map, Option.isSome_iff_ne_none, ne_eq, Declared.lookup_eq_none, not_not]
  rfl

theorem Refines.openScope (h : t.Refines st) : t.openScope.Refines st.openScope := by
  refine ⟨.cons ⟨rfl, ?_, rfl, nofun, .nil⟩ h.scopes, h.used⟩
  intro name
  exact Std.TreeMap.getElem?_emptyc

theorem Refines.closeScope (h : t.Refines st) : t.closeScope.Refines st.closeScope := by
  obtain ⟨entities, classes, current, enclosing⟩ := t
  obtain ⟨inner, outer, used⟩ := st
  cases h.outer with
  | nil => exact h
  | cons hscope houter => exact ⟨.cons hscope houter, h.used⟩

theorem Refines.insert (h : t.Refines st) (form : Form) (name : String) (ty : Ty) :
    (t.insert form name ty).2.Refines (st.insert form name ty) := by
  rw [NameTable.insert, ScopeStack.insert]
  by_cases hdeclared : st.Declares name
  · rw [if_pos ((h.contains name).2 hdeclared), if_pos hdeclared]
    exact h
  · rw [if_neg (fun hc => hdeclared ((h.contains name).1 hc)), if_neg hdeclared]
    have hname : (t.newEntity form name ty).name = name := by cases form <;> rfl
    have hslots : Declared.isVar ⟨⟨t.entities.size⟩, t.newEntity form name ty⟩ =
        decide (form = .var) := by cases form <;> rfl
    have hinner := h.inner.insert (hname ▸ hdeclared)
    rw [hname, hslots, h.newEntity, h.used] at hinner
    refine ⟨.cons ?_ ?_, ?_⟩
    · simpa [h.newEntity, h.used] using hinner
    · exact h.outer.imp fun s ds hs => hs.push _
    · simp [h.used]

theorem Refines.insert_fst (h : t.Refines st) (form : Form) (name : String) (ty : Ty) :
    (t.insert form name ty).1 =
      if st.Declares name then .error (.declaredTwice name) else .ok ⟨st.used⟩ := by
  by_cases hdeclared : st.Declares name
  · rw [NameTable.insert, if_pos ((h.contains name).2 hdeclared), if_pos hdeclared]
  · rw [NameTable.insert, if_neg fun hc => hdeclared ((h.contains name).1 hc), if_neg hdeclared,
      h.used]

theorem Refines.insert_refused (h : t.Refines st) {name : String} (hdeclared : st.Declares name)
    (form : Form) (ty : Ty) : (t.insert form name ty).2 = t := by
  rw [NameTable.insert, if_pos ((h.contains name).2 hdeclared)]

theorem Refines.closeScope_outermost (h : t.Refines st) (houter : st.outer = []) :
    t.closeScope? = none ∧ t.closeScope = t := by
  have hnil := h.outer
  rw [houter, List.forall₂_nil_right_iff] at hnil
  simp [NameTable.closeScope, NameTable.closeScope?, hnil]

theorem Refines.perform (h : t.Refines st) (op : NameOp) :
    (t.perform op).Refines (st.perform op) := by
  cases op with
  | openScope => exact h.openScope
  | closeScope => exact h.closeScope
  | insert form name ty => exact h.insert form name ty

theorem Refines.performAll (h : t.Refines st) (ops : List NameOp) :
    (t.performAll ops).Refines (st.performAll ops) := by
  induction ops generalizing t st with
  | nil => exact h
  | cons op ops ih => exact ih (h.perform op)

theorem initial_refines : initial.Refines ScopeStack.initial := by
  refine ⟨.cons ⟨rfl, ?_, rfl, by decide, by decide⟩ .nil, rfl⟩
  intro name
  exact (getElem?_ids_outermost name).trans (Declared.lookup_pairs name ScopeStack.initial.inner)

theorem findSome?_of_holds {entities : Array Entity} {scopes : List Scope}
    {dss : List (List Declared)} (h : List.Forall₂ (Scope.Holds entities) scopes dss)
    (name : String) : scopes.findSome? (fun s => s.ids[name]?) =
      (dss.findSome? (Declared.lookup name)).map (·.id) := by
  induction h with
  | nil => rfl
  | cons hscope _ ih =>
      rw [List.findSome?_cons, List.findSome?_cons, hscope.ids, ih]
      cases Declared.lookup name _ <;> rfl

theorem Refines.find (h : t.Refines st) (name : String) :
    t.find name = match st.find? name with
      | some d => .ok d.id
      | none => .error (.notDeclared name) := by
  rw [NameTable.find, findSome?_of_holds h.scopes, ScopeStack.find?]
  cases List.findSome? _ _ <;> rfl

theorem stored_of_holds {entities : Array Entity} {scopes : List Scope}
    {dss : List (List Declared)} (h : List.Forall₂ (Scope.Holds entities) scopes dss)
    {ds : List Declared} (hds : ds ∈ dss) {d : Declared} (hd : d ∈ ds) :
    entities[d.id.index]? = some d.entity := by
  induction h with
  | nil => cases hds
  | cons hscope _ ih =>
      rcases List.mem_cons.1 hds with rfl | hds
      · exact hscope.stored d hd
      · exact ih hds

theorem Refines.entity (h : t.Refines st) {name : String} {d : Declared}
    (hd : st.find? name = some d) : d.name = name ∧ t.entities[d.id.index]? = some d.entity := by
  obtain ⟨ds, hds, hlookup⟩ := List.exists_of_findSome?_eq_some hd
  obtain ⟨hmem, hname⟩ := Declared.name_of_lookup hlookup
  exact ⟨hname, stored_of_holds h.scopes hds hmem⟩

/-! ## The outermost scope -/

/-- The scope that is never closed. -/
def bottom (t : NameTable) : Scope := t.enclosing.getLastD t.current

theorem bottom_perform (op : NameOp) {name : String} {id : EntityId}
    (h : t.bottom.ids[name]? = some id) : (t.perform op).bottom.ids[name]? = some id := by
  cases op with
  | openScope =>
      have hsame : t.openScope.bottom = t.bottom := List.getLastD_cons ..
      rwa [perform, hsame]
  | closeScope =>
      obtain ⟨entities, classes, current, enclosing⟩ := t
      cases enclosing with
      | nil => exact h
      | cons outer rest =>
          have hsame : (outer :: rest).getLastD current = rest.getLastD outer :=
            List.getLastD_cons ..
          rwa [bottom, hsame] at h
  | insert form n ty =>
      have hfollow := follows_insert t form n ty
      rw [perform, bottom, hfollow.enclosing]
      rw [bottom] at h
      cases henclosing : t.enclosing with
      | nil =>
          rw [henclosing] at h
          exact hfollow.kept name id h
      | cons outer rest => rwa [henclosing] at h

theorem bottom_performAll (ops : List NameOp) {name : String} {id : EntityId}
    (h : t.bottom.ids[name]? = some id) : (t.performAll ops).bottom.ids[name]? = some id := by
  induction ops generalizing t with
  | nil => exact h
  | cons op ops ih => exact ih (bottom_perform op h)

end NameTable

/-! ## Blocks -/

namespace NameOp

/-- How many scopes the operations leave open, on top of those that are open already. They must not
close any other. -/
def depthAfter : Nat → List NameOp → Option Nat
  | depth, [] => some depth
  | depth, .openScope :: ops => depthAfter (depth + 1) ops
  | 0, .closeScope :: _ => none
  | depth + 1, .closeScope :: ops => depthAfter depth ops
  | depth, .insert _ _ _ :: ops => depthAfter depth ops

/-- The operations close the scopes that they open, and no other. -/
def Balanced (ops : List NameOp) : Prop := depthAfter 0 ops = some 0

instance (ops : List NameOp) : Decidable (Balanced ops) :=
  inferInstanceAs (Decidable (_ = _))

/-- The operations in a scope of their own. -/
def block (ops : List NameOp) : List NameOp := .openScope :: ops ++ [.closeScope]

end NameOp

namespace NameTable

variable {t : NameTable} {st : ScopeStack}

/-- Nothing in the store is ever overwritten. -/
theorem extends_perform (t : NameTable) (op : NameOp) : t.Extends (t.perform op) := by
  cases op with
  | openScope => exact fun _ _ h => h
  | closeScope =>
      obtain ⟨entities, classes, current, enclosing⟩ := t
      cases enclosing <;> exact fun _ _ h => h
  | insert form name ty =>
      rw [perform, insert]
      split
      · exact fun _ _ h => h
      · exact extends_push rfl

theorem extends_performAll (t : NameTable) (ops : List NameOp) : t.Extends (t.performAll ops) := by
  induction ops generalizing t with
  | nil => exact fun _ _ h => h
  | cons op ops ih => exact fun i e h => ih (t.perform op) i e (extends_perform t op i e h)

/-- Scopes below the start are not touched. -/
theorem enclosing_performAll {ops : List NameOp} {base : List Scope} {depth : Nat}
    (above : List Scope) (ht : t.enclosing = above ++ base)
    (h : NameOp.depthAfter above.length ops = some depth) :
    ∃ above', (t.performAll ops).enclosing = above' ++ base ∧ above'.length = depth := by
  induction ops generalizing t above with
  | nil => exact ⟨above, ht, Option.some.inj h⟩
  | cons op ops ih =>
      cases op with
      | openScope =>
          have hopen : t.openScope.enclosing = (t.current :: above) ++ base := by
            change t.current :: t.enclosing = _
            rw [ht, List.cons_append]
          exact ih (t.current :: above) hopen h
      | closeScope =>
          cases above with
          | nil => cases h
          | cons scope above =>
              refine ih above ?_ h
              rw [perform, enclosing_closeScope, ht]
              rfl
      | insert form name ty =>
          rw [NameOp.depthAfter] at h
          exact ih above ((follows_insert t form name ty).enclosing.trans ht) h

theorem performAll_block (t : NameTable) (ops : List NameOp) :
    t.performAll (NameOp.block ops) = (t.openScope.performAll ops).closeScope := by
  rw [performAll, NameOp.block, List.foldl_append]
  rfl

/-- What a block leaves behind: the open scopes are those in front of it, so every name means what
it meant, and the entities that were declared inside are still in the store. -/
structure Restores (t : NameTable) (ops : List NameOp) : Prop where
  current : (t.performAll (NameOp.block ops)).current = t.current
  enclosing : (t.performAll (NameOp.block ops)).enclosing = t.enclosing
  level : (t.performAll (NameOp.block ops)).level = t.level
  find : ∀ name, (t.performAll (NameOp.block ops)).find name = t.find name
  created : ∀ before form name ty after id, ops = before ++ .insert form name ty :: after →
    ((t.openScope.performAll before).insert form name ty).1 = .ok id →
    (t.performAll (NameOp.block ops)).entities[id.index]? =
      some ((t.openScope.performAll before).newEntity form name ty)

theorem entities_of_insert_ok {form : Form} {name : String} {ty : Ty} {id : EntityId}
    (h : (t.insert form name ty).1 = .ok id) :
    (t.insert form name ty).2.entities[id.index]? = some (t.newEntity form name ty) := by
  rw [insert] at h ⊢
  split at h
  · cases h
  · next hfree =>
      cases h
      rw [if_neg hfree]
      exact Array.getElem?_push_size

theorem restores_block {ops : List NameOp} (h : NameOp.Balanced ops) (t : NameTable) :
    t.Restores ops := by
  obtain ⟨above, henclosing, hlength⟩ :=
    enclosing_performAll (t := t.openScope) [] (List.nil_append (t.current :: t.enclosing)).symm h
  obtain rfl := List.length_eq_zero_iff.1 hlength
  have hclosed : (t.openScope.performAll ops).closeScope.current = t.current ∧
      (t.openScope.performAll ops).closeScope.enclosing = t.enclosing := by
    generalize t.openScope.performAll ops = last at henclosing
    obtain ⟨entities, classes, current, enclosing⟩ := last
    cases henclosing
    exact ⟨rfl, rfl⟩
  rw [← performAll_block] at hclosed
  obtain ⟨hcurrent, houter⟩ := hclosed
  refine ⟨hcurrent, houter, ?_, ?_, ?_⟩
  · rw [NameTable.level, NameTable.level, houter]
  · intro name
    rw [NameTable.find, NameTable.find, hcurrent, houter]
  · rintro before form name ty after id rfl hid
    -- the declaration is somewhere in the block, and what follows keeps the store
    have hsplit : t.performAll (NameOp.block (before ++ .insert form name ty :: after)) =
        ((t.openScope.performAll before).insert form name ty).2.performAll
          (after ++ [.closeScope]) := by
      simp [performAll, NameOp.block, List.foldl_append, perform]
    rw [hsplit]
    exact extends_performAll _ _ _ _ (entities_of_insert_ok hid)

/-! ## What the table answers -/

/-- Every question to the table is answered from the stack of name maps. -/
structure Answers (t : NameTable) (st : ScopeStack) : Prop extends t.Refines st where
  find : ∀ name, t.find name =
    match st.find? name with
    | some d => .ok d.id
    | none => .error (.notDeclared name)
  entity : ∀ name d, st.find? name = some d →
    d.name = name ∧ t.entities[d.id.index]? = some d.entity
  insert : ∀ form name ty, (t.insert form name ty).1 =
    if st.Declares name then .error (.declaredTwice name) else .ok ⟨st.used⟩
  /-- A refused declaration changes nothing. -/
  refused : ∀ form name ty, st.Declares name → (t.insert form name ty).2 = t
  close : st.outer = [] → t.closeScope? = none ∧ t.closeScope = t
  /-- What is there before any declaration is there for good. -/
  bottom : ∀ (name : String) id, outermost.ids[name]? = some id → t.bottom.ids[name]? = some id

/-- After any operations the table answers as the stack of name maps does, and a block restores
it. -/
theorem performAll_answers (ops : List NameOp) :
    (initial.performAll ops).Answers (ScopeStack.initial.performAll ops) ∧
      ∀ block, NameOp.Balanced block → (initial.performAll ops).Restores block := by
  have h := initial_refines.performAll ops
  refine ⟨?_, fun block hblock => restores_block hblock _⟩
  exact
    { h with
      find := h.find
      entity := fun name d hd => h.entity hd
      insert := h.insert_fst
      refused := fun form name ty hdeclared => h.insert_refused hdeclared form ty
      close := h.closeScope_outermost
      bottom := fun name id hid => bottom_performAll ops hid }

/-- A name declared twice, and one that hides a predeclared one. -/
def shadowing : List NameOp :=
  [.openScope, .insert .var "x" .int, .insert .constant "x" .char, .insert .typeName "int" .char]

/-- The name is hidden in turn, and another scope is opened and closed. -/
def nested : List NameOp :=
  [.insert .var "x" .char, .openScope, .insert .var "y" .int, .closeScope]

theorem performAll_answers_shadowing :
    (initial.performAll shadowing).find "x" = .ok ⟨9⟩ ∧
      (initial.performAll shadowing).find "int" = .ok ⟨10⟩ ∧
      ((initial.performAll shadowing).performAll (NameOp.block nested)).find "x" = .ok ⟨9⟩ ∧
      ((initial.performAll shadowing).performAll (NameOp.block nested)).entities[12]? =
        some ⟨"y", .var 0 2, .int⟩ := by
  obtain ⟨hanswers, hblocks⟩ := performAll_answers shadowing
  have hrestores := hblocks nested (by decide)
  have hx : (initial.performAll shadowing).find "x" = .ok ⟨9⟩ := hanswers.find "x"
  refine ⟨hx, hanswers.find "int", (hrestores.find "x").trans hx, ?_⟩
  exact hrestores.created [.insert .var "x" .char, .openScope] .var "y" .int [.closeScope] ⟨12⟩
    rfl rfl

end NameTable

end MicroJava
