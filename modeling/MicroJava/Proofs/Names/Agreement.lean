import Mathlib.Data.List.Forall2
import MicroJava.Proofs.Names.Handles
import MicroJava.Proofs.Resolved.Generation
import MicroJava.Proofs.Resolved.Resolution

/-! # Two accounts of the names in scope

The pass keeps names in a table of entities that are completed later; the resolver keeps lists of
bindings. Here is what it means that both know the same, and that every step of the table has its
counterpart in the lists. -/

namespace MicroJava

open Resolved (Binding Env Signature signatureOf addressOf)

/-- What the lists do not tell of the table. -/
structure Progress where
  /-- Handles of the methods, in the order of their declaration. -/
  methods : List EntityId := []
  /-- Entry addresses of the completed methods. -/
  entries : List Nat := []
  /-- Number of classes whose fields are still being declared. -/
  openClasses : Nat := 0

namespace NameTable

/-- The handle leads to an entity of this type. -/
def HasType (t : NameTable) (id : EntityId) (ty : Ty) : Prop :=
  ∃ e, t.entities[id.index]? = some e ∧ e.ty = ty

/-- The method has parameters of these types. -/
structure Takes (t : NameTable) (callee : Callee) (params : List Ty) : Prop where
  count : callee.paramCount = params.length
  types : List.Forall₂ t.HasType callee.paramIds params

/-- Entities may be added and completed but keep their types. -/
def KeepsTypes (t t' : NameTable) : Prop :=
  ∀ (i : Nat) e, t.entities[i]? = some e → ∃ e', t'.entities[i]? = some e' ∧ e'.ty = e.ty

theorem Extends.keepsTypes {t t' : NameTable} (h : t.Extends t') : t.KeepsTypes t' :=
  fun i e he => ⟨e, h i e he, rfl⟩

theorem Takes.mono {t t' : NameTable} {callee : Callee} {params : List Ty}
    (h : t.Takes callee params) (ht : t.KeepsTypes t') : t'.Takes callee params := by
  refine ⟨h.count, h.types.imp ?_⟩
  rintro id ty ⟨e, he, rfl⟩
  exact ht id.index e he

theorem HasType.ty_entity {t : NameTable} {id : EntityId} {ty : Ty} (h : t.HasType id ty) :
    (t.entity id).ty = ty := by
  obtain ⟨e, he, rfl⟩ := h
  simp [entity, he]

theorem Takes.paramTypes {t : NameTable} {callee : Callee} {params : List Ty}
    (h : t.Takes callee params) : t.paramTypes callee = params := by
  obtain ⟨-, htypes⟩ := h
  rw [NameTable.paramTypes]
  generalize callee.paramIds = ids at htypes
  induction htypes with
  | nil => rfl
  | cons hid _ ih => rw [List.map_cons, ih, hid.ty_entity]

end NameTable

/-- An entity and a binding stand for the same thing. -/
inductive Stands (t : NameTable) (methods : List EntityId) (id : EntityId) :
    EntityKind → Ty → Binding → Prop
  | constant (v : Int32) (ty : Ty) : Stands t methods id (.constant v) ty (.constant v ty)
  | global (adr : Nat) (ty : Ty) : Stands t methods id (.var adr 0) ty (.global adr ty)
  | frame (slot level : Nat) (ty : Ty) :
      Stands t methods id (.var slot (level + 1)) ty (.frame slot ty)
  | typeName (ty : Ty) : Stands t methods id .typeName ty (.typeName ty)
  | method {callee : Callee} (ty : Ty) {index : Nat} (hi : methods[index]? = some id)
      (hb : callee.builtin = none) : Stands t methods id (.method callee) ty (.method index)
  | builtin {callee : Callee} (b : Builtin) (hb : callee.builtin = some b)
      (ht : t.Takes callee (signatureOf b).params) :
      Stands t methods id (.method callee) (signatureOf b).result (.builtin b)
  | program (ty : Ty) : Stands t methods id .program ty .program

theorem Stands.mono {t t' : NameTable} {methods methods' : List EntityId} {id : EntityId}
    {kind : EntityKind} {ty : Ty} {b : Binding} (h : Stands t methods id kind ty b)
    (ht : t.KeepsTypes t')
    (hm : ∀ (i : Nat) id, methods[i]? = some id → methods'[i]? = some id) :
    Stands t' methods' id kind ty b := by
  cases h with
  | constant v => exact .constant v ty
  | global adr => exact .global adr ty
  | frame slot level => exact .frame slot level ty
  | typeName => exact .typeName ty
  | method _ hi hb => exact .method ty (hm _ _ hi) hb
  | builtin b hb hp => exact .builtin b hb (hp.mono ht)
  | program => exact .program ty

theorem Stands.of_method {t : NameTable} {methods : List EntityId} {id : EntityId}
    {callee : Callee} {ty : Ty} {b : Binding} (h : Stands t methods id (.method callee) ty b)
    (hb : callee.builtin = none) : ∃ index, methods[index]? = some id ∧ b = .method index := by
  cases h with
  | method _ hi _ => exact ⟨_, hi, rfl⟩
  | builtin b hsome _ => simp [hb] at hsome

namespace NameTable

def Binds (t : NameTable) (methods : List EntityId) (id : EntityId) (b : Binding) : Prop :=
  ∃ e, t.entities[id.index]? = some e ∧ Stands t methods id e.kind e.ty b

/-- The method is complete: it has the parameters of its signature and is called at its address. -/
structure Completes (t : NameTable) (callee : Callee) (params : List Ty) (a : Nat) : Prop where
  takes : t.Takes callee params
  address : callee.address = addressOf a
  builtin : callee.builtin = none

theorem Completes.mono {t t' : NameTable} {callee : Callee} {params : List Ty} {a : Nat}
    (h : t.Completes callee params a) (ht : t.KeepsTypes t') : t'.Completes callee params a :=
  ⟨h.takes.mono ht, h.address, h.builtin⟩

/-- The entities are variables with these names and types, in the order of their slots. -/
structure Lists (t : NameTable) (ids : List EntityId) (vars : List (String × Ty)) : Prop where
  length_eq : ids.length = vars.length
  entity : ∀ (i : Nat) x, vars[i]? = some x → ∃ (id : EntityId) (level : Nat),
    ids[i]? = some id ∧ t.entities[id.index]? = some ⟨x.1, .var i level, x.2⟩

structure ScopeAgrees (t : NameTable) (methods : List EntityId) (s : Resolved.Scope)
    (scope : Scope) : Prop where
  names : ∀ name, Option.Rel (t.Binds methods) scope.ids[name]? (s.bindings.lookup name)
  count : scope.varCount = s.vars.length

/-- The table and the environment know the same. -/
structure Agrees (g : Progress) (env : Env) (t : NameTable) : Prop where
  scopes : List.Forall₂ (t.ScopeAgrees g.methods) (env.inner :: env.outer)
    (t.current :: t.enclosing)
  classes : ∀ (i : Nat) fields, env.classes[i]? = some fields →
    ∃ info, t.classes[i]? = some info ∧ t.Lists info.fields.toList fields
  classCount : t.classes.size = env.classes.length + g.openClasses
  methods : ∀ (i : Nat) sig, env.signatures[i]? = some sig →
    ∃ (id : EntityId) (a : Nat) (name : String) (callee : Callee),
      g.methods[i]? = some id ∧ g.entries[i]? = some a ∧
      t.entities[id.index]? = some ⟨name, .method callee, sig.result⟩ ∧
      t.Completes callee sig.params a
  distinct : g.methods.Nodup

theorem initial_agrees : initial.Agrees {} Env.initial := by
  refine ⟨List.forall₂_cons.2 ⟨⟨?_, rfl⟩, .nil⟩, ?_, rfl, ?_, .nil⟩
  · intro name
    have entity_at : ∀ (id : EntityId) (e : Entity) (b : Binding),
        initial.entities[id.index]? = some e → Stands initial [] id e.kind e.ty b →
        Option.Rel (initial.Binds []) (some id) (some b) :=
      fun id e b he hs => .some ⟨e, he, hs⟩
    change Option.Rel _ outermost.ids[name]? (Env.predeclared.bindings.lookup name)
    rw [getElem?_ids_outermost]
    simp only [Env.predeclared, List.lookup_cons, List.lookup_nil]
    split
    · exact entity_at _ _ _ rfl (.typeName .int)
    split
    · exact entity_at _ _ _ rfl (.typeName .char)
    split
    · exact entity_at _ _ _ rfl (.builtin .ord rfl ⟨rfl, .cons ⟨_, rfl, rfl⟩ .nil⟩)
    split
    · exact entity_at _ _ _ rfl (.builtin .chr rfl ⟨rfl, .cons ⟨_, rfl, rfl⟩ .nil⟩)
    split
    · exact entity_at _ _ _ rfl (.builtin .len rfl ⟨rfl, .cons ⟨_, rfl, rfl⟩ .nil⟩)
    · exact .none
  · intro i fields hf
    simp [Env.initial] at hf
  · intro i sig hsig
    simp [Env.initial] at hsig

/-! ## Looking up -/

theorem entity_eq {t : NameTable} {id : EntityId} {e : Entity}
    (h : t.entities[id.index]? = some e) : t.entity id = e := by
  simp [entity, h]

theorem findSome?_agrees {t : NameTable} {methods : List EntityId} {ss : List Resolved.Scope}
    {scopes : List Scope} (h : List.Forall₂ (t.ScopeAgrees methods) ss scopes) (name : String) :
    Option.Rel (t.Binds methods) (scopes.findSome? fun scope => scope.ids[name]?)
      (ss.findSome? fun s => s.bindings.lookup name) := by
  induction h with
  | nil => exact .none
  | @cons s scope ss scopes hs hrest ih =>
      have hn := hs.names name
      revert hn
      rw [List.findSome?_cons, List.findSome?_cons]
      generalize scope.ids[name]? = x
      generalize s.bindings.lookup name = y
      intro hn
      cases hn with
      | none => exact ih
      | some hb => exact .some hb

theorem Agrees.find {g : Progress} {env : Env} {t : NameTable} (h : t.Agrees g env)
    {name : String} {id : EntityId} (hf : t.find name = .ok id) :
    ∃ b, env.lookup name = some b ∧ t.Binds g.methods id b := by
  have hr := findSome?_agrees h.scopes name
  rw [NameTable.find] at hf
  split at hf
  · next id' hfind =>
      cases hf
      rw [hfind] at hr
      rw [Env.lookup]
      generalize ((env.inner :: env.outer).findSome? fun s => s.bindings.lookup name) = y at hr ⊢
      cases hr with
      | some hb => exact ⟨_, rfl, hb⟩
  · cases hf

theorem Agrees.varCount {g : Progress} {env : Env} {t : NameTable} (h : t.Agrees g env) :
    t.current.varCount = env.inner.vars.length :=
  (List.forall₂_cons.1 h.scopes).1.count

/-- Only complete classes have fields. -/
theorem Agrees.classInfo {g : Progress} {env : Env} {t : NameTable} (h : t.Agrees g env)
    (hg : g.openClasses = 0) (cls : ClassId) :
    t.Lists (t.classInfo cls).fields.toList (env.classes.getD cls.index []) := by
  have hc := h.classCount
  rw [hg, Nat.add_zero] at hc
  cases hf : env.classes[cls.index]? with
  | some fields =>
      obtain ⟨info, hi, hl⟩ := h.classes _ _ hf
      simpa [NameTable.classInfo, hi, hf] using hl
  | none =>
      have hi : t.classes[cls.index]? = none := by
        rw [Array.getElem?_eq_none_iff, hc]
        exact List.getElem?_eq_none_iff.1 hf
      have he : (t.classInfo cls).fields = #[] := by
        simp only [NameTable.classInfo, Array.getD_eq_getD_getElem?, hi, Option.getD_none]
        rfl
      rw [he, List.getD_eq_getElem?_getD, hf]
      exact ⟨rfl, fun i x hx => by simp at hx⟩

theorem Lists.find {t : NameTable} {ids : List EntityId} {vars : List (String × Ty)}
    (h : t.Lists ids vars) {name : String} {id : EntityId}
    (hf : ids.find? (fun id => (t.entity id).name == name) = some id) :
    ∃ (adr : Nat) (x : String × Ty) (level : Nat),
      vars.findIdx? (fun x => x.1 == name) = some adr ∧ vars[adr]? = some x ∧
        t.entity id = ⟨x.1, .var adr level, x.2⟩ := by
  obtain ⟨hp, i, hi, hid, hbefore⟩ := List.find?_eq_some_iff_getElem.1 hf
  have hv : i < vars.length := h.length_eq ▸ hi
  have name_at : ∀ (k : Nat) (hk : k < vars.length) (hk' : k < ids.length),
      ∃ level, t.entity ids[k] = ⟨vars[k].1, .var k level, vars[k].2⟩ := by
    intro k hk hk'
    obtain ⟨id', level, hid', he⟩ := h.entity k vars[k] (List.getElem?_eq_getElem hk)
    rw [List.getElem?_eq_getElem hk', Option.some.injEq] at hid'
    exact ⟨level, by rw [hid', entity_eq he]⟩
  obtain ⟨level, he⟩ := name_at i hv hi
  rw [hid] at he
  refine ⟨i, vars[i], level, ?_, List.getElem?_eq_getElem hv, he⟩
  rw [List.findIdx?_eq_some_iff_getElem]
  refine ⟨hv, ?_, ?_⟩
  · simpa [he] using hp
  · intro k hk
    have hkv : k < vars.length := Nat.lt_trans hk hv
    obtain ⟨level', he'⟩ := name_at k hkv (Nat.lt_trans hk hi)
    simpa [he'] using hbefore k hk

theorem Agrees.findField {g : Progress} {env : Env} {t : NameTable} (h : t.Agrees g env)
    (hg : g.openClasses = 0) {cls : ClassId} {name : String} {id : EntityId}
    (hf : t.findField cls name = .ok id) :
    ∃ (adr : Nat) (ty : Ty) (level : Nat) (n : String), env.field? cls name = some (adr, ty) ∧
      t.entity id = ⟨n, .var adr level, ty⟩ := by
  rw [NameTable.findField] at hf
  split at hf
  · next id' hfind =>
      cases hf
      rw [← Array.find?_toList] at hfind
      obtain ⟨adr, x, level, hidx, hx, he⟩ := (h.classInfo hg cls).find hfind
      refine ⟨adr, x.2, level, x.1, ?_, he⟩
      cases hc : env.classes[cls.index]? with
      | none => simp [hc] at hx
      | some fields =>
          simp only [List.getD_eq_getElem?_getD, hc, Option.getD_some] at hidx hx
          simp [Env.field?, hc, hidx, hx]
  · cases hf

/-- A frame that begins with the parameters. -/
theorem Lists.takes {t : NameTable} {vars : List (String × Ty)} (callee : Callee)
    (h : t.Lists callee.locals.toList vars) (hc : callee.paramCount ≤ vars.length) :
    t.Takes callee ((vars.map Prod.snd).take callee.paramCount) := by
  refine ⟨by simp [Nat.min_eq_left hc], ?_⟩
  rw [Callee.paramIds]
  refine List.forall₂_take _ ?_
  rw [List.forall₂_iff_get]
  refine ⟨by simpa using h.length_eq, ?_⟩
  intro i hi hv
  rw [List.length_map] at hv
  obtain ⟨id, level, hid, he⟩ := h.entity i vars[i] (List.getElem?_eq_getElem hv)
  rw [List.getElem?_eq_getElem hi, Option.some.injEq] at hid
  exact ⟨_, by simpa [hid] using he, by simp⟩

/-! ## Declaring -/

theorem Binds.mono {t t' : NameTable} {methods methods' : List EntityId} {id : EntityId}
    {b : Binding} (h : t.Binds methods id b) (ht : t.Extends t')
    (hm : ∀ (i : Nat) id, methods[i]? = some id → methods'[i]? = some id) :
    t'.Binds methods' id b := by
  obtain ⟨e, he, hs⟩ := h
  exact ⟨e, ht _ _ he, hs.mono ht.keepsTypes hm⟩

theorem Lists.mono {t t' : NameTable} {ids : List EntityId} {vars : List (String × Ty)}
    (h : t.Lists ids vars) (ht : t.Extends t') : t'.Lists ids vars := by
  refine ⟨h.length_eq, ?_⟩
  intro i x hx
  obtain ⟨id, level, hid, he⟩ := h.entity i x hx
  exact ⟨id, level, hid, ht _ _ he⟩

theorem ScopeAgrees.of_binds {t t' : NameTable} {methods methods' : List EntityId}
    {s : Resolved.Scope} {scope : Scope} (h : t.ScopeAgrees methods s scope)
    (hb : ∀ id b, t.Binds methods id b → t'.Binds methods' id b) :
    t'.ScopeAgrees methods' s scope := by
  refine ⟨?_, h.count⟩
  intro name
  have hn := h.names name
  generalize scope.ids[name]? = x at hn ⊢
  generalize s.bindings.lookup name = y at hn ⊢
  cases hn with
  | none => exact .none
  | some hbinds => exact .some (hb _ _ hbinds)

theorem ScopeAgrees.mono {t t' : NameTable} {methods methods' : List EntityId}
    {s : Resolved.Scope} {scope : Scope} (h : t.ScopeAgrees methods s scope) (ht : t.Extends t')
    (hm : ∀ (i : Nat) id, methods[i]? = some id → methods'[i]? = some id) :
    t'.ScopeAgrees methods' s scope :=
  h.of_binds fun _ _ hb => hb.mono ht hm

/-- What is found in a list with one more element. -/
theorem getElem?_concat_cases {α : Type} {l : List α} {x y : α} {i : Nat}
    (h : (l ++ [x])[i]? = some y) :
    i < l.length ∧ l[i]? = some y ∨ i = l.length ∧ y = x := by
  rw [List.getElem?_append] at h
  split at h
  · next hlt => exact .inl ⟨hlt, h⟩
  · next hge =>
      obtain ⟨hi, hx⟩ := List.getElem?_eq_some_iff.1 h
      rw [List.length_singleton] at hi
      exact .inr ⟨by omega, by simpa using hx.symm⟩

/-- The table with one more entity, declared in the innermost scope. -/
def declared (t : NameTable) (e : Entity) (varCount : Nat) : NameTable :=
  { t with
    entities := t.entities.push e
    current :=
      { locals := t.current.locals.push ⟨t.entities.size⟩
        ids := t.current.ids.insert e.name ⟨t.entities.size⟩
        varCount } }

theorem insert_ok {t t' : NameTable} {form : Form} {name : String} {ty : Ty} {id : EntityId}
    (h : t.insert form name ty = (.ok id, t')) :
    t.current.ids[name]? = none ∧ id = ⟨t.entities.size⟩ ∧
      t' = t.declared (t.newEntity form name ty)
        (t.current.varCount + if form = .var then 1 else 0) := by
  rw [insert] at h
  split at h
  · cases h
  · next hc =>
      cases h
      refine ⟨?_, rfl, ?_⟩
      · rwa [Std.TreeMap.contains_eq_isSome_getElem?, Bool.not_eq_true, Option.isSome_eq_false_iff,
          Option.isNone_iff_eq_none] at hc
      · cases form <;> rfl

theorem Agrees.unbound {g : Progress} {env : Env} {t : NameTable} (h : t.Agrees g env)
    {name : String} (hn : t.current.ids[name]? = none) :
    env.inner.bindings.lookup name = none := by
  obtain ⟨hs, -⟩ := List.forall₂_cons.1 h.scopes
  have hr := hs.names name
  rw [hn] at hr
  generalize env.inner.bindings.lookup name = y at hr
  cases hr
  rfl

theorem Agrees.declare {g : Progress} {env : Env} {t : NameTable} (h : t.Agrees g env)
    {name : String} (hn : t.current.ids[name]? = none) (b : Binding) :
    env.declare name b =
      some { env with
        inner := { env.inner with bindings := (name, b) :: env.inner.bindings } } := by
  simp [Env.declare, h.unbound hn]

/-- One more declaration on both sides. -/
theorem Agrees.declared {g : Progress} {env : Env} {t : NameTable} (h : t.Agrees g env)
    {methods' : List EntityId} (e : Entity) {b : Binding} (vars : List (String × Ty))
    (hm : ∀ (i : Nat) id, g.methods[i]? = some id → methods'[i]? = some id)
    (hs : Stands t methods' ⟨t.entities.size⟩ e.kind e.ty b) (hd : methods'.Nodup) :
    (t.declared e vars.length).Agrees { g with methods := methods' }
      { env with inner := ⟨(e.name, b) :: env.inner.bindings, vars⟩ } := by
  have hx : t.Extends (t.declared e vars.length) := extends_push rfl
  obtain ⟨hin, hout⟩ := List.forall₂_cons.1 h.scopes
  have hnew : (t.declared e vars.length).Binds methods' ⟨t.entities.size⟩ b :=
    ⟨e, by simp [NameTable.declared], hs.mono hx.keepsTypes fun _ _ hi => hi⟩
  refine ⟨List.forall₂_cons.2 ⟨⟨?_, rfl⟩, ?_⟩, ?_, h.classCount, ?_, hd⟩
  · intro name
    change Option.Rel _ (t.current.ids.insert e.name ⟨t.entities.size⟩)[name]? _
    rw [Std.TreeMap.getElem?_insert, List.lookup_cons]
    by_cases hname : name = e.name
    · simp only [hname, Std.ReflCmp.compare_self, if_true, beq_self_eq_true]
      exact .some hnew
    · have hne : compare e.name name ≠ .eq := by
        rw [Ne, Std.LawfulEqOrd.compare_eq_iff_eq]
        exact fun hc => hname hc.symm
      have hb : (name == e.name) = false := beq_false_of_ne hname
      rw [if_neg hne, hb]
      exact (hin.mono hx hm).names name
  · exact hout.imp fun s scope ha => ha.mono hx hm
  · intro i fields hf
    obtain ⟨info, hi, hl⟩ := h.classes i fields hf
    exact ⟨info, hi, hl.mono hx⟩
  · intro i sig hsig
    obtain ⟨id, a, name, callee, hid, ha, he, hc⟩ := h.methods i sig hsig
    exact ⟨id, a, name, callee, hm i id hid, ha, hx _ _ he, hc.mono hx.keepsTypes⟩

theorem Agrees.declare_same {g : Progress} {env : Env} {t : NameTable} (h : t.Agrees g env)
    (e : Entity) {b : Binding} (hn : t.current.ids[e.name]? = none)
    (hs : Stands t g.methods ⟨t.entities.size⟩ e.kind e.ty b) :
    ∃ env', env.declare e.name b = some env' ∧
      (t.declared e t.current.varCount).Agrees g env' := by
  obtain ⟨hin, -⟩ := List.forall₂_cons.1 h.scopes
  refine ⟨_, h.declare hn b, ?_⟩
  rw [hin.count]
  exact h.declared e env.inner.vars (fun _ _ hi => hi) hs h.distinct

theorem Agrees.declareType {g : Progress} {env : Env} {t t' : NameTable} (h : t.Agrees g env)
    {name : String} {ty : Ty} {id : EntityId} (hi : t.insert .typeName name ty = (.ok id, t')) :
    ∃ env', env.declare name (.typeName ty) = some env' ∧ t'.Agrees g env' := by
  obtain ⟨hn, -, rfl⟩ := insert_ok hi
  exact h.declare_same ⟨name, .typeName, ty⟩ hn (.typeName ty)

theorem Agrees.declareProgram {g : Progress} {env : Env} {t t' : NameTable} (h : t.Agrees g env)
    {name : String} {ty : Ty} {id : EntityId} (hi : t.insert .program name ty = (.ok id, t')) :
    ∃ env', env.declare name .program = some env' ∧ t'.Agrees g env' := by
  obtain ⟨hn, -, rfl⟩ := insert_ok hi
  exact h.declare_same ⟨name, .program, ty⟩ hn (.program ty)

/-- A constant that gets its value at once is declared with it. -/
theorem Agrees.declareConstant {g : Progress} {env : Env} {t t' : NameTable} (h : t.Agrees g env)
    {name : String} {ty : Ty} {id : EntityId} (hi : t.insert .constant name ty = (.ok id, t'))
    (v : Int32) :
    ∃ env', env.declare name (.constant v ty) = some env' ∧
      (t'.setConstant id v).Agrees g env' := by
  obtain ⟨hn, rfl, rfl⟩ := insert_ok hi
  have hset : (t.declared (t.newEntity .constant name ty) (t.current.varCount + 0)).setConstant
      ⟨t.entities.size⟩ v = t.declared ⟨name, .constant v, ty⟩ t.current.varCount := by
    simp only [setConstant, NameTable.declared, newEntity, NameTable.mk.injEq, Nat.add_zero,
      and_true]
    apply Array.ext_getElem?
    intro i
    rw [Array.getElem?_modify, Array.getElem?_push, Array.getElem?_push]
    by_cases hi : i = t.entities.size
    · simp [hi]
    · simp [hi, Ne.symm hi]
  obtain ⟨env', he, ha⟩ := h.declare_same ⟨name, .constant v, ty⟩ hn (.constant v ty)
  exact ⟨env', he, hset ▸ ha⟩

/-- A method is declared before its parameters are known. -/
theorem Agrees.declareMethod {g : Progress} {env : Env} {t t' : NameTable} (h : t.Agrees g env)
    (hg : g.methods.length = env.signatures.length) {name : String} {result : Ty} {id : EntityId}
    (hi : t.insert .method name result = (.ok id, t')) :
    ∃ env', env.declare name (.method env.signatures.length) = some env' ∧
      t'.Agrees { g with methods := g.methods ++ [id] } env' ∧
      t'.entities[id.index]? = some ⟨name, .method {}, result⟩ := by
  obtain ⟨hn, rfl, rfl⟩ := insert_ok hi
  have hnew : (⟨t.entities.size⟩ : EntityId) ∉ g.methods := by
    intro hmem
    obtain ⟨i, hi, hid⟩ := List.mem_iff_getElem.1 hmem
    obtain ⟨id, a, n, c, hid', -, he, -⟩ := h.methods i _ (List.getElem?_eq_getElem (hg ▸ hi))
    rw [List.getElem?_eq_getElem hi, hid, Option.some.injEq] at hid'
    simp [← hid'] at he
  have hd : (g.methods ++ [(⟨t.entities.size⟩ : EntityId)]).Nodup := by
    refine List.nodup_append.2 ⟨h.distinct, by simp, ?_⟩
    intro a ha b hb hab
    rw [List.mem_singleton] at hb
    exact hnew (hb ▸ hab ▸ ha)
  obtain ⟨hin, -⟩ := List.forall₂_cons.1 h.scopes
  refine ⟨_, h.declare hn _, ?_, by simp [NameTable.declared, newEntity]⟩
  have hs : Stands t (g.methods ++ [⟨t.entities.size⟩]) ⟨t.entities.size⟩ (.method {}) result
      (.method env.signatures.length) := .method result (by simp [← hg]) rfl
  have hm : ∀ (i : Nat) id, g.methods[i]? = some id →
      (g.methods ++ [⟨t.entities.size⟩])[i]? = some id := by
    intro i id hid
    obtain ⟨hlt, -⟩ := List.getElem?_eq_some_iff.1 hid
    rw [List.getElem?_append_left hlt, hid]
  have ha := h.declared ⟨name, .method {}, result⟩ env.inner.vars hm hs hd
  simpa [newEntity, hin.count] using ha

theorem Agrees.level {g : Progress} {env : Env} {t : NameTable} (h : t.Agrees g env) :
    t.level = env.outer.length - 1 := by
  have hl := h.scopes.length_eq
  simp only [List.length_cons, Nat.add_right_cancel_iff] at hl
  rw [NameTable.level, hl]

theorem Agrees.declareVar {g : Progress} {env : Env} {t t' : NameTable} (h : t.Agrees g env)
    {name : String} {ty : Ty} {id : EntityId} (hi : t.insert .var name ty = (.ok id, t')) :
    ∃ env', env.declareVar name ty = some env' ∧ t'.Agrees g env' ∧
      (t.Lists t.current.locals.toList env.inner.vars →
        t'.Lists t'.current.locals.toList env'.inner.vars) := by
  obtain ⟨hn, -, rfl⟩ := insert_ok hi
  obtain ⟨hin, -⟩ := List.forall₂_cons.1 h.scopes
  have hs : Stands t g.methods ⟨t.entities.size⟩ (.var t.current.varCount t.level) ty
      (env.nextVar ty) := by
    rw [Env.nextVar, h.level, hin.count]
    split
    · next hle =>
        rw [Nat.sub_eq_zero_of_le hle]
        exact .global _ ty
    · next hgt =>
        obtain ⟨k, hk⟩ : ∃ k, env.outer.length - 1 = k + 1 := ⟨env.outer.length - 2, by omega⟩
        rw [hk]
        exact .frame _ k ty
  have hd := h.declared (t.newEntity .var name ty) (env.inner.vars ++ [(name, ty)])
    (fun _ _ hi => hi) hs h.distinct
  refine ⟨_, by simp [Env.declareVar, h.declare hn]; rfl, ?_, ?_⟩
  · simpa [hin.count, newEntity] using hd
  · intro hl
    refine ⟨by simpa [NameTable.declared] using hl.length_eq, ?_⟩
    intro i x hx
    have hlen : t.current.locals.size = env.inner.vars.length := by simpa using hl.length_eq
    rcases getElem?_concat_cases hx with ⟨hlt, hx⟩ | ⟨rfl, rfl⟩
    · obtain ⟨id, level, hid, he⟩ := hl.entity i x hx
      refine ⟨id, level, ?_, extends_push rfl _ _ he⟩
      simp only [NameTable.declared, Array.toList_push]
      rw [List.getElem?_append_left (by simpa [hlen] using hlt), hid]
    · refine ⟨⟨t.entities.size⟩, t.level, ?_, ?_⟩
      · simp [NameTable.declared, ← hlen]
      · simp [NameTable.declared, newEntity, hin.count]

/-! ## Scopes, classes and methods -/

theorem Agrees.of_entities {g : Progress} {env : Env} {t : NameTable} (h : t.Agrees g env)
    (t' : NameTable) (he : t'.entities = t.entities) :
    List.Forall₂ (t'.ScopeAgrees g.methods) (env.inner :: env.outer) (t.current :: t.enclosing) ∧
      (∀ (i : Nat) fields, env.classes[i]? = some fields →
        ∃ info, t.classes[i]? = some info ∧ t'.Lists info.fields.toList fields) ∧
      ∀ (i : Nat) sig, env.signatures[i]? = some sig →
        ∃ (id : EntityId) (a : Nat) (name : String) (callee : Callee),
          g.methods[i]? = some id ∧ g.entries[i]? = some a ∧
          t'.entities[id.index]? = some ⟨name, .method callee, sig.result⟩ ∧
          t'.Completes callee sig.params a := by
  have hx : t.Extends t' := by
    intro i e hi
    rw [he, hi]
  refine ⟨?_, ?_, ?_⟩
  · exact h.scopes.imp fun s scope hs => hs.mono hx fun _ _ hi => hi
  · intro i fields hf
    obtain ⟨info, hi, hl⟩ := h.classes i fields hf
    exact ⟨info, hi, hl.mono hx⟩
  · intro i sig hsig
    obtain ⟨id, a, name, callee, hid, ha, hi, hc⟩ := h.methods i sig hsig
    exact ⟨id, a, name, callee, hid, ha, hx _ _ hi, hc.mono hx.keepsTypes⟩

theorem Agrees.openScope {g : Progress} {env : Env} {t : NameTable} (h : t.Agrees g env) :
    t.openScope.Agrees g env.nested ∧ t.openScope.Lists t.openScope.current.locals.toList [] := by
  obtain ⟨hs, hc, hm⟩ := h.of_entities t.openScope rfl
  refine ⟨⟨List.forall₂_cons.2 ⟨⟨?_, rfl⟩, hs⟩, hc, h.classCount, hm, h.distinct⟩, rfl,
    fun i x hx => by simp at hx⟩
  intro name
  change Option.Rel _ (∅ : Std.TreeMap String EntityId)[name]? none
  rw [Std.TreeMap.getElem?_emptyc]
  exact .none

theorem Agrees.closeScope {g : Progress} {env : Env} {t : NameTable} (h : t.Agrees g env)
    {s : Resolved.Scope} {rest : List Resolved.Scope} (ho : env.outer = s :: rest) :
    t.closeScope.Agrees g { env with inner := s, outer := rest } := by
  cases henc : t.enclosing with
  | nil =>
      have hl := h.scopes.length_eq
      simp [ho, henc] at hl
  | cons scope scopes =>
      have hclose : t.closeScope = { t with current := scope, enclosing := scopes } := by
        simp [NameTable.closeScope, closeScope?, henc]
      rw [hclose]
      obtain ⟨hs, hc, hm⟩ := h.of_entities { t with current := scope, enclosing := scopes } rfl
      rw [ho, henc] at hs
      exact ⟨(List.forall₂_cons.1 hs).2, hc, h.classCount, hm, h.distinct⟩

theorem Agrees.newClass {g : Progress} {env : Env} {t : NameTable} (h : t.Agrees g env)
    (hg : g.openClasses = 0) (name : String) :
    (t.newClass name).1 = ⟨env.classes.length⟩ ∧
      (t.newClass name).2.Agrees { g with openClasses := 1 } env := by
  have hc := h.classCount
  rw [hg, Nat.add_zero] at hc
  obtain ⟨hs, hclasses, hm⟩ := h.of_entities (t.newClass name).2 rfl
  refine ⟨by rw [NameTable.newClass, hc], hs, ?_, by simp [NameTable.newClass, hc],
    hm, h.distinct⟩
  intro i fields hf
  obtain ⟨info, hi, hl⟩ := hclasses i fields hf
  obtain ⟨hlt, rfl⟩ := Array.getElem?_eq_some_iff.1 hi
  exact ⟨_, Array.getElem?_push_lt hlt, hl⟩

theorem Agrees.setFields {g : Progress} {env : Env} {t : NameTable} (h : t.Agrees g env)
    (hg : g.openClasses = 1) {vars : List (String × Ty)}
    (hl : t.Lists t.current.locals.toList vars) :
    (t.setFields ⟨env.classes.length⟩).Agrees { g with openClasses := 0 }
      { env with classes := env.classes ++ [vars] } := by
  have hc := h.classCount
  rw [hg] at hc
  obtain ⟨hs, hclasses, hm⟩ := h.of_entities (t.setFields ⟨env.classes.length⟩) rfl
  refine ⟨hs, ?_, by simp [NameTable.setFields, hc], hm, h.distinct⟩
  intro i fields hf
  change ∃ info, (t.classes.modify env.classes.length fun info =>
    { info with fields := t.current.locals })[i]? = some info ∧ _
  rw [Array.getElem?_modify]
  rcases getElem?_concat_cases hf with ⟨hlt, hf⟩ | ⟨rfl, rfl⟩
  · rw [if_neg (by omega)]
    exact hclasses i fields hf
  · rw [if_pos rfl, Array.getElem?_eq_getElem (by omega)]
    exact ⟨_, rfl, hl.mono fun _ _ he => he⟩

theorem getElem?_setCallee {t : NameTable} {id : EntityId} {callee : Callee} {i : Nat} {e : Entity}
    (he : t.entities[i]? = some e) (hi : i = id.index → ∀ c, e.kind ≠ .method c) :
    (t.setCallee id callee).entities[i]? = some e := by
  simp only [setCallee, Array.getElem?_modify, he, Option.map_some]
  split
  · next heq =>
      have hk := hi heq.symm
      split
      · next c hkind => exact absurd hkind (hk c)
      · rfl
  · rfl

theorem keepsTypes_setCallee (t : NameTable) (id : EntityId) (callee : Callee) :
    t.KeepsTypes (t.setCallee id callee) := by
  intro i e he
  simp only [setCallee, Array.getElem?_modify, he, Option.map_some]
  split
  · refine ⟨_, rfl, ?_⟩
    split <;> rfl
  · exact ⟨e, rfl, rfl⟩

/-- A method that still has to be completed is no other method and no built-in one. -/
theorem Agrees.setCallee {g : Progress} {env : Env} {t : NameTable} {methods : List EntityId}
    {id : EntityId} (h : t.Agrees { g with methods := methods ++ [id] } env)
    (hm : methods.length = env.signatures.length) (hn : g.entries.length = env.signatures.length)
    {name : String} {result : Ty} (hid : t.entities[id.index]? = some ⟨name, .method {}, result⟩)
    {callee : Callee} {params : List Ty} {a : Nat} (hc : t.Completes callee params a) :
    (t.setCallee id callee).Agrees
      { g with methods := methods ++ [id], entries := g.entries ++ [a] }
      { env with signatures := env.signatures ++ [⟨params, result⟩] } := by
  have hx := t.keepsTypes_setCallee id callee
  have hat : (t.setCallee id callee).entities[id.index]? =
      some ⟨name, .method callee, result⟩ := by
    simp [NameTable.setCallee, Array.getElem?_modify, hid]
  have hbinds : ∀ id' b, t.Binds (methods ++ [id]) id' b →
      (t.setCallee id callee).Binds (methods ++ [id]) id' b := by
    rintro id' b ⟨e, he, hs⟩
    by_cases hsame : id'.index = id.index
    · rw [hsame, hid, Option.some.injEq] at he
      subst he
      obtain ⟨index, hi, rfl⟩ := hs.of_method rfl
      exact ⟨_, hsame ▸ hat, .method result hi hc.builtin⟩
    · exact ⟨e, getElem?_setCallee he fun heq => absurd heq hsame, hs.mono hx fun _ _ hi => hi⟩
  have hlists : ∀ ids vars, t.Lists ids vars → (t.setCallee id callee).Lists ids vars := by
    intro ids vars hl
    refine ⟨hl.length_eq, ?_⟩
    intro i x hx
    obtain ⟨id', level, hid', he⟩ := hl.entity i x hx
    exact ⟨id', level, hid', getElem?_setCallee he fun _ c hc => by cases hc⟩
  refine ⟨?_, ?_, h.classCount, ?_, h.distinct⟩
  · exact h.scopes.imp fun s scope hs => hs.of_binds hbinds
  · intro i fields hf
    obtain ⟨info, hi, hl⟩ := h.classes i fields hf
    exact ⟨info, hi, hlists _ _ hl⟩
  · intro i sig hsig
    rcases getElem?_concat_cases hsig with ⟨hlt, hsig⟩ | ⟨rfl, rfl⟩
    · obtain ⟨id', a', n, c, hid', ha', he, hc'⟩ := h.methods i sig hsig
      refine ⟨id', a', n, c, hid', ?_, ?_, hc'.mono hx⟩
      · rw [List.getElem?_append_left (by omega), ha']
      · simp only [NameTable.setCallee, Array.getElem?_modify, he]
        rw [if_neg]
        intro heq
        -- the handles of two methods differ
        have hi : (methods ++ [id])[i]? = (methods ++ [id])[methods.length]? := by
          rw [hid', List.getElem?_concat_length]
          exact congrArg some (by cases id; cases id'; simpa using heq.symm)
        have := (List.getElem?_inj (by simp; omega) h.distinct).1 hi
        omega
    · exact ⟨id, a, name, callee, by simp [← hm], by simp [← hn], hat, hc.mono hx⟩

end NameTable

end MicroJava
