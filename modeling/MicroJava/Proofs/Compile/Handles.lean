import MicroJava.Proofs.Compile.Faultless

/-! # No handle leads nowhere

Whatever the text, the pass follows only handles that lead somewhere. Handles travel in types and
operands, so what each part of the pass yields is followed along with the state of the table: the
handles in a value that was yielded under a table still lead somewhere in every table after it. -/

namespace MicroJava

/-- The handles in an operand lead somewhere. -/
structure Operand.Inside (t : NameTable) (x : Operand) : Prop where
  ty : x.ty.Within t.classes.size
  method : ∀ id, x.place = .method id → id.index < t.entities.size

/-- An operand of which nothing is known has no handle. -/
theorem Operand.inside_unknown (t : NameTable) : Operand.unknown.Inside t := by
  refine ⟨trivial, ?_⟩
  rintro id ⟨⟩

/-- Only the handle of a method counts among the places. -/
theorem Operand.Inside.of_ty {t : NameTable} {place : Place} {ty : Ty}
    (hty : ty.Within t.classes.size) (hplace : ∀ id, place ≠ .method id) :
    Operand.Inside t ⟨place, ty⟩ :=
  ⟨hty, fun id hid => absurd hid (hplace id)⟩

theorem Operand.inside_onStack {t : NameTable} {ty : Ty} (hty : ty.Within t.classes.size) :
    (Operand.onStack ty).Inside t :=
  .of_ty hty (by simp)

/-- A table that grows keeps leading where it led. -/
theorem Operand.Inside.mono {t t' : NameTable} {x : Operand} (h : x.Inside t) (hb : t.Below t') :
    x.Inside t' :=
  ⟨h.ty.mono hb.classes, fun id hid => Nat.lt_of_lt_of_le (h.method id hid) hb.entities⟩

/-- The handles in what is known of an entity lead somewhere. -/
structure Entity.Inside (t : NameTable) (e : Entity) : Prop where
  ty : e.ty.Within t.classes.size
  callee : ∀ c ∈ e.callee?, c.Within t.entities.size

/-- No handle has led nowhere, and none in the table will. -/
structure Pass.InOrder (p : Pass) : Prop where
  names : p.names.InOrder
  astray : p.astray = false

/-- The predeclared entities are in order before the first token. -/
theorem Pass.start_inOrder (up : Upcoming) : (Pass.start up).InOrder :=
  ⟨NameTable.initial_inOrder, rfl⟩

namespace Check

variable {α β : Type} {t₀ t₁ : NameTable}

/-! ## Parts that have nothing to do with names -/

/-- A part of the pass that follows no handle and leaves the table alone. -/
class Nameless (act : Check α) : Prop where
  names : ∀ p, (act p).2.names = p.names
  astray : ∀ p, (act p).2.astray = p.astray

instance (a : α) : Nameless (pure a : Check α) := ⟨fun _ => rfl, fun _ => rfl⟩

instance (act : Check α) (f : α → Check β) [h : Nameless act] [h' : ∀ a, Nameless (f a)] :
    Nameless (act >>= f) :=
  ⟨fun p => ((h' _).names _).trans (h.names p), fun p => ((h' _).astray _).trans (h.astray p)⟩

instance (act : Check α) [h : Nameless act] : Nameless (discard act) :=
  ⟨fun p => h.names p, fun p => h.astray p⟩

instance (c : Prop) [Decidable c] (act act' : Check α) [Nameless act] [Nameless act'] :
    Nameless (if c then act else act') := by
  split <;> infer_instance

instance : Nameless (get : Check Pass) := ⟨fun _ => rfl, fun _ => rfl⟩

instance : Nameless names := ⟨fun _ => rfl, fun _ => rfl⟩

instance : Nameless consume := ⟨fun _ => rfl, fun _ => rfl⟩

instance (problem : Problem) : Nameless (report problem) := ⟨fun _ => rfl, fun _ => rfl⟩

instance : Nameless resync := ⟨fun _ => rfl, fun _ => rfl⟩

instance (act : Emit α) : Nameless (emitting act) := ⟨fun _ => rfl, fun _ => rfl⟩

instance (i : Instruction) : Nameless (emit i) := by unfold emit; infer_instance

instance (n : Nat) : Nameless (consumeMany n) := by
  induction n with
  | zero => rw [consumeMany]; infer_instance
  | succ n ih => rw [consumeMany]; infer_instance

instance (k : TokenKind) (mark : Mark) : Nameless (require k mark) := by
  cases mark <;> (rw [require]; infer_instance)

instance (name : Option String) : Nameless (requireName name) := by
  cases name <;> (rw [requireName]; infer_instance)

instance (x : Operand) : Nameless (load x) := by
  unfold load
  have (r : Except OperandError Operand) : Nameless (match r with
      | .ok x => pure x
      | .error e => do
          report (.operand e)
          pure Operand.unknown) := by
    split <;> infer_instance
  infer_instance

instance (x index : Operand) : Nameless (selectElement x index) := by
  unfold selectElement
  split <;> infer_instance

instance (op : Arithmetic) (x y : Operand) : Nameless (arithmetic op x y) := by
  unfold arithmetic; infer_instance

instance (x : Operand) : Nameless (negated x) := by
  unfold negated
  split
  · split <;> infer_instance
  · infer_instance

instance (given wanted : Nat) : Nameless (checkCount given wanted) := by
  unfold checkCount; infer_instance

instance (callee : Callee) : Nameless (emitCall callee) := by
  unfold emitCall
  split <;> infer_instance

instance (y : Operand) (formals : List Ty) : Nameless (checkArgument y formals) := by
  unfold checkArgument
  split <;> infer_instance

instance (x y : Operand) : Nameless (assignment x y) := by
  unfold assignment
  have (r : Except OperandError Operand) : Nameless (match r with
      | .ok _ => pure ()
      | .error e => report (.operand e)) := by
    split <;> infer_instance
  infer_instance

instance (x : Operand) : Nameless (dropResult x) := by unfold dropResult; infer_instance

instance (x : Operand) (i : Instruction) : Nameless (readInto.readWith x i) := by
  unfold readInto.readWith
  have (r : Except OperandError Unit) : Nameless (match r with
      | .ok _ => pure ()
      | .error e => report (.operand e)) := by
    split <;> infer_instance
  infer_instance

instance (x : Operand) : Nameless (readInto x) := by
  unfold readInto
  split <;> infer_instance

instance (ty : Ty) : Nameless (printInstruction ty) := by
  unfold printInstruction
  split <;> infer_instance

instance (width : WidthSpec) : Nameless (printWidth width) := by
  cases width <;> (rw [printWidth]; infer_instance)

instance (result : Ty) (count : Nat) : Nameless (checkMain result count) := by
  unfold checkMain; infer_instance

instance (result : Ty) : Nameless (methodEnd result) := by unfold methodEnd; infer_instance

/-! ## Keeping the table in order -/

/-- From a state in order whose table has room for the handles of `t₀`, this part of the pass leads
to another, and what it yields has `V` under the table then. -/
def Keeps (t₀ : NameTable) (act : Check α) (V : NameTable → α → Prop) : Prop :=
  ∀ p, p.InOrder → t₀.Below p.names →
    (act p).2.InOrder ∧ p.names.Follows (act p).2.names ∧ V (act p).2.names (act p).1

/-- Nothing is said of what is yielded. -/
abbrev always : NameTable → α → Prop := fun _ _ => True

variable {V W : NameTable → α → Prop} {U : NameTable → β → Prop}

/-- Less may be said of what is yielded. -/
theorem Keeps.imp {act : Check α} (h : Keeps t₀ act V)
    (hvw : ∀ t a, t₀.Below t → V t a → W t a) : Keeps t₀ act W := by
  intro p hp hb
  obtain ⟨ho, hf, hv⟩ := h p hp hb
  exact ⟨ho, hf, hvw _ _ (hb.trans hf.toBelow) hv⟩

theorem Keeps.done {act : Check α} (h : Keeps t₀ act V) : Keeps t₀ act always :=
  h.imp fun _ _ _ _ => trivial

theorem Keeps.discard {act : Check α} (h : Keeps t₀ act V) : Keeps t₀ (discard act) always :=
  fun p hp hb => h.done p hp hb

/-- The second part works in a table that has room for the handles of the first. -/
theorem Keeps.bind {act : Check α} {f : α → Check β} (h : Keeps t₀ act V)
    (h' : ∀ t₁ a, t₀.Below t₁ → V t₁ a → Keeps t₁ (f a) U) : Keeps t₀ (act >>= f) U := by
  intro p hp hb
  obtain ⟨ho, hf, hv⟩ := h p hp hb
  obtain ⟨ho', hf', hu⟩ := h' _ _ (hb.trans hf.toBelow) hv (act p).2 ho (.refl _)
  exact ⟨ho', hf.trans hf', hu⟩

theorem Keeps.nameless {act : Check α} [h : Nameless act]
    (hv : ∀ p, t₀.Below p.names → V p.names (act p).1) : Keeps t₀ act V := by
  intro p hp hb
  have hn := h.names p
  refine ⟨⟨hn ▸ hp.names, (h.astray p).trans hp.astray⟩, ?_, ?_⟩
  · rw [hn]
    exact .refl _
  · rw [hn]
    exact hv p hb

theorem Keeps.unit {act : Check α} [Nameless act] : Keeps t₀ act always :=
  .nameless fun _ _ => trivial

theorem Keeps.pure {a : α} (h : ∀ t, t₀.Below t → V t a) : Keeps t₀ (pure a) V :=
  .nameless fun p hb => h p.names hb

theorem Keeps.seq {act : Check α} {f : α → Check β} [hact : Nameless act]
    (h : ∀ a, Keeps t₀ (f a) U) : Keeps t₀ (act >>= f) U := by
  intro p hp hb
  have hn := hact.names p
  have hp' : (act p).2.InOrder := ⟨hn ▸ hp.names, (hact.astray p).trans hp.astray⟩
  obtain ⟨ho, hf, hu⟩ := h (act p).1 (act p).2 hp' (hn ▸ hb)
  exact ⟨ho, hn ▸ hf, hu⟩

/-- A remark that is made in the middle or left out. -/
theorem Keeps.noting {c : Prop} [Decidable c] {note : Check Unit} [Nameless note]
    {next : Unit → Check α} (h : Keeps t₀ (next ()) V) :
    Keeps t₀ (if c then note >>= next else next ()) V := by
  split
  · exact .seq fun _ => h
  · exact h

theorem Keeps.unless {c : Prop} [Decidable c] {note : Check Unit} [Nameless note]
    {next : Unit → Check α} (h : Keeps t₀ (next ()) V) :
    Keeps t₀ (if c then next () else note >>= next) V := by
  split
  · exact h
  · exact .seq fun _ => h

/-- A handle that leads somewhere is followed without leaving a mark. -/
theorem Keeps.following {inside : NameTable → Bool} {read : NameTable → α}
    (hin : ∀ t, t.InOrder → t₀.Below t → inside t = true)
    (hv : ∀ t, t.InOrder → t₀.Below t → V t (read t)) : Keeps t₀ (following inside read) V := by
  intro p hp hb
  refine ⟨⟨hp.names, ?_⟩, .refl _, hv _ hp.names hb⟩
  change (p.astray || !inside p.names) = false
  rw [hin _ hp.names hb, hp.astray]
  rfl

/-- A step of the table that keeps it in order. -/
theorem Keeps.naming {act : NameTable → α × NameTable}
    (ho : ∀ t, t.InOrder → t₀.Below t → (act t).2.InOrder) (hf : ∀ t : NameTable, t.Follows (act t).2)
    (hv : ∀ t, t.InOrder → t₀.Below t → V (act t).2 (act t).1) : Keeps t₀ (naming act) V :=
  fun _ hp hb => ⟨⟨ho _ hp.names hb, hp.astray⟩, hf _, hv _ hp.names hb⟩

/-- The entities of a scope that was closed are still there, so handles to them still lead
somewhere. -/
theorem Keeps.inScope {act : Check α} (h : Keeps t₀ act always) :
    Keeps t₀ (inScope act) always := by
  intro p hp hb
  obtain ⟨ho, hf, -⟩ := h (modifyNames NameTable.openScope p).2 ⟨hp.names.openScope, hp.astray⟩
    ⟨hb.entities, hb.classes⟩
  exact ⟨⟨ho.names.closeScope, ho.astray⟩, hf.nested, trivial⟩

/-- The handle leads to an entity. -/
abbrev leads : NameTable → EntityId → Prop := fun t id => id.index < t.entities.size

theorem keeps_entityOf {id : EntityId} (h : leads t₀ id) :
    Keeps t₀ (entityOf id) fun t e => e.Inside t := by
  refine .following ?_ fun t ht _ => ⟨ht.ty_entity id, fun _ hc => ht.callee_entity hc⟩
  intro t _ hb
  exact decide_eq_true (Nat.lt_of_lt_of_le h hb.entities)

theorem keeps_classOf {cls : ClassId} (h : cls.index < t₀.classes.size) :
    Keeps t₀ (classOf cls) always := by
  refine .following ?_ fun _ _ _ => trivial
  intro t _ hb
  exact decide_eq_true (Nat.lt_of_lt_of_le h hb.classes)

/-- A field that is found in a class is an entity of the table. -/
theorem keeps_fieldOf {cls : ClassId} (h : cls.index < t₀.classes.size) (name : String) :
    Keeps t₀ (fieldOf cls name) fun t found => ∀ id, found = .ok id → leads t id := by
  refine .following ?_ ?_
  · intro t ht hb
    exact ht.hasFields (Nat.lt_of_lt_of_le h hb.classes)
  · intro t ht hb id hid
    exact ht.findField_lt (Nat.lt_of_lt_of_le h hb.classes) hid

/-- A call asks for the entities of the parameters. -/
theorem keeps_paramTypes {callee : Callee} (h : callee.Within t₀.entities.size) :
    Keeps t₀ (paramTypes callee) always := by
  refine .following ?_ fun _ _ _ => trivial
  intro t _ hb
  exact NameTable.hasParams_of_within (h.mono hb.entities)

/-- The variables of the innermost scope can be those of a frame. -/
theorem keeps_names :
    Keeps t₀ names fun t scopes => ∀ paramCount address,
      Callee.Within t.entities.size { paramCount, locals := scopes.current.locals, address } :=
  fun _ hp _ => ⟨hp, .refl _, fun _ _ => (hp.names.scopes _ (List.mem_cons_self ..)).locals⟩

/-- In place of an error stands the handle of the unknown entity. -/
theorem keeps_orUnknown {r : Except NameError EntityId} {P : EntityId → Prop}
    (hu : P NameTable.unknownId) (h : ∀ id, r = .ok id → leads t₀ id ∧ P id) :
    Keeps t₀ (orUnknown r) fun t id => leads t id ∧ P id := by
  cases r with
  | ok id =>
      refine .pure fun t hb => ?_
      obtain ⟨hl, hP⟩ := h id rfl
      exact ⟨Nat.lt_of_lt_of_le hl hb.entities, hP⟩
  | error e =>
      rw [orUnknown]
      intro p hp hb
      exact ⟨⟨hp.names, hp.astray⟩, .refl _, hp.names.unknownId_lt, hu⟩

/-- What is declared has a handle of its own, apart from the predeclared ones. -/
theorem keeps_declare {ty : Ty} (h : ty.Within t₀.classes.size) (form : Form) (name : String) :
    Keeps t₀ (declare form name ty) fun t id => leads t id ∧ NameTable.IsDeclared id := by
  have hinsert : Keeps t₀ (naming fun t => t.insert form name ty) fun t r =>
      ∀ id, r = .ok id → leads t id ∧ NameTable.IsDeclared id := by
    refine .naming ?_ (fun t => t.follows_insert form name ty) ?_
    · intro t ht hb
      exact ht.insert (h.mono hb.classes) form name
    · intro t ht _ id hid
      obtain ⟨hge, hlt⟩ := ht.insert_ok hid
      exact ⟨hlt, .inr hge⟩
  exact hinsert.bind fun t r _ hr => keeps_orUnknown (.inl rfl) hr

/-- A name resolves to an entity of the table, or to the unknown one. -/
theorem keeps_resolve (name : String) : Keeps t₀ (resolve name) leads := by
  intro p hp hb
  have hfound : ∀ id, p.names.find name = .ok id → leads p.names id ∧ True :=
    fun id hid => ⟨hp.names.find_lt hid, trivial⟩
  obtain ⟨ho, hf, hv, -⟩ := keeps_orUnknown (P := fun _ => True) trivial hfound p hp (.refl _)
  exact ⟨ho, hf, hv⟩

/-- Only what a program declares is completed, never what is predeclared. -/
theorem keeps_complete {id : EntityId} {f : NameTable → NameTable} (hl : leads t₀ id)
    (ho : ∀ t, t.InOrder → t₀.Below t → (f t).InOrder) (hf : ∀ t : NameTable, t.Follows (f t)) :
    Keeps t₀ (do Functor.discard (entityOf id); modifyNames f) always :=
  (keeps_entityOf hl).discard.bind fun _ _ hb _ =>
    .naming (fun t ht hb' => ho t ht (hb.trans hb')) hf fun _ _ _ => trivial

theorem keeps_setConstant {id : EntityId} (hl : leads t₀ id) (hd : NameTable.IsDeclared id)
    (value : Int32) : Keeps t₀ (setConstant id value) always :=
  keeps_complete hl (fun _ ht _ => ht.setConstant hd value) fun t => t.follows_modify _ _

theorem keeps_setCallee {id : EntityId} (hl : leads t₀ id) (hd : NameTable.IsDeclared id)
    {callee : Callee} (hc : callee.Within t₀.entities.size) :
    Keeps t₀ (setCallee id callee) always :=
  keeps_complete hl (fun _ ht hb => ht.setCallee hd (hc.mono hb.entities))
    fun t => t.follows_modify _ _

theorem keeps_setFields {cls : ClassId} (h : cls.index < t₀.classes.size) :
    Keeps t₀ (setFields cls) always :=
  (keeps_classOf h).discard.bind fun _ _ _ _ =>
    .naming (fun _ ht _ => ht.setFields cls) (fun t => t.follows_setFields cls) fun _ _ _ => trivial

/-! ## Expressions -/

/-- The handles in an operand lead somewhere. -/
abbrev inside : NameTable → Operand → Prop := fun t x => x.Inside t

theorem keeps_unknown : Keeps t₀ (pure .unknown) inside :=
  .pure fun t _ => Operand.inside_unknown t

theorem keeps_onStack {ty : Ty} (h : ty.Within t₀.classes.size) :
    Keeps t₀ (pure (.onStack ty)) inside :=
  .pure fun _ hb => Operand.inside_onStack (h.mono hb.classes)

/-- The operand of an entity has no handles but those of the entity. -/
theorem keeps_operandFor {id : EntityId} (h : leads t₀ id) : Keeps t₀ (operandFor id) inside := by
  refine (keeps_entityOf h).bind fun t e hb ⟨hty, _⟩ => ?_
  have hplace : ∀ place : Place, (∀ id, place ≠ .method id) →
      Keeps t (pure ⟨place, e.ty⟩) inside :=
    fun place hp => .pure fun t' hb' => .of_ty (hty.mono hb'.classes) hp
  split
  · exact hplace _ (by simp)
  · exact hplace _ (by simp)
  · exact hplace _ (by simp)
  · refine .pure fun t' hb' => ⟨hty.mono hb'.classes, ?_⟩
    rintro _ ⟨⟩
    exact Nat.lt_of_lt_of_le h (hb.trans hb').entities
  · exact keeps_unknown
  · exact .seq fun _ => keeps_unknown
  · exact .seq fun _ => keeps_unknown

/-- A loaded operand is the operand itself, its value on the stack, or nothing that is known. -/
theorem load_fst (x : Operand) (p : Pass) :
    (load x p).1 = x ∨ (load x p).1 = .onStack x.ty ∨ (load x p).1 = .unknown := by
  obtain ⟨place, ty⟩ := x
  cases place with
  | stack | unknown => exact .inl rfl
  | method id => exact .inr (.inr rfl)
  | constant | frame | global | field | element => exact .inr (.inl rfl)

theorem keeps_load {x : Operand} (h : x.Inside t₀) : Keeps t₀ (load x) inside := by
  refine .nameless fun p hb => ?_
  have hx := h.mono hb
  change ((load x p).1).Inside p.names
  rcases load_fst x p with heq | heq | heq <;> rw [heq]
  · exact hx
  · exact Operand.inside_onStack hx.ty
  · exact Operand.inside_unknown _

/-- The class before a field leads somewhere, and so does the type of the field. -/
theorem keeps_selectField {base : Ty} (h : base.Within t₀.classes.size) (field : Option String) :
    Keeps t₀ (selectField base field) inside := by
  unfold selectField
  split
  · exact keeps_unknown
  · refine (keeps_fieldOf h _).bind fun t found _ hfound => ?_
    split
    · exact .seq fun _ => keeps_unknown
    · next id =>
        refine (keeps_entityOf (hfound id rfl)).bind fun t' e _ hentity => ?_
        split
        · exact .pure fun t'' hb => .of_ty (hentity.1.mono hb.classes) (by simp)
        · exact keeps_unknown
  · exact keeps_unknown
  · exact .seq fun _ => keeps_unknown

theorem keeps_selectElement {x : Operand} (h : x.Inside t₀) (index : Operand) :
    Keeps t₀ (selectElement x index) inside := by
  unfold selectElement
  have hty := h.ty
  split
  · next elem helem =>
      rw [helem, Ty.within_array] at hty
      refine .unless (.seq fun _ => ?_)
      exact .pure fun t hb => .of_ty (hty.mono hb.classes) (by simp)
  · exact keeps_unknown
  · exact .seq fun _ => keeps_unknown

theorem keeps_arithmetic (op : Arithmetic) (x y : Operand) :
    Keeps t₀ (arithmetic op x y) inside := by
  unfold arithmetic
  split
  · exact .seq fun _ => keeps_onStack trivial
  · exact .seq fun _ => keeps_unknown

theorem keeps_negated {x : Operand} (h : x.Inside t₀) : Keeps t₀ (negated x) inside := by
  unfold negated
  split
  · split
    · exact .pure fun t hb => .of_ty (h.ty.mono hb.classes) (by simp)
    · refine (keeps_load h).bind fun t y _ hy => ?_
      exact .seq fun _ => keeps_onStack hy.ty
  · exact .seq fun _ => keeps_unknown

theorem Entity.within_namedType {e : Entity} {n : Nat} (h : e.ty.Within n) :
    ∀ ty, e.namedType? = some ty → ty.Within n := by
  intro ty hty
  unfold Entity.namedType? at hty
  split at hty
  · cases hty
    exact h
  · cases hty
    trivial
  · cases hty

theorem keeps_allocatedType (name : String) :
    Keeps t₀ (allocatedType name) fun t named => ∀ ty, named = some ty → ty.Within t.classes.size :=
  (keeps_resolve name).bind fun _ _ _ hid => (keeps_entityOf hid).bind fun _ _ _ ⟨hty, _⟩ =>
    .pure fun _ hb => Entity.within_namedType (hty.mono hb.classes)

theorem keeps_allocateObject {named : Option Ty}
    (h : ∀ ty, named = some ty → ty.Within t₀.classes.size) :
    Keeps t₀ (allocateObject named) inside := by
  unfold allocateObject
  split
  · next cls =>
      refine (keeps_classOf (h _ rfl)).bind fun t info hb _ => .seq fun _ => ?_
      exact keeps_onStack ((h _ rfl).mono hb.classes)
  · exact keeps_unknown
  · exact .seq fun _ => keeps_unknown

/-- A callee is a method of the table, with the handles of its parameters. -/
theorem keeps_calleeOf {x : Operand} (h : x.Inside t₀) :
    Keeps t₀ (calleeOf x) fun t callee => ∀ c ∈ callee, c.Within t.entities.size := by
  unfold calleeOf
  split
  · next id hid =>
      refine (keeps_entityOf (h.method id hid)).bind fun t e _ he => .pure fun t' hb c hc => ?_
      exact (he.callee c hc).mono hb.entities
  · exact .pure fun _ _ _ hc => by cases hc

/-- The types of the parameters are read from the table at every call. -/
theorem keeps_callWith {x : Operand} (h : x.Inside t₀) {args : List Ty → Check Unit}
    (hargs : ∀ t formals, Keeps t (args formals) always) (count : Nat) (rparen : Mark) :
    Keeps t₀ (callWith x args count rparen) inside := by
  unfold callWith
  refine .seq fun _ => (keeps_calleeOf h).bind fun t callee hb hc => ?_
  split
  · next callee =>
      refine (keeps_paramTypes (hc callee rfl)).bind fun t' formals hb' _ => ?_
      refine (hargs t' formals).bind fun t'' _ hb'' _ => ?_
      exact .seq fun _ => .seq fun _ => .seq fun _ =>
        keeps_onStack (h.ty.mono ((hb.trans hb').trans hb'').classes)
  · refine .unless ((hargs t _).bind fun t' _ _ _ => ?_)
    exact .seq fun _ => keeps_unknown

mutual

/-- Handles in expressions, one case per form. -/
theorem keeps_designator (t₀ : NameTable) : ∀ d, Keeps t₀ (designator d) inside
  | .missing => by
      rw [designator]
      exact .seq fun _ => keeps_unknown
  | .name n => by
      rw [designator]
      exact .seq fun _ => (keeps_resolve n).bind fun _ _ _ hid => keeps_operandFor hid
  | .field base f => by
      rw [designator]
      refine (keeps_designator t₀ base).bind fun t x _ hx => ?_
      refine (keeps_load hx).bind fun t' y _ hy => ?_
      exact .seq fun _ => .seq fun _ => keeps_selectField hy.ty f
  | .index base i rbracket => by
      rw [designator]
      refine (keeps_designator t₀ base).bind fun t x _ hx => ?_
      refine (keeps_load hx).bind fun t' y _ hy => .seq fun _ => ?_
      refine (keeps_expr t' i).bind fun t'' index hb _ => ?_
      exact .seq fun _ => keeps_selectElement (hy.mono hb) index

theorem keeps_expr (t₀ : NameTable) : ∀ e, Keeps t₀ (expr e) inside
  | .number value | .char value => by
      rw [expr]
      exact .seq fun _ => .pure fun t _ => .of_ty trivial (by simp)
  | .value source => by
      rw [expr]
      exact keeps_designator t₀ source
  | .call callee args rparen => by
      rw [expr]
      refine (keeps_designator t₀ callee).bind fun t x _ hx => ?_
      have hargs : ∀ t formals, Keeps t (arguments args formals) always :=
        fun t formals => keeps_arguments t args formals
      refine (keeps_callWith hx hargs args.length rparen).bind fun t' y _ hy => ?_
      split
      · exact .seq fun _ => keeps_unknown
      · exact .pure fun t'' hb => hy.mono hb
  | .newNothing => by
      rw [expr]
      exact .seq fun _ => .seq fun _ => keeps_unknown
  | .newObject cls => by
      rw [expr]
      refine .seq fun _ => .seq fun _ => ?_
      exact (keeps_allocatedType cls).bind fun _ _ _ hn => keeps_allocateObject hn
  | .newArray elem size rbracket => by
      rw [expr]
      refine .seq fun _ => .seq fun _ => ?_
      refine (keeps_allocatedType elem).bind fun t named _ hn => .seq fun _ => .noting ?_
      refine (keeps_expr t size).bind fun t' n hb _ => .unless ?_
      refine .seq fun _ => .seq fun _ => .seq fun _ => keeps_onStack ?_
      cases named with
      | none => trivial
      | some ty => exact (hn ty rfl).mono hb.classes
  | .paren inner rparen => by
      rw [expr]
      refine (Keeps.seq fun _ => ?_)
      exact (keeps_expr t₀ inner).bind fun t x _ hx => .seq fun _ => .pure fun t' hb => hx.mono hb
  | .negate operand => by
      rw [expr]
      exact .seq fun _ => (keeps_expr t₀ operand).bind fun _ _ _ hx => keeps_negated hx
  | .binary op left right => by
      rw [expr]
      refine (keeps_expr t₀ left).bind fun t x _ hx => .seq fun _ => ?_
      refine (keeps_load hx).bind fun t' y _ _ => (keeps_expr t' right).bind fun t'' z _ hz => ?_
      exact (keeps_load hz).bind fun _ w _ _ => keeps_arithmetic op y w
  | .missing => by
      rw [expr]
      exact .seq fun _ => keeps_unknown

theorem keeps_arguments (t₀ : NameTable) :
    ∀ args formals, Keeps t₀ (arguments args formals) always
  | [], formals => by
      rw [arguments]
      exact .unit
  | arg :: rest, formals => by
      rw [arguments]
      refine (keeps_expr t₀ arg).bind fun t y _ hy => ?_
      refine (keeps_load hy).bind fun t' z _ _ => .seq fun _ => ?_
      exact .unless (keeps_arguments t' rest formals.tail)

end

theorem keeps_condition (t₀ : NameTable) (c : Condition) : Keeps t₀ (condition c) always := by
  unfold condition
  refine (keeps_expr t₀ c.left).bind fun t x _ hx => (keeps_load hx).bind fun t' y _ _ => ?_
  have hright : Keeps t' (do
      let z ← load (← expr c.right)
      if !y.ty.compatible z.ty then report .comparisonMismatch
      else if (y.ty.isReference || z.ty.isReference) && !(c.rel.getD .eq).isEquality then
        report .unordered
      return c.rel.getD .eq) always :=
    (keeps_expr t' c.right).bind fun _ _ _ hz => (keeps_load hz).bind fun _ _ _ _ => .unit
  split
  · exact .seq fun _ => hright
  · exact .seq fun _ => hright

/-! ## Statements -/

theorem keeps_returnValue (result : Ty) (value : Option Expr) :
    Keeps t₀ (returnValue result value) always := by
  cases value with
  | some e =>
      rw [returnValue]
      exact (keeps_expr t₀ e).bind fun _ _ _ hx => (keeps_load hx).bind fun _ _ _ _ => .unit
  | none =>
      rw [returnValue]
      exact .unit

theorem keeps_junk {problem : Problem} {skipped : Nat} {semicolon : Bool} {next : Check α}
    (h : Keeps t₀ next V) :
    Keeps t₀ (do
      report problem
      consumeMany skipped
      if semicolon then consume
      resync
      next) V :=
  .seq fun _ => .seq fun _ => .noting (.seq fun _ => h)

mutual

/-- Statements keep the table in order, one case per form. -/
theorem keeps_stmt (t₀ : NameTable) (result : Ty) : ∀ s, Keeps t₀ (stmt result s) always
  | .assign target value semicolon => by
      rw [stmt]
      refine (keeps_designator t₀ target).bind fun t x _ _ => .seq fun _ => ?_
      exact (keeps_expr t value).bind fun _ _ _ _ => .unit
  | .call callee args rparen semicolon => by
      rw [stmt]
      refine (keeps_designator t₀ callee).bind fun t x _ hx => ?_
      refine (keeps_callWith hx ?_ args.length rparen).bind fun _ _ _ _ => .unit
      exact fun t formals => keeps_arguments t args formals
  | .idle target semicolon => by
      rw [stmt]
      exact (keeps_designator t₀ target).discard.bind fun _ _ _ _ => .unit
  | .ifThen lparen cond rparen body => by
      rw [stmt]
      refine .seq fun _ => .seq fun _ => (keeps_condition t₀ cond).bind fun t rel _ _ => ?_
      refine .seq fun _ => .seq fun _ => ?_
      exact (keeps_stmt t result body).bind fun _ _ _ _ => .unit
  | .ifElse lparen cond rparen body alternative => by
      rw [stmt]
      refine .seq fun _ => .seq fun _ => (keeps_condition t₀ cond).bind fun t rel _ _ => ?_
      refine .seq fun _ => .seq fun _ => (keeps_stmt t result body).bind fun t' _ _ _ => ?_
      refine .seq fun _ => .seq fun _ => .seq fun _ => ?_
      exact (keeps_stmt t' result alternative).bind fun _ _ _ _ => .unit
  | .loop lparen cond rparen body => by
      rw [stmt]
      refine .seq fun _ => .seq fun _ => .seq fun _ => ?_
      refine (keeps_condition t₀ cond).bind fun t rel _ _ => .seq fun _ => .seq fun _ => ?_
      exact (keeps_stmt t result body).bind fun _ _ _ _ => .unit
  | .ret value semicolon => by
      rw [stmt]
      exact .seq fun _ => (keeps_returnValue result value).bind fun _ _ _ _ => .unit
  | .read lparen target rparen semicolon => by
      rw [stmt]
      exact .seq fun _ => .seq fun _ => (keeps_designator t₀ target).bind fun _ _ _ _ => .unit
  | .print lparen value width rparen semicolon => by
      rw [stmt]
      refine .seq fun _ => .seq fun _ => (keeps_expr t₀ value).bind fun t x _ _ => ?_
      refine .seq fun i => .seq fun w => ?_
      dsimp only
      split <;> exact .unit
  | .block body rbrace => by
      rw [stmt]
      exact .seq fun _ => (keeps_stmts t₀ result body).bind fun _ _ _ _ => .unit
  | .empty => by
      rw [stmt]
      exact .unit
  | .junk skipped semicolon next => by
      rw [stmt]
      exact keeps_junk (keeps_stmt t₀ result next)
  | .missing => by
      rw [stmt]
      exact .unit

theorem keeps_stmts (t₀ : NameTable) (result : Ty) : ∀ body, Keeps t₀ (stmts result body) always
  | [] => by
      rw [stmts]
      exact .unit
  | s :: rest => by
      rw [stmts]
      exact (keeps_stmt t₀ result s).bind fun t _ _ _ => keeps_stmts t result rest

end

/-! ## Declarations -/

/-- All classes in the type are declared. -/
abbrev known : NameTable → Ty → Prop := fun t ty => ty.Within t.classes.size

theorem keeps_orExpected {named : Option Ty}
    (h : ∀ ty, named = some ty → ty.Within t₀.classes.size) :
    Keeps t₀ (typeRef.orExpected named) known := by
  cases named with
  | some ty => exact .pure fun t hb => (h ty rfl).mono hb.classes
  | none => exact .seq fun _ => .pure fun _ _ => trivial

/-- A type names only classes that are declared. -/
theorem keeps_typeRef (t₀ : NameTable) (r : TypeRef) : Keeps t₀ (typeRef r) known := by
  cases r with
  | missing =>
      rw [typeRef]
      exact .seq fun _ => .pure fun _ _ => trivial
  | named name brackets =>
      rw [typeRef]
      refine .seq fun _ => (keeps_resolve name).bind fun t id _ hid => ?_
      refine (keeps_entityOf hid).bind fun t' e _ ⟨hty, _⟩ => ?_
      refine (keeps_orExpected (Entity.within_namedType hty)).bind fun t'' ty _ hty => ?_
      cases brackets with
      | none => exact .pure fun _ hb => hty.mono hb.classes
      | some rbracket =>
          exact .seq fun _ => .seq fun _ => .pure fun _ hb =>
            Ty.within_array.2 (hty.mono hb.classes)

theorem keeps_declareName {ty : Ty} (h : ty.Within t₀.classes.size) (form : Form)
    (name : Option String) :
    Keeps t₀ (declareName form ty name) fun t id => leads t id ∧ NameTable.IsDeclared id := by
  unfold declareName
  refine .seq fun _ => ?_
  cases name with
  | some n => exact keeps_declare h form n
  | none => exact fun p hp _ => ⟨hp, .refl _, hp.names.unknownId_lt, .inl rfl⟩

theorem keeps_moreVars {ty : Ty} (h : ty.Within t₀.classes.size) (others : List (Option String)) :
    Keeps t₀ (moreVars ty others) always := by
  induction others generalizing t₀ with
  | nil =>
      rw [moreVars]
      exact .unit
  | cons name rest ih =>
      rw [moreVars]
      refine .seq fun _ => (keeps_declareName h .var name).discard.bind fun t _ hb _ => ?_
      exact ih (h.mono hb.classes)

theorem keeps_varDecl (t₀ : NameTable) (d : VarDecl) : Keeps t₀ (varDecl d) always := by
  unfold varDecl
  refine (keeps_typeRef t₀ d.type).bind fun t ty _ hty => ?_
  refine (keeps_declareName hty .var d.first).discard.bind fun t' _ hb _ => ?_
  exact (keeps_moreVars (hty.mono hb.classes) d.others).bind fun _ _ _ _ => .unit

theorem keeps_varDecls (t₀ : NameTable) (ds : List VarDecl) : Keeps t₀ (varDecls ds) always := by
  induction ds generalizing t₀ with
  | nil =>
      rw [varDecls]
      exact .unit
  | cons d rest ih =>
      rw [varDecls]
      exact (keeps_varDecl t₀ d).bind fun t _ _ _ => ih t

theorem keeps_constantValue {id : EntityId} (hl : leads t₀ id) (hd : NameTable.IsDeclared id)
    (ty : Ty) (value : Option Literal) : Keeps t₀ (constantValue ty id value) always := by
  cases value with
  | some lit =>
      rw [constantValue]
      exact .unless (.seq fun _ => keeps_setConstant hl hd lit.value)
  | none =>
      rw [constantValue]
      exact .seq fun _ => (keeps_entityOf hl).discard

theorem keeps_constDecl (t₀ : NameTable) (d : ConstDecl) : Keeps t₀ (constDecl d) always := by
  unfold constDecl
  refine .seq fun _ => (keeps_typeRef t₀ d.type).bind fun t ty _ hty => ?_
  refine (keeps_declareName hty .constant d.name).bind fun t' id _ hid => .seq fun _ => ?_
  exact (keeps_constantValue hid.1 hid.2 ty d.value).bind fun _ _ _ _ => .unit

theorem keeps_newClass (t₀ : NameTable) (name : String) :
    Keeps t₀ (naming fun t => t.newClass name) fun t cls => cls.index < t.classes.size :=
  .naming (fun _ ht _ => ht.newClass name) (fun t => t.follows_newClass name)
    fun t _ _ => t.newClass_lt name

/-- A class gets as its fields what stands in its scope. -/
theorem keeps_classDecl (t₀ : NameTable) (d : ClassDecl) : Keeps t₀ (classDecl d) always := by
  unfold classDecl
  refine .seq fun _ => .seq fun _ => (keeps_newClass t₀ _).bind fun t cls _ hcls => ?_
  have hbody : ∀ t' : NameTable, t.Below t' → Keeps t' (inScope do
      require .lbrace d.lbrace
      varDecls d.fields
      setFields cls
      require .rbrace d.rbrace) always := by
    intro t' hb
    refine .inScope (.seq fun _ => (keeps_varDecls t' d.fields).bind fun t'' _ hb' _ => ?_)
    have hcls' := Nat.lt_of_lt_of_le hcls (hb.trans hb').classes
    exact (keeps_setFields hcls').bind fun _ _ _ _ => .unit
  dsimp only
  split
  · next n _ =>
      have hty : Ty.Within t.classes.size (.object cls) := hcls
      exact (keeps_declare hty .typeName n).discard.bind fun t' _ hb _ => hbody t' hb
  · exact hbody t (.refl t)

theorem keeps_declaration (t₀ : NameTable) (d : Declaration) :
    Keeps t₀ (declaration d) always := by
  cases d with
  | const d => exact keeps_constDecl t₀ d
  | cls d => exact keeps_classDecl t₀ d
  | vars d => exact keeps_varDecl t₀ d
  | junk skipped semicolon =>
      rw [declaration]
      have hend : Keeps t₀ (Pure.pure ()) always := .unit
      exact keeps_junk hend

theorem keeps_declarations (t₀ : NameTable) (ds : List Declaration) :
    Keeps t₀ (declarations ds) always := by
  induction ds generalizing t₀ with
  | nil =>
      rw [declarations]
      exact .unit
  | cons d rest ih =>
      rw [declarations]
      exact (keeps_declaration t₀ d).bind fun t _ _ _ => ih t

theorem keeps_param (t₀ : NameTable) (q : Param) : Keeps t₀ (param q) always := by
  unfold param
  refine (keeps_typeRef t₀ q.type).bind fun t ty _ hty => ?_
  exact (keeps_declareName hty .var q.name).discard

theorem keeps_params (t₀ : NameTable) (ps : List Param) : Keeps t₀ (params ps) always := by
  induction ps generalizing t₀ with
  | nil =>
      rw [params]
      exact .unit
  | cons q rest ih =>
      rw [params]
      exact (keeps_param t₀ q).bind fun t _ _ _ => .unless (ih t)

theorem keeps_resultType (t₀ : NameTable) (r : ResultType) : Keeps t₀ (resultType r) known := by
  cases r with
  | void =>
      rw [resultType]
      exact .seq fun _ => .pure fun _ _ => trivial
  | type r =>
      rw [resultType]
      exact keeps_typeRef t₀ r

theorem keeps_methodBody (t₀ : NameTable) (m : Method) (result : Ty) :
    Keeps t₀ (methodBody m result) always := by
  unfold methodBody
  exact .seq fun _ => (keeps_stmts t₀ result m.body).bind fun _ _ _ _ => .unit

/-- A method is completed under its own handle, inside its scope. -/
theorem keeps_methodCode {id : EntityId} (hl : leads t₀ id) (hd : NameTable.IsDeclared id)
    (m : Method) (result : Ty) (paramCount : Nat) :
    Keeps t₀ (methodCode m result id paramCount) always := by
  unfold methodCode
  refine (keeps_varDecls t₀ m.locals).bind fun t _ hb _ => ?_
  refine keeps_names.bind fun t' scopes hb' hlocals => .noting (.seq fun address => ?_)
  have hl' := Nat.lt_of_lt_of_le hl (hb.trans hb').entities
  refine (keeps_setCallee hl' hd (hlocals _ _)).bind fun t'' _ _ _ => .noting ?_
  exact keeps_methodBody t'' m result

theorem keeps_method (t₀ : NameTable) (m : Method) : Keeps t₀ (method m) always := by
  unfold method
  refine (keeps_resultType t₀ m.result).bind fun t result _ hty => ?_
  refine (keeps_declareName hty .method m.name).bind fun t' id _ hid => .inScope ?_
  refine .seq fun _ => (keeps_params t' m.params).bind fun t'' _ hb _ => ?_
  refine .seq fun scopes => .noting (.seq fun _ => ?_)
  exact keeps_methodCode (Nat.lt_of_lt_of_le hid.1 hb.entities) hid.2 m result _

theorem keeps_methods (t₀ : NameTable) (ms : List Method) : Keeps t₀ (methods ms) always := by
  induction ms generalizing t₀ with
  | nil =>
      rw [methods]
      exact .unit
  | cons m rest ih =>
      rw [methods]
      exact (keeps_method t₀ m).bind fun t _ _ _ => ih t

theorem keeps_program (t₀ : NameTable) (p : Program) : Keeps t₀ (program p) always := by
  unfold program
  have hvoid : Ty.Within t₀.classes.size .void := trivial
  refine .seq fun _ => (keeps_declareName hvoid .program p.name).discard.bind fun t _ _ _ => ?_
  refine (Keeps.inScope ?_).bind fun _ _ _ _ => .noting .unit
  refine (keeps_declarations t p.declarations).bind fun t' _ _ _ => .seq fun _ => ?_
  refine (keeps_methods t' p.methods).bind fun _ _ _ _ => .seq fun _ => ?_
  exact .seq fun _ => .noting .unit

/-- The parts of the pass that stand for a rule of the grammar below the program. -/
inductive Rule : {α : Type} → Check α → Prop
  | designator (d : Designator) : Rule (designator d)
  | expr (e : Expr) : Rule (expr e)
  | arguments (args : List Expr) (formals : List Ty) : Rule (arguments args formals)
  | call (x : Operand) (args : List Expr) (rparen : Mark) :
      Rule (callWith x (fun formals => Check.arguments args formals) args.length rparen)
  | condition (c : Condition) : Rule (condition c)
  | stmt (result : Ty) (s : Stmt) : Rule (stmt result s)
  | stmts (result : Ty) (body : List Stmt) : Rule (stmts result body)
  | typeRef (r : TypeRef) : Rule (typeRef r)
  | varDecl (d : VarDecl) : Rule (varDecl d)
  | constDecl (d : ConstDecl) : Rule (constDecl d)
  | classDecl (d : ClassDecl) : Rule (classDecl d)
  | declaration (d : Declaration) : Rule (declaration d)
  | params (ps : List Param) : Rule (params ps)
  | method (m : Method) : Rule (method m)

theorem Rule.growing {act : Check α} (h : Rule act) : Growing act := by
  cases h <;> infer_instance

end Check

/-- The pass over a text, from its first token to its last. -/
def Pass.over (source : String) : Nat × Pass :=
  Check.program (Program.ofString source)
    (Pass.start (Upcoming.ofTokens (TokenList.ofString source)))

theorem code_compile (source : String) (options : Options) :
    (compile source options).code = (Pass.over source).2.code.toObject (Pass.over source).1 := by
  unfold compile Draft.ofString Pass.over Program.ofString
  generalize Upcoming.ofTokens (TokenList.ofString source) = up
  rw [Draft.ofUpcoming_eq up (Prod.eta _).symm]

theorem Pass.over_inOrder (source : String) :
    (Pass.over source).2.InOrder ∧ NameTable.initial.Follows (Pass.over source).2.names := by
  unfold Pass.over
  generalize Upcoming.ofTokens (TokenList.ofString source) = up
  obtain ⟨hend, hfollows, -⟩ :=
    Check.keeps_program .initial (Program.ofString source) (Pass.start up)
      (Pass.start_inOrder up) (.refl _)
  exact ⟨hend, hfollows⟩

/-- Whatever the text, no handle leads nowhere, every rule closes the scopes it opens, and at the
end only the outermost scope is open and its names mean what they meant at the start. The
predeclared methods then still have their parameters. -/
theorem compile_inOrder (source : String) (options : Options) :
    (compile source options).code = (Pass.over source).2.code.toObject (Pass.over source).1 ∧
      (Pass.over source).2.astray = false ∧
      (Pass.over source).2.names.depth = 1 ∧
      (∀ name ∈ ["int", "char", "ord", "chr", "len"], ∃ id,
        NameTable.initial.find name = .ok id ∧ (Pass.over source).2.names.find name = .ok id ∧
          (Pass.over source).2.names.entity id = NameTable.initial.entity id ∧
          ∀ c ∈ (NameTable.initial.entity id).callee?,
            (Pass.over source).2.names.paramTypes c = c.params) ∧
      ∀ {α : Type} (act : Check α), act.Rule → ∀ p : Pass,
        (act p).2.names.depth = p.names.depth ∧ (p.astray = true → (act p).2.astray = true) := by
  obtain ⟨hend, hfollows⟩ := Pass.over_inOrder source
  refine ⟨code_compile source options, hend.astray, ?_, ?_, ?_⟩
  · exact congrArg (·.length + 1) hfollows.enclosing
  · intro name hname
    obtain ⟨id, hid, hlt⟩ := NameTable.outermost_ids hname
    exact ⟨id, NameTable.find_current hid, NameTable.find_current (hfollows.kept name id hid),
      hend.names.entity_predeclared hlt,
      fun _ hc => hend.names.paramTypes_predeclared hlt hc⟩
  · intro α act hrule p
    have hgrows := hrule.growing.grows p
    exact ⟨congrArg (·.length + 1) hgrows.enclosing, hgrows.astray⟩

/-- A text that declares `int` once more, breaks off a class and a constant, and has no end. -/
theorem compile_inOrder_broken :
    let p := (Pass.over "program int final x = class \x7b C c[ ; \x7d \x7b int f(C c \x7b c.c = new c[").2
    p.astray = false ∧ p.names.depth = 1 ∧
      (∃ id, NameTable.initial.find "len" = .ok id ∧ p.names.find "len" = .ok id ∧
        p.names.entity id = NameTable.initial.entity id) ∧
      p.names.paramTypes ⟨1, #[⟨8⟩], 0, some .len⟩ = [.array .void] ∧
      ∀ q : Pass, (Check.classDecl ⟨none, .missing, [], .missing⟩ q).2.names.depth =
        q.names.depth := by
  obtain ⟨-, hastray, hdepth, hnames, hrules⟩ :=
    compile_inOrder "program int final x = class \x7b C c[ ; \x7d \x7b int f(C c \x7b c.c = new c[" {}
  obtain ⟨id, hid, hfound, hentity, hparams⟩ := hnames "len" (by decide)
  have hlen : NameTable.initial.find "len" = .ok ⟨7⟩ := rfl
  obtain rfl : ⟨7⟩ = id := Except.ok.inj (hlen.symm.trans hid)
  exact ⟨hastray, hdepth, ⟨_, hid, hfound, hentity⟩, hparams _ rfl,
    fun q => (hrules _ (.classDecl _) q).1⟩

end MicroJava
