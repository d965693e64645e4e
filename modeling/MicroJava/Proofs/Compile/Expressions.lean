import MicroJava.Proofs.Compile.Faultless
import MicroJava.Proofs.Names.Agreement
import MicroJava.Proofs.Resolved.Sizes
import MicroJava.Proofs.Resolved.Soundness

/-! # Expressions without a fault

A pass over an expression that meets no fault finds what the resolver finds, and writes what the
generator writes. The last instruction of a designator may still be missing: its operand then tells
which one it is. -/

namespace MicroJava

open Resolved (Env Referent Location Routine addressOf signatureOf resolveDesignator
  resolveExpr resolveArguments resolveCondition)

/-- The layout has the sizes and addresses that are known so far. -/
structure Covers (env : Env) (g : Progress) (layout : Resolved.Layout) : Prop where
  fields : ∀ cls, layout.fieldCount cls = (env.classes.getD cls.index []).length
  entries : ∀ (i : Nat) a, g.entries[i]? = some a → layout.entry i = a

theorem exists_covers (env : Env) (g : Progress) : ∃ layout, Covers env g layout := by
  refine ⟨⟨fun cls => (env.classes.getD cls.index []).length, fun i => g.entries.getD i 0⟩,
    fun _ => rfl, ?_⟩
  intro i a ha
  simp [ha]

/-- A layout that covers later methods covers the earlier ones. -/
theorem Covers.of_append {env env' : Env} {g g' : Progress} {layout : Resolved.Layout}
    {more : List Nat} (h : Covers env' g' layout) (hc : env'.classes = env.classes)
    (he : g'.entries = g.entries ++ more) : Covers env g layout := by
  refine ⟨hc ▸ h.fields, fun i a ha => h.entries i a ?_⟩
  rw [he, List.getElem?_append_left (List.getElem?_eq_some_iff.1 ha).1, ha]

/-- Between two declarations the table has nothing that the environment does not have. -/
structure Ready (g : Progress) (env : Env) (t : NameTable) : Prop where
  agrees : t.Agrees g env
  wellFormed : env.WellFormed
  classes : g.openClasses = 0
  methods : g.methods.length = env.signatures.length

/-- A declared method has the signature of its number, and its code starts at its address. -/
theorem Ready.method {g : Progress} {env : Env} {t : NameTable} (hr : Ready g env t) {index : Nat}
    {id : EntityId} {e : Entity} (hi : g.methods[index]? = some id)
    (he : t.entities[id.index]? = some e) :
    ∃ sig a callee, env.signatures[index]? = some sig ∧ g.entries[index]? = some a ∧
      e.kind = .method callee ∧ e.ty = sig.result ∧ t.Completes callee sig.params a := by
  obtain ⟨hlt, -⟩ := List.getElem?_eq_some_iff.1 hi
  have hsig := List.getElem?_eq_getElem (hr.methods ▸ hlt)
  obtain ⟨id', a, name, callee, hid, ha, he', hc⟩ := hr.agrees.methods index _ hsig
  obtain rfl : id' = id := Option.some.inj (hid.symm.trans hi)
  obtain rfl := Option.some.inj (he.symm.trans he')
  exact ⟨_, a, callee, hsig, ha, rfl, rfl, hc⟩

/-- The code that was written, whatever the addresses will be. -/
def Writes (env : Env) (g : Progress) (b b' : CodeBuffer)
    (code : Resolved.Layout → List Instruction) :
    Prop :=
  ∀ layout, Covers env g layout → b' = b.written (code layout)

theorem Writes.trans {env : Env} {g : Progress} {b b' b'' : CodeBuffer}
    {code code' : Resolved.Layout → List Instruction} (h : Writes env g b b' code)
    (h' : Writes env g b' b'' code') :
    Writes env g b b'' fun layout => code layout ++ code' layout := by
  intro layout hl
  rw [h' layout hl, h layout hl, CodeBuffer.written_written]

theorem Writes.append {env : Env} {g : Progress} {b b' : CodeBuffer}
    {code : Resolved.Layout → List Instruction} (h : Writes env g b b' code)
    (is : List Instruction) :
    Writes env g b (b'.written is) fun layout => code layout ++ is := by
  intro layout hl
  rw [h layout hl, CodeBuffer.written_written]

theorem writes_nil (env : Env) (g : Progress) (b : CodeBuffer) : Writes env g b b fun _ => [] := by
  intro layout hl
  rw [CodeBuffer.written_nil]

theorem Writes.congr {env : Env} {g : Progress} {b b' : CodeBuffer}
    {code code' : Resolved.Layout → List Instruction} (h : Writes env g b b' code)
    (hc : ∀ layout, code layout = code' layout) : Writes env g b b' code' := by
  intro layout hl
  rw [← hc layout]
  exact h layout hl

/-! ## Operands -/

/-- The operand of a location whose object and index are on the stack. -/
inductive At : Operand → Location → Prop
  | frame (slot : Nat) (ty : Ty) : At ⟨.frame slot, ty⟩ (.frame slot)
  | global (adr : Nat) (ty : Ty) : At ⟨.global adr, ty⟩ (.global adr)
  | field (object : Resolved.Expr) (adr : Nat) (ty : Ty) : At ⟨.field adr, ty⟩ (.field object adr)
  | element (array index : Resolved.Expr) (elem : Ty) :
      At ⟨.element, elem⟩ (.element array index elem)

theorem At.fetch {x : Operand} {loc : Location} (h : At x loc) : x.fetch = [loc.fetch] := by
  cases h <;> rfl

theorem At.storing? {x : Operand} {loc : Location} (h : At x loc) :
    x.storing? = some loc.store := by
  cases h <;> rfl

/-- An operand and what it refers to. -/
inductive Refers (g : Progress) (t : NameTable) : Operand → Referent → Prop
  | constant (v : Int32) (ty : Ty) : Refers g t ⟨.constant v, ty⟩ (.constant v)
  | place {x : Operand} {loc : Location} (h : At x loc) : Refers g t x (.place loc)
  | method {id : EntityId} {callee : Callee} {params : List Ty} {a index : Nat} (ty : Ty)
      (he : (t.entity id).callee? = some callee) (hc : t.Completes callee params a)
      (ha : g.entries[index]? = some a) :
      Refers g t ⟨.method id, ty⟩ (.routine (.method index) params)
  | builtin {id : EntityId} {callee : Callee} {params : List Ty} {b : Builtin} (ty : Ty)
      (he : (t.entity id).callee? = some callee) (hb : callee.builtin = some b)
      (hp : t.Takes callee params) :
      Refers g t ⟨.method id, ty⟩ (.routine (.builtin b) params)

theorem Refers.place_ne {g : Progress} {t : NameTable} {x : Operand} {r : Referent}
    (h : Refers g t x r) : x.place ≠ .unknown := by
  cases h with
  | place ha => cases ha <;> simp
  | constant | method | builtin => simp

/-- Only what is a place can be stored to. -/
theorem Refers.storing? {g : Progress} {t : NameTable} {x : Operand} {r : Referent}
    {i : Instruction} (h : Refers g t x r) (hi : x.storing? = some i) :
    ∃ loc, r = .place loc ∧ loc.store = i := by
  cases h with
  | place ha => exact ⟨_, rfl, Option.some.inj (ha.storing?.symm.trans hi)⟩
  | constant | method | builtin => cases hi

/-- What has been written for something before it is used. -/
def Resolved.Referent.before (layout : Resolved.Layout) : Referent → List Instruction
  | .constant _ => []
  | .place loc => loc.access layout
  | .routine _ _ => []

/-- An operand, the expression it is the value of, and the code written for it so far. -/
inductive Holds : Operand → Resolved.Expr → (Resolved.Layout → List Instruction) → Prop
  | constant {v : Int32} {e : Resolved.Expr} (ty : Ty) (h : e.constant? = some v) :
      Holds ⟨.constant v, ty⟩ e fun _ => []
  | place {x : Operand} {loc : Location} (h : At x loc) :
      Holds x (.value loc) fun layout => loc.access layout
  | stack {e : Resolved.Expr} (ty : Ty) (h : e.constant? = none) :
      Holds (.onStack ty) e fun layout => e.code layout

theorem code_of_constant? {layout : Resolved.Layout} {e : Resolved.Expr} {v : Int32}
    (h : e.constant? = some v) : e.code layout = [.const v] := by
  cases e with
  | constant w =>
      cases h
      rw [Resolved.Expr.code]
  | negate operand =>
      rw [Resolved.Expr.constant?] at h
      obtain ⟨w, hw, rfl⟩ := Option.map_eq_some_iff.1 h
      rw [Resolved.Expr.code, hw]
  | value | call | convert | length | newObject | newArray | binary => cases h

/-- With the instruction that fetches the operand, the code is complete. -/
theorem Holds.code {x : Operand} {e : Resolved.Expr} {before : Resolved.Layout → List Instruction}
    (h : Holds x e before) (layout : Resolved.Layout) :
    before layout ++ x.fetch = e.code layout := by
  cases h with
  | constant ty hc => rw [code_of_constant? hc]; rfl
  | place ha => rw [ha.fetch, Resolved.Expr.code]
  | stack ty hc => exact List.append_nil _

theorem Holds.place_ne {x : Operand} {e : Resolved.Expr}
    {before : Resolved.Layout → List Instruction}
    (h : Holds x e before) : x.place ≠ .unknown := by
  cases h with
  | constant => simp
  | place ha => cases ha <;> simp
  | stack => simp [Operand.onStack]

theorem Holds.constant?_eq_some {x : Operand} {e : Resolved.Expr}
    {before : Resolved.Layout → List Instruction} (h : Holds x e before) {c : Int32}
    (hc : x.place = .constant c) : e.constant? = some c ∧ before = fun _ => [] := by
  cases h with
  | constant ty he =>
      cases hc
      exact ⟨he, rfl⟩
  | place ha => cases ha <;> cases hc
  | stack => cases hc

theorem Holds.constant?_eq_none {x : Operand} {e : Resolved.Expr}
    {before : Resolved.Layout → List Instruction} (h : Holds x e before)
    (hc : ∀ c, x.place ≠ .constant c) : e.constant? = none := by
  cases h with
  | constant ty he => exact absurd rfl (hc _)
  | place ha => rfl
  | stack ty he => exact he

/-- Loading an operand completes the code of its expression. -/
theorem Holds.load {env : Env} {g : Progress} {b b₁ b₂ : CodeBuffer} {x y : Operand}
    {v : Resolved.Expr} {before : Resolved.Layout → List Instruction} {t t' : NameTable}
    (h : Holds x v before) (hw : Writes env g b b₁ before)
    (hl : (Check.load x).Gives t b₁ y t' b₂) :
    t' = t ∧ y = .onStack x.ty ∧ Writes env g b b₂ fun layout => v.code layout := by
  obtain ⟨-, rfl, rfl, rfl⟩ := hl.load
  exact ⟨rfl, if_neg h.place_ne, (hw.append x.fetch).congr h.code⟩

/-- What an expression has come to: a method that is not called, or a value. -/
def Agree (env : Env) (g : Progress) (e : Expr) (b : CodeBuffer) (x : Operand) (b' : CodeBuffer) :
    Prop :=
  (∃ id, x.place = .method id ∧ x.ty ≠ .error) ∨
    ∃ v before, resolveExpr env e = some (v, x.ty) ∧ Holds x v before ∧ Writes env g b b' before

/-- Only what has a value can be loaded. -/
theorem Agree.load {env : Env} {g : Progress} {e : Expr} {b b₁ b₂ : CodeBuffer} {x y : Operand}
    {t t' : NameTable} (h : Agree env g e b x b₁) (hl : (Check.load x).Gives t b₁ y t' b₂) :
    t' = t ∧ y = .onStack x.ty ∧
      ∃ v, resolveExpr env e = some (v, x.ty) ∧ Writes env g b b₂ fun layout => v.code layout := by
  rcases h with ⟨id, hid, -⟩ | ⟨v, before, hv, hh, hw⟩
  · exact absurd hid (hl.load.1 id)
  · obtain ⟨ht, hy, hw'⟩ := hh.load hw hl
    exact ⟨ht, hy, v, hv, hw'⟩

theorem Refers.agree {env : Env} {g : Progress} {d : Designator} {b b' : CodeBuffer} {x : Operand}
    {t : NameTable} {r : Referent} (h : Refers g t x r) (he : env.WellFormed)
    (hd : resolveDesignator env d = some (r, x.ty))
    (hw : Writes env g b b' r.before) : Agree env g (.value d) b x b' := by
  have hv : ∀ v, r.value? = some v → resolveExpr env (.value d) = some (v, x.ty) := by
    intro v hv
    simp [resolveExpr, hd, hv]
  have hty := (Resolved.resolveDesignator_ok he d r x.ty hd).ne_error he.proper
  cases h with
  | constant v ty => exact .inr ⟨_, _, hv _ rfl, .constant ty rfl, hw⟩
  | place ha => exact .inr ⟨_, _, hv _ rfl, .place ha, hw⟩
  | method ty hc ha => exact .inl ⟨_, rfl, hty⟩
  | builtin ty hc => exact .inl ⟨_, rfl, hty⟩

/-- Whatever a selector stands behind is loaded first, so it has a value. -/
theorem Refers.load {env : Env} {g : Progress} {d : Designator} {b b₁ b₂ : CodeBuffer}
    {x y : Operand} {t t' : NameTable} {r : Referent} (h : Refers g t x r) (he : env.WellFormed)
    (hd : resolveDesignator env d = some (r, x.ty)) (hw : Writes env g b b₁ r.before)
    (hl : (Check.load x).Gives t b₁ y t' b₂) :
    t' = t ∧ y = .onStack x.ty ∧ Resolved.IsProper x.ty ∧
      ∃ v, r.value? = some v ∧ Writes env g b b₂ fun layout => v.code layout := by
  obtain ⟨ht, hy, v, hv, hw'⟩ := (h.agree he hd hw).load hl
  refine ⟨ht, hy, Resolved.resolveExpr_proper he hv, v, ?_, hw'⟩
  simp only [resolveExpr, hd, Option.bind_eq_bind, Option.bind_some] at hv
  obtain ⟨v', hv', heq⟩ := Option.bind_eq_some_iff.1 hv
  cases heq
  exact hv'

theorem Agree.ty_ne_error {env : Env} {g : Progress} {e : Expr} {b b' : CodeBuffer} {x : Operand}
    (h : Agree env g e b x b') (he : env.WellFormed) : x.ty ≠ .error := by
  rcases h with ⟨id, -, hty⟩ | ⟨v, before, hv, -, -⟩
  · exact hty
  · intro hty
    have hproper := Resolved.resolveExpr_proper he hv
    rw [hty] at hproper
    exact hproper

namespace Check

/-- A designator checked without a fault refers to what the resolver finds, and what was written is
the code that comes before its use. The names stay as they are. -/
def DesignatorAgrees (g : Progress) (env : Env) (t : NameTable) (d : Designator) : Prop :=
  ∀ b x t' b', (designator d).Gives t b x t' b' →
    t' = t ∧ ∃ r, resolveDesignator env d = some (r, x.ty) ∧ Refers g t x r ∧
      Writes env g b b' r.before

/-- The same for an expression, which may also have come to a method that is not called. -/
def ExprAgrees (g : Progress) (env : Env) (t : NameTable) (e : Expr) : Prop :=
  ∀ b x t' b', (expr e).Gives t b x t' b' → t' = t ∧ Agree env g e b x b'

/-- The same for as many arguments as there are parameters. -/
def ArgumentsAgree (g : Progress) (env : Env) (t : NameTable) (args : List Expr)
    (formals : List Ty) : Prop :=
  ∀ b u t' b', (arguments args formals).Gives t b u t' b' → args.length = formals.length →
    t' = t ∧ ∃ es, resolveArguments env args formals = some es ∧ es.length = formals.length ∧
      Writes env g b b' fun layout => Resolved.argsCode layout es

variable {g : Progress} {env : Env} {t t' : NameTable} {b b' : CodeBuffer}

/-! ## Parts of expressions -/

theorem Gives.operandFor {id : EntityId} {x : Operand} (h : (operandFor id).Gives t b x t' b')
    (hr : Ready g env t) {binding : Resolved.Binding} (hb : t.Binds g.methods id binding) :
    t' = t ∧ b' = b ∧
      ∃ r, Referent.ofBinding env binding = some (r, x.ty) ∧ Refers g t x r ∧
        ∀ layout, r.before layout = [] := by
  rw [Check.operandFor] at h
  obtain ⟨entity, t₁, b₁, h₁, k⟩ := h.parts fun e => by split <;> infer_instance
  obtain ⟨rfl, rfl, rfl⟩ := Gives.following h₁
  obtain ⟨e, he, hs⟩ := hb
  obtain ⟨name, kind, ty⟩ := e
  rw [NameTable.entity_eq he] at k
  dsimp only at k hs
  cases hs with
  | constant v =>
      obtain ⟨rfl, rfl, rfl⟩ := k.pure
      exact ⟨rfl, rfl, _, rfl, .constant v ty, fun _ => rfl⟩
  | global adr =>
      obtain ⟨rfl, rfl, rfl⟩ := k.pure
      exact ⟨rfl, rfl, _, rfl, .place (.global adr ty), fun _ => by
        simp [Resolved.Referent.before, Location.access]⟩
  | frame slot level =>
      obtain ⟨rfl, rfl, rfl⟩ := k.pure
      exact ⟨rfl, rfl, _, rfl, .place (.frame slot ty), fun _ => by
        simp [Resolved.Referent.before, Location.access]⟩
  | typeName =>
      obtain ⟨u, t₂, b₂, hrep, -⟩ := k.bind
      exact absurd hrep not_gives_report
  | @method callee _ index hi hbi =>
      obtain ⟨rfl, rfl, rfl⟩ := k.pure
      obtain ⟨sig, a, callee, hsig, ha, hkind, rfl, hc⟩ := hr.method hi he
      cases hkind
      refine ⟨rfl, rfl, .routine (.method index) sig.params, ?_, .method _ ?_ hc ha, fun _ => rfl⟩
      · simp [Referent.ofBinding, hsig]
      · rw [NameTable.entity_eq he]
        rfl
  | builtin bi hbi hp =>
      obtain ⟨rfl, rfl, rfl⟩ := k.pure
      exact ⟨rfl, rfl, _, rfl,
        .builtin _ (congrArg Entity.callee? (NameTable.entity_eq he)) hbi hp, fun _ => rfl⟩
  | program =>
      obtain ⟨u, t₂, b₂, hrep, -⟩ := k.bind
      exact absurd hrep not_gives_report

theorem Gives.allocatedType {name : String} {named : Option Ty}
    (h : (allocatedType name).Gives t b named t' b') (ha : t.Agrees g env) :
    t' = t ∧ b' = b ∧ named = env.type? name := by
  rw [Check.allocatedType] at h
  obtain ⟨id, t₁, b₁, h₁, k₁⟩ := h.bind
  obtain ⟨entity, t₂, b₂, h₂, k₂⟩ := k₁.bind
  obtain ⟨hf, rfl, rfl⟩ := h₁.resolve
  obtain ⟨rfl, rfl, rfl⟩ := Gives.following h₂
  obtain ⟨rfl, rfl, rfl⟩ := k₂.pure
  refine ⟨rfl, rfl, ?_⟩
  obtain ⟨binding, hl, e, he, hs⟩ := ha.find hf
  obtain ⟨n, kind, ty⟩ := e
  dsimp only at hs
  rw [NameTable.entity_eq he, Env.type?, hl]
  cases hs <;> rfl

theorem Gives.allocateObject {named : Option Ty} {x : Operand}
    (h : (allocateObject named).Gives t b x t' b') (hr : Ready g env t)
    (hn : ∀ ty, named = some ty → Resolved.IsProper ty) :
    t' = t ∧ ∃ cls, named = some (.object cls) ∧ x = .onStack (.object cls) ∧
      (env.classes.getD cls.index []).length ≤ Resolved.maxFields ∧
      Writes env g b b' fun layout => (Resolved.Expr.newObject cls).code layout := by
  rw [Check.allocateObject.eq_def] at h
  split at h
  · next cls =>
      obtain ⟨info, t₁, b₁, h₁, k₁⟩ := h.bind
      obtain ⟨rfl, rfl, rfl⟩ := Gives.following h₁
      obtain ⟨u, t₂, b₂, h₂, k₂⟩ := k₁.bind
      have hf := h₂.fits
      obtain ⟨rfl, he⟩ := h₂.emitting
      obtain ⟨rfl, rfl, rfl⟩ := k₂.pure
      have hsize := (hr.agrees.classInfo hr.classes cls).length_eq
      rw [Array.length_toList] at hsize
      cases he
      refine ⟨rfl, cls, rfl, rfl, ?_, ?_⟩
      · rw [← hsize]
        exact (Emit.fitAddress_eq (hf.of_grows (CodeBuffer.append_grows _ _))).1
      · intro layout hl
        change _ = CodeBuffer.written _ [.new (addressOf (layout.fieldCount cls))]
        rw [hl.fields, ← hsize]
        exact Emit.append_fitAddress hf
  · exact absurd (hn .error rfl) id
  · obtain ⟨u, t₁, b₁, hrep, -⟩ := h.bind
    exact absurd hrep not_gives_report

theorem Gives.selectField {base : Ty} {field : Option String} {x : Operand}
    (h : (selectField base field).Gives t b x t' b') (hr : Ready g env t)
    (hb : Resolved.IsProper base) (hf : ∃ n, field = some n) :
    t' = t ∧ b' = b ∧ ∃ cls name adr, base = .object cls ∧ field = some name ∧
      env.field? cls name = some (adr, x.ty) ∧ x.place = .field adr := by
  obtain ⟨name, rfl⟩ := hf
  rw [Check.selectField.eq_def] at h
  split at h
  · exact absurd hb id
  · next cls n hn =>
      cases hn
      obtain ⟨found, t₁, b₁, h₁, k₁⟩ := h.parts fun r => by
        split
        · infer_instance
        · refine Growing.bind inferInstance fun e => ?_
          split <;> infer_instance
      obtain ⟨rfl, rfl, rfl⟩ := Gives.following h₁
      split at k₁
      · obtain ⟨u, t₂, b₂, hrep, -⟩ := k₁.bind
        exact absurd hrep not_gives_report
      · next id hfind =>
          obtain ⟨adr, ty, level, n, hfield, he⟩ := hr.agrees.findField hr.classes hfind
          obtain ⟨entity, t₂, b₂, h₂, k₂⟩ := k₁.parts fun e => by split <;> infer_instance
          obtain ⟨rfl, rfl, rfl⟩ := Gives.following h₂
          rw [he] at k₂
          obtain ⟨rfl, rfl, rfl⟩ := k₂.pure
          exact ⟨rfl, rfl, cls, name, adr, rfl, rfl, hfield, rfl⟩
  · next hn => cases hn
  · obtain ⟨u, t₁, b₁, hrep, -⟩ := h.bind
    exact absurd hrep not_gives_report

/-- An index is loaded behind its array. -/
theorem Gives.selectElement {x y index : Operand} {i : Expr} {b₀ : CodeBuffer}
    (h : (selectElement x index).Gives t b y t' b') (hw : env.WellFormed)
    (hx : Resolved.IsProper x.ty) (hi : Agree env g i b₀ index b) :
    t' = t ∧ ∃ elem v, x.ty = .array elem ∧ y = ⟨.element, elem⟩ ∧
      resolveExpr env i = some (v, .int) ∧ Writes env g b₀ b' fun layout => v.code layout := by
  rw [Check.selectElement.eq_def] at h
  split at h
  · next elem hty =>
      dsimp only at h
      obtain ⟨hint, k⟩ := h.required
      obtain ⟨u, t₁, b₁, h₁, k₁⟩ := k.bind
      obtain ⟨z, h₁⟩ := h₁.discard
      obtain ⟨rfl, -, v, hv, hwr⟩ := hi.load h₁
      obtain ⟨rfl, rfl, rfl⟩ := k₁.pure
      have hproper := Resolved.resolveExpr_proper hw hv
      rw [Resolved.eq_int_of_isInt hproper hint] at hv
      exact ⟨rfl, elem, v, hty, rfl, hv, hwr⟩
  · next hty =>
      rw [hty] at hx
      exact hx.elim
  · obtain ⟨u, t₁, b₁, hrep, -⟩ := h.bind
    exact absurd hrep not_gives_report

theorem Gives.arithmetic {op : Arithmetic} {x y z : Operand}
    (h : (arithmetic op x y).Gives t b z t' b') (hx : Resolved.IsProper x.ty)
    (hy : Resolved.IsProper y.ty) :
    t' = t ∧ x.ty = .int ∧ y.ty = .int ∧ z = .onStack .int ∧ b' = b.written [.arith op] := by
  rw [Check.arithmetic] at h
  obtain ⟨hint, k⟩ := h.required
  rw [Bool.and_eq_true] at hint
  obtain ⟨u, t₁, b₁, h₁, k₁⟩ := k.bind
  obtain ⟨rfl, rfl⟩ := h₁.emit
  obtain ⟨rfl, rfl, rfl⟩ := k₁.pure
  exact ⟨rfl, Resolved.eq_int_of_isInt hx hint.1, Resolved.eq_int_of_isInt hy hint.2, rfl, rfl⟩

/-- A minus sign changes a constant, or follows the code of its operand. -/
theorem Gives.negated {x y : Operand} {e : Expr} {b₀ : CodeBuffer}
    (h : (negated x).Gives t b y t' b') (hw : env.WellFormed) (hx : Agree env g e b₀ x b) :
    t' = t ∧ Agree env g (.negate e) b₀ y b' := by
  rw [Check.negated] at h
  obtain ⟨hint, k⟩ := h.required
  have negate : ∀ v, resolveExpr env e = some (v, x.ty) →
      resolveExpr env (.negate e) = some (.negate v, x.ty) := by
    intro v hv
    have hty := Resolved.eq_int_of_isInt (Resolved.resolveExpr_proper hw hv) hint
    rw [hty] at hv ⊢
    simp [resolveExpr, hv, Resolved.required]
  split at k
  · next c hplace =>
      obtain ⟨rfl, rfl, rfl⟩ := k.pure
      rcases hx with ⟨id, hid, -⟩ | ⟨v, before, hv, hh, hwr⟩
      · rw [hid] at hplace
        cases hplace
      · obtain ⟨hc, rfl⟩ := hh.constant?_eq_some hplace
        exact ⟨rfl, .inr ⟨.negate v, fun _ => [], negate v hv,
          .constant x.ty (by simp [Resolved.Expr.constant?, hc]), hwr⟩⟩
  · next hplace =>
      obtain ⟨y', t₁, b₁, h₁, k₁⟩ := k.bind
      obtain ⟨u, t₂, b₂, h₂, k₂⟩ := k₁.bind
      obtain ⟨rfl, rfl⟩ := h₂.emit
      obtain ⟨rfl, rfl, rfl⟩ := k₂.pure
      rcases hx with ⟨id, hid, -⟩ | ⟨v, before, hv, hh, hwr⟩
      · exact absurd hid (h₁.load.1 id)
      · obtain ⟨rfl, rfl, hwr'⟩ := hh.load hwr h₁
        have hconst := hh.constant?_eq_none hplace
        refine ⟨rfl, .inr ⟨.negate v, fun layout => (Resolved.Expr.negate v).code layout,
          negate v hv, .stack x.ty (by simp [Resolved.Expr.constant?, hconst]), ?_⟩⟩
        refine (hwr'.append _).congr fun layout => ?_
        rw [Resolved.Expr.code, hconst]

end Check

/-- The instruction that performs a call, once the arguments are on the stack. -/
def Resolved.Routine.ending (layout : Resolved.Layout) : Routine → List Instruction
  | .method index => [.call (addressOf (layout.entry index))]
  | .builtin .len => [.arrayLength]
  | .builtin _ => []

/-- The same, as the table of names has it. -/
def Callee.ending (callee : Callee) : List Instruction :=
  match callee.builtin with
  | some .len => [.arrayLength]
  | some _ => []
  | none => [.call callee.address]

theorem Resolved.Routine.exists_apply {Γ : Resolved.Context} {r : Routine} {params : List Ty}
    {ty : Ty} {args : List Resolved.Expr} (hx : (Referent.routine r params).Ok Γ ty)
    (hlen : args.length = params.length) : ∃ e, r.apply args = some e := by
  cases r with
  | method index => exact ⟨_, rfl⟩
  | builtin b =>
      obtain ⟨arg, rfl⟩ : ∃ arg, args = [arg] := by
        have hp : signatureOf b = ⟨params, ty⟩ := hx
        apply List.length_eq_one_iff.1
        cases b <;> (cases hp; exact hlen)
      cases b <;> exact ⟨_, rfl⟩

theorem Resolved.Routine.code_apply {r : Routine} {args : List Resolved.Expr} {e : Resolved.Expr}
    (h : r.apply args = some e) :
    e.constant? = none ∧
      ∀ layout, e.code layout = Resolved.argsCode layout args ++ r.ending layout := by
  rw [Routine.apply.eq_def] at h
  split at h
  · cases h
    exact ⟨rfl, fun layout => by rw [Resolved.Expr.code]; rfl⟩
  · cases h
    exact ⟨rfl, fun layout => by simp [Resolved.Expr.code, Resolved.argsCode, Routine.ending]⟩
  · next b arg hb =>
      cases h
      refine ⟨rfl, ?_⟩
      cases b with
      | len => exact absurd rfl hb
      | ord | chr => simp [Resolved.Expr.code, Resolved.argsCode, Routine.ending]
  · cases h

/-- A call statement drops the result, if there is one. -/
theorem Resolved.Routine.code_perform {Γ : Resolved.Context} {r : Routine} {params : List Ty}
    {ty : Ty} {args : List Resolved.Expr} (hx : (Referent.routine r params).Ok Γ ty)
    (hlen : args.length = params.length) :
    ∃ s, r.perform ty args = some s ∧ ∀ layout start, s.code layout start =
      Resolved.argsCode layout args ++ r.ending layout ++ if ty = .void then [] else [.pop] := by
  obtain ⟨e, he⟩ := Routine.exists_apply hx hlen
  have value : ty ≠ .void → ∃ s, r.perform ty args = some s ∧ ∀ layout start,
      s.code layout start =
        Resolved.argsCode layout args ++ r.ending layout ++ if ty = .void then [] else [.pop] := by
    intro hv
    refine ⟨.discard e, ?_, ?_⟩
    · rw [Routine.perform]
      · simp [he]
      · exact fun _ _ h => hv h
    · intro layout start
      rw [Resolved.Stmt.code, (Routine.code_apply he).2, if_neg hv]
  cases r with
  | builtin b => exact value fun hv => by cases b <;> simp [Referent.Ok, signatureOf, hv] at hx
  | method index =>
      by_cases hv : ty = .void
      · subst hv
        exact ⟨.perform index args, rfl, fun layout start => by
          simp [Resolved.Stmt.code, Routine.ending]⟩
      · exact value hv

namespace Check

theorem Gives.checkCount {given wanted : Nat} {u : Unit}
    (h : (checkCount given wanted).Gives t b u t' b') : t' = t ∧ b' = b ∧ given = wanted := by
  rw [Check.checkCount] at h
  split at h
  · exact absurd h not_gives_report
  · split at h
    · exact absurd h not_gives_report
    · obtain ⟨-, rfl, rfl⟩ := h.pure
      exact ⟨rfl, rfl, by omega⟩

theorem Gives.calleeOf {x : Operand} {callee : Option Callee}
    (h : (calleeOf x).Gives t b callee t' b') :
    t' = t ∧ b' = b ∧ ∀ id, x.place = .method id → callee = (t.entity id).callee? := by
  rw [Check.calleeOf.eq_def] at h
  split at h
  · next id hid =>
      obtain ⟨entity, t₁, b₁, h₁, k₁⟩ := h.bind
      obtain ⟨rfl, rfl, rfl⟩ := Gives.following h₁
      obtain ⟨rfl, rfl, rfl⟩ := k₁.pure
      refine ⟨rfl, rfl, ?_⟩
      intro id' hid'
      rw [hid] at hid'
      cases hid'
      rfl
  · next hne =>
      obtain ⟨rfl, rfl, rfl⟩ := h.pure
      exact ⟨rfl, rfl, fun id hid => absurd hid (hne id)⟩

theorem Gives.emitCall {callee : Callee} {u : Unit} (h : (emitCall callee).Gives t b u t' b') :
    t' = t ∧ b' = b.written callee.ending := by
  obtain ⟨paramCount, locals, address, builtin⟩ := callee
  rw [Check.emitCall.eq_def] at h
  cases builtin with
  | none => exact h.emit
  | some builtin =>
      cases builtin with
      | len => exact h.emit
      | ord | chr =>
          obtain ⟨-, rfl, rfl⟩ := h.pure
          exact ⟨rfl, (CodeBuffer.written_nil b').symm⟩

/-- Behind a callee that is known come as many arguments as it has parameters, and the instruction
that performs the call. -/
theorem called_agrees {x z : Operand} {callee : Callee} {params : List Ty} {given : List Expr}
    {rparen : Mark}
    (h : (do
      arguments given (← paramTypes callee)
      checkCount given.length callee.paramCount
      require .rparen rparen
      emitCall callee
      return Operand.onStack x.ty).Gives t b z t' b')
    (hp : t.Takes callee params) (hargs : ArgumentsAgree g env t given params) :
    t' = t ∧ z = .onStack x.ty ∧ ∃ es, resolveArguments env given params = some es ∧
      es.length = params.length ∧
      Writes env g b b' fun layout => Resolved.argsCode layout es ++ callee.ending := by
  obtain ⟨formals, t₀, b₀, h₀, k₀⟩ := h.bind
  obtain ⟨rfl, rfl, rfl⟩ := Gives.following h₀
  rw [hp.paramTypes, hp.count] at k₀
  obtain ⟨u₁, t₁, b₁, h₁, k₁⟩ := k₀.bind
  obtain ⟨u₂, t₂, b₂, h₂, k₂⟩ := k₁.bind
  obtain ⟨u₃, t₃, b₃, h₃, k₃⟩ := k₂.bind
  obtain ⟨u₄, t₄, b₄, h₄, k₄⟩ := k₃.bind
  obtain ⟨rfl, rfl, hcount⟩ := h₂.checkCount
  obtain ⟨rfl, es, hes, hlen, hw⟩ := hargs _ _ _ _ h₁ hcount
  obtain ⟨rfl, rfl⟩ := h₃.require
  obtain ⟨rfl, rfl⟩ := h₄.emitCall
  obtain ⟨rfl, rfl, rfl⟩ := k₄.pure
  exact ⟨rfl, rfl, es, hes, hlen, hw.append _⟩

/-- Whatever is called has been declared as a method, and the arguments are on the stack before
the call. -/
theorem callWith_agrees {x z : Operand} {given : List Expr} {rparen : Mark} {r : Referent}
    (h : (callWith x (fun formals => arguments given formals) given.length rparen).Gives
      t b z t' b')
    (hx : Refers g t x r) (hargs : ∀ formals, ArgumentsAgree g env t given formals) :
    t' = t ∧ z = .onStack x.ty ∧ ∃ routine params es, r = .routine routine params ∧
      resolveArguments env given params = some es ∧ es.length = params.length ∧
      Writes env g b b' fun layout => Resolved.argsCode layout es ++ routine.ending layout := by
  rw [callWith] at h
  obtain ⟨callee?, t₁, b₁, h₁, k₁⟩ := h.consumed.parts fun callee => by split <;> infer_instance
  obtain ⟨rfl, rfl, hcallee⟩ := h₁.calleeOf
  have unknown : callee? = none → x.place = .unknown := by
    rintro rfl
    dsimp only at k₁
    exact k₁.required.1
  cases hx with
  | constant v ty =>
      rw [calleeOf] at h₁
      obtain ⟨rfl, -, -⟩ := h₁.pure
      cases unknown rfl
  | place ha =>
      obtain rfl : callee? = none := by
        cases ha <;> exact h₁.pure.1
      cases ha <;> cases unknown rfl
  | @method id callee params a index ty he hc ha =>
      obtain rfl := (hcallee id rfl).trans he
      obtain ⟨ht, hz, es, hes, hlen, hw⟩ := called_agrees k₁ hc.takes (hargs _)
      refine ⟨ht, hz, .method index, params, es, rfl, hes, hlen, ?_⟩
      intro layout hl
      rw [hw layout hl]
      simp only [Routine.ending, Callee.ending, hc.builtin, hc.address, hl.entries index a ha]
  | @builtin id callee params builtin ty he hb hp =>
      obtain rfl := (hcallee id rfl).trans he
      obtain ⟨ht, hz, es, hes, hlen, hw⟩ := called_agrees k₁ hp (hargs _)
      refine ⟨ht, hz, .builtin builtin, params, es, rfl, hes, hlen, ?_⟩
      intro layout hl
      rw [hw layout hl, Callee.ending, hb]
      cases builtin <;> rfl

theorem Gives.checkArgument {y : Operand} {formal : Ty} {formals : List Ty} {u : Unit}
    (h : (checkArgument y (formal :: formals)).Gives t b u t' b') :
    t' = t ∧ b' = b ∧ y.ty.assignableTo formal = true := by
  rw [Check.checkArgument] at h
  split at h
  · next hf =>
      obtain ⟨-, rfl, rfl⟩ := h.pure
      exact ⟨rfl, rfl, hf⟩
  · exact absurd h not_gives_report

/-- What comes behind an argument that is not the last one. -/
theorem Gives.behind {c : Prop} [Decidable c] {act : Check Unit} {u : Unit}
    (h : (if c then act else Check.consume >>= fun _ => act).Gives t b u t' b') :
    act.Gives t b u t' b' := by
  split at h
  · exact h
  · exact h.consumed

/-! ## Whole expressions

One lemma for each form. What they assume of the parts is what they conclude of the whole. -/

theorem DesignatorAgrees.missing : DesignatorAgrees g env t .missing := by
  intro b x t' b' h
  rw [designator] at h
  obtain ⟨u, t₁, b₁, h₁, -⟩ := h.bind
  obtain ⟨⟨n, hn⟩, -⟩ := h₁.requireName
  cases hn

theorem DesignatorAgrees.name (hr : Ready g env t) (n : String) :
    DesignatorAgrees g env t (.name n) := by
  intro b x t' b' h
  rw [designator] at h
  obtain ⟨id, t₂, b₂, h₂, k₂⟩ := h.consumed.bind
  obtain ⟨hf, rfl, rfl⟩ := h₂.resolve
  obtain ⟨binding, hl, hb⟩ := hr.agrees.find hf
  obtain ⟨rfl, rfl, r, hres, hrefers, hbefore⟩ := k₂.operandFor hr hb
  refine ⟨rfl, r, ?_, hrefers, ?_⟩
  · simp [resolveDesignator, hl, hres]
  · exact (writes_nil env g _).congr fun layout => (hbefore layout).symm

theorem DesignatorAgrees.field (hr : Ready g env t) {base : Designator} (f : Option String)
    (hbase : DesignatorAgrees g env t base) : DesignatorAgrees g env t (.field base f) := by
  intro b x t' b' h
  rw [designator] at h
  obtain ⟨y, t₁, b₁, h₁, k₁⟩ := h.bind
  obtain ⟨z, t₂, b₂, h₂, k₂⟩ := k₁.bind
  obtain ⟨u₄, t₄, b₄, h₄, k₄⟩ := k₂.consumed.bind
  obtain ⟨rfl, r, hres, hrefers, hw⟩ := hbase _ _ _ _ h₁
  obtain ⟨rfl, rfl, hproper, v, hv, hw'⟩ := hrefers.load hr.wellFormed hres hw h₂
  obtain ⟨hn, rfl, rfl⟩ := h₄.requireName
  obtain ⟨rfl, rfl, cls, name, adr, hty, rfl, hfield, hplace⟩ := k₄.selectField hr hproper hn
  change y.ty = _ at hty
  refine ⟨rfl, .place (.field v adr), ?_, ?_, hw'⟩
  · simp [resolveDesignator, hres, hv, hty, hfield]
  · obtain ⟨place, ty⟩ := x
    cases hplace
    exact .place (.field v adr ty)

theorem DesignatorAgrees.index (hr : Ready g env t) {base : Designator} {i : Expr} {rbracket : Mark}
    (hbase : DesignatorAgrees g env t base) (hi : ExprAgrees g env t i) :
    DesignatorAgrees g env t (.index base i rbracket) := by
  intro b x t' b' h
  rw [designator] at h
  obtain ⟨y, t₁, b₁, h₁, k₁⟩ := h.bind
  obtain ⟨z, t₂, b₂, h₂, k₂⟩ := k₁.bind
  obtain ⟨index, t₄, b₄, h₄, k₄⟩ := k₂.consumed.bind
  obtain ⟨u₅, t₅, b₅, h₅, k₅⟩ := k₄.bind
  obtain ⟨rfl, r, hres, hrefers, hw⟩ := hbase _ _ _ _ h₁
  obtain ⟨rfl, rfl, hproper, v, hv, hw'⟩ := hrefers.load hr.wellFormed hres hw h₂
  obtain ⟨rfl, hindex⟩ := hi _ _ _ _ h₄
  obtain ⟨rfl, rfl⟩ := h₅.require
  obtain ⟨rfl, elem, w, hty, rfl, hw₁, hw₂⟩ := k₅.selectElement hr.wellFormed hproper hindex
  change y.ty = _ at hty
  refine ⟨rfl, .place (.element v w elem), ?_, .place (.element v w elem), hw'.trans hw₂⟩
  simp [resolveDesignator, hres, hv, hty, hw₁, Resolved.required]

theorem ExprAgrees.number (value : Int32) : ExprAgrees g env t (.number value) := by
  intro b x t' b' h
  rw [expr] at h
  obtain ⟨rfl, rfl, rfl⟩ := h.consumed.pure
  exact ⟨rfl, .inr ⟨.constant value, _, by rw [resolveExpr]; rfl, .constant .int rfl,
    writes_nil env g _⟩⟩

theorem ExprAgrees.char (value : Int32) : ExprAgrees g env t (.char value) := by
  intro b x t' b' h
  rw [expr] at h
  obtain ⟨rfl, rfl, rfl⟩ := h.consumed.pure
  exact ⟨rfl, .inr ⟨.constant value, _, by rw [resolveExpr]; rfl, .constant .char rfl,
    writes_nil env g _⟩⟩

theorem ExprAgrees.value (hr : Ready g env t) {source : Designator}
    (hs : DesignatorAgrees g env t source) : ExprAgrees g env t (.value source) := by
  intro b x t' b' h
  rw [expr] at h
  obtain ⟨rfl, r, hres, hrefers, hw⟩ := hs _ _ _ _ h
  exact ⟨rfl, hrefers.agree hr.wellFormed hres hw⟩

theorem ExprAgrees.call (hr : Ready g env t) {callee : Designator} {args : List Expr} {rparen : Mark}
    (hcallee : DesignatorAgrees g env t callee)
    (hargs : ∀ formals, ArgumentsAgree g env t args formals) :
    ExprAgrees g env t (.call callee args rparen) := by
  intro b x t' b' h
  rw [expr] at h
  obtain ⟨y, t₁, b₁, h₁, k₁⟩ := h.bind
  obtain ⟨z, t₂, b₂, h₂, k₂⟩ := k₁.bind
  obtain ⟨hvoid, k₃⟩ := k₂.unreported
  obtain ⟨rfl, rfl, rfl⟩ := k₃.pure
  obtain ⟨rfl, r, hres, hrefers, hw⟩ := hcallee _ _ _ _ h₁
  obtain ⟨rfl, rfl, routine, params, es, rfl, hes, hlen, hw'⟩ :=
    callWith_agrees h₂ hrefers hargs
  obtain ⟨e, he⟩ := Routine.exists_apply
    (Resolved.resolveDesignator_ok hr.wellFormed callee _ _ hres) hlen
  change ¬ y.ty = .void at hvoid
  obtain ⟨hconst, hcode⟩ := Routine.code_apply he
  refine ⟨rfl, .inr ⟨e, fun layout => e.code layout, ?_, .stack _ hconst, ?_⟩⟩
  · simp [resolveExpr, hres, hes, hvoid, he]
    rfl
  · exact (hw.trans hw').congr fun layout => (hcode layout).symm

theorem ExprAgrees.newNothing : ExprAgrees g env t .newNothing := by
  intro b x t' b' h
  rw [expr] at h
  obtain ⟨u, t₁, b₁, h₁, -⟩ := h.consumed.bind
  obtain ⟨⟨n, hn⟩, -⟩ := h₁.requireName
  cases hn

theorem ExprAgrees.newObject (hr : Ready g env t) (cls : String) :
    ExprAgrees g env t (.newObject cls) := by
  intro b x t' b' h
  rw [expr] at h
  obtain ⟨named, t₃, b₃, h₃, k₃⟩ := h.consumed.consumed.bind
  obtain ⟨rfl, rfl, rfl⟩ := h₃.allocatedType hr.agrees
  obtain ⟨rfl, cls', hnamed, rfl, hsize, hw⟩ :=
    k₃.allocateObject hr fun ty => hr.wellFormed.type?
  refine ⟨rfl, .inr ⟨.newObject cls', _, ?_, .stack _ rfl, hw⟩⟩
  rw [resolveExpr, hnamed]
  exact if_pos hsize

theorem ExprAgrees.newArray (hr : Ready g env t) (elem : String) {size : Expr} {rbracket : Mark}
    (hsize : ExprAgrees g env t size) : ExprAgrees g env t (.newArray elem size rbracket) := by
  intro b x t' b' h
  rw [expr] at h
  obtain ⟨named, t₃, b₃, h₃, k₃⟩ := h.consumed.consumed.parts fun named =>
    Growing.bind inferInstance fun _ => Growing.noting inferInstance fun _ => inferInstance
  have k₄ := k₃.consumed
  dsimp only at k₄
  obtain ⟨hnamed, k₅⟩ := k₄.unreported
  obtain ⟨n, t₆, b₆, h₆, k₆⟩ := k₅.bind
  obtain ⟨hint, k₇⟩ := k₆.required
  obtain ⟨u₈, t₈, b₈, h₈, k₈⟩ := k₇.bind
  obtain ⟨u₉, t₉, b₉, h₉, k₉⟩ := k₈.bind
  obtain ⟨u₀, t₀, b₀, h₀, k₀⟩ := k₉.bind
  obtain ⟨rfl, rfl, rfl⟩ := h₃.allocatedType hr.agrees
  obtain ⟨rfl, hi⟩ := hsize _ _ _ _ h₆
  obtain ⟨z, h₈⟩ := h₈.discard
  obtain ⟨rfl, -, v, hv, hw⟩ := hi.load h₈
  obtain ⟨rfl, rfl⟩ := h₉.require
  have hf := h₀.fits
  obtain ⟨rfl, he⟩ := h₀.emitting
  obtain ⟨rfl, rfl, rfl⟩ := k₀.pure
  obtain ⟨ty, hty⟩ : ∃ ty, env.type? elem = some ty := by
    simpa [Option.ne_none_iff_exists'] using hnamed
  rw [Resolved.eq_int_of_isInt (Resolved.resolveExpr_proper hr.wellFormed hv) hint] at hv
  rw [hty] at he ⊢
  obtain ⟨-, rfl⟩ := Prod.mk.inj he
  refine ⟨rfl, .inr ⟨.newArray ty v, _, ?_, .stack _ rfl, ?_⟩⟩
  · simp [resolveExpr, hty, hv, Resolved.required]
    rfl
  · have hb := CodeBuffer.append_eq_written hf
    exact hb ▸ (hw.append _).congr fun layout => by rw [Resolved.Expr.code]; rfl

theorem ExprAgrees.paren {inner : Expr} {rparen : Mark} (hinner : ExprAgrees g env t inner) :
    ExprAgrees g env t (.paren inner rparen) := by
  intro b x t' b' h
  rw [expr] at h
  obtain ⟨y, t₂, b₂, h₂, k₂⟩ := h.consumed.bind
  obtain ⟨u₃, t₃, b₃, h₃, k₃⟩ := k₂.bind
  obtain ⟨rfl, hi⟩ := hinner _ _ _ _ h₂
  obtain ⟨rfl, rfl⟩ := h₃.require
  obtain ⟨rfl, rfl, rfl⟩ := k₃.pure
  refine ⟨rfl, ?_⟩
  rwa [Agree, resolveExpr]

theorem ExprAgrees.negate (hr : Ready g env t) {operand : Expr}
    (hoperand : ExprAgrees g env t operand) : ExprAgrees g env t (.negate operand) := by
  intro b x t' b' h
  rw [expr] at h
  obtain ⟨y, t₂, b₂, h₂, k₂⟩ := h.consumed.bind
  obtain ⟨rfl, hi⟩ := hoperand _ _ _ _ h₂
  exact k₂.negated hr.wellFormed hi

theorem ExprAgrees.binary (hr : Ready g env t) (op : Arithmetic) {left right : Expr}
    (hl : ExprAgrees g env t left) (hr' : ExprAgrees g env t right) :
    ExprAgrees g env t (.binary op left right) := by
  intro b x t' b' h
  rw [expr] at h
  obtain ⟨x₁, t₁, b₁, h₁, k₁⟩ := h.bind
  obtain ⟨x₃, t₃, b₃, h₃, k₃⟩ := k₁.consumed.bind
  obtain ⟨y₄, t₄, b₄, h₄, k₄⟩ := k₃.bind
  obtain ⟨y₅, t₅, b₅, h₅, k₅⟩ := k₄.bind
  obtain ⟨rfl, hleft⟩ := hl _ _ _ _ h₁
  obtain ⟨rfl, rfl, v, hv, hw⟩ := hleft.load h₃
  obtain ⟨rfl, hright⟩ := hr' _ _ _ _ h₄
  obtain ⟨rfl, rfl, w, hw', hww⟩ := hright.load h₅
  have hpv := Resolved.resolveExpr_proper hr.wellFormed hv
  have hpw := Resolved.resolveExpr_proper hr.wellFormed hw'
  obtain ⟨rfl, hx, hy, rfl, rfl⟩ := k₅.arithmetic hpv hpw
  change x₁.ty = _ at hx
  change y₄.ty = _ at hy
  refine ⟨rfl, .inr ⟨.binary op v w, _, ?_, .stack _ rfl, ?_⟩⟩
  · simp [resolveExpr, hv, hw', hx, hy, Resolved.required]
    rfl
  · exact ((hw.trans hww).append _).congr fun layout => by rw [Resolved.Expr.code]

theorem ExprAgrees.missing : ExprAgrees g env t .missing := by
  intro b x t' b' h
  rw [expr] at h
  obtain ⟨u, t₁, b₁, h₁, -⟩ := h.bind
  exact absurd h₁ not_gives_report

theorem ArgumentsAgree.nil : ArgumentsAgree g env t [] [] := by
  intro b u t' b' h _
  rw [arguments] at h
  obtain ⟨-, rfl, rfl⟩ := h.pure
  refine ⟨rfl, [], by rw [resolveArguments], rfl, ?_⟩
  exact (writes_nil env g _).congr fun layout => by rw [Resolved.argsCode]

theorem ArgumentsAgree.cons {arg : Expr} {rest : List Expr} {formal : Ty} {formals : List Ty}
    (harg : ExprAgrees g env t arg) (hrest : ArgumentsAgree g env t rest formals) :
    ArgumentsAgree g env t (arg :: rest) (formal :: formals) := by
  intro b u t' b' h hlen
  rw [arguments] at h
  obtain ⟨x₁, t₁, b₁, h₁, k₁⟩ := h.bind
  obtain ⟨y₂, t₂, b₂, h₂, k₂⟩ := k₁.bind
  obtain ⟨u₃, t₃, b₃, h₃, k₃⟩ := k₂.bind
  obtain ⟨rfl, hx⟩ := harg _ _ _ _ h₁
  obtain ⟨rfl, rfl, v, hv, hw⟩ := hx.load h₂
  obtain ⟨rfl, rfl, hassign⟩ := h₃.checkArgument
  change x₁.ty.assignableTo formal = true at hassign
  obtain ⟨rfl, es, hes, hlen', hw'⟩ := hrest _ _ _ _ k₃.behind (Nat.succ.inj hlen)
  refine ⟨rfl, v :: es, ?_, congrArg Nat.succ hlen', ?_⟩
  · simp [resolveArguments, hv, hassign, hes]
  · exact (hw.trans hw').congr fun layout => by rw [Resolved.argsCode]

mutual

theorem designator_agrees (hr : Ready g env t) : (d : Designator) → DesignatorAgrees g env t d
  | .missing => .missing
  | .name n => .name hr n
  | .field base f => .field hr f (designator_agrees hr base)
  | .index base i _ => .index hr (designator_agrees hr base) (expr_agrees hr i)

theorem expr_agrees (hr : Ready g env t) : (e : Expr) → ExprAgrees g env t e
  | .number value => .number value
  | .char value => .char value
  | .value source => .value hr (designator_agrees hr source)
  | .call callee args _ => .call hr (designator_agrees hr callee) (arguments_agree hr args)
  | .newNothing => .newNothing
  | .newObject cls => .newObject hr cls
  | .newArray elem size _ => .newArray hr elem (expr_agrees hr size)
  | .paren inner _ => .paren (expr_agrees hr inner)
  | .negate operand => .negate hr (expr_agrees hr operand)
  | .binary op left right => .binary hr op (expr_agrees hr left) (expr_agrees hr right)
  | .missing => .missing

theorem arguments_agree (hr : Ready g env t) :
    (args : List Expr) → (formals : List Ty) → ArgumentsAgree g env t args formals
  | [], [] => .nil
  | arg :: rest, _ :: formals => .cons (expr_agrees hr arg) (arguments_agree hr rest formals)
  | [], _ :: _ => fun _ _ _ _ _ hlen => by simp at hlen
  | _ :: _, [] => fun _ _ _ _ _ hlen => by simp at hlen

end

end Check

end MicroJava
