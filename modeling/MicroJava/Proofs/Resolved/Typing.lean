import MicroJava.Proofs.Resolved.Resolution

/-! # Types of resolved programs

Typing rules for resolved trees, stated apart from the resolver. Names play no part any more: a
variable has the type of its slot, a method the type of its signature. -/

namespace MicroJava.Resolved

/-- Types of values: neither `void` nor the stand-in for unknown types. -/
def IsProper : Ty → Prop
  | .int | .char | .object _ => True
  | .array elem => IsProper elem
  | .void | .error => False

/-- What a part of a method may refer to. -/
structure Context where
  classes : List (List Ty)
  globals : List Ty
  frame : List Ty
  signatures : List Signature

namespace Context

/-- Types of the fields of a class. -/
def fields (Γ : Context) (cls : ClassId) : List Ty := Γ.classes.getD cls.index []

/-- Every variable has a type of values. -/
structure Proper (Γ : Context) : Prop where
  fields : ∀ cls, ∀ ty ∈ Γ.fields cls, IsProper ty
  globals : ∀ ty ∈ Γ.globals, IsProper ty
  frame : ∀ ty ∈ Γ.frame, IsProper ty
  params : ∀ sig ∈ Γ.signatures, ∀ ty ∈ sig.params, IsProper ty
  results : ∀ sig ∈ Γ.signatures, sig.result ≠ .void → IsProper sig.result

end Context

section Rules

variable (Γ : Context)

mutual

inductive LocationType : Location → Ty → Prop
  | frame {slot : Nat} {ty : Ty} (h : Γ.frame[slot]? = some ty) : LocationType (.frame slot) ty
  | global {adr : Nat} {ty : Ty} (h : Γ.globals[adr]? = some ty) : LocationType (.global adr) ty
  | field {object : Expr} {cls : ClassId} {adr : Nat} {ty : Ty}
      (ho : HasType object (.object cls)) (h : (Γ.fields cls)[adr]? = some ty) :
      LocationType (.field object adr) ty
  | element {array index : Expr} {elem : Ty} (ha : HasType array (.array elem))
      (hi : HasType index .int) : LocationType (.element array index elem) elem

inductive HasType : Expr → Ty → Prop
  | number (v : Int32) : HasType (.constant v) .int
  | char (v : Int32) : HasType (.constant v) .char
  | value {source : Location} {ty : Ty} (h : LocationType source ty) : HasType (.value source) ty
  | call {method : Nat} {args : List Expr} {sig : Signature} (hm : Γ.signatures[method]? = some sig)
      (ha : ArgsType args sig.params) (hr : sig.result ≠ .void) :
      HasType (.call method args) sig.result
  | ord {operand : Expr} (h : HasType operand .char) : HasType (.convert operand) .int
  | chr {operand : Expr} (h : HasType operand .int) : HasType (.convert operand) .char
  | length {array : Expr} {elem : Ty} (h : HasType array (.array elem)) :
      HasType (.length array) .int
  | newObject {cls : ClassId} (h : (Γ.fields cls).length ≤ maxFields) :
      HasType (.newObject cls) (.object cls)
  | newArray {elem : Ty} {size : Expr} (he : IsProper elem) (h : HasType size .int) :
      HasType (.newArray elem size) (.array elem)
  | negate {operand : Expr} (h : HasType operand .int) : HasType (.negate operand) .int
  | binary {op : Arithmetic} {left right : Expr} (hl : HasType left .int)
      (hr : HasType right .int) : HasType (.binary op left right) .int

inductive ArgsType : List Expr → List Ty → Prop
  | nil : ArgsType [] []
  | cons {arg : Expr} {rest : List Expr} {ty : Ty} {tys : List Ty} (h : HasType arg ty)
      (hrest : ArgsType rest tys) : ArgsType (arg :: rest) (ty :: tys)

end

/-- Both sides have one type, and references are only compared for equality. -/
def ConditionOk (c : Condition) : Prop :=
  ∃ ty, HasType Γ c.left ty ∧ HasType Γ c.right ty ∧ (ty.isReference → c.rel.isEquality)

/-- The type of what is read or printed. -/
def Textual.ty : Textual → Ty
  | number => .int
  | char => .char

variable (result : Ty)

mutual

/-- Statements of a method with the given result type. -/
inductive StmtOk : Stmt → Prop
  | assign {target : Location} {value : Expr} {ty : Ty} (ht : LocationType Γ target ty)
      (hv : HasType Γ value ty) : StmtOk (.assign target value)
  | perform {method : Nat} {args : List Expr} {sig : Signature}
      (hm : Γ.signatures[method]? = some sig) (ha : ArgsType Γ args sig.params)
      (hr : sig.result = .void) : StmtOk (.perform method args)
  | discard {call : Expr} {ty : Ty} (h : HasType Γ call ty) : StmtOk (.discard call)
  | ifThen {cond : Condition} {body : Stmt} (hc : ConditionOk Γ cond) (hb : StmtOk body) :
      StmtOk (.ifThen cond body)
  | ifElse {cond : Condition} {body alternative : Stmt} (hc : ConditionOk Γ cond)
      (hb : StmtOk body) (ha : StmtOk alternative) : StmtOk (.ifElse cond body alternative)
  | loop {cond : Condition} {body : Stmt} (hc : ConditionOk Γ cond) (hb : StmtOk body) :
      StmtOk (.loop cond body)
  | retValue {value : Expr} (h : HasType Γ value result) (hr : result ≠ .void) :
      StmtOk (.ret (some value))
  | ret (hr : result = .void) : StmtOk (.ret none)
  | read {form : Textual} {target : Location} (h : LocationType Γ target form.ty) :
      StmtOk (.read form target)
  | print {form : Textual} {value : Expr} (width : Int32) (h : HasType Γ value form.ty) :
      StmtOk (.print form value width)
  | block {body : List Stmt} (h : StmtsOk body) : StmtOk (.block body)
  | empty : StmtOk .empty

inductive StmtsOk : List Stmt → Prop
  | nil : StmtsOk []
  | cons {s : Stmt} {rest : List Stmt} (hs : StmtOk s) (hrest : StmtsOk rest) :
      StmtsOk (s :: rest)

end

end Rules

/-- A method knows itself and the methods before it. -/
def Program.context (P : Program) (index : Nat) (m : Method) : Context :=
  ⟨P.classes, P.globals, m.frame, (P.methods.take (index + 1)).map Method.toSignature⟩

structure Program.Typed (P : Program) : Prop where
  proper : ∀ (i : Nat) m, P.methods[i]? = some m → (P.context i m).Proper
  body : ∀ (i : Nat) m, P.methods[i]? = some m → StmtsOk (P.context i m) m.result m.body
  frame : ∀ m ∈ P.methods, m.frame.length ≤ maxFrame
  main : ∃ i m, P.main? = some i ∧ P.methods[i]? = some m ∧ m.toSignature = ⟨[], .void⟩

mutual

theorem LocationType.proper {Γ : Context} (hΓ : Γ.Proper) :
    (loc : Location) → (ty : Ty) → LocationType Γ loc ty → IsProper ty
  | .frame _, _, .frame h => hΓ.frame _ (List.mem_of_getElem? h)
  | .global _, _, .global h => hΓ.globals _ (List.mem_of_getElem? h)
  | .field _ _, _, .field _ h => hΓ.fields _ _ (List.mem_of_getElem? h)
  | .element array _ elem, _, .element ha _ => HasType.proper hΓ array (.array elem) ha

/-- Expressions have types of values. -/
theorem HasType.proper {Γ : Context} (hΓ : Γ.Proper) :
    (e : Expr) → (ty : Ty) → HasType Γ e ty → IsProper ty
  | .value source, ty, .value h => LocationType.proper hΓ source ty h
  | .call _ _, _, .call hm _ hr => hΓ.results _ (List.mem_of_getElem? hm) hr
  | .newArray _ _, _, .newArray he _ => he
  | .constant _, _, .number _ => trivial
  | .constant _, _, .char _ => trivial
  | .convert _, _, .ord _ => trivial
  | .convert _, _, .chr _ => trivial
  | .length _, _, .length _ => trivial
  | .newObject _, _, .newObject _ => trivial
  | .negate _, _, .negate _ => trivial
  | .binary _ _ _, _, .binary _ _ => trivial

end

/-! ## Types of values -/

theorem eq_int_of_isInt {ty : Ty} (hp : IsProper ty) (h : ty.isInt = true) : ty = .int := by
  cases ty with
  | int => rfl
  | error => exact hp.elim
  | void | char | array | object => cases h

theorem eq_of_compatible {a b : Ty} (ha : IsProper a) (hb : IsProper b)
    (h : a.compatible b = true) : a = b := by
  fun_induction Ty.compatible a b with
  | case1 => exact ha.elim
  | case2 => exact hb.elim
  | case3 a b ih => rw [ih ha hb h]
  | case4 a b => exact of_decide_eq_true h

theorem eq_of_assignableTo {a b : Ty} (ha : IsProper a) (hb : IsProper b)
    (h : a.assignableTo b = true) : a = b := by
  rw [Ty.assignableTo] at h
  · exact eq_of_compatible ha hb h
  · rintro elem rfl rfl
    exact hb

/-- The parameter of `len` takes every array. -/
theorem array_of_assignableTo {a : Ty} (ha : IsProper a)
    (h : a.assignableTo (.array .void) = true) : ∃ elem, a = .array elem := by
  cases a with
  | array elem => exact ⟨elem, rfl⟩
  | error => exact ha.elim
  | void | int | char | object => simp [Ty.assignableTo, Ty.compatible] at h

end MicroJava.Resolved
