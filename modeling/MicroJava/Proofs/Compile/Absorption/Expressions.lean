import MicroJava.Proofs.Compile.Absorption

/-! # One misspelt name in an expression

The two passes are followed through designators, expressions and conditions. Where the first pass
has an operand, the second one has what the mistake leaves of it. -/

namespace MicroJava

variable {n m : Nat}

/-- The first operand is known, and the second is what `n` mistakes leave of it. -/
structure Operand.Leaves (n : Nat) (x x' : Operand) : Prop where
  known : x.Known
  fades : x.Fades n x'

namespace Operand

variable {x x' y : Operand} {a b : Ty}

theorem Leaves.mono (h : x.Leaves n x') (hnm : n ≤ m) : x.Leaves m x' :=
  ⟨h.known, h.fades.mono hnm⟩

theorem known_onStack (h : a.Known) : (Operand.onStack a).Known := ⟨by simp [Operand.onStack], h⟩

theorem Leaves.onStack (ha : a.Known) (h : a.Fades n b) :
    (Operand.onStack a).Leaves n (.onStack b) :=
  ⟨known_onStack ha, .kept h⟩

theorem Known.leaves_unknown (h : x.Known) (hn : n ≠ 0) : x.Leaves n .unknown := ⟨h, .lost hn⟩

/-- What can be loaded can be loaded after a mistake. -/
theorem Leaves.loaded (h : x.Leaves n x') (hx : x.loaded = .ok y) :
    ∃ y', x'.loaded = .ok y' ∧ y.Leaves n y' := by
  obtain ⟨hknown, hfades⟩ := h
  cases hfades with
  | @kept place a b hty =>
      cases place with
      | method => cases hx
      | unknown => exact absurd rfl hknown.place
      | stack | constant | frame | global | field | element =>
          cases hx
          exact ⟨_, rfl, .onStack hknown.ty hty⟩
  | loaded hty hn =>
      cases hx
      exact ⟨_, rfl, .onStack hknown.ty hty⟩
  | lost hn =>
      refine ⟨_, rfl, ?_⟩
      obtain ⟨place, a⟩ := x
      cases place with
      | method => cases hx
      | unknown => exact absurd rfl hknown.place
      | stack | constant | frame | global | field | element =>
          cases hx
          exact (known_onStack hknown.ty).leaves_unknown hn

/-- What takes a value takes one after a mistake. -/
theorem Leaves.stored (h : x.Leaves n x') (hx : x.stored = .ok ()) : x'.stored = .ok () := by
  obtain ⟨-, hfades⟩ := h
  cases hfades with
  | kept => exact hx
  | loaded => cases hx
  | lost => rfl

end Operand

@[simp] theorem names_mark (mark : Mark) : mark.outline.names = [] := by cases mark <;> rfl

@[simp] theorem names_gap : Outline.gap.names = [] := rfl

@[simp] theorem names_comma {γ : Type} (rest : List γ) : (Outline.comma rest).names = [] := by
  cases rest <;> rfl

set_option synthInstance.maxSize 512

namespace Check

open Slip

variable {α β : Type} {c : Slip} {ns ns' : List (Role × String)} {x x' y y' : Operand}

/-! ## Operands -/

/-- What was loaded, or nothing if that was not possible. -/
def orReported : Except OperandError Operand → Check Operand
  | .ok x => return x
  | .error e => do
      report (.operand e)
      return .unknown

theorem load_eq_bind (x : Operand) : load x = emitting (Emit.load x).run >>= orReported := rfl

instance (r : Except OperandError Operand) : Growing (orReported r) := by
  cases r with
  | ok x => exact inferInstanceAs (Growing (pure x))
  | error e => exact inferInstanceAs (Growing (report _ >>= fun _ => pure _))

theorem absorbs_load (h : x.Leaves n x') :
    Absorbs c n [] (load x) (load x') Operand.Leaves := by
  have hrun : Absorbs c n [] (emitting (Emit.load x).run) (emitting (Emit.load x').run)
      fun _ r r' => r = x.loaded ∧ r' = x'.loaded :=
    absorbs_emitting fun b b' => ⟨Emit.load_fst x b, Emit.load_fst x' b'⟩
  rw [load_eq_bind, load_eq_bind]
  refine hrun.seq ?_
  rintro r r' ⟨hr, rfl⟩
  cases r with
  | error e => exact .of_report
  | ok y =>
      obtain ⟨y', hy', hleaves⟩ := h.loaded hr.symm
      rw [hy']
      exact .pure hleaves

/-- Only the first pass loads an operand. -/
theorem absorbs_load_alone (x : Operand) : Absorbs c n [] (load x) (pure ()) any := by
  rw [load_eq_bind]
  refine absorbs_writing_alone.ahead fun r _ => ?_
  cases r with
  | error e => exact .of_report
  | ok y => exact .pure trivial

theorem absorbs_emit_alone (i : Instruction) : Absorbs c n [] (emit i) (pure ()) any :=
  absorbs_writing_alone.discard

theorem absorbs_emit_behind (i : Instruction) : Absorbs c n [] (pure ()) (emit i) any := by
  have hrun : Absorbs c n [] (emitting (pure ())) (emitting (Emit.instruction i)) any :=
    absorbs_writing
  exact hrun.discard

theorem absorbs_operandFor (name : String) :
    Absorbs c n [(.used, name)] (do operandFor (← resolve (c.spelling name)))
      (do operandFor (← resolve (c.misspelling name))) Operand.Leaves := by
  refine absorbs_resolve name (fun id => (inferInstance : Growing (operandFor id))) ?_ ?_
  · rintro id ⟨_, kind, a⟩ ⟨_, kind', b⟩ ⟨hkind, hty, -⟩ ⟨-, hkinds, hfades, -⟩
    cases hkinds with
    | method => exact .pure ⟨⟨by simp, hty⟩, .kept hfades⟩
    | refl kind =>
        cases kind with
        | constant | method => exact .pure ⟨⟨by simp, hty⟩, .kept hfades⟩
        | var adr level =>
            cases level with
            | zero => exact .pure ⟨⟨by simp, hty⟩, .kept hfades⟩
            | succ level => exact .pure ⟨⟨by simp, hty⟩, .kept hfades⟩
        | unknown => exact absurd rfl hkind
        | typeName | program => exact .of_report
  · rintro id ⟨_, kind, a⟩ ⟨hkind, hty, -⟩
    have hn : n + 1 ≠ 0 := Nat.succ_ne_zero n
    cases kind with
    | constant | method => exact .pure (Operand.Known.leaves_unknown ⟨by simp, hty⟩ hn)
    | var adr level =>
        cases level with
        | zero => exact .pure (Operand.Known.leaves_unknown ⟨by simp, hty⟩ hn)
        | succ level => exact .pure (Operand.Known.leaves_unknown ⟨by simp, hty⟩ hn)
    | unknown => exact absurd rfl hkind
    | typeName | program => exact .of_report

/-! ## Selectors -/

theorem selectField_found {p : Pass} {cls : ClassId} {name : String} {id : EntityId}
    {adr level : Nat} (hf : p.names.findField cls name = .ok id)
    (hk : (p.names.entity id).kind = .var adr level) :
    ∃ astray, selectField (.object cls) (some name) p =
      (⟨.field adr, (p.names.entity id).ty⟩, { p with astray }) := by
  simp only [selectField, bind_apply, fieldOf, following, hf, entityOf, hk]
  exact ⟨_, rfl⟩

theorem selectField_lost {p : Pass} {cls : ClassId} {name : String} {e : NameError}
    (hf : p.names.findField cls name = .error e) :
    ∃ astray, selectField (.object cls) (some name) p =
      (.unknown, { (report (.name e) p).2 with astray }) := by
  simp only [selectField, bind_apply, fieldOf, following, hf]
  exact ⟨_, rfl⟩

/-- The misspelt field is missed in the second pass. -/
theorem absorbs_selectField_mark {cls : ClassId} {b : Ty} (hab : (Ty.object cls).Fades n b) :
    Absorbs c n [(.selected, c.mark)] (selectField (.object cls) (some (c.spelling c.mark)))
      (selectField b (some c.fresh)) Operand.Leaves := by
  intro hdue p p' hrel hclean
  have hrole : Role.selected = c.role := hdue.role .selected (List.mem_singleton_self _)
  obtain rfl := hdue.zero
  obtain rfl := hab.eq_of_zero
  obtain ⟨astray', heq'⟩ := selectField_lost (hrel.lacks.findField cls)
  cases hfind : p.names.findField cls (c.spelling c.mark) with
  | error e =>
      obtain ⟨astray, heq⟩ := selectField_lost hfind
      rw [heq] at hclean
      exact absurd hclean Absorbs.not_report
  | ok id =>
      obtain ⟨hname, hfield⟩ := hrel.known.findField hfind
      obtain ⟨adr, level, hkind⟩ := hfield.var.exists_eq
      obtain ⟨astray, heq⟩ := selectField_found hfind hkind
      have hinfo : p'.names.classInfo cls = p.names.classInfo cls := by
        rw [NameTable.classInfo, NameTable.classInfo, hrel.names.classes]
      have hcomplaint : c.Complaint
          (.name (.notAField c.fresh (p'.names.classInfo cls).name)) := by
        rw [Slip.Complaint, ← hrole, hinfo]
        exact ⟨_, hname ▸ hfield.name, rfl⟩
      have hknown : (⟨.field adr, (p.names.entity id).ty⟩ : Operand).Known :=
        ⟨by simp, hfield.known.ty⟩
      rw [heq, heq', hits_mark]
      exact ⟨(hrel.report hcomplaint).of_astray .., hknown.leaves_unknown (by simp)⟩

/-- Where nothing is known of an object, nothing is asked of its fields. -/
theorem absorbs_selectField_of_ne {cls : ClassId} {b : Ty} (hab : (Ty.object cls).Fades n b)
    {name : String} (hmark : name ≠ c.mark) :
    Absorbs c n [(.selected, name)] (selectField (.object cls) (some (c.spelling name)))
      (selectField b (some (c.spelling name))) Operand.Leaves := by
  intro hdue p p' hrel hclean
  rw [hits_of_ne hmark]
  cases hfind : p.names.findField cls (c.spelling name) with
  | error e =>
      obtain ⟨astray, heq⟩ := selectField_lost hfind
      rw [heq] at hclean
      exact absurd hclean Absorbs.not_report
  | ok id =>
      obtain ⟨-, hfield⟩ := hrel.known.findField hfind
      obtain ⟨adr, level, hkind⟩ := hfield.var.exists_eq
      obtain ⟨astray, heq⟩ := selectField_found hfind hkind
      have hknown : (⟨.field adr, (p.names.entity id).ty⟩ : Operand).Known :=
        ⟨by simp, hfield.known.ty⟩
      rw [heq]
      cases hab with
      | error _ hn => exact ⟨hrel.of_astray _ _, hknown.leaves_unknown hn⟩
      | refl =>
          have hfind' := (hrel.names.findField cls (c.spelling name)).trans hfind
          have hfades := hrel.names.entity id
          have hkinds := hfades.kind
          rw [hkind] at hkinds
          obtain ⟨astray', heq'⟩ := selectField_found hfind' hkinds.eq_var
          rw [heq']
          exact ⟨hrel.of_astray _ _, hknown, .kept hfades.ty⟩

theorem absorbs_selectField {a b : Ty} (ha : a.Known) (hab : a.Fades n b) (name : String) :
    Absorbs c n [(.selected, name)] (selectField a (some (c.spelling name)))
      (selectField b (some (c.misspelling name))) Operand.Leaves := by
  cases a with
  | error => exact ha.elim
  | void | int | char | array => exact .of_report
  | object cls =>
      by_cases hmark : name = c.mark
      · rw [hmark, misspelling_mark]
        exact absorbs_selectField_mark hab
      · rw [misspelling_of_ne hmark]
        exact absorbs_selectField_of_ne hab hmark

theorem absorbs_selectElement (hx : x.Leaves n x') (hy : y.Leaves n y') :
    Absorbs c n [] (selectElement x y) (selectElement x' y') Operand.Leaves := by
  obtain ⟨place, a⟩ := x
  obtain ⟨place', b⟩ := x'
  have hknown : a.Known := hx.known.ty
  have hfades : a.Fades n b := hx.fades.ty
  cases a with
  | error => exact hknown.elim
  | void | int | char | object => exact .of_report
  | array elem =>
      have helem : (⟨.element, elem⟩ : Operand).Known := ⟨by simp, hknown⟩
      cases hfades with
      | error _ hn =>
          refine .met fun _ => ?_
          exact (absorbs_load_alone y).discard.ahead fun _ _ => .pure (helem.leaves_unknown hn)
      | refl =>
          refine .bothMeet hy.fades.ty.isInt ?_
          exact (absorbs_load hy).discard.seq fun _ _ _ => .pure ⟨helem, .refl _⟩
      | array h =>
          refine .bothMeet hy.fades.ty.isInt ?_
          exact (absorbs_load hy).discard.seq fun _ _ _ => .pure ⟨helem, .kept h⟩

/-! ## Operators -/

theorem absorbs_arithmetic (op : Arithmetic) (hx : x.Leaves n x') (hy : y.Leaves n y') :
    Absorbs c n [] (arithmetic op x y) (arithmetic op x' y') Operand.Leaves := by
  unfold arithmetic
  by_cases hint : (x.ty.isInt && y.ty.isInt) = true
  · have hint' : (x'.ty.isInt && y'.ty.isInt) = true := by
      rw [Bool.and_eq_true] at hint ⊢
      exact ⟨hx.fades.ty.isInt hint.1, hy.fades.ty.isInt hint.2⟩
    rw [if_pos hint, if_pos hint']
    exact (absorbs_emit _ _).seq fun _ _ _ => .pure (.onStack trivial (.refl _))
  · rw [if_neg hint]
    exact .of_report

/-- The sign of a loaded operand is changed. -/
def negateLoaded (x : Operand) : Check Operand := do
  let x ← load x
  emit .neg
  return .onStack x.ty

theorem absorbs_negateLoaded (hx : x.Leaves n x') :
    Absorbs c n [] (negateLoaded x) (negateLoaded x') Operand.Leaves := by
  refine (absorbs_load hx).seq fun y y' hy => (absorbs_emit _ _).seq fun _ _ _ => ?_
  exact .pure (.onStack hy.known.ty hy.fades.ty)

/-- The second pass no longer knows that an operand is a constant. -/
theorem absorbs_negateLoaded_alone {value : Int32} {a : Ty} (ha : a.Known) (hn : n ≠ 0)
    (hx : x'.loaded = .ok y') (hy : a.Fades n y'.ty) :
    Absorbs c n [] (pure (.constant value a)) (negateLoaded x') Operand.Leaves := by
  have hload : Absorbs c n [] (pure ()) (load x') fun _ _ z => z = y' := by
    have hrun : Absorbs c n [] (pure ()) (emitting (Emit.load x').run) fun _ _ r => r = .ok y' := by
      change Absorbs c n [] (emitting (pure ())) _ _
      exact absorbs_emitting fun _ b' => (Emit.load_fst x' b').trans hx
    refine hrun.behind ?_
    rintro _ rfl
    exact .pure rfl
  refine hload.behind ?_
  rintro _ rfl
  refine (absorbs_emit_behind _).behind fun _ _ => .pure ⟨⟨?_, ha⟩, .loaded hy hn⟩
  simp [Operand.constant]

theorem absorbs_negated (hx : x.Leaves n x') :
    Absorbs c n [] (negated x) (negated x') Operand.Leaves := by
  obtain ⟨place, a⟩ := x
  have hknown : a.Known := hx.known.ty
  unfold negated
  by_cases hint : a.isInt = true
  · rw [if_pos hint, if_pos (hx.fades.ty.isInt hint)]
    cases hx.fades with
    | kept h =>
        cases place with
        | constant value => exact .pure ⟨⟨by simp [Operand.constant], hknown⟩, .kept h⟩
        | frame | global | field | element | method | stack | unknown =>
            exact absorbs_negateLoaded hx
    | loaded h hn => exact absorbs_negateLoaded_alone hknown hn rfl h
    | lost hn =>
        cases place with
        | constant value => exact absorbs_negateLoaded_alone hknown hn rfl (.error _ hn)
        | frame | global | field | element | method | stack | unknown =>
            exact absorbs_negateLoaded hx
  · rw [if_neg hint]
    exact .of_report

/-! ## Allocation -/

/-- What two passes take a name behind `new` to denote: the same type, or in the second one after a
mistake any type. -/
def Named (n : Nat) (r r' : Option Ty) : Prop :=
  ∀ a, r = some a → a.Known ∧ a ≠ .void ∧ (r' = some a ∨ n ≠ 0 ∧ r' = some .error)

theorem Named.some {a : Ty} {r : Option Ty} (h : Named n (some a) r) :
    a.Known ∧ ∃ b, r = Option.some b ∧ a.Fades n b := by
  obtain ⟨hknown, -, rfl | ⟨hn, rfl⟩⟩ := h a rfl
  · exact ⟨hknown, a, rfl, .refl a⟩
  · exact ⟨hknown, .error, rfl, .error a hn⟩

theorem named_of_fades {e e' : Entity} (hknown : e.Known) (h : e.Fades n e') :
    Named n e.namedType? e'.namedType? := by
  intro a ha
  obtain ⟨name, kind, ty⟩ := e
  obtain ⟨name', kind', ty'⟩ := e'
  cases kind with
  | typeName =>
      cases ha
      obtain ⟨hsame, hvoid⟩ := h.named rfl
      have hkind := h.kind
      cases hkind with
      | refl => exact ⟨hknown.ty, hvoid, .inl (congrArg some hsame)⟩
  | unknown => exact absurd rfl hknown.kind
  | constant | var | method | program => cases ha

theorem named_of_lost {e : Entity} (hknown : e.Known) (hn : n ≠ 0) :
    Named n e.namedType? (some .error) := by
  intro a ha
  obtain ⟨name, kind, ty⟩ := e
  cases kind with
  | typeName =>
      cases ha
      exact ⟨hknown.ty, hknown.named rfl, .inr ⟨hn, rfl⟩⟩
  | unknown => exact absurd rfl hknown.kind
  | constant | var | method | program => cases ha

theorem absorbs_allocatedType (name : String) :
    Absorbs c n [(.used, name)] (allocatedType (c.spelling name))
      (allocatedType (c.misspelling name)) Named := by
  refine absorbs_resolve name (fun id => inferInstance) ?_ ?_
  · exact fun id e e' hknown hfades => .pure (named_of_fades hknown hfades)
  · exact fun id e hknown => .pure (named_of_lost hknown (Nat.succ_ne_zero n))

theorem absorbs_allocateObject {r r' : Option Ty} (h : Named n r r') :
    Absorbs c n [] (allocateObject r) (allocateObject r') Operand.Leaves := by
  cases r with
  | none => exact .of_report
  | some a =>
      obtain ⟨hknown, -, hr'⟩ := h a rfl
      cases a with
      | error => exact hknown.elim
      | void | int | char | array => exact .of_report
      | object cls =>
          rcases hr' with rfl | ⟨hn, rfl⟩
          · have hclass : Absorbs c n [] (classOf cls) (classOf cls) any :=
              absorbs_following fun _ _ _ => trivial
            refine hclass.seq fun _ _ _ => absorbs_writing.seq fun _ _ _ => ?_
            exact .pure (.onStack trivial (.refl _))
          · refine absorbs_following_alone.ahead fun _ _ => ?_
            refine absorbs_writing_alone.ahead fun _ _ => ?_
            exact .pure ((Operand.known_onStack hknown).leaves_unknown hn)

/-- A fresh array, from the opening bracket on. -/
def allocateArray (named : Option Ty) (size : Check Operand) (rbracket : Mark) : Check Operand := do
  consume
  if named.isNone then report .typeExpected
  let n ← size
  unless n.ty.isInt do report .sizeNonInt
  discard <| load n
  require .rbracket rbracket
  let elem := named.getD .error
  emitting (Emit.newArray elem)
  return .onStack (.array elem)

theorem expr_newArray (elem : String) (size : Expr) (rbracket : Mark) :
    expr (.newArray elem size rbracket) = (do
      consume
      consume
      allocateArray (← allocatedType elem) (expr size) rbracket) := by
  rw [expr]
  rfl

instance (named : Option Ty) (size : Check Operand) (rbracket : Mark) [Growing size] :
    Growing (allocateArray named size rbracket) :=
  .bind inferInstance fun _ => .noting inferInstance fun _ => inferInstance

theorem absorbs_allocateArray {r r' : Option Ty} (h : Named n r r') {size size' : Check Operand}
    [Growing size] (hsize : Absorbs c n ns size size' Operand.Leaves) (rbracket : Mark) :
    Absorbs c n ns (allocateArray r size rbracket) (allocateArray r' size' rbracket)
      Operand.Leaves := by
  refine absorbs_consume.seq_of (fun _ => .noting inferInstance fun _ => inferInstance) ?_
  intro _ _ _
  cases r with
  | none => exact .of_report
  | some a =>
      obtain ⟨hknown, b, rfl, hab⟩ := h.some
      refine hsize.last fun m x x' hm hx => .bothMeet hx.fades.ty.isInt ?_
      refine (absorbs_load hx).discard.seq fun _ _ _ => (absorbs_require _ _).seq fun _ _ _ => ?_
      exact absorbs_writing.seq fun _ _ _ => .pure (.onStack hknown (.array (hab.mono hm)))

/-! ## Calls -/

/-- Parameter types, and what `n` mistakes leave of them. Of an unknown method they are not known at
all. -/
def Formals (n : Nat) (formals formals' : List Ty) : Prop :=
  List.Forall₂ (Ty.Fades n) formals formals' ∨ n ≠ 0 ∧ formals' = []

theorem Formals.mono {formals formals' : List Ty} (h : Formals n formals formals') (hnm : n ≤ m) :
    Formals m formals formals' := by
  rcases h with h | ⟨hn, rfl⟩
  · exact .inl (h.imp fun _ _ hf => hf.mono hnm)
  · exact .inr ⟨by omega, rfl⟩

theorem Formals.tail {formals formals' : List Ty} (h : Formals n formals formals') :
    Formals n formals.tail formals'.tail := by
  rcases h with h | ⟨hn, rfl⟩
  · cases h with
    | nil => exact .inl .nil
    | cons _ hrest => exact .inl hrest
  · exact .inr ⟨hn, rfl⟩

theorem absorbs_checkArgument {formals formals' : List Ty} (hy : y.Leaves n y')
    (h : Formals n formals formals') :
    Absorbs c n [] (checkArgument y formals) (checkArgument y' formals') any := by
  rcases h with h | ⟨hn, rfl⟩
  · cases h with
    | nil => exact .pure trivial
    | cons hformal _ => exact .finish (hy.fades.ty.assignableTo hformal)
  · cases formals with
    | nil => exact .pure trivial
    | cons formal rest =>
        rw [checkArgument]
        split
        · exact .pure trivial
        · exact .report

/-- What two passes know of a called method. -/
def Called (x' : Operand) (n : Nat) (r r' : Option Callee) : Prop :=
  ∀ callee, r = some callee →
    (∃ callee', r' = some callee' ∧ callee.Alike callee') ∨
    n ≠ 0 ∧ r' = none ∧ x' = .unknown

theorem called_of_fades {e e' : Entity} (h : e.Fades n e') : Called x' n e.callee? e'.callee? := by
  intro callee hcallee
  obtain ⟨name, kind, ty⟩ := e
  obtain ⟨name', kind', ty'⟩ := e'
  have hkind := h.kind
  cases hkind with
  | method halike =>
      cases hcallee
      exact .inl ⟨_, rfl, halike⟩
  | refl => exact .inl ⟨callee, hcallee, rfl, rfl, rfl⟩

theorem absorbs_calleeOf (hx : x.Leaves n x') :
    Absorbs c n [] (calleeOf x) (calleeOf x') (Called x') := by
  have hnone (r : Option Callee) : Called x' n none r := by
    rintro callee ⟨⟩
  obtain ⟨place, a⟩ := x
  cases hx.fades with
  | kept =>
      cases place with
      | method id =>
          exact (absorbs_entityOf id).seq fun e e' he => .pure (called_of_fades he)
      | constant | frame | global | field | element | stack | unknown => exact .pure (hnone _)
  | loaded => exact .pure (hnone _)
  | lost hn =>
      cases place with
      | method id =>
          exact absorbs_following_alone.ahead fun _ _ => .pure fun _ _ => .inr ⟨hn, rfl, rfl⟩
      | constant | frame | global | field | element | stack | unknown => exact .pure (hnone _)

theorem absorbs_paramTypes {callee callee' : Callee} (h : callee.Alike callee') :
    Absorbs c n [] (paramTypes callee) (paramTypes callee') fun n => List.Forall₂ (Ty.Fades n) :=
  absorbs_following fun _ _ hrel => hrel.names.paramTypes h

theorem absorbs_checkCount (given wanted : Nat) :
    Absorbs c n [] (checkCount given wanted) (checkCount given wanted) any := by
  unfold checkCount
  split
  · exact .report
  · split
    · exact .report
    · exact .pure trivial

theorem absorbs_checkCount_alone (given wanted : Nat) :
    Absorbs c n [] (checkCount given wanted) (pure ()) any := by
  unfold checkCount
  split
  · exact .report
  · split
    · exact .report
    · exact .pure trivial

theorem absorbs_emitCall {callee callee' : Callee} (h : callee'.builtin = callee.builtin) :
    Absorbs c n [] (emitCall callee) (emitCall callee') any := by
  unfold emitCall
  rw [h]
  split
  · exact .pure trivial
  · exact .pure trivial
  · exact absorbs_emit _ _
  · exact absorbs_emit _ _

theorem absorbs_emitCall_alone (callee : Callee) :
    Absorbs c n [] (emitCall callee) (pure ()) any := by
  unfold emitCall
  split
  · exact .pure trivial
  · exact .pure trivial
  · exact absorbs_emit_alone _
  · exact absorbs_emit_alone _

theorem absorbs_callWith (hx : x.Leaves n x') {args args' : List Ty → Check Unit}
    [∀ formals, Growing (args formals)]
    (hargs : ∀ formals formals', Formals n formals formals' →
      Absorbs c n ns (args formals) (args' formals') any) (count : Nat) (rparen : Mark) :
    Absorbs c n ns (callWith x args count rparen) (callWith x' args' count rparen)
      Operand.Leaves := by
  have hstack := Operand.known_onStack hx.known.ty
  unfold callWith
  refine absorbs_consume.seq_of
    (fun _ => .bind inferInstance fun r => by split <;> infer_instance) fun _ _ _ => ?_
  refine (absorbs_calleeOf hx).seq_of (fun r => by split <;> infer_instance) fun r r' hcall => ?_
  cases r with
  | none =>
      rw [if_neg hx.known.place]
      exact .of_report
  | some callee =>
      rcases hcall callee rfl with ⟨callee', rfl, halike⟩ | ⟨hn, rfl, rfl⟩
      · refine (absorbs_paramTypes halike).seq fun formals formals' hformals => ?_
        refine (hargs _ _ (.inl hformals)).last fun m _ _ hm _ => ?_
        rw [halike.paramCount]
        refine (absorbs_checkCount _ _).seq fun _ _ _ => (absorbs_require _ _).seq fun _ _ _ => ?_
        refine (absorbs_emitCall halike.builtin).seq fun _ _ _ => ?_
        exact .pure (.onStack hx.known.ty (hx.fades.ty.mono hm))
      · have halone : Absorbs c n [] (paramTypes callee) (pure ()) any := absorbs_following_alone
        refine halone.ahead fun formals _ => ?_
        refine (hargs _ _ (.inr ⟨hn, rfl⟩)).last fun m _ _ hm _ => ?_
        refine (absorbs_checkCount_alone _ _).ahead fun _ _ => ?_
        refine (absorbs_require _ _).seq fun _ _ _ => ?_
        refine (absorbs_emitCall_alone callee).ahead fun _ _ => ?_
        exact .pure (hstack.leaves_unknown (by omega))

theorem absorbs_comma {γ : Type} {rest rest' : List γ} (hlen : rest'.isEmpty = rest.isEmpty)
    {next next' : Check α} [Growing next] {R : Nat → α → α → Prop}
    (h : Absorbs c n ns next next' R) :
    Absorbs c n ns (do
      unless rest.isEmpty do consume
      next) (do
      unless rest'.isEmpty do consume
      next') R := by
  rw [hlen]
  split
  · exact h
  · exact absorbs_consume.seq fun _ _ _ => h

theorem length_renameAll (f : String → String) (args : List Expr) :
    (Expr.renameAll f args).length = args.length := by
  rw [Expr.renameAll_eq_map, List.length_map]

theorem absorbs_requireName (name name' : String) :
    Absorbs c n [] (requireName (some name)) (requireName (some name')) any :=
  absorbs_consume

mutual

theorem absorbs_designator : ∀ (d : Designator) (n : Nat), Absorbs c n d.outline.names
    (designator (d.rename c.spelling)) (designator (d.rename c.misspelling)) Operand.Leaves
  | .missing, n => by
      rw [Designator.rename, Designator.rename, designator]
      exact .of_report
  | .name name, n => by
      rw [Designator.rename, Designator.rename]
      simp only [designator]
      exact absorbs_consume.seq fun _ _ _ => absorbs_operandFor name
  | .field base none, n => by
      rw [Designator.rename, Designator.rename, Designator.outline, Outline.ident]
      simp only [designator, Outline.names_append, Outline.names_token, names_gap, List.append_nil]
      refine (absorbs_designator base n).last fun m x x' _ hx => ?_
      refine (absorbs_load hx).seq fun _ _ _ => ?_
      exact absorbs_consume.seq fun _ _ _ => .of_report
  | .field base (some name), n => by
      rw [Designator.rename, Designator.rename]
      simp only [designator]
      refine (absorbs_designator base n).bind fun x x' hx => (absorbs_load hx).seq fun y y' hy => ?_
      refine absorbs_consume.seq fun _ _ _ => (absorbs_requireName _ _).seq fun _ _ _ => ?_
      exact absorbs_selectField hy.known.ty hy.fades.ty name
  | .index base i rbracket, n => by
      rw [Designator.rename, Designator.rename, Designator.outline]
      simp only [designator, Outline.names_append, Outline.names_token, names_mark,
        List.append_nil, List.nil_append]
      refine (absorbs_designator base n).bind fun x x' hx => (absorbs_load hx).seq fun y y' hy => ?_
      refine absorbs_consume.seq fun _ _ _ => (absorbs_expr i _).last fun m z z' hm hz => ?_
      exact (absorbs_require _ _).seq fun _ _ _ => absorbs_selectElement (hy.mono hm) hz

theorem absorbs_expr : ∀ (e : Expr) (n : Nat), Absorbs c n e.outline.names
    (expr (e.rename c.spelling)) (expr (e.rename c.misspelling)) Operand.Leaves
  | .number value, n => by
      rw [Expr.rename, Expr.rename, expr]
      refine absorbs_consume.seq fun _ _ _ => .pure ⟨⟨by simp [Operand.constant], trivial⟩, .refl _⟩
  | .char value, n => by
      rw [Expr.rename, Expr.rename, expr]
      refine absorbs_consume.seq fun _ _ _ => .pure ⟨⟨by simp [Operand.constant], trivial⟩, .refl _⟩
  | .value source, n => by
      rw [Expr.rename, Expr.rename, Expr.outline, expr, expr]
      exact absorbs_designator source n
  | .call callee args rparen, n => by
      rw [Expr.rename, Expr.rename, Expr.outline, expr, expr]
      simp only [Outline.names_append, Outline.names_token, names_mark, List.append_nil,
        List.nil_append, length_renameAll]
      refine (absorbs_designator callee n).bind fun x x' hx => ?_
      refine (absorbs_callWith hx (absorbs_arguments args _) _ rparen).last fun m r r' _ hr => ?_
      split
      · exact .of_report
      · next hvoid =>
          rw [if_neg (hr.fades.ty.ne_void hvoid)]
          exact .pure hr
  | .newNothing, n => by
      rw [Expr.rename, Expr.rename, expr]
      exact absorbs_consume.seq fun _ _ _ => .of_report
  | .newObject cls, n => by
      rw [Expr.rename, Expr.rename, expr, expr]
      refine absorbs_consume.seq fun _ _ _ => absorbs_consume.seq fun _ _ _ => ?_
      exact (absorbs_allocatedType cls).last fun m r r' _ hr => absorbs_allocateObject hr
  | .newArray elem size rbracket, n => by
      rw [Expr.rename, Expr.rename, Expr.outline, expr_newArray, expr_newArray]
      simp only [Outline.names_append, Outline.names_token, names_mark, List.append_nil,
        List.nil_append]
      refine absorbs_consume.seq fun _ _ _ => absorbs_consume.seq fun _ _ _ => ?_
      refine (absorbs_allocatedType elem).bind fun r r' hr => ?_
      exact absorbs_allocateArray hr (absorbs_expr size _) rbracket
  | .paren inner rparen, n => by
      rw [Expr.rename, Expr.rename, Expr.outline, expr, expr]
      simp only [Outline.names_append, Outline.names_token, names_mark, List.append_nil,
        List.nil_append]
      refine absorbs_consume.seq fun _ _ _ => (absorbs_expr inner n).last fun m x x' _ hx => ?_
      exact (absorbs_require _ _).seq fun _ _ _ => .pure hx
  | .negate operand, n => by
      rw [Expr.rename, Expr.rename, Expr.outline, expr, expr]
      refine absorbs_consume.seq fun _ _ _ => ?_
      exact (absorbs_expr operand n).last fun m x x' _ hx => absorbs_negated hx
  | .binary op left right, n => by
      rw [Expr.rename, Expr.rename, Expr.outline, expr, expr]
      refine (absorbs_expr left n).bind fun x x' hx => absorbs_consume.seq fun _ _ _ => ?_
      refine (absorbs_load hx).seq fun y y' hy => (absorbs_expr right _).last fun m z z' hm hz => ?_
      exact (absorbs_load hz).seq fun _ _ hw => absorbs_arithmetic op (hy.mono hm) hw
  | .missing, n => by
      rw [Expr.rename, Expr.rename, expr]
      exact .of_report

theorem absorbs_arguments : ∀ (args : List Expr) (n : Nat) (formals formals' : List Ty),
    Formals n formals formals' → Absorbs c n (Expr.outlines args).names
      (arguments (Expr.renameAll c.spelling args) formals)
      (arguments (Expr.renameAll c.misspelling args) formals') any
  | [], n, formals, formals', _ => by
      rw [Expr.renameAll, Expr.renameAll, arguments, arguments]
      exact .pure trivial
  | arg :: rest, n, formals, formals', h => by
      rw [Expr.renameAll, Expr.renameAll, arguments, arguments, Expr.outlines]
      simp only [Outline.names_append, names_comma, List.nil_append]
      refine (absorbs_expr arg n).bind fun y y' hy => (absorbs_load hy).seq fun z z' hz => ?_
      have h' := h.mono (Nat.le_add_right n (c.hits arg.outline.names))
      refine (absorbs_checkArgument hz h').seq fun _ _ _ => ?_
      refine absorbs_comma ?_ (absorbs_arguments rest _ _ _ h'.tail)
      simp only [Expr.renameAll_eq_map, List.isEmpty_map]

end

theorem absorbs_condition (q : Condition) (n : Nat) : Absorbs c n q.outline.names
    (condition (q.rename c.spelling)) (condition (q.rename c.misspelling)) any := by
  obtain ⟨left, rel, right⟩ := q
  unfold condition Condition.rename Condition.outline
  cases rel with
  | none =>
      dsimp only
      exact (absorbs_expr left n).bind fun x x' hx => (absorbs_load hx).seq fun _ _ _ => .of_report
  | some rel =>
      dsimp only
      refine (absorbs_expr left n).bind fun x x' hx => (absorbs_load hx).seq fun y y' hy => ?_
      refine absorbs_consume.seq fun _ _ _ => (absorbs_expr right _).last fun m z z' hm hz => ?_
      refine (absorbs_load hz).seq fun w w' hw => ?_
      refine .neitherObjects ?_ (.neitherObjects ?_ (.pure trivial))
      · have hcompatible := (hy.mono hm).fades.ty.compatible hw.fades.ty
        rw [Bool.not_eq_true', Bool.not_eq_true', ← Bool.not_eq_true, ← Bool.not_eq_true]
        exact mt hcompatible
      · simp only [Bool.and_eq_true, Bool.or_eq_true]
        exact And.imp_left (Or.imp (hy.mono hm).fades.ty.isReference hw.fades.ty.isReference)

end Check

end MicroJava
