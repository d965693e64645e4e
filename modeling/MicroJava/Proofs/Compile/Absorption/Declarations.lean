import MicroJava.Proofs.Compile.Absorption.Statements

/-! # One misspelt name in a program

What a declaration leaves in the two tables differs only in types that a mistake has made unknown,
so the mistake goes unnoticed wherever the declared names are used. The two passes are followed
through all declarations, up to the whole program. -/

namespace MicroJava

variable {n m : Nat}

/-- A type that values can have, and what `n` mistakes leave of it. -/
structure Ty.Leaves (n : Nat) (a b : Ty) : Prop where
  known : a.Known
  ne_void : a ≠ .void
  fades : a.Fades n b

theorem Ty.Leaves.mono {a b : Ty} (h : a.Leaves n b) (hnm : n ≤ m) : a.Leaves m b :=
  ⟨h.known, h.ne_void, h.fades.mono hnm⟩

theorem Ty.Leaves.array {a b : Ty} (h : a.Leaves n b) : (Ty.array a).Leaves n (.array b) :=
  ⟨h.known, by simp, .array h.fades⟩

theorem Ty.Leaves.returns {a b : Ty} (h : a.Leaves n b) : a.Returns n b := by
  refine ⟨h.known, h.fades, ?_⟩
  constructor
  · exact fun hb => absurd hb (h.fades.ne_void h.ne_void)
  · exact fun ha => absurd ha h.ne_void

theorem names_present {γ : Type} (value : Option γ) : (Outline.present value).names = [] := by
  cases value <;> rfl

set_option synthInstance.maxSize 512

namespace Check

open Slip

variable {α β : Type} {c : Slip} {ns : List (Role × String)}

/-! ## Variables and constants -/

/-- A type name that is misspelt stands for the unknown type, once reported. -/
theorem absorbs_orExpected {r r' : Option Ty} (h : Named n r r') :
    Absorbs c n [] (typeRef.orExpected r) (typeRef.orExpected r') Ty.Leaves := by
  cases r with
  | none => exact .of_report
  | some a =>
      obtain ⟨hknown, hvoid, rfl | ⟨hn, rfl⟩⟩ := h a rfl
      · exact .pure ⟨hknown, hvoid, .refl a⟩
      · exact .pure ⟨hknown, hvoid, .error a hn⟩

/-- A type with the brackets behind its name. -/
def bracketed (brackets : Option Mark) (ty : Ty) : Check Ty :=
  match brackets with
  | none => return ty
  | some rbracket => do
      consume
      require .rbracket rbracket
      return .array ty

/-- A type reference looks its name up and then minds the brackets. -/
theorem typeRef_named (name : String) (brackets : Option Mark) :
    typeRef (.named name brackets) = (do
      consume
      let id ← resolve name
      bracketed brackets (← typeRef.orExpected (← entityOf id).namedType?)) := by
  cases brackets <;> rfl

instance (brackets : Option Mark) (ty : Ty) : Growing (bracketed brackets ty) := by
  cases brackets <;> (rw [bracketed]; infer_instance)

theorem names_named (name : String) (brackets : Option Mark) :
    (TypeRef.named name brackets).outline.names = [(.used, name)] := by
  cases brackets with
  | none => rfl
  | some rbracket => simp [TypeRef.outline, Outline.ident]

/-- An array of an unknown type is not known to the full either. -/
theorem absorbs_bracketed {a b : Ty} (h : a.Leaves n b) (brackets : Option Mark) :
    Absorbs c n [] (bracketed brackets a) (bracketed brackets b) Ty.Leaves := by
  cases brackets with
  | none => exact .pure h
  | some rbracket =>
      exact absorbs_consume.seq fun _ _ _ => (absorbs_require _ _).seq fun _ _ _ => .pure h.array

/-- At most one name of a type reference is misspelt. -/
theorem absorbs_typeRef (r : TypeRef) (n : Nat) : Absorbs c n r.outline.names
    (typeRef (r.rename c.spelling)) (typeRef (r.rename c.misspelling)) Ty.Leaves := by
  cases r with
  | missing => exact .of_report
  | named name brackets =>
      rw [TypeRef.rename, TypeRef.rename, typeRef_named, typeRef_named, names_named]
      refine absorbs_consume.seq fun _ _ _ => absorbs_resolve name (fun _ => inferInstance) ?_ ?_
      · intro id e e' hknown hfades
        refine (absorbs_orExpected (named_of_fades hknown hfades)).seq fun _ _ h => ?_
        exact absorbs_bracketed h brackets
      · intro id e hknown
        refine (absorbs_orExpected (named_of_lost hknown (Nat.succ_ne_zero n))).seq fun _ _ h => ?_
        exact absorbs_bracketed h brackets

/-- What is declared with an unknown type is declared all the same. -/
theorem absorbs_declareName (form : Form) {a b : Ty} (ha : a.Known) (hab : a.Fades n b)
    (hform : form ≠ .typeName) (name : Option String) :
    Absorbs c n (Outline.ident .declared name).names (declareName form a (name.map c.spelling))
      (declareName form b (name.map c.misspelling)) fun _ id id' => id' = id := by
  cases name with
  | none =>
      change Absorbs c n [] (report (.expected .ident) >>= fun _ => pure NameTable.unknownId) _ _
      exact .of_report
  | some name =>
      change Absorbs c n [(.declared, name)] (requireName _ >>= fun _ => declare form _ a)
        (requireName _ >>= fun _ => declare form _ b) _
      refine (absorbs_requireName _ _).seq fun _ _ _ => ?_
      exact absorbs_declare form name hab ha fun h => absurd h hform

/-- All variables of a declaration share the type that was left. -/
theorem absorbs_moreVars (others : List (Option String)) {a b : Ty} (h : a.Leaves n b) :
    Absorbs c n (otherNames others).names (moreVars a (others.map (Option.map c.spelling)))
      (moreVars b (others.map (Option.map c.misspelling))) any := by
  induction others generalizing n with
  | nil => exact .pure trivial
  | cons name rest ih =>
      refine absorbs_consume.seq fun _ _ _ => ?_
      refine (absorbs_declareName .var h.known h.fades (by simp) name).discard.bind fun _ _ _ => ?_
      exact ih (h.mono (Nat.le_add_right ..))

theorem absorbs_varDecl (d : VarDecl) (n : Nat) : Absorbs c n d.outline.names
    (varDecl (d.rename c.spelling)) (varDecl (d.rename c.misspelling)) any := by
  unfold varDecl VarDecl.outline
  simp only [Outline.names_append, names_mark, List.append_nil]
  refine (absorbs_typeRef d.type n).bind fun a b h => ?_
  refine (absorbs_declareName .var h.known h.fades (by simp) d.first).discard.bind fun _ _ _ => ?_
  refine (absorbs_moreVars d.others (h.mono (Nat.le_add_right ..))).last fun _ _ _ _ _ => ?_
  exact absorbs_require _ _

theorem absorbs_varDecls (ds : List VarDecl) (n : Nat) :
    Absorbs c n (Outline.concat VarDecl.outline ds).names
      (varDecls (ds.map (VarDecl.rename c.spelling)))
      (varDecls (ds.map (VarDecl.rename c.misspelling))) any := by
  induction ds generalizing n with
  | nil => exact .pure trivial
  | cons d rest ih => exact (absorbs_varDecl d n).bind fun _ _ _ => ih _

/-- A value is given to the entity behind the same handle in both passes. -/
theorem absorbs_setConstant (id : EntityId) (value : Int32) :
    Absorbs c n [] (setConstant id value) (setConstant id value) any := by
  intro _ p p' hrel _
  have hnames := hrel.of_names (hrel.names.setConstant id value) (hrel.known.setConstant id value)
    (hrel.lacks.setConstant id value)
  exact ⟨hnames.of_astray _ _, trivial⟩

/-- A constant of unknown type accepts any literal. -/
theorem absorbs_constantValue {a b : Ty} (h : a.Fades n b) (id : EntityId)
    (value : Option Literal) :
    Absorbs c n [] (constantValue a id value) (constantValue b id value) any := by
  cases value with
  | none => exact .of_report
  | some lit =>
      refine .bothMeet ((Ty.Fades.refl (literalType lit)).assignableTo h) ?_
      exact absorbs_consume.seq fun _ _ _ => absorbs_setConstant id lit.value

theorem absorbs_constDecl (d : ConstDecl) (n : Nat) : Absorbs c n d.outline.names
    (constDecl (d.rename c.spelling)) (constDecl (d.rename c.misspelling)) any := by
  unfold constDecl ConstDecl.outline
  simp only [Outline.names_append, Outline.names_token, names_mark, names_present, List.append_nil,
    List.nil_append]
  refine absorbs_consume.seq fun _ _ _ => (absorbs_typeRef d.type n).bind fun a b h => ?_
  refine (absorbs_declareName .constant h.known h.fades (by simp) d.name).last ?_
  rintro m _ id hm rfl
  refine (absorbs_require _ _).seq fun _ _ _ => ?_
  exact (absorbs_constantValue (h.fades.mono hm) id d.value).seq fun _ _ _ => absorbs_require _ _

/-! ## Classes -/

variable {allowed : String → Prop}

/-- A part of the pass that declares nothing but variables with names that are `allowed`. -/
class Varied (allowed : String → Prop) (act : Check α) : Prop where
  onlyVars : ∀ p, p.names.OnlyVars allowed → (act p).2.names.OnlyVars allowed
  classes : ∀ p, (act p).2.names.classes = p.names.classes

instance (a : α) : Varied allowed (pure a : Check α) := ⟨fun _ h => h, fun _ => rfl⟩

/-- Variables may be declared one after the other. -/
theorem Varied.bind {act : Check α} {f : α → Check β} (h : Varied allowed act)
    (h' : ∀ a, Varied allowed (f a)) : Varied allowed (act >>= f) :=
  ⟨fun p hp => (h' _).onlyVars _ (h.onlyVars p hp), fun p => ((h' _).classes _).trans (h.classes p)⟩

instance (act : Check α) (f : α → Check β) [h : Varied allowed act]
    [h' : ∀ a, Varied allowed (f a)] : Varied allowed (act >>= f) := h.bind h'

theorem Varied.discard {act : Check α} (h : Varied allowed act) : Varied allowed (discard act) :=
  ⟨fun p hp => h.onlyVars p hp, fun p => h.classes p⟩

instance : Varied allowed consume := ⟨fun _ h => h, fun _ => rfl⟩

instance (problem : Problem) : Varied allowed (report problem) := ⟨fun _ h => h, fun _ => rfl⟩

instance (id : EntityId) : Varied allowed (entityOf id) := ⟨fun _ h => h, fun _ => rfl⟩

instance (k : TokenKind) (mark : Mark) : Varied allowed (require k mark) := by
  cases mark <;> (rw [require]; infer_instance)

instance (name : Option String) : Varied allowed (requireName name) := by
  cases name <;> (rw [requireName]; infer_instance)

instance (r : Except NameError EntityId) : Varied allowed (orUnknown r) := by
  cases r <;> (rw [orUnknown]; infer_instance)

instance (name : String) : Varied allowed (resolve name) :=
  ⟨fun p hp => (inferInstance : Varied allowed (orUnknown (p.names.find name))).onlyVars p hp,
    fun p => (inferInstance : Varied allowed (orUnknown (p.names.find name))).classes p⟩

instance (r : TypeRef) : Varied allowed (typeRef r) := by
  have (ty : Option Ty) : Varied allowed (typeRef.orExpected ty) := by
    cases ty <;> (rw [typeRef.orExpected]; infer_instance)
  cases r with
  | missing => rw [typeRef]; infer_instance
  | named name brackets =>
      have (ty : Ty) : Varied allowed (bracketed brackets ty) := by
        cases brackets <;> (rw [bracketed]; infer_instance)
      rw [typeRef_named]
      infer_instance

/-- Declaring a name adds no class. -/
theorem classes_declare (form : Form) (name : String) (ty : Ty) (p : Pass) :
    (declare form name ty p).2.names.classes = p.names.classes := by
  have hinsert : (p.names.insert form name ty).2.classes = p.names.classes := by
    rw [NameTable.insert]
    split <;> rfl
  rw [declare_apply, ← hinsert]
  -- whatever names are allowed, giving up on a name declares nothing
  exact (inferInstance : Varied (fun _ => True) (orUnknown _)).classes _

/-- A declared variable has one of the names of its declaration. -/
theorem varied_declareName (ty : Ty) {name : Option String}
    (h : ∀ given, name = some given → allowed given) :
    Varied allowed (declareName .var ty name) := by
  cases name with
  | none => unfold declareName; infer_instance
  | some name =>
      have hdeclare : Varied allowed (declare .var name ty) := by
        refine ⟨fun p hp => ?_, classes_declare .var name ty⟩
        rw [declare_apply]
        exact (inferInstance : Varied allowed (orUnknown _)).onlyVars _ (hp.insert (h name rfl) ty)
      exact Varied.bind inferInstance fun _ => hdeclare

theorem varied_moreVars (ty : Ty) {others : List (Option String)}
    (h : ∀ name ∈ others.reduceOption, allowed name) : Varied allowed (moreVars ty others) := by
  induction others with
  | nil => rw [moreVars]; infer_instance
  | cons name rest ih =>
      have hname : ∀ given, name = some given → allowed given := by
        rintro given rfl
        exact h given (List.mem_cons_self ..)
      have hrest := ih fun given hgiven => h given ?_
      · rw [moreVars]
        exact Varied.bind inferInstance fun _ =>
          (varied_declareName ty hname).discard.bind fun _ => hrest
      · cases name with
        | none => exact hgiven
        | some => exact List.mem_cons_of_mem _ hgiven

/-- The names of a declaration are all that it declares. -/
theorem varied_varDecl {d : VarDecl} (h : ∀ name ∈ d.names, allowed name) :
    Varied allowed (varDecl d) := by
  have hfirst : ∀ given, d.first = some given → allowed given := by
    intro given hgiven
    refine h given ?_
    rw [VarDecl.names, hgiven]
    exact List.mem_cons_self ..
  have hothers : ∀ name ∈ d.others.reduceOption, allowed name := by
    intro name hname
    refine h name ?_
    rw [VarDecl.names, List.reduceOption_mem_iff]
    exact List.mem_cons_of_mem _ (List.reduceOption_mem_iff.1 hname)
  unfold varDecl
  refine Varied.bind inferInstance fun ty => (varied_declareName ty hfirst).discard.bind fun _ => ?_
  exact (varied_moreVars ty hothers).bind fun _ => inferInstance

theorem varied_varDecls {ds : List VarDecl} (h : ∀ d ∈ ds, ∀ name ∈ d.names, allowed name) :
    Varied allowed (varDecls ds) := by
  induction ds with
  | nil => rw [varDecls]; infer_instance
  | cons d rest ih =>
      rw [varDecls]
      exact (varied_varDecl (h d (List.mem_cons_self ..))).bind fun _ =>
        ih fun d hd => h d (List.mem_cons_of_mem _ hd)

/-- The fields of a class between their braces. -/
def fieldDecls (cls : ClassId) (lbrace : Mark) (fields : List VarDecl) (rbrace : Mark) :
    Check Unit := do
  require .lbrace lbrace
  varDecls fields
  setFields cls
  require .rbrace rbrace

instance (cls : ClassId) (lbrace : Mark) (fields : List VarDecl) (rbrace : Mark) :
    Growing (fieldDecls cls lbrace fields rbrace) := by
  unfold fieldDecls; infer_instance

/-- Nothing but the fields is declared in the scope of a class, so all its fields are variables that
it is declared to have. -/
theorem relates_fieldDecls {cls : ClassId} {lbrace rbrace : Mark} {fields : List VarDecl}
    {p p' : Pass} (hrel : c.Relates n p p')
    (hdue : c.Due n (Outline.concat VarDecl.outline fields).names)
    (hfields : ∀ d ∈ fields, ∀ name ∈ d.names,
      c.declared (p.names.classInfo cls).name (c.spelling name))
    (hclean : (inScope (fieldDecls cls lbrace (fields.map (VarDecl.rename c.spelling)) rbrace)
      p).2.errors c.strictLiterals = []) :
    c.Relates (n + c.hits (Outline.concat VarDecl.outline fields).names)
      (inScope (fieldDecls cls lbrace (fields.map (VarDecl.rename c.spelling)) rbrace) p).2
      (inScope (fieldDecls cls lbrace (fields.map (VarDecl.rename c.misspelling)) rbrace)
        p').2 := by
  have hopen := hrel.of_names hrel.names.openScope hrel.known.openScope hrel.lacks.openScope
  have hdecls : Absorbs c n (Outline.concat VarDecl.outline fields).names
      (do require .lbrace lbrace; varDecls (fields.map (VarDecl.rename c.spelling)))
      (do require .lbrace lbrace; varDecls (fields.map (VarDecl.rename c.misspelling))) any :=
    (absorbs_require _ _).seq fun _ _ _ => absorbs_varDecls fields n
  have hvaried : Varied (c.declared (p.names.classInfo cls).name)
      (do require .lbrace lbrace; varDecls (fields.map (VarDecl.rename c.spelling))) := by
    refine Varied.bind inferInstance fun _ => varied_varDecls ?_
    intro d hd name hname
    obtain ⟨d, hmem, rfl⟩ := List.mem_map.1 hd
    rw [VarDecl.names_rename] at hname
    obtain ⟨field, hfield, rfl⟩ := List.mem_map.1 hname
    exact hfields d hmem field hfield
  have hvars := hvaried.onlyVars { p with names := p.names.openScope }
    (NameTable.onlyVars_openScope _)
  have hclasses := hvaried.classes { p with names := p.names.openScope }
  have hrest := (inferInstance : Growing (do setFields cls; require .rbrace rbrace)).grows
  obtain ⟨hmid, -⟩ := hdecls hdue _ _ hopen (errors_of_grows (hrest _) hclean)
  rw [NameTable.classInfo, ← show _ = p.names.classes from hclasses] at hvars
  have hset := hmid.of_names (hmid.names.setFields cls) (hmid.known.setFields hvars)
    (hmid.lacks.setFields cls)
  obtain ⟨hend, -⟩ := absorbs_require .rbrace rbrace hdue.done _ _ (hset.of_astray _ _) hclean
  exact hend.of_names hend.names.closeScope hend.known.closeScope hend.lacks.closeScope

/-- A class under its name, with its fields. -/
def namedClass (name : String) (lbrace : Mark) (fields : List VarDecl) (rbrace : Mark) :
    Check Unit := do
  let cls ← naming fun t => t.newClass name
  discard <| declare .typeName name (.object cls)
  inScope (fieldDecls cls lbrace fields rbrace)

theorem namedClass_apply (name : String) (lbrace : Mark) (fields : List VarDecl) (rbrace : Mark)
    (p : Pass) :
    namedClass name lbrace fields rbrace p =
      inScope (fieldDecls (p.names.newClass name).1 lbrace fields rbrace)
        (declare .typeName name (.object (p.names.newClass name).1)
          { p with names := (p.names.newClass name).2 }).2 := rfl

/-- A class whose name is missing is declared under a stand-in. -/
theorem classDecl_none (lbrace : Mark) (fields : List VarDecl) (rbrace : Mark) :
    classDecl ⟨none, lbrace, fields, rbrace⟩ = (do
      consume
      report (.expected .ident)
      let cls ← naming fun t => t.newClass "???"
      inScope (fieldDecls cls lbrace fields rbrace)) := rfl

/-- A class that has a name is declared under it. -/
theorem classDecl_some (name : String) (lbrace : Mark) (fields : List VarDecl) (rbrace : Mark) :
    classDecl ⟨some name, lbrace, fields, rbrace⟩ = (do
      consume
      consume
      namedClass name lbrace fields rbrace) := rfl

instance (name : String) (lbrace : Mark) (fields : List VarDecl) (rbrace : Mark) :
    Growing (namedClass name lbrace fields rbrace) := by
  unfold namedClass; infer_instance

/-- A class may lose the types of some fields, but none of the fields. -/
theorem absorbs_namedClass (name : String) (lbrace : Mark) (fields : List VarDecl) (rbrace : Mark)
    (hfields : ∀ d ∈ fields, ∀ field ∈ d.names, c.declared (c.spelling name) (c.spelling field)) :
    Absorbs c n ([(.declared, name)] ++ (Outline.concat VarDecl.outline fields).names)
      (namedClass (c.spelling name) lbrace (fields.map (VarDecl.rename c.spelling)) rbrace)
      (namedClass (c.misspelling name) lbrace (fields.map (VarDecl.rename c.misspelling)) rbrace)
      any := by
  intro hdue p p' hrel hclean
  have hname : c.misspelling name = c.spelling name := misspelling_of_ne hdue.left.ne_mark
  rw [namedClass_apply] at hclean
  obtain ⟨hvalue, hnames⟩ := hrel.names.newClass (c.spelling name)
  have hnew := hrel.of_names hnames (hrel.known.newClass (c.spelling name))
    (hrel.lacks.newClass (c.spelling name))
  -- the new class is the last one
  have hinfo : ((p.names.newClass (c.spelling name)).2.classInfo
      (p.names.newClass (c.spelling name)).1).name = c.spelling name := by
    simp [NameTable.newClass, NameTable.classInfo]
  rw [hname, namedClass_apply, namedClass_apply, hvalue, hits_append, ← Nat.add_assoc]
  generalize (p.names.newClass (c.spelling name)).1 = cls at hclean hinfo ⊢
  have hdeclare := absorbs_declare (c := c) (n := n) .typeName name (Ty.Fades.refl (.object cls))
    trivial fun _ => ⟨rfl, by simp⟩
  rw [hname] at hdeclare
  have hgrows := (inferInstance : Growing (inScope (fieldDecls cls lbrace
    (fields.map (VarDecl.rename c.spelling)) rbrace))).grows
  obtain ⟨hmid, -⟩ := hdeclare hdue.left _ _ hnew (errors_of_grows (hgrows _) hclean)
  refine ⟨relates_fieldDecls hmid hdue.right ?_ hclean, trivial⟩
  rw [NameTable.classInfo, classes_declare]
  exact hinfo.symm ▸ hfields

theorem absorbs_classDecl (d : ClassDecl) (n : Nat)
    (hfields : ∀ cls field, d.HasField cls field → c.declared (c.spelling cls) (c.spelling field)) :
    Absorbs c n d.outline.names (classDecl (d.rename c.spelling))
      (classDecl (d.rename c.misspelling)) any := by
  obtain ⟨name, lbrace, fields, rbrace⟩ := d
  unfold ClassDecl.rename ClassDecl.outline
  simp only [Outline.names_append, Outline.names_token, names_mark, List.append_nil,
    List.nil_append]
  cases name with
  | none =>
      rw [Option.map_none, Option.map_none, classDecl_none]
      exact absorbs_consume.seq fun _ _ _ => .of_report
  | some name =>
      rw [Option.map_some, Option.map_some, classDecl_some, classDecl_some]
      refine absorbs_consume.seq fun _ _ _ => absorbs_consume.seq fun _ _ _ => ?_
      refine absorbs_namedClass name lbrace fields rbrace fun d hd field hfield => ?_
      exact hfields name field ⟨rfl, d, hd, hfield⟩

/-- A mistake in a declaration, wherever it stands, is reported once. -/
theorem absorbs_declaration (d : Declaration) (n : Nat)
    (hfields : ∀ decl, d = .cls decl → ∀ cls field, decl.HasField cls field →
      c.declared (c.spelling cls) (c.spelling field)) :
    Absorbs c n d.outline.names (declaration (d.rename c.spelling))
      (declaration (d.rename c.misspelling)) any := by
  cases d with
  | const d => exact absorbs_constDecl d n
  | cls d => exact absorbs_classDecl d n (hfields d rfl)
  | vars d => exact absorbs_varDecl d n
  | junk skipped semicolon =>
      rw [Declaration.rename, declaration]
      exact .of_junk _ _ _ (pure ())

theorem absorbs_declarations (ds : List Declaration) (n : Nat)
    (hfields : ∀ decl, .cls decl ∈ ds → ∀ cls field, decl.HasField cls field →
      c.declared (c.spelling cls) (c.spelling field)) :
    Absorbs c n (Outline.concat Declaration.outline ds).names
      (declarations (ds.map (Declaration.rename c.spelling)))
      (declarations (ds.map (Declaration.rename c.misspelling))) any := by
  induction ds generalizing n with
  | nil => exact .pure trivial
  | cons d rest ih =>
      have hd := absorbs_declaration d n fun decl heq => hfields decl (heq ▸ List.mem_cons_self ..)
      exact hd.bind fun _ _ _ => ih _ fun decl hmem => hfields decl (List.mem_cons_of_mem _ hmem)

/-! ## Methods -/

/-- Parameters are as many as before, though one may have lost its type. -/
theorem absorbs_params (ps : List Param) (n : Nat) : Absorbs c n (Param.outlines ps).names
    (params (ps.map (Param.rename c.spelling))) (params (ps.map (Param.rename c.misspelling)))
    any := by
  induction ps generalizing n with
  | nil => exact .pure trivial
  | cons q rest ih =>
      rw [List.map_cons, List.map_cons, params, params, Param.outlines, Param.outline]
      simp only [Outline.names_append, names_comma, List.nil_append]
      have hq : Absorbs c n (q.type.outline.names ++ (Outline.ident .declared q.name).names)
          (param (q.rename c.spelling)) (param (q.rename c.misspelling)) any :=
        (absorbs_typeRef q.type n).bind fun a b h =>
          (absorbs_declareName .var h.known h.fades (by simp) q.name).discard
      refine hq.bind fun _ _ _ => absorbs_comma ?_ (ih _)
      simp only [List.isEmpty_map]

theorem absorbs_resultType (r : ResultType) (n : Nat) : Absorbs c n r.outline.names
    (resultType (r.rename c.spelling)) (resultType (r.rename c.misspelling)) Ty.Returns := by
  cases r with
  | void => exact absorbs_consume.seq fun _ _ _ => .pure ⟨trivial, .refl _, Iff.rfl⟩
  | type r => exact (absorbs_typeRef r n).imp fun _ _ _ h => h.returns

/-- What is asked of the method at which a program starts does not depend on unknown types. -/
theorem absorbs_checkMain {a b : Ty} (h : a.Returns n b) (count : Nat) :
    Absorbs c n [] (checkMain a count) (checkMain b count) any :=
  .bothMeet h.void.2 (.finish id)

theorem absorbs_methodEnd (a b : Ty) : Absorbs c n [] (methodEnd a) (methodEnd b) any := by
  unfold methodEnd
  split <;> split <;> exact absorbs_writing

theorem absorbs_setCallee (id : EntityId) {callee callee' : Callee} (h : callee.Alike callee') :
    Absorbs c n [] (setCallee id callee) (setCallee id callee') any := by
  intro _ p p' hrel _
  have hnames := hrel.of_names (hrel.names.setCallee id h)
    (hrel.known.setCallee id callee) (hrel.lacks.setCallee id callee')
  exact ⟨hnames.of_astray _ _, trivial⟩

/-- Both passes have found where the program starts. -/
theorem absorbs_setMain (adr adr' : UInt16) :
    Absorbs c n [] (emitting (Emit.setMain adr)) (emitting (Emit.setMain adr')) any :=
  fun _ _ _ hrel _ => ⟨⟨hrel.names, hrel.known, hrel.lacks, fun _ => rfl, hrel.issues,
    hrel.count, hrel.complaints⟩, trivial⟩

theorem absorbs_methodBody (q : Method) {a b : Ty} (h : a.Returns n b) :
    Absorbs c n (Stmt.outlines q.body).names (methodBody (q.rename c.spelling) a)
      (methodBody (q.rename c.misspelling) b) any := by
  refine (absorbs_require _ _).seq fun _ _ _ => (absorbs_stmts q.body n h).last fun _ _ _ _ _ => ?_
  exact (absorbs_require _ _).seq fun _ _ _ => absorbs_methodEnd _ _

theorem absorbs_methodCode (q : Method) {a b : Ty} (h : a.Returns n b) (id : EntityId)
    (paramCount : Nat)
    (hmain : isMain (q.rename c.misspelling) = isMain (q.rename c.spelling)) :
    Absorbs c n ((Outline.concat VarDecl.outline q.locals).names ++ (Stmt.outlines q.body).names)
      (methodCode (q.rename c.spelling) a id paramCount)
      (methodCode (q.rename c.misspelling) b id paramCount) any := by
  unfold methodCode
  rw [hmain]
  dsimp only
  refine (absorbs_varDecls q.locals n).bind fun _ _ _ => .names fun t t' ht => ?_
  have hle := Nat.le_add_right n (c.hits (Outline.concat VarDecl.outline q.locals).names)
  have hbody := absorbs_methodBody (c := c) q (h.mono hle)
  rw [ht.current]
  refine .neitherObjects (fun hmany => hmany) ?_
  refine absorbs_writing.seq fun adr adr' _ => ?_
  have hcallee (m : Nat) : Absorbs c m []
      (setCallee id ⟨paramCount, t.current.locals, adr, none⟩)
      (setCallee id ⟨paramCount, t.current.locals, adr', none⟩) any :=
    absorbs_setCallee id ⟨rfl, rfl, rfl⟩
  refine (hcallee _).seq fun _ _ _ => ?_
  split
  · exact (absorbs_setMain adr adr').seq fun _ _ _ => hbody
  · exact hbody

/-- A method absorbs a mistake in its head, its variables or its body. -/
theorem absorbs_method (q : Method) (n : Nat) : Absorbs c n q.outline.names
    (method (q.rename c.spelling)) (method (q.rename c.misspelling)) any := by
  unfold Method.outline
  simp only [Outline.names_append, names_mark, List.append_nil, List.nil_append]
  intro hdue
  have hmain : isMain (q.rename c.misspelling) = isMain (q.rename c.spelling) := by
    unfold isMain Method.rename
    cases hname : q.name with
    | none => rfl
    | some name =>
        rw [hname] at hdue
        rw [Option.map_some, Option.map_some, misspelling_of_ne hdue.right.left.ne_mark]
  revert hdue
  unfold method
  rw [hmain]
  refine (absorbs_resultType q.result n).bind fun a b h => ?_
  refine (absorbs_declareName .method h.known h.fades (by simp) q.name).bind ?_
  rintro _ id rfl
  have h' := h.mono (Nat.le_add_right _ (c.hits (Outline.ident .declared q.name).names))
  refine .inScope ?_
  refine (absorbs_require _ _).seq fun _ _ _ => (absorbs_params q.params _).bind fun _ _ _ => ?_
  refine .names fun t t' ht => ?_
  rw [ht.current]
  have h'' := h'.mono (Nat.le_add_right _ (c.hits (Param.outlines q.params).names))
  have hcode := (absorbs_require (c := c) .rparen q.rparen).seq fun _ _ _ =>
    absorbs_methodCode q h'' id t.current.varCount hmain
  split
  · exact (absorbs_checkMain h'' _).seq fun _ _ _ => hcode
  · exact hcode

theorem absorbs_methods (ms : List Method) (n : Nat) :
    Absorbs c n (Outline.concat Method.outline ms).names
      (methods (ms.map (Method.rename c.spelling)))
      (methods (ms.map (Method.rename c.misspelling))) any := by
  induction ms generalizing n with
  | nil => exact .pure trivial
  | cons q rest ih => exact (absorbs_method q n).bind fun _ _ _ => ih _

/-- What stands in the scope of a program. -/
def programScope (q : Program) : Check Nat := do
  declarations q.declarations
  require .lbrace q.lbrace
  methods q.methods
  require .rbrace q.rbrace
  if (← get).code.mainPc.isNone then report .mainMissing
  return (← names).current.varCount

theorem program_eq (q : Program) :
    program q = (do
      require .kwProgram q.keyword
      discard <| declareName .program .void q.name
      let globals ← inScope (programScope q)
      if q.ended = .missing then report .textAfterProgram
      return globals) := rfl

instance (q : Program) : Growing (programScope q) := by
  refine Growing.bind inferInstance fun _ => Growing.bind inferInstance fun _ => ?_
  refine Growing.bind inferInstance fun _ => Growing.bind inferInstance fun _ => ?_
  exact Growing.bind inferInstance fun p => Growing.noting inferInstance inferInstance

/-- Declarations and methods absorb a mistake between them. -/
theorem absorbs_programScope (q : Program) (n : Nat)
    (hfields : ∀ cls field, q.HasField cls field →
      c.declared (c.spelling cls) (c.spelling field)) :
    Absorbs c n ((Outline.concat Declaration.outline q.declarations).names ++
        (Outline.concat Method.outline q.methods).names)
      (programScope (q.rename c.spelling)) (programScope (q.rename c.misspelling)) any := by
  unfold programScope
  dsimp only
  refine (absorbs_declarations q.declarations n fun decl hdecl cls field hfield =>
    hfields cls field ⟨decl, hdecl, hfield⟩).bind fun _ _ _ => ?_
  refine (absorbs_require _ _).seq fun _ _ _ => ?_
  refine (absorbs_methods q.methods _).last fun _ _ _ _ _ => ?_
  refine (absorbs_require _ _).seq fun _ _ _ => ?_
  refine .get fun p p' hrel => .neitherObjects ?_ (.names fun _ _ _ => .pure trivial)
  rw [Option.isNone_iff_eq_none, Option.isNone_iff_eq_none, ← Option.not_isSome_iff_eq_none,
    ← Option.not_isSome_iff_eq_none]
  exact mt hrel.main

/-- However a program without mistakes is misspelt once, the mistake is noted once. -/
theorem absorbs_program (q : Program) (n : Nat)
    (hfields : ∀ cls field, q.HasField cls field →
      c.declared (c.spelling cls) (c.spelling field)) :
    Absorbs c n q.outline.names (program (q.rename c.spelling)) (program (q.rename c.misspelling))
      any := by
  have hended : (if q.ended = .missing then Outline.gap else Outline.nil).names = [] := by
    split <;> rfl
  rw [program_eq, program_eq, Program.outline]
  simp only [Outline.names_append, names_mark, List.append_nil, List.nil_append, hended]
  refine (absorbs_require _ _).seq fun _ _ _ => ?_
  have hvoid : Ty.void.Known := trivial
  have hname := absorbs_declareName (c := c) (n := n) .program hvoid (.refl _) (by simp) q.name
  refine hname.discard.bind fun _ _ _ => ?_
  refine (absorbs_programScope q _ hfields).inScope.last fun _ _ _ _ _ => ?_
  exact .neitherObjects (fun h => h) (.pure trivial)

end Check

end MicroJava
