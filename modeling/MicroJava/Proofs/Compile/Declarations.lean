import MicroJava.Proofs.Compile.Statements

/-! # Declarations without a fault

A declaration that meets no fault does to the name table what the resolver does to its environment.
Methods leave their code behind, one after the other. -/

namespace MicroJava

open Resolved (Env addressOf slotOf resolveType resolveVarDecl resolveVarDecls resolveConstDecl
  resolveClassDecl resolveDeclaration resolveDeclarations resolveParams resolveResult resolveMethod
  resolveMethods resolveStmts declareVars codeSize)

/-- Both sides have declared the same, and nothing that was declared is lost. -/
structure Declares (g : Progress) (t t' : NameTable) (env env' : Env) : Prop where
  agrees : t'.Agrees g env'
  lists : t.Lists t.current.locals.toList env.inner.vars →
    t'.Lists t'.current.locals.toList env'.inner.vars
  kept : t.Extends t'

theorem Declares.refl {g : Progress} {t : NameTable} {env : Env} (h : t.Agrees g env) :
    Declares g t t env env :=
  ⟨h, fun hl => hl, fun _ _ he => he⟩

theorem Declares.trans {g : Progress} {t t' t'' : NameTable} {env env' env'' : Env}
    (h : Declares g t t' env env') (h' : Declares g t' t'' env' env'') :
    Declares g t t'' env env'' :=
  ⟨h'.agrees, fun hl => h'.lists (h.lists hl), fun i e he => h'.kept i e (h.kept i e he)⟩

/-- A frame whose variables are all declared begins with those that were the parameters. -/
theorem Declares.completes {g : Progress} {t t' : NameTable} {env inside : Env}
    (start : Nat) (h : Declares g t t' env inside)
    (hl : t.Lists t.current.locals.toList env.inner.vars) (hgrown : env.Grown inside) :
    t'.Completes ⟨env.inner.types.length, t'.current.locals, addressOf start, none⟩
      env.inner.types start := by
  have htakes := NameTable.Lists.takes
    ⟨env.inner.types.length, t'.current.locals, addressOf start, none⟩ (h.lists hl)
    hgrown.types_length_le
  rw [← Resolved.Scope.types, hgrown.take_types] at htakes
  exact ⟨htakes, rfl, rfl⟩

namespace Check

variable {g : Progress} {env : Env} {t t' : NameTable} {b b' : CodeBuffer}

theorem Gives.namedType {name : String} {id : EntityId} {ty : Ty}
    (h : (typeRef.orExpected (t.entity id).namedType?).Gives t b ty t' b') (ha : t.Agrees g env)
    (hf : t.find name = .ok id) : t' = t ∧ b' = b ∧ env.type? name = some ty := by
  obtain ⟨binding, hl, e, he, hs⟩ := ha.find hf
  obtain ⟨n, kind, ty'⟩ := e
  dsimp only at hs
  rw [NameTable.entity_eq he] at h
  rw [Env.type?, hl]
  cases hs with
  | typeName =>
      obtain ⟨rfl, rfl, rfl⟩ := Gives.pure h
      exact ⟨rfl, rfl, rfl⟩
  | constant | global | frame | method | builtin | program =>
      obtain ⟨u, t₁, b₁, hrep, -⟩ := Gives.bind h
      exact absurd hrep not_gives_report

theorem Gives.typeRef {r : TypeRef} {ty : Ty} (h : (typeRef r).Gives t b ty t' b')
    (ha : t.Agrees g env) : t' = t ∧ b' = b ∧ resolveType env r = some ty := by
  cases r with
  | missing =>
      rw [Check.typeRef] at h
      obtain ⟨u, t₁, b₁, h₁, -⟩ := h.bind
      obtain ⟨⟨n, hn⟩, -⟩ := h₁.requireName
      cases hn
  | named name brackets =>
      rw [Check.typeRef] at h
      -- what comes after the name is known keeps the pass growing, with brackets or without
      obtain ⟨id, t₁, b₁, h₁, k₁⟩ := h.consumed.parts fun _ =>
        Growing.bind inferInstance fun _ => Growing.bind inferInstance fun _ => by
          split <;> infer_instance
      obtain ⟨entity, t₂, b₂, h₂, k₂⟩ := k₁.parts fun _ =>
        Growing.bind inferInstance fun _ => by split <;> infer_instance
      obtain ⟨named, t₃, b₃, h₃, k₃⟩ := k₂.parts fun _ => by split <;> infer_instance
      obtain ⟨hf, rfl, rfl⟩ := h₁.resolve
      obtain ⟨rfl, rfl, rfl⟩ := Gives.following h₂
      obtain ⟨rfl, rfl, hty⟩ := h₃.namedType ha hf
      cases brackets with
      | none =>
          obtain ⟨rfl, rfl, rfl⟩ := k₃.pure
          exact ⟨rfl, rfl, hty⟩
      | some mark =>
          obtain ⟨rfl, rfl, rfl⟩ := k₃.consumed.demanded.pure
          exact ⟨rfl, rfl, by simp [resolveType, hty]⟩

theorem Gives.declareName {form : Form} {ty : Ty} {name : Option String} {id : EntityId}
    (h : (declareName form ty name).Gives t b id t' b') :
    b' = b ∧ ∃ n, name = some n ∧ t.insert form n ty = (.ok id, t') := by
  rw [Check.declareName.eq_def] at h
  obtain ⟨u, t₁, b₁, h₁, k₁⟩ := h.parts fun _ => by split <;> infer_instance
  obtain ⟨⟨n, rfl⟩, rfl, rfl⟩ := h₁.requireName
  obtain ⟨hi, rfl⟩ := Gives.declare k₁
  exact ⟨rfl, n, rfl, hi⟩

theorem insert_declares (ha : t.Agrees g env) {name : String} {ty : Ty} {id : EntityId}
    (hi : t.insert .var name ty = (.ok id, t')) :
    ∃ env', env.declareVar name ty = some env' ∧ Declares g t t' env env' := by
  obtain ⟨env', hd, ha', hl⟩ := ha.declareVar hi
  obtain ⟨-, -, rfl⟩ := NameTable.insert_ok hi
  exact ⟨env', hd, ha', hl, NameTable.extends_push rfl⟩

theorem moreVars_agrees {ty : Ty} {names : List (Option String)} {u : Unit}
    (h : (moreVars ty names).Gives t b u t' b') (ha : t.Agrees g env) :
    b' = b ∧ ∃ env', declareVars env ty names = some env' ∧ Declares g t t' env env' := by
  induction names generalizing t b env with
  | nil =>
      rw [moreVars] at h
      obtain ⟨-, rfl, rfl⟩ := h.pure
      exact ⟨rfl, env, rfl, .refl ha⟩
  | cons name rest ih =>
      rw [moreVars] at h
      obtain ⟨u₁, t₁, b₁, h₁, k₁⟩ := h.consumed.bind
      obtain ⟨id, h₁⟩ := h₁.discard
      obtain ⟨rfl, n, rfl, hi⟩ := h₁.declareName
      obtain ⟨env₁, hd, hdec⟩ := insert_declares ha hi
      obtain ⟨rfl, env', hrest, hdec'⟩ := ih k₁ hdec.agrees
      exact ⟨rfl, env', by simp [declareVars, hd, hrest], hdec.trans hdec'⟩

theorem varDecl_agrees {d : VarDecl} {u : Unit} (h : (varDecl d).Gives t b u t' b')
    (ha : t.Agrees g env) :
    b' = b ∧ ∃ env', resolveVarDecl env d = some env' ∧ Declares g t t' env env' := by
  rw [varDecl] at h
  obtain ⟨ty, t₁, b₁, h₁, k₁⟩ := h.bind
  obtain ⟨u₂, t₂, b₂, h₂, k₂⟩ := k₁.bind
  obtain ⟨u₃, t₃, b₃, h₃, k₃⟩ := k₂.bind
  obtain ⟨rfl, rfl, hty⟩ := h₁.typeRef ha
  obtain ⟨id, h₂⟩ := h₂.discard
  obtain ⟨rfl, n, hn, hi⟩ := h₂.declareName
  obtain ⟨env₁, hd, hdec⟩ := insert_declares ha hi
  obtain ⟨rfl, env', hrest, hdec'⟩ := moreVars_agrees h₃ hdec.agrees
  obtain ⟨rfl, rfl⟩ := k₃.require
  exact ⟨rfl, env', by simp [resolveVarDecl, hty, hn, declareVars, hd, hrest], hdec.trans hdec'⟩

theorem varDecls_agrees {ds : List VarDecl} {u : Unit} (h : (varDecls ds).Gives t b u t' b')
    (ha : t.Agrees g env) :
    b' = b ∧ ∃ env', resolveVarDecls env ds = some env' ∧ Declares g t t' env env' := by
  induction ds generalizing t b env with
  | nil =>
      rw [varDecls] at h
      obtain ⟨-, rfl, rfl⟩ := h.pure
      exact ⟨rfl, env, rfl, .refl ha⟩
  | cons d rest ih =>
      rw [varDecls] at h
      obtain ⟨u₁, t₁, b₁, h₁, k₁⟩ := h.bind
      obtain ⟨rfl, env₁, hd, hdec⟩ := varDecl_agrees h₁ ha
      obtain ⟨rfl, env', hrest, hdec'⟩ := ih k₁ hdec.agrees
      exact ⟨rfl, env', by simp [resolveVarDecls, hd, hrest], hdec.trans hdec'⟩

theorem params_agrees {ps : List Param} {u : Unit} (h : (params ps).Gives t b u t' b')
    (ha : t.Agrees g env) :
    b' = b ∧ ∃ env', resolveParams env ps = some env' ∧ Declares g t t' env env' := by
  induction ps generalizing t b env with
  | nil =>
      rw [params] at h
      obtain ⟨-, rfl, rfl⟩ := h.pure
      exact ⟨rfl, env, rfl, .refl ha⟩
  | cons p rest ih =>
      rw [params] at h
      obtain ⟨u₁, t₁, b₁, h₁, k₁⟩ := h.bind
      rw [param] at h₁
      obtain ⟨ty, t₂, b₂, h₂, k₂⟩ := h₁.bind
      obtain ⟨rfl, rfl, hty⟩ := h₂.typeRef ha
      obtain ⟨id, k₂⟩ := k₂.discard
      obtain ⟨rfl, n, hn, hi⟩ := k₂.declareName
      obtain ⟨env₁, hd, hdec⟩ := insert_declares ha hi
      obtain ⟨rfl, env', hrest, hdec'⟩ := ih k₁.behind hdec.agrees
      exact ⟨rfl, env', by simp [resolveParams, hty, hn, hd, hrest], hdec.trans hdec'⟩

theorem constantValue_agrees {ty : Ty} {id : EntityId} {value : Option Literal} {u : Unit}
    (h : (constantValue ty id value).Gives t b u t' b') (hp : Resolved.IsProper ty) :
    b' = b ∧ ∃ lit, value = some lit ∧ Resolved.resolveLiteral ty lit = some lit.value ∧
      t' = t.setConstant id lit.value := by
  cases value with
  | none =>
      rw [constantValue] at h
      obtain ⟨v, t₁, b₁, hrep, -⟩ := h.bind
      exact absurd hrep not_gives_report
  | some lit =>
      rw [constantValue] at h
      obtain ⟨hassign, k⟩ := h.required
      obtain ⟨rfl, rfl⟩ := Gives.followed k.consumed
      refine ⟨rfl, lit, rfl, ?_, rfl⟩
      have hlit : Resolved.IsProper (literalType lit) := by cases lit <;> trivial
      rw [← Resolved.eq_of_assignableTo hlit hp hassign]
      cases lit <;> rfl

theorem constDecl_agrees {d : ConstDecl} {u : Unit} (h : (constDecl d).Gives t b u t' b')
    (ha : t.Agrees g env) (hw : env.WellFormed) :
    b' = b ∧ ∃ env', resolveConstDecl env d = some env' ∧ t'.Agrees g env' := by
  rw [constDecl] at h
  obtain ⟨ty, t₁, b₁, h₁, k₁⟩ := h.consumed.bind
  obtain ⟨id, t₂, b₂, h₂, k₂⟩ := k₁.bind
  obtain ⟨u₃, t₃, b₃, h₃, k₃⟩ := k₂.demanded.bind
  obtain ⟨rfl, rfl, hty⟩ := h₁.typeRef ha
  obtain ⟨rfl, n, hn, hi⟩ := h₂.declareName
  obtain ⟨rfl, lit, hlit, hv, rfl⟩ :=
    constantValue_agrees h₃ (Resolved.resolveType_proper hw hty)
  obtain ⟨rfl, rfl⟩ := k₃.require
  obtain ⟨env', hd, ha'⟩ := ha.declareConstant hi lit.value
  exact ⟨rfl, env', by simp [resolveConstDecl, hty, hlit, hv, hn, hd], ha'⟩

/-- A class is complete when its scope is left. -/
theorem classDecl_agrees {d : ClassDecl} {u : Unit} (h : (classDecl d).Gives t b u t' b')
    (ha : t.Agrees g env) (hg : g.openClasses = 0) (hw : env.WellFormed)
    (ho : env.outer.length = 1) :
    b' = b ∧ ∃ env', resolveClassDecl env d = some env' ∧ t'.Agrees g env' := by
  have hbody : ∀ cls, Growing (inScope do
      require .lbrace d.lbrace
      varDecls d.fields
      setFields cls
      require .rbrace d.rbrace) := fun cls => Growing.inScope inferInstance
  rw [classDecl] at h
  obtain ⟨u₁, t₁, b₁, h₁, k₁⟩ := h.consumed.parts fun _ =>
    Growing.bind inferInstance fun cls => by
      dsimp only
      split <;> infer_instance
  obtain ⟨⟨n, hn⟩, rfl, rfl⟩ := h₁.requireName
  rw [hn] at k₁
  obtain ⟨cls, t₂, b₂, h₂, k₂⟩ := k₁.parts fun cls => by
    dsimp only
    infer_instance
  dsimp only at k₂
  obtain ⟨hnew, rfl⟩ := h₂.naming
  obtain ⟨u₃, t₃, b₃, h₃, k₃⟩ := k₂.bind
  obtain ⟨id, h₃⟩ := h₃.discard
  obtain ⟨hi, rfl⟩ := h₃.declare
  obtain ⟨t₄, h₄, rfl⟩ := k₃.inScope
  obtain ⟨u₅, t₅, b₅, h₅, k₅⟩ := h₄.demanded.bind
  obtain ⟨u₆, t₆, b₆, h₆, k₆⟩ := k₅.bind
  obtain ⟨hcls, ha₂⟩ := ha.newClass hg ((some n).getD "???")
  rw [hnew] at hcls ha₂
  dsimp only at hcls
  subst hcls
  obtain ⟨env₁, hd, ha₃⟩ := ha₂.declareType hi
  have hw₁ := hw.declare hd trivial
  obtain ⟨-, rfl⟩ := Resolved.Env.declare_eq_some hd
  obtain ⟨ha₄, hl₄⟩ := ha₃.openScope
  obtain ⟨rfl, inside, hv, hdec⟩ := varDecls_agrees h₅ ha₄
  obtain ⟨rfl, rfl⟩ := Gives.followed h₆
  obtain ⟨rfl, rfl⟩ := k₆.require
  obtain ⟨-, hgrown⟩ := Resolved.resolveVarDecls_ok (hw₁.nested ho) hv
  have hsize : env.classes.length = inside.classes.length :=
    congrArg List.length hgrown.classes.symm
  have hset := hdec.agrees.setFields rfl (hdec.lists hl₄)
  rw [hsize]
  refine ⟨rfl, _, by simp [resolveClassDecl, hn, hd, hv]; rfl, ?_⟩
  have hclose := hset.closeScope hgrown.outer
  have hsame : { g with openClasses := 0 } = g := by rw [← hg]
  simpa [hsame, hgrown.classes, hgrown.signatures, Env.nested] using hclose

theorem declaration_agrees {d : Declaration} {u : Unit} (h : (declaration d).Gives t b u t' b')
    (ha : t.Agrees g env) (hg : g.openClasses = 0) (hw : env.WellFormed)
    (ho : env.outer.length = 1) :
    b' = b ∧ ∃ env', resolveDeclaration env d = some env' ∧ t'.Agrees g env' := by
  cases d with
  | const d => exact constDecl_agrees h ha hw
  | cls d => exact classDecl_agrees h ha hg hw ho
  | vars d =>
      obtain ⟨rfl, env', hd, hdec⟩ := varDecl_agrees h ha
      exact ⟨rfl, env', hd, hdec.agrees⟩
  | junk skipped semicolon =>
      rw [declaration] at h
      exact absurd h (not_gives_junk _ _ _ (pure ()))

theorem declarations_agrees {ds : List Declaration} {u : Unit}
    (h : (declarations ds).Gives t b u t' b') (ha : t.Agrees g env) (hg : g.openClasses = 0)
    (hw : env.WellFormed) (ho : env.outer.length = 1) :
    b' = b ∧ ∃ env', resolveDeclarations env ds = some env' ∧ t'.Agrees g env' := by
  induction ds generalizing t b env with
  | nil =>
      rw [declarations] at h
      obtain ⟨-, rfl, rfl⟩ := h.pure
      exact ⟨rfl, env, rfl, ha⟩
  | cons d rest ih =>
      rw [declarations] at h
      obtain ⟨u₁, t₁, b₁, h₁, k₁⟩ := h.bind
      obtain ⟨rfl, env₁, hd, ha₁⟩ := declaration_agrees h₁ ha hg hw ho
      obtain ⟨hw₁, ho₁, -⟩ := Resolved.resolveDeclaration_ok hw ho hd
      obtain ⟨rfl, env', hrest, ha'⟩ := ih k₁ ha₁ hw₁ (ho₁ ▸ ho)
      exact ⟨rfl, env', by simp [resolveDeclarations, hd, hrest], ha'⟩

/-! ## Methods -/

set_option synthInstance.maxSize 512

theorem Gives.methodEnd {result : Ty} {u : Unit} (h : (methodEnd result).Gives t b u t' b') :
    t' = t ∧ b' = b.written (Resolved.ending result) := by
  rw [Check.methodEnd] at h
  rw [Resolved.ending]
  split at h
  · next hv =>
      rw [if_pos hv]
      exact h.leave
  · next hv =>
      rw [if_neg hv]
      have hf := h.fits
      obtain ⟨rfl, he⟩ := h.emitting
      obtain ⟨-, rfl⟩ := Prod.mk.inj he
      exact ⟨rfl, CodeBuffer.append_eq_written hf⟩

/-- The main method is the only one that leaves a mark besides its code. -/
theorem Gives.setMain {c : Bool} {adr : UInt16} {act : Check Unit} [Growing act] {u : Unit}
    (h : (if c = true then Check.emitting (Emit.setMain adr) >>= fun _ => act
      else act).Gives t b u t' b') :
    act.Gives t { b with mainPc := if c then some adr else b.mainPc } u t' b' := by
  cases c with
  | false => exact h
  | true =>
      obtain ⟨u₁, t₁, b₁, h₁, k₁⟩ := Gives.bind h
      obtain ⟨rfl, he⟩ := h₁.emitting
      obtain ⟨-, rfl⟩ := Prod.mk.inj he
      exact k₁

/-- Once its code has begun, a method is known under its address, also to itself. -/
theorem Ready.of_entered {methods : List EntityId} {entries : List Nat} {id : EntityId}
    {name : String} {callee : Callee} {paramTypes : List Ty} {result : Ty} {start : Nat}
    (ha : t.Agrees ⟨methods ++ [id], entries, 0⟩ env) (hw : env.WellFormed)
    (hm : methods.length = env.signatures.length) (he : entries.length = env.signatures.length)
    (hid : t.entities[id.index]? = some ⟨name, .method {}, result⟩)
    (hres : result ≠ .void → Resolved.IsProper result)
    (hp : ∀ ty ∈ paramTypes, Resolved.IsProper ty) (hc : t.Completes callee paramTypes start) :
    Ready ⟨methods ++ [id], entries ++ [start], 0⟩
      { env with signatures := env.signatures ++ [⟨paramTypes, result⟩] }
      (t.setCallee id callee) :=
  ⟨NameTable.Agrees.setCallee (g := ⟨methods, entries, 0⟩) ha hm he hid hc,
    hw.addSignature hp hres, rfl, by simp [hm]⟩

/-- Everything from the local variables of a method to its end. -/
theorem methodCode_agrees {m : Method} {result : Ty} {id : EntityId}
    {u : Unit} {methods : List EntityId} {entries : List Nat} {name : String}
    (h : (methodCode m result id env.inner.types.length).Gives t b u t' b')
    (ha : t.Agrees ⟨methods ++ [id], entries, 0⟩ env) (hw : env.WellFormed)
    (hl : t.Lists t.current.locals.toList env.inner.vars)
    (hm : methods.length = env.signatures.length) (he : entries.length = env.signatures.length)
    (hid : t.entities[id.index]? = some ⟨name, .method {}, result⟩)
    (hres : result ≠ .void → Resolved.IsProper result)
    (hp : ∀ ty ∈ env.inner.types, Resolved.IsProper ty) :
    ∃ inside body, resolveVarDecls env m.locals = some inside ∧
      inside.inner.vars.length ≤ Resolved.maxFrame ∧
      resolveStmts { inside with signatures := env.signatures ++ [⟨env.inner.types, result⟩] }
        result m.body = some body ∧
      t'.Agrees ⟨methods ++ [id], entries ++ [b.bytes.size], 0⟩
        { inside with signatures := env.signatures ++ [⟨env.inner.types, result⟩] } ∧
      b'.mainPc = (if isMain m then some (addressOf b.bytes.size) else b.mainPc) ∧
      ∀ layout, Covers inside ⟨methods ++ [id], entries ++ [b.bytes.size], 0⟩ layout →
        b'.bytes = (b.written (.enter (slotOf env.inner.types.length)
          (slotOf inside.inner.vars.length) ::
          (Resolved.stmtsCode layout (b.bytes.size + Resolved.entrySize) body ++
            Resolved.ending result))).bytes := by
  rw [methodCode] at h
  obtain ⟨u₁, t₁, b₁, h₁, k₁⟩ := h.bind
  obtain ⟨rfl, inside, hv, hdec⟩ := varDecls_agrees h₁ ha
  obtain ⟨table, t₂, b₂, h₂, k₂⟩ := k₁.bind
  obtain ⟨rfl, rfl, rfl⟩ := h₂.names
  dsimp only at k₂
  obtain ⟨hframe, k₃⟩ := k₂.unreported
  obtain ⟨address, t₄, b₄, h₄, k₄⟩ := k₃.bind
  obtain ⟨u₅, t₅, b₅, h₅, k₅⟩ := k₄.bind
  have k₆ := k₅.setMain
  rw [methodBody] at k₆
  obtain ⟨u₇, t₇, b₇, h₇, k₇⟩ := k₆.demanded.bind
  obtain ⟨rfl, hb'⟩ := k₇.demanded.methodEnd
  obtain ⟨hwi, hgrown⟩ := Resolved.resolveVarDecls_ok hw hv
  have hcount := hdec.agrees.varCount
  have hf := h₄.fits
  have hf₀ := h₄.fits_before
  obtain ⟨rfl, hent⟩ := h₄.emitting
  obtain ⟨rfl, hb₄⟩ := Emit.enter_eq hent hf
  obtain ⟨rfl, rfl⟩ := Gives.followed h₅
  rw [CodeBuffer.pc_eq hf₀] at h₇ k₆
  have hcomplete := hdec.completes b₂.bytes.size hl hgrown
  have hsig := hgrown.signatures
  rw [← hsig] at hm he ⊢
  have hready := Ready.of_entered hdec.agrees hwi hm he (hdec.kept _ _ hid) hres hp hcomplete
  obtain ⟨ht, body, hbody, hwr⟩ := stmts_agree hready hres m.body _ _ _ _ h₇
  refine ⟨inside, body, hv, ?_, hbody, ht ▸ hready.agrees, ?_, ?_⟩
  · rw [← hcount]
    exact Nat.le_of_not_lt hframe
  · obtain ⟨layout, hl⟩ := exists_covers inside ⟨methods ++ [id], entries ++ [b₂.bytes.size], 0⟩
    have hb₇ := hwr layout ⟨hl.fields, hl.entries⟩
    simp only [hb', hb₇, hb₄, CodeBuffer.mainPc_written]
  · intro layout hl
    have hb₇ := hwr layout ⟨hl.fields, hl.entries⟩
    have hstart : (b₂.written [.enter (slotOf env.inner.types.length)
        (slotOf inside.inner.vars.length)]).bytes.size = b₂.bytes.size + Resolved.entrySize := by
      simp
    rw [hcount] at hb₄
    rw [hb', hb₇, hb₄]
    dsimp only
    rw [hstart]
    simp [CodeBuffer.written]

theorem Gives.resultType {r : ResultType} {ty : Ty} (h : (resultType r).Gives t b ty t' b')
    (ha : t.Agrees g env) : t' = t ∧ b' = b ∧ resolveResult env r = some ty := by
  cases r with
  | void =>
      rw [Check.resultType] at h
      obtain ⟨rfl, rfl, rfl⟩ := h.consumed.pure
      exact ⟨rfl, rfl, rfl⟩
  | type r => exact Gives.typeRef h ha

theorem Gives.checkMain {result : Ty} {count : Nat} {u : Unit}
    (h : (checkMain result count).Gives t b u t' b') :
    t' = t ∧ b' = b ∧ result = .void ∧ count = 0 := by
  rw [Check.checkMain] at h
  obtain ⟨hv, k⟩ := h.required
  split at k
  · next hc =>
      obtain ⟨-, rfl, rfl⟩ := k.pure
      exact ⟨rfl, rfl, hv, hc⟩
  · exact absurd k not_gives_report

/-- The check of the main method, if this is the main method. -/
theorem Gives.checkedMain {c : Bool} {result : Ty} {count : Nat} {act : Check Unit} [Growing act]
    {u : Unit} (h : (if c = true then Check.checkMain result count >>= fun _ => act
      else act).Gives t b u t' b') :
    act.Gives t b u t' b' ∧ (c = true → result = .void ∧ count = 0) := by
  cases c with
  | false => exact ⟨h, fun hc => by cases hc⟩
  | true =>
      obtain ⟨u₁, t₁, b₁, h₁, k₁⟩ := Gives.bind h
      obtain ⟨rfl, rfl, hv, hc⟩ := h₁.checkMain
      exact ⟨k₁, fun _ => ⟨hv, hc⟩⟩

theorem method_agrees {m : Method} {u : Unit} (h : (method m).Gives t b u t' b')
    (hr : Ready g env t) (ho : env.outer.length = 1)
    (he : g.entries.length = env.signatures.length) :
    ∃ rm env' g', resolveMethod env m = some (rm, env') ∧ Ready g' env' t' ∧
      g'.entries = g.entries ++ [b.bytes.size] ∧
      b'.mainPc = (if rm.name = Resolved.Program.mainName then some (addressOf b.bytes.size)
        else b.mainPc) ∧
      ∀ layout, Covers env' g' layout →
        b'.bytes = (b.written (rm.code layout b.bytes.size)).bytes := by
  have hinside : ∀ result id, Growing (inScope do
      require .lparen m.lparen
      params m.params
      let paramCount := (← names).current.varCount
      if isMain m then checkMain result paramCount
      require .rparen m.rparen
      methodCode m result id paramCount) := fun _ _ => Growing.inScope inferInstance
  rw [method] at h
  obtain ⟨result, t₁, b₁, h₁, k₁⟩ := h.bind
  obtain ⟨id, t₂, b₂, h₂, k₂⟩ := k₁.bind
  obtain ⟨t₃, h₃, rfl⟩ := k₂.inScope
  obtain ⟨u₄, t₄, b₄, h₄, k₄⟩ := h₃.demanded.bind
  obtain ⟨table, t₅, b₅, h₅, k₅⟩ := k₄.bind
  obtain ⟨k₆, hmain⟩ := k₅.checkedMain
  have k₇ := k₆.demanded
  obtain ⟨rfl, rfl, hresult⟩ := h₁.resultType hr.agrees
  obtain ⟨rfl, name, hname, hi⟩ := h₂.declareName
  obtain ⟨env₁, hd, ha₂, hid⟩ := hr.agrees.declareMethod hr.methods hi
  have hw₁ := hr.wellFormed.declare hd trivial
  obtain ⟨-, rfl⟩ := Resolved.Env.declare_eq_some hd
  obtain ⟨ha₃, hl₃⟩ := ha₂.openScope
  obtain ⟨rfl, env₂, hparams, hdec⟩ := params_agrees h₄ ha₃
  obtain ⟨rfl, rfl, rfl⟩ := h₅.names
  obtain ⟨hw₂, hgrown⟩ := Resolved.resolveParams_ok (hw₁.nested ho) hparams
  have hsig : env₂.signatures = env.signatures := hgrown.signatures
  have hproper := hw₂.types (by simp [hgrown.outer, Env.nested, ho])
  have hcount : t₅.current.varCount = env₂.inner.types.length := by
    rw [hdec.agrees.varCount, Resolved.Scope.types, List.length_map]
  rw [hcount] at k₇ hmain
  have hres := Resolved.resolveResult_proper hr.wellFormed hresult
  have ha₅ := hdec.agrees
  rw [hr.classes] at ha₅
  obtain ⟨inside, body, hlocals, hframe, hbody, ha', hpc, hbytes⟩ := methodCode_agrees k₇ ha₅ hw₂
    (hdec.lists hl₃) (hsig ▸ hr.methods) (hsig ▸ he) (hdec.kept _ _ hid) hres hproper
  rw [hsig] at hbody ha'
  obtain ⟨-, hgrown'⟩ := Resolved.resolveVarDecls_ok hw₂ hlocals
  have hmain' : Resolved.mainFits name ⟨env₂.inner.types, result⟩ = true := by
    rw [Resolved.mainFits_iff]
    intro hn
    obtain ⟨hv, hc⟩ := hmain (by simp [isMain, hname, hn, mainName, Resolved.Program.mainName])
    rw [hv, List.length_eq_zero_iff.1 hc]
  have hresolve : resolveMethod env m = some
      (⟨⟨env₂.inner.types, result⟩, name,
        inside.inner.types.drop env₂.inner.types.length, body⟩,
       ⟨⟨(name, .method env.signatures.length) :: env.inner.bindings, env.inner.vars⟩, env.outer,
        env.classes, env.signatures ++ [⟨env₂.inner.types, result⟩]⟩) := by
    simp only [Resolved.Scope.types] at hmain' hbody ⊢
    simp [resolveMethod, hresult, hname, hd, hparams, hlocals, hmain', hframe, hbody]
  have hcls : inside.classes = env.classes := hgrown'.classes.trans hgrown.classes
  have hclose := ha'.closeScope (hgrown'.outer.trans hgrown.outer)
  rw [hcls] at hclose
  refine ⟨_, _, ⟨g.methods ++ [id], g.entries ++ [b₅.bytes.size], 0⟩, hresolve,
    ⟨hclose, ?_, rfl, ?_⟩, rfl, ?_, ?_⟩
  · exact (Resolved.resolveMethod_ok hr.wellFormed ho hresolve).2
  · simp [hr.methods]
  · rw [hpc]
    exact if_congr (by simp [isMain, hname, mainName, Resolved.Program.mainName]) rfl rfl
  · intro layout hl
    have hsize : (env₂.inner.types ++ inside.inner.types.drop env₂.inner.types.length).length =
        inside.inner.vars.length := by
      rw [hgrown'.append_drop, Resolved.Scope.types, List.length_map]
    rw [hbytes layout ⟨by simpa only [hcls] using hl.fields, hl.entries⟩, Resolved.Method.code,
      Resolved.Method.frame, hsize]

/-- Where methods start that follow each other from an address on. -/
def startsFrom (start : Nat) (ms : List Resolved.Method) : List Nat :=
  (List.range ms.length).map fun i => start + ((ms.take i).map Resolved.Method.size).sum

theorem startsFrom_cons (start : Nat) (m : Resolved.Method) (ms : List Resolved.Method) :
    startsFrom start (m :: ms) = start :: startsFrom (start + m.size) ms := by
  simp [startsFrom, List.range_succ_eq_map, Nat.add_assoc]

/-- The mark left on the code by a main method among methods that follow each other. -/
def mainFrom (start : Nat) (ms : List Resolved.Method) : Option UInt16 :=
  (ms.findIdx? fun m => m.name == Resolved.Program.mainName).map fun i =>
    addressOf (start + ((ms.take i).map Resolved.Method.size).sum)

theorem mainFrom_cons (start : Nat) (m : Resolved.Method) (ms : List Resolved.Method) :
    mainFrom start (m :: ms) = if m.name = Resolved.Program.mainName then some (addressOf start)
      else mainFrom (start + m.size) ms := by
  simp only [mainFrom, List.findIdx?_cons, beq_iff_eq]
  split
  · simp
  · simp [Option.map_map, Function.comp_def, Nat.add_assoc]

theorem mainFrom_eq_none {ms : List Resolved.Method} (start : Nat)
    (h : ∀ m ∈ ms, m.name ≠ Resolved.Program.mainName) : mainFrom start ms = none := by
  rw [mainFrom, Option.map_eq_none_iff, List.findIdx?_eq_none_iff]
  intro m hm
  exact beq_eq_false_iff_ne.2 (h m hm)

theorem methods_agrees {ms : List Method} {u : Unit} (h : (methods ms).Gives t b u t' b')
    (hr : Ready g env t) (ho : env.outer.length = 1)
    (he : g.entries.length = env.signatures.length) :
    ∃ rms env' g', resolveMethods env ms = some (rms, env') ∧ Ready g' env' t' ∧
      g'.entries = g.entries ++ startsFrom b.bytes.size rms ∧
      b'.mainPc = (mainFrom b.bytes.size rms <|> b.mainPc) ∧
      ∀ layout, Covers env' g' layout →
        b'.bytes = (b.written (Resolved.methodsCode layout b.bytes.size rms)).bytes := by
  induction ms generalizing t b env g with
  | nil =>
      rw [methods] at h
      obtain ⟨-, rfl, rfl⟩ := h.pure
      refine ⟨[], env, g, rfl, hr, by simp [startsFrom], by simp [mainFrom], fun layout _ => ?_⟩
      simp [Resolved.methodsCode]
  | cons m rest ih =>
      rw [methods] at h
      obtain ⟨u₁, t₁, b₁, h₁, k₁⟩ := h.bind
      obtain ⟨rm, env₁, g₁, hm, hr₁, hg₁, hpc₁, hb₁⟩ := method_agrees h₁ hr ho he
      obtain ⟨⟨-, -, -, -, -, rfl⟩, hw₁⟩ := Resolved.resolveMethod_ok hr.wellFormed ho hm
      have he₁ : g₁.entries.length = (env.signatures ++ [rm.toSignature]).length := by
        simp [hg₁, he]
      obtain ⟨rms, env', g', hms, hr', hg', hpc', hb'⟩ := ih k₁ hr₁ ho he₁
      have hsize : b₁.bytes.size = b.bytes.size + rm.size := by
        obtain ⟨layout, hl⟩ := exists_covers
          { env with signatures := env.signatures ++ [rm.toSignature] } g₁
        rw [hb₁ layout ⟨hl.fields, hl.entries⟩]
        simp
      obtain ⟨-, hclasses, -⟩ := Resolved.resolveMethods_ok hr₁.wellFormed ho hms
      rw [hsize] at hg' hpc' hb'
      have hall : resolveMethods env (m :: rest) = some (rm :: rms, env') := by
        simp [resolveMethods, hm, hms]
      refine ⟨rm :: rms, env', g', hall, hr', ?_, ?_, ?_⟩
      · rw [hg', hg₁, startsFrom_cons, List.append_assoc, List.singleton_append]
      · rw [hpc', hpc₁, mainFrom_cons]
        by_cases hmain : rm.name = Resolved.Program.mainName
        · -- no other method has the name, so none of them replaces the mark
          obtain ⟨-, hnames⟩ := Resolved.resolveMethods_fresh hr.wellFormed ho hall
          have hnone := mainFrom_eq_none (b.bytes.size + rm.size) fun m' hm' =>
            hmain ▸ ((List.pairwise_cons.1 hnames).1 m' hm').symm
          rw [hnone, if_pos hmain, if_pos hmain]
          rfl
        · rw [if_neg hmain, if_neg hmain]
      · intro layout hl
        have hb := hb₁ layout (hl.of_append hclasses hg')
        rw [hb' layout hl, Resolved.methodsCode, ← CodeBuffer.written_written]
        simp only [CodeBuffer.written, hb]

end Check

end MicroJava
