import MicroJava.Proofs.Instruction.RoundTrip
import MicroJava.Proofs.Resolved.Sizes
import MicroJava.Proofs.Resolved.Typing

/-! # The shape of generated code

What the immediates of the instructions of a typed program refer to: slots of the frame, global
variables, entries of methods, and boundaries between instructions of the same method. -/

namespace MicroJava

/-! ## Boundaries -/

/-- An address where an instruction of the code starts, or the one behind the last. -/
def IsBoundary (start : Nat) (is : List Instruction) (adr : Nat) : Prop :=
  ∃ before after, is = before ++ after ∧ adr = start + Resolved.codeSize before

namespace IsBoundary

variable {start adr : Nat} {is js : List Instruction}

theorem first (start : Nat) (is : List Instruction) : IsBoundary start is start :=
  ⟨[], is, rfl, rfl⟩

theorem last (h : adr = start + Resolved.codeSize is) : IsBoundary start is adr :=
  ⟨is, [], by simp, h⟩

theorem left (h : IsBoundary start is adr) : IsBoundary start (is ++ js) adr := by
  obtain ⟨before, after, rfl, rfl⟩ := h
  exact ⟨before, after ++ js, by simp, rfl⟩

theorem right {inner : Nat} (h : IsBoundary inner js adr)
    (hi : inner = start + Resolved.codeSize is) : IsBoundary start (is ++ js) adr := by
  obtain ⟨before, after, rfl, rfl⟩ := h
  exact ⟨is ++ before, after, by simp, by simp [hi, Nat.add_assoc]⟩

theorem le (h : IsBoundary start is adr) : adr ≤ start + Resolved.codeSize is := by
  obtain ⟨before, after, rfl, rfl⟩ := h
  simp

/-- A boundary with instructions behind it is the address of one. -/
theorem mem_addressed (h : IsBoundary start is adr) (hj : js ≠ []) :
    adr ∈ (Instruction.addressed start (is ++ js)).map Prod.fst := by
  obtain ⟨before, after, rfl, rfl⟩ := h
  rw [List.append_assoc, Instruction.addressed_append, List.map_append, List.mem_append]
  obtain ⟨i, rest, hrest⟩ :=
    List.exists_cons_of_ne_nil (List.append_ne_nil_of_right_ne_nil after hj)
  right
  rw [hrest, Instruction.addressed]
  exact List.mem_cons_self

end IsBoundary

/-! ## Immediates -/

/-- What the immediates of the code of a method may refer to. -/
structure Extent where
  frame : Nat
  globals : Nat
  /-- Addresses that may be called. -/
  callable : Nat → Prop

/-- The immediates of an instruction stay within their bounds. -/
def Instruction.Within (x : Extent) (jumps : Nat → Prop) : Instruction → Prop
  | load slot | store slot => slot.toNat < x.frame
  | getStatic adr | putStatic adr => adr.toNat < x.globals
  | call target => x.callable target.toNat
  | jump target | jumpIf _ target => jumps target.toNat
  | _ => True

theorem Instruction.Within.mono {x : Extent} {jumps jumps' : Nat → Prop}
    (hj : ∀ adr, jumps adr → jumps' adr) :
    {i : Instruction} → i.Within x jumps → i.Within x jumps'
  | .load _, h | .store _, h | .getStatic _, h | .putStatic _, h | .call _, h => h
  | .jump _, h | .jumpIf _ _, h => hj _ h
  | .getField _, _ | .putField _, _ | .const _, _ | .arith _, _ | .neg, _ | .new _, _
  | .newArray _, _ | .loadElem _, _ | .storeElem _, _ | .arrayLength, _ | .pop, _ | .ret, _
  | .enter _ _, _ | .exit, _ | .read, _ | .print, _ | .readChar, _ | .printChar, _
  | .trap _, _ => trivial

namespace Resolved

/-- The bounds for the code of a method, from what its parts may refer to. -/
def Context.extent (Γ : Context) (layout : Layout) : Extent where
  frame := Γ.frame.length
  globals := Γ.globals.length
  callable adr := ∃ method < Γ.signatures.length, adr = (addressOf (layout.entry method)).toNat

section Expressions

variable {Γ : Context} (layout : Layout) (jumps : Nat → Prop)

theorem lt_length_of_getElem? {α : Type} {l : List α} {n : Nat} {a : α} (h : l[n]? = some a) :
    n < l.length := (List.getElem?_eq_some_iff.1 h).1

theorem LocationType.within_fetch {loc : Location} {ty : Ty} (h : LocationType Γ loc ty) :
    loc.fetch.Within (Γ.extent layout) jumps := by
  cases h with
  | frame h => exact Nat.lt_of_le_of_lt (Nat.mod_le _ _) (lt_length_of_getElem? h)
  | global h => exact Nat.lt_of_le_of_lt (Nat.mod_le _ _) (lt_length_of_getElem? h)
  | field | element => trivial

theorem LocationType.within_store {loc : Location} {ty : Ty} (h : LocationType Γ loc ty) :
    loc.store.Within (Γ.extent layout) jumps := by
  cases h with
  | frame h => exact Nat.lt_of_le_of_lt (Nat.mod_le _ _) (lt_length_of_getElem? h)
  | global h => exact Nat.lt_of_le_of_lt (Nat.mod_le _ _) (lt_length_of_getElem? h)
  | field | element => trivial

theorem within_call {method : Nat} {sig : Signature} (h : Γ.signatures[method]? = some sig) :
    (Instruction.call (addressOf (layout.entry method))).Within (Γ.extent layout) jumps :=
  ⟨method, lt_length_of_getElem? h, rfl⟩

mutual

theorem LocationType.within_access : (loc : Location) → (ty : Ty) → LocationType Γ loc ty →
    ∀ i ∈ loc.access layout, i.Within (Γ.extent layout) jumps
  | .frame _, _, _ => by simp [Location.access]
  | .global _, _, _ => by simp [Location.access]
  | .field object _, _, .field ho _ => by
      rw [Location.access]
      exact HasType.within object _ ho
  | .element array index _, _, .element ha hi => by
      rw [Location.access, List.forall_mem_append]
      exact ⟨HasType.within array _ ha, HasType.within index _ hi⟩

/-- Expressions stay within the bounds, and never jump. -/
theorem HasType.within : (e : Expr) → (ty : Ty) → HasType Γ e ty →
    ∀ i ∈ e.code layout, i.Within (Γ.extent layout) jumps
  | .constant v, _, _ => by simp [Expr.code, Instruction.Within]
  | .value source, ty, .value h => by
      rw [Expr.code, List.forall_mem_append, List.forall_mem_singleton]
      exact ⟨LocationType.within_access source ty h, h.within_fetch layout jumps⟩
  | .call method args, _, .call hm ha _ => by
      rw [Expr.code, List.forall_mem_append, List.forall_mem_singleton]
      exact ⟨ArgsType.within args _ ha, within_call layout jumps hm⟩
  | .convert operand, _, .ord h => by
      rw [Expr.code]
      exact HasType.within operand _ h
  | .convert operand, _, .chr h => by
      rw [Expr.code]
      exact HasType.within operand _ h
  | .length array, _, .length h => by
      rw [Expr.code, List.forall_mem_append, List.forall_mem_singleton]
      exact ⟨HasType.within array _ h, trivial⟩
  | .newObject cls, _, _ => by simp [Expr.code, Instruction.Within]
  | .newArray _ size, _, .newArray _ h => by
      rw [Expr.code, List.forall_mem_append, List.forall_mem_singleton]
      exact ⟨HasType.within size _ h, trivial⟩
  | .negate operand, _, .negate h => by
      rw [Expr.code]
      split
      · simp [Instruction.Within]
      · rw [List.forall_mem_append, List.forall_mem_singleton]
        exact ⟨HasType.within operand _ h, trivial⟩
  | .binary op left right, _, .binary hl hr => by
      rw [Expr.code, List.forall_mem_append, List.forall_mem_append, List.forall_mem_singleton]
      exact ⟨⟨HasType.within left _ hl, HasType.within right _ hr⟩, trivial⟩

theorem ArgsType.within : (args : List Expr) → (tys : List Ty) → ArgsType Γ args tys →
    ∀ i ∈ argsCode layout args, i.Within (Γ.extent layout) jumps
  | [], _, _ => by simp [argsCode]
  | arg :: rest, _, .cons h hrest => by
      rw [argsCode, List.forall_mem_append]
      exact ⟨HasType.within arg _ h, ArgsType.within rest _ hrest⟩

end

end Expressions

section Statements

variable {Γ : Context} (layout : Layout)

theorem ConditionOk.within (jumps : Nat → Prop) {c : Condition} (h : ConditionOk Γ c) :
    ∀ i ∈ c.code layout, i.Within (Γ.extent layout) jumps := by
  obtain ⟨ty, hl, hr, -⟩ := h
  rw [Condition.code, List.forall_mem_append]
  exact ⟨HasType.within layout jumps c.left ty hl, HasType.within layout jumps c.right ty hr⟩

/-- The target of a jump that is known to be a boundary. -/
theorem jumps_of_isBoundary {start adr : Nat} {is : List Instruction} (h : IsBoundary start is adr)
    (hs : start + codeSize is ≤ maxAddress) : IsBoundary start is (addressOf adr).toNat := by
  rwa [toNat_addressOf (Nat.le_trans h.le hs)]

variable {result : Ty}

mutual

/-- Jumps of a statement stay within it or lead right behind it. -/
theorem StmtOk.within : (s : Stmt) → (start : Nat) → StmtOk Γ result s →
    start + s.size ≤ maxAddress → ∀ i ∈ s.code layout start,
      i.Within (Γ.extent layout) (IsBoundary start (s.code layout start))
  | .assign target value, start, .assign ht hv, _ => by
      rw [Stmt.code, List.forall_mem_append, List.forall_mem_append, List.forall_mem_singleton]
      exact ⟨⟨ht.within_access layout _ target _, hv.within layout _ value _⟩,
        ht.within_store layout _⟩
  | .perform method args, start, .perform hm ha _, _ => by
      rw [Stmt.code, List.forall_mem_append, List.forall_mem_singleton]
      exact ⟨ha.within layout _ args _, within_call layout _ hm⟩
  | .discard call, start, .discard h, _ => by
      rw [Stmt.code, List.forall_mem_append, List.forall_mem_singleton]
      exact ⟨h.within layout _ call _, trivial⟩
  | .ifThen cond body, start, .ifThen hc hb, hs => by
      have hend : start + codeSize (Stmt.code layout start (.ifThen cond body)) ≤ maxAddress := by
        rwa [Stmt.codeSize_code]
      rw [Stmt.size] at hs
      have hbody := StmtOk.within body (start + cond.size + jumpSize) hb (by omega)
      rw [Stmt.code] at hend ⊢
      rw [List.forall_mem_append, List.forall_mem_append, List.forall_mem_singleton]
      refine ⟨⟨hc.within layout _, jumps_of_isBoundary ?_ hend⟩, fun i hi => ?_⟩
      · exact .last (by simp [Nat.add_assoc])
      · exact (hbody i hi).mono fun adr h => h.right (by simp [Nat.add_assoc])
  | .ifElse cond body alternative, start, .ifElse hc hb ha, hs => by
      have hend : start + codeSize (Stmt.code layout start (.ifElse cond body alternative)) ≤
          maxAddress := by
        rwa [Stmt.codeSize_code]
      rw [Stmt.size] at hs
      have hbody := StmtOk.within body (start + cond.size + jumpSize) hb (by omega)
      have halt := StmtOk.within alternative
        (start + cond.size + jumpSize + body.size + jumpSize) ha (by omega)
      rw [Stmt.code] at hend ⊢
      simp only [List.forall_mem_append, List.forall_mem_singleton]
      refine ⟨⟨⟨⟨hc.within layout _, jumps_of_isBoundary ?_ hend⟩, fun i hi => ?_⟩,
        jumps_of_isBoundary ?_ hend⟩, fun i hi => ?_⟩
      · exact .left (.last (by simp [Nat.add_assoc]))
      · exact (hbody i hi).mono fun adr h => .left (.left (h.right (by simp [Nat.add_assoc])))
      · exact .last (by simp [Nat.add_assoc])
      · exact (halt i hi).mono fun adr h => h.right (by simp [Nat.add_assoc])
  | .loop cond body, start, .loop hc hb, hs => by
      have hend : start + codeSize (Stmt.code layout start (.loop cond body)) ≤ maxAddress := by
        rwa [Stmt.codeSize_code]
      rw [Stmt.size] at hs
      have hbody := StmtOk.within body (start + cond.size + jumpSize) hb (by omega)
      rw [Stmt.code] at hend ⊢
      simp only [List.forall_mem_append, List.forall_mem_singleton]
      refine ⟨⟨⟨hc.within layout _, jumps_of_isBoundary ?_ hend⟩, fun i hi => ?_⟩,
        jumps_of_isBoundary (.first _ _) hend⟩
      · exact .last (by simp [Nat.add_assoc])
      · exact (hbody i hi).mono fun adr h => .left (h.right (by simp [Nat.add_assoc]))
  | .ret (some value), start, .retValue h _, _ => by
      rw [Stmt.code, List.forall_mem_append]
      exact ⟨h.within layout _ value _, by simp [Instruction.Within]⟩
  | .ret none, start, _, _ => by simp [Stmt.code, Instruction.Within]
  | .read form target, start, .read h, _ => by
      rw [Stmt.code, List.forall_mem_append, List.forall_mem_cons, List.forall_mem_singleton]
      exact ⟨h.within_access layout _ target _, by cases form <;> trivial, h.within_store layout _⟩
  | .print form value width, start, .print _ h, _ => by
      rw [Stmt.code, List.forall_mem_append, List.forall_mem_cons, List.forall_mem_singleton]
      exact ⟨h.within layout _ value _, trivial, by cases form <;> trivial⟩
  | .block body, start, .block h, hs => by
      rw [Stmt.size] at hs
      rw [Stmt.code]
      exact StmtsOk.within body start h hs
  | .empty, start, _, _ => by simp [Stmt.code]

theorem StmtsOk.within : (ss : List Stmt) → (start : Nat) → StmtsOk Γ result ss →
    start + stmtsSize ss ≤ maxAddress → ∀ i ∈ stmtsCode layout start ss,
      i.Within (Γ.extent layout) (IsBoundary start (stmtsCode layout start ss))
  | [], start, _, _ => by simp [stmtsCode]
  | s :: rest, start, .cons hs hrest, hsize => by
      rw [stmtsSize] at hsize
      have hfirst := StmtOk.within s start hs (by omega)
      have hothers := StmtsOk.within rest (start + s.size) hrest (by omega)
      rw [stmtsCode, List.forall_mem_append]
      exact ⟨fun i hi => (hfirst i hi).mono fun adr h => h.left,
        fun i hi => (hothers i hi).mono fun adr h => h.right (by simp)⟩

end

end Statements

/-! ## Methods -/

theorem ending_ne_nil (result : Ty) : ending result ≠ [] := by
  rw [ending]
  split <;> simp

theorem within_ending (x : Extent) (jumps : Nat → Prop) (result : Ty) :
    ∀ i ∈ ending result, i.Within x jumps := by
  rw [ending]
  split <;> simp [Instruction.Within]

/-- Jumps of a method lead to instructions of the method. -/
theorem Method.within {Γ : Context} {m : Method} (layout : Layout) {start : Nat}
    (h : StmtsOk Γ m.result m.body) (hs : start + m.size ≤ maxAddress) :
    ∀ i ∈ m.code layout start, i.Within (Γ.extent layout)
      (· ∈ (Instruction.addressed start (m.code layout start)).map Prod.fst) := by
  have hsize : start + entrySize + stmtsSize m.body ≤ maxAddress := by
    rw [Method.size] at hs
    omega
  have hbody := h.within layout m.body (start + entrySize) hsize
  rw [Method.code, List.forall_mem_cons, List.forall_mem_append]
  refine ⟨trivial, fun i hi => (hbody i hi).mono fun adr hadr => ?_, within_ending _ _ _⟩
  rw [Instruction.addressed, List.map_cons]
  exact List.mem_cons_of_mem _ (hadr.mem_addressed (ending_ne_nil m.result))

/-- Instructions with their addresses. -/
abbrev Listing := List (Nat × Instruction)

/-- Address and immediates of the entry that a listing starts with. -/
def Listing.entry? : Listing → Option (Nat × UInt8 × UInt8)
  | (adr, .enter params locals) :: _ => some (adr, params, locals)
  | _ => none

/-- The code of methods that follow each other, method by method. -/
def listings (layout : Layout) (start : Nat) : List Method → List Listing
  | [] => []
  | m :: rest =>
      Instruction.addressed start (m.code layout start) :: listings layout (start + m.size) rest

theorem flatten_listings (layout : Layout) (start : Nat) (ms : List Method) :
    (listings layout start ms).flatten =
      Instruction.addressed start (methodsCode layout start ms) := by
  induction ms generalizing start with
  | nil => rfl
  | cons m rest ih =>
      have hsize : (Instruction.encodeAll (m.code layout start)).length = m.size :=
        m.codeSize_code layout start
      rw [listings, methodsCode, List.flatten_cons, ih, Instruction.addressed_append, hsize]

theorem length_listings (layout : Layout) (start : Nat) (ms : List Method) :
    (listings layout start ms).length = ms.length := by
  induction ms generalizing start with
  | nil => rfl
  | cons m rest ih => simp [listings, ih]

theorem getElem?_listings (layout : Layout) (start : Nat) (ms : List Method) (i : Nat) :
    (listings layout start ms)[i]? = ms[i]?.map fun m =>
      let entry := start + ((ms.take i).map Method.size).sum
      Instruction.addressed entry (m.code layout entry) := by
  induction ms generalizing start i with
  | nil => rfl
  | cons m rest ih =>
      cases i with
      | zero => simp [listings]
      | succ i => simp [listings, ih, Nat.add_assoc]

/-- The code of every method as a listing. -/
def Program.listings (P : Program) : List Listing := Resolved.listings P.layout 0 P.methods

theorem Program.getElem?_listings {P : Program} {i : Nat} {m : Method}
    (h : P.methods[i]? = some m) : P.listings[i]? =
      some (Instruction.addressed (P.entry i) (m.code P.layout (P.entry i))) := by
  simp [Program.listings, Resolved.getElem?_listings, h, Program.entry]

/-- The listing of a method among those of all methods of a program. -/
structure Program.ListsMethod (P : Program) (dataSize : Nat) (bodies : List Listing) (index : Nat)
    (m : Method) (body : Listing) : Prop where
  /-- It starts with an entry for the parameters of the method. -/
  entry : ∃ adr params locals, body.entry? = some (adr, params, locals) ∧
    params.toNat = m.params.length ∧
    ∀ slot, .load slot ∈ body.map Prod.snd ∨ .store slot ∈ body.map Prod.snd →
      slot.toNat < locals.toNat
  ending : [.exit, .ret] <:+ body.map Prod.snd ∨
    [.trap Instruction.missingReturn] <:+ body.map Prod.snd
  /-- Jumps lead to instructions of the same method. -/
  jumps : ∀ target, .jump target ∈ body.map Prod.snd ∨
    (∃ rel, .jumpIf rel target ∈ body.map Prod.snd) → target.toNat ∈ body.map Prod.fst
  /-- Calls lead to the entry of this method or of one before it. -/
  calls : ∀ target, .call target ∈ body.map Prod.snd → ∃ j ≤ index, ∃ callee code params locals,
    P.methods[j]? = some callee ∧ bodies[j]? = some code ∧
    code.entry? = some (target.toNat, params, locals) ∧ params.toNat = callee.params.length
  globals : ∀ adr, .getStatic adr ∈ body.map Prod.snd ∨ .putStatic adr ∈ body.map Prod.snd →
    adr.toNat < dataSize

theorem ending_suffix (m : Method) (layout : Layout) (start : Nat) :
    ending m.result <:+ m.code layout start :=
  ⟨.enter (slotOf m.params.length) (slotOf m.frame.length) ::
    stmtsCode layout (start + entrySize) m.body, rfl⟩

theorem Method.entry?_addressed (m : Method) (layout : Layout) (start : Nat) :
    Listing.entry? (Instruction.addressed start (m.code layout start)) =
      some (start, slotOf m.params.length, slotOf m.frame.length) := rfl

namespace Program.Typed

variable {P : Program} {i : Nat} {m : Method}

theorem params_le (h : P.Typed) (hm : P.methods[i]? = some m) : m.params.length ≤ maxFrame := by
  have hf := h.frame m (List.mem_of_getElem? hm)
  rw [Method.frame, List.length_append] at hf
  omega

/-- Every method of a typed program that can be addressed has code of the right shape. -/
theorem listsMethod (h : P.Typed) (hs : codeSize P.code ≤ maxAddress)
    (hm : P.methods[i]? = some m) :
    P.ListsMethod P.globals.length P.listings i m
      (Instruction.addressed (P.entry i) (m.code P.layout (P.entry i))) := by
  have hsize : P.entry i + m.size ≤ maxAddress := by
    rw [← P.entry_succ hm]
    exact Nat.le_trans (P.entry_le _) hs
  have hw := Method.within P.layout (h.body i m hm) hsize
  have hframe := h.frame m (List.mem_of_getElem? hm)
  refine ⟨⟨_, _, _, m.entry?_addressed _ _, toNat_slotOf (h.params_le hm), ?_⟩, ?_, ?_, ?_, ?_⟩
  all_goals rw [Instruction.map_snd_addressed]
  · rw [toNat_slotOf hframe]
    rintro slot (hi | hi)
    · exact hw _ hi
    · exact hw _ hi
  · have hend := ending_suffix m P.layout (P.entry i)
    rw [ending] at hend
    split at hend
    · exact .inl hend
    · exact .inr hend
  · rintro target (hi | ⟨rel, hi⟩)
    · exact hw _ hi
    · exact hw _ hi
  · intro target hi
    obtain ⟨j, hj, htarget⟩ := hw _ hi
    simp only [Program.context, List.length_map, List.length_take] at hj
    obtain ⟨callee, hc⟩ : ∃ callee, P.methods[j]? = some callee :=
      ⟨_, List.getElem?_eq_getElem (by omega)⟩
    have hentry : target.toNat = P.entry j :=
      htarget.trans (toNat_addressOf (Nat.le_trans (P.entry_le j) hs))
    rw [hentry]
    exact ⟨j, by omega, callee, _, _, _, hc, Program.getElem?_listings hc,
      callee.entry?_addressed _ _, toNat_slotOf (h.params_le hc)⟩
  · rintro adr (hi | hi)
    · exact hw _ hi
    · exact hw _ hi

end Program.Typed

end Resolved

end MicroJava
