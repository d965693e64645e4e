import MicroJava.Proofs.Resolved.WorldTyping

/-! # Typed programs do not get stuck

Every part of a typed program, evaluated in a typed world, leaves a typed world and a value of its
type, unless it fails in one of the ways that types do not exclude. -/

namespace MicroJava.Resolved

/-- A part of a program sees its classes, its global variables and some of its methods. -/
structure Context.Of (Γ : Context) (P : Program) : Prop where
  classes : Γ.classes = P.classes
  globals : Γ.globals = P.globals
  signatures : ∀ (i : Nat) sig, Γ.signatures[i]? = some sig →
    ∃ m, P.methods[i]? = some m ∧ m.toSignature = sig
  proper : Γ.Proper

theorem Context.Of.fields {Γ : Context} {P : Program} (h : Γ.Of P) (cls : ClassId) :
    Γ.fields cls = P.fields cls := by
  rw [Context.fields, Program.fields, h.classes]

/-! ## Arrays -/

section Arrays

variable {P : Program} {S : List Ty} {o : Obj} {elem : Ty} {n k : Nat}

theorem Obj.exists_length (ht : o.ty = .array elem) : ∃ n, o.length? = some n := by
  cases o with
  | record => cases ht
  | cells _ elems => exact ⟨elems.size, rfl⟩
  | chars elems => exact ⟨elems.size, rfl⟩

theorem ObjOk.get (h : ObjOk P S o) (ht : o.ty = .array elem) (hn : o.length? = some n)
    (hk : k < n) : ∃ v, o.get? k = some v ∧ ValueOk S v elem := by
  cases h with
  | record => cases ht
  | @cells _ elems _ h =>
      cases ht
      cases hn
      exact ⟨elems[k], by simp [Obj.get?, hk], h k _ (by simp [hk])⟩
  | chars elems =>
      cases ht
      cases hn
      exact ⟨.word (Int32.ofNat elems[k].toNat), by simp [Obj.get?, hk], .char _⟩

theorem ObjOk.put (h : ObjOk P S o) (ht : o.ty = .array elem) {v : Value} (hv : ValueOk S v elem)
    (hw : elem = .char → ∃ x, v = .word x) (k : Nat) :
    ∃ o', o.put k v = some o' ∧ o'.ty = o.ty ∧ ObjOk P S o' := by
  cases h with
  | record => cases ht
  | @cells _ elems he h =>
      cases ht
      refine ⟨_, rfl, rfl, .cells he fun i u hu => ?_⟩
      rw [Array.getElem?_setIfInBounds] at hu
      split at hu
      · split at hu
        · cases hu
          exact hv
        · cases hu
      · exact h i u hu
  | chars elems =>
      cases ht
      obtain ⟨x, rfl⟩ := hw rfl
      exact ⟨_, rfl, rfl, .chars _⟩

theorem blankArray_ok (P : Program) (S : List Ty) {elem : Ty} (he : IsProper elem) (n : Nat) :
    ObjOk P S (Eval.blankArray elem n) ∧ (Eval.blankArray elem n).ty = .array elem := by
  rw [Eval.blankArray]
  split
  · next h => exact ⟨.chars _, by rw [h]; rfl⟩
  · next h =>
      refine ⟨.cells h fun i v hv => ?_, rfl⟩
      rw [Array.getElem?_replicate] at hv
      split at hv
      · cases hv
        exact valueOk_zeroOf S he
      · cases hv

end Arrays

/-! ## Places -/

/-- Places of a type. -/
inductive SlotOk (Γ : Context) (S : List Ty) : Slot → Ty → Prop
  | frame {slot : Nat} {ty : Ty} (h : Γ.frame[slot]? = some ty) : SlotOk Γ S (.frame slot) ty
  | global {adr : Nat} {ty : Ty} (h : Γ.globals[adr]? = some ty) : SlotOk Γ S (.global adr) ty
  | field {object : Value} {cls : ClassId} {adr : Nat} {ty : Ty}
      (ho : ValueOk S object (.object cls)) (h : (Γ.fields cls)[adr]? = some ty) :
      SlotOk Γ S (.field object adr) ty
  | element {array index : Value} {ty : Ty} (ha : ValueOk S array (.array ty))
      (hi : ValueOk S index .int) : SlotOk Γ S (.element array index) ty

theorem SlotOk.mono {Γ : Context} {S S' : List Ty} {slot : Slot} {ty : Ty} (h : SlotOk Γ S slot ty)
    (hs : S <+: S') : SlotOk Γ S' slot ty := by
  cases h with
  | frame h => exact .frame h
  | global h => exact .global h
  | field ho h => exact .field (ho.mono hs) h
  | element ha hi => exact .element (ha.mono hs) (hi.mono hs)

section Places

variable {P : Program} {Γ : Context} {w : World} {slot : Slot} {ty : Ty}

theorem position_safe (k : Int32) (n : Nat) (w : World) :
    Safe (fun j w' => w' = w ∧ j < n) (Eval.position k n w) := by
  rw [Eval.position]
  split
  · next h => exact ⟨rfl, by omega⟩
  · exact fun h => by cases h

/-- A reference of a class type leads to an object of that class, with its fields. -/
theorem record_safe (hw : WorldOk P Γ.frame w) {object : Value} {cls : ClassId}
    (ho : ValueOk w.types object (.object cls)) :
    Safe (fun found w' => w' = w ∧ ∃ fields, found.2 = .record cls fields ∧
      w.heap[found.1]? = some (.record cls fields) ∧ Holds w.types fields (P.fields cls))
      (Eval.dereference object w) := by
  refine (dereference_safe ho rfl).weaken ?_
  rintro ⟨i, o⟩ _ ⟨rfl, hi, ht⟩
  cases hw.heap i o hi with
  | cells | chars => cases ht
  | @record _ fields hfields =>
      cases ht
      exact ⟨rfl, fields, rfl, hi, hfields⟩

/-- What is done with an element of an array is done within its length. -/
theorem element_safe {α : Type} {post : α → World → Prop} {array index : Value} {elem : Ty}
    (ha : ValueOk w.types array (.array elem)) (hi : ValueOk w.types index .int)
    (f : Nat → Obj → Nat → Eval α)
    (hf : ∀ i o n j, w.heap[i]? = some o → o.ty = .array elem → o.length? = some n → j < n →
      Safe post (f i o j w)) :
    Safe post ((do
      let index ← Eval.word index
      let (i, o) ← Eval.dereference array
      let length ← Eval.orStuck o.length?
      f i o (← Eval.position index length) : Eval α) w) := by
  obtain ⟨k, rfl⟩ := word_safe hi (.inl rfl)
  rw [bind_ok (show Eval.word (.word k) w = .ok k w from rfl)]
  refine (dereference_safe ha rfl).bind ?_
  rintro ⟨i, o⟩ _ ⟨rfl, ho, ht⟩
  obtain ⟨n, hn⟩ := Obj.exists_length ht
  dsimp only
  rw [hn, bind_ok (show Eval.orStuck (some n) _ = .ok n _ from rfl)]
  refine (position_safe k n _).bind ?_
  rintro j _ ⟨rfl, hj⟩
  exact hf i o n j ho ht hn hj

theorem Slot.read_safe (hΓ : Γ.Of P) (hw : WorldOk P Γ.frame w) (h : SlotOk Γ w.types slot ty) :
    Safe (fun v w' => w' = w ∧ ValueOk w.types v ty) (slot.read w) := by
  cases h with
  | @frame slot _ h =>
      obtain ⟨v, hv, hty⟩ := hw.frame.get _ _ h
      change Safe _ ((Eval.orStuck w.frame[slot]? : Eval Value) w)
      rw [hv]
      exact ⟨rfl, hty⟩
  | @global adr _ h =>
      rw [hΓ.globals] at h
      obtain ⟨v, hv, hty⟩ := hw.globals.get _ _ h
      change Safe _ ((Eval.orStuck w.globals[adr]? : Eval Value) w)
      rw [hv]
      exact ⟨rfl, hty⟩
  | field ho h =>
      rw [Slot.read]
      refine (record_safe hw ho).bind ?_
      rintro ⟨i, _⟩ _ ⟨rfl, fields, rfl, hi, hfields⟩
      rw [hΓ.fields] at h
      obtain ⟨v, hv, hty⟩ := hfields.get _ _ h
      dsimp only
      rw [hv]
      exact ⟨rfl, hty⟩
  | element ha hi =>
      rw [Slot.read]
      refine element_safe ha hi (fun _ o j => Eval.orStuck (o.get? j)) fun i o n j ho ht hn hj => ?_
      obtain ⟨v, hv, hty⟩ := (hw.heap i o ho).get ht hn hj
      rw [hv]
      exact ⟨rfl, hty⟩

theorem Slot.write_safe (hΓ : Γ.Of P) (hw : WorldOk P Γ.frame w) (h : SlotOk Γ w.types slot ty)
    {v : Value} (hv : ValueOk w.types v ty) :
    Safe (fun _ w' => WorldOk P Γ.frame w' ∧ w.types <+: w'.types) (slot.write v w) := by
  cases h with
  | @frame slot _ h =>
      change Safe _ ((if slot < w.frame.size then
        modify fun w => { w with frame := w.frame.setIfInBounds slot v } else Eval.stuck) w)
      rw [if_pos (hw.frame.lt h)]
      exact ⟨hw.withFrame (hw.frame.set h hv), List.prefix_refl _⟩
  | @global adr _ h =>
      rw [hΓ.globals] at h
      change Safe _ ((if adr < w.globals.size then
        modify fun w => { w with globals := w.globals.setIfInBounds adr v } else Eval.stuck) w)
      rw [if_pos (hw.globals.lt h)]
      exact ⟨⟨hw.globals.set h hv, hw.frame, hw.heap⟩, List.prefix_refl _⟩
  | field ho h =>
      rw [Slot.write]
      refine (record_safe hw ho).bind ?_
      rintro ⟨i, _⟩ _ ⟨rfl, fields, rfl, hi, hfields⟩
      rw [hΓ.fields] at h
      dsimp only
      rw [if_pos (hfields.lt h)]
      exact ⟨hw.replace hi rfl (.record (hfields.set h hv)), World.prefix_set hi rfl⟩
  | element ha hi =>
      rw [Slot.write]
      refine element_safe ha hi (fun i o j => do Eval.replace i (← Eval.orStuck (o.put j v)))
        fun i o n j ho ht hn hj => ?_
      obtain ⟨o', hput, ht', ho'⟩ := (hw.heap i o ho).put ht hv
        (fun hc => word_safe hv (.inr hc)) j
      rw [hput, bind_ok (show Eval.orStuck (some o') _ = .ok o' _ from rfl)]
      exact ⟨hw.replace ho ht' ho', World.prefix_set ho ht'⟩

end Places

/-! ## Expressions -/

/-- A typed world that an evaluation can lead to from another. -/
def Follows (P : Program) (frame : List Ty) (w w' : World) : Prop :=
  WorldOk P frame w' ∧ w.types <+: w'.types

section Follows

variable {P : Program} {frame : List Ty} {w w' w'' : World} {α β : Type}

theorem Follows.refl (hw : WorldOk P frame w) : Follows P frame w w := ⟨hw, List.prefix_refl _⟩

theorem Follows.trans (h : Follows P frame w w') (h' : Follows P frame w' w'') :
    Follows P frame w w'' :=
  ⟨h'.1, h.2.trans h'.2⟩

/-- The same statement of safety from an earlier world. -/
theorem Safe.since {post : α → World → Prop} {r : EStateM.Result Stop World α}
    (h : Safe (fun a w'' => Follows P frame w' w'' ∧ post a w'') r) (hf : Follows P frame w w') :
    Safe (fun a w'' => Follows P frame w w'' ∧ post a w'') r := by
  refine h.weaken ?_
  rintro a w'' ⟨hf', ha⟩
  exact ⟨hf.trans hf', ha⟩

/-- Evaluations that follow each other. -/
theorem Safe.andThen {act : Eval α} {f : α → Eval β} {mid : α → World → Prop}
    {post : β → World → Prop} (h : Safe (fun a w' => Follows P frame w w' ∧ mid a w') (act w))
    (hf : ∀ a w', Follows P frame w w' → mid a w' →
      Safe (fun b w'' => Follows P frame w' w'' ∧ post b w'') (f a w')) :
    Safe (fun b w'' => Follows P frame w w'' ∧ post b w'') ((act >>= f) w) := by
  refine h.bind ?_
  rintro a w' ⟨hw', ha⟩
  exact (hf a w' hw' ha).since hw'

end Follows

/-- What a method of the given result type gives back. -/
def ResultOk (S : List Ty) (ty : Ty) : Option Value → Prop
  | none => ty = .void
  | some v => ty ≠ .void ∧ ValueOk S v ty

/-- Calls with arguments of the right types do not get stuck. -/
def CallsSafe (P : Program) (calls : CallRule) : Prop :=
  ∀ (i : Nat) m args frame w, P.methods[i]? = some m → WorldOk P frame w →
    Holds w.types (List.toArray args) m.params →
    Safe (fun r w' => Follows P frame w w' ∧ ResultOk w'.types m.result r) (calls i args w)

section Expressions

variable {P : Program} {Γ : Context} {calls : CallRule}

theorem allocate_safe {w : World} (hw : WorldOk P Γ.frame w) {o : Obj}
    (ho : ObjOk P (w.types ++ [o.ty]) o) :
    Safe (fun v w' => Follows P Γ.frame w w' ∧ ValueOk w'.types v o.ty) (Eval.allocate o w) := by
  change Safe _ ((if h : w.heap.size < maxObjects then (do
    modify fun w => { w with heap := w.heap.push o }
    return .ref (some ⟨w.heap.size, h⟩)) else throw .exhausted : Eval Value) w)
  split
  · next h =>
      refine ⟨⟨hw.allocate ho, ?_⟩, .object ?_⟩
      · rw [World.types_push]
        exact List.prefix_append _ _
      · rw [World.types_push]
        simp [World.types]
  · exact fun h => by cases h

mutual

theorem LocationType.safe (hΓ : Γ.Of P) (hcalls : CallsSafe P calls) :
    (loc : Location) → (ty : Ty) → LocationType Γ loc ty → ∀ {w : World}, WorldOk P Γ.frame w →
    Safe (fun slot w' => Follows P Γ.frame w w' ∧ SlotOk Γ w'.types slot ty)
      (loc.locate P calls w)
  | .frame slot, ty, .frame h, w, hw => by
      rw [Location.locate]
      exact ⟨.refl hw, .frame h⟩
  | .global adr, ty, .global h, w, hw => by
      rw [Location.locate]
      exact ⟨.refl hw, .global h⟩
  | .field object adr, ty, .field ho h, w, hw => by
      rw [Location.locate]
      refine (HasType.safe hΓ hcalls object _ ho hw).andThen fun v w' hf hv => ?_
      exact ⟨.refl hf.1, .field hv h⟩
  | .element array index elem, _, .element ha hi, w, hw => by
      rw [Location.locate]
      refine (HasType.safe hΓ hcalls array _ ha hw).andThen fun a w' hf hv => ?_
      refine (HasType.safe hΓ hcalls index _ hi hf.1).andThen fun k w'' hf' hk => ?_
      exact ⟨.refl hf'.1, .element (hv.mono hf'.2) hk⟩

/-- A typed expression has a value of its type. -/
theorem HasType.safe (hΓ : Γ.Of P) (hcalls : CallsSafe P calls) :
    (e : Expr) → (ty : Ty) → HasType Γ e ty → ∀ {w : World}, WorldOk P Γ.frame w →
    Safe (fun v w' => Follows P Γ.frame w w' ∧ ValueOk w'.types v ty) (e.eval P calls w)
  | .constant v, _, .number _, w, hw => by
      rw [Expr.eval]
      exact ⟨.refl hw, .int v⟩
  | .constant v, _, .char _, w, hw => by
      rw [Expr.eval]
      exact ⟨.refl hw, .char v⟩
  | .value source, ty, .value h, w, hw => by
      rw [Expr.eval]
      refine (LocationType.safe hΓ hcalls source ty h hw).andThen fun slot w' hf hslot => ?_
      refine (slot.read_safe hΓ hf.1 hslot).weaken ?_
      rintro v w'' ⟨rfl, hv⟩
      exact ⟨.refl hf.1, hv⟩
  | .call method args, _, .call hsig ha hr, w, hw => by
      rw [Expr.eval]
      obtain ⟨m, hm, rfl⟩ := hΓ.signatures _ _ hsig
      refine (ArgsType.safe hΓ hcalls args _ ha hw).andThen fun vs w' hf hvs => ?_
      refine (hcalls method m vs _ w' hm hf.1 hvs).andThen fun r w'' hf' hres => ?_
      cases r with
      | none => exact absurd hres hr
      | some v => exact ⟨.refl hf'.1, hres.2⟩
  | .convert operand, _, .ord h, w, hw => by
      rw [Expr.eval]
      refine (HasType.safe hΓ hcalls operand _ h hw).weaken ?_
      rintro v w' ⟨hf, hv⟩
      obtain ⟨x, rfl⟩ := word_safe hv (.inr rfl)
      exact ⟨hf, .int x⟩
  | .convert operand, _, .chr h, w, hw => by
      rw [Expr.eval]
      refine (HasType.safe hΓ hcalls operand _ h hw).weaken ?_
      rintro v w' ⟨hf, hv⟩
      obtain ⟨x, rfl⟩ := word_safe hv (.inl rfl)
      exact ⟨hf, .char x⟩
  | .length array, _, .length h, w, hw => by
      rw [Expr.eval]
      refine (HasType.safe hΓ hcalls array _ h hw).andThen fun a w' hf ha => ?_
      refine (dereference_safe ha rfl).bind ?_
      rintro ⟨i, o⟩ _ ⟨rfl, ho, ht⟩
      obtain ⟨n, hn⟩ := Obj.exists_length ht
      dsimp only
      rw [hn]
      exact ⟨.refl hf.1, .int _⟩
  | .newObject cls, _, .newObject h, w, hw => by
      rw [Expr.eval]
      rw [hΓ.fields] at h
      rw [if_pos h]
      have hp : ∀ ty ∈ P.fields cls, IsProper ty := by
        rw [← hΓ.fields]
        exact hΓ.proper.fields cls
      exact allocate_safe hw (.record (.zeros hp))
  | .newArray elem size, _, .newArray he h, w, hw => by
      rw [Expr.eval]
      refine (HasType.safe hΓ hcalls size _ h hw).andThen fun n w' hf hn => ?_
      obtain ⟨n, rfl⟩ := word_safe hn (.inl rfl)
      rw [bind_ok (show Eval.word (.word n) w' = .ok n w' from rfl)]
      split
      · exact fun h => by cases h
      · have hblank := (blankArray_ok P (w'.types ++ [(Eval.blankArray elem n.toInt.toNat).ty]) he
          n.toInt.toNat).1
        rw [← (blankArray_ok P [] he n.toInt.toNat).2]
        exact allocate_safe hf.1 hblank
  | .negate operand, _, .negate h, w, hw => by
      rw [Expr.eval]
      refine (HasType.safe hΓ hcalls operand _ h hw).andThen fun n w' hf hn => ?_
      obtain ⟨n, rfl⟩ := word_safe hn (.inl rfl)
      exact ⟨.refl hf.1, .int _⟩
  | .binary op left right, _, .binary hl hr, w, hw => by
      rw [Expr.eval]
      refine (HasType.safe hΓ hcalls left _ hl hw).andThen fun a w' hf ha => ?_
      obtain ⟨a, rfl⟩ := word_safe ha (.inl rfl)
      rw [bind_ok (show Eval.word (.word a) w' = .ok a w' from rfl)]
      refine (HasType.safe hΓ hcalls right _ hr hf.1).andThen fun b w'' hf' hb => ?_
      obtain ⟨b, rfl⟩ := word_safe hb (.inl rfl)
      rw [bind_ok (show Eval.word (.word b) w'' = .ok b w'' from rfl)]
      cases Word.calculate op a b with
      | none => exact fun h => by cases h
      | some v => exact ⟨.refl hf'.1, .int v⟩

theorem ArgsType.safe (hΓ : Γ.Of P) (hcalls : CallsSafe P calls) :
    (args : List Expr) → (tys : List Ty) → ArgsType Γ args tys → ∀ {w : World},
    WorldOk P Γ.frame w →
    Safe (fun vs w' => Follows P Γ.frame w w' ∧ Holds w'.types vs.toArray tys)
      (evalArgs P calls args w)
  | [], _, .nil, w, hw => by
      rw [evalArgs]
      exact ⟨.refl hw, .nil _⟩
  | arg :: rest, _, .cons h hrest, w, hw => by
      rw [evalArgs]
      refine (HasType.safe hΓ hcalls arg _ h hw).andThen fun v w' hf hv => ?_
      refine (ArgsType.safe hΓ hcalls rest _ hrest hf.1).andThen fun vs w'' hf' hvs => ?_
      exact ⟨.refl hf'.1, .cons (hv.mono hf'.2) hvs⟩

end

end Expressions

/-! ## Statements -/

/-- How a statement of a method with the given result type may end. -/
def SignalOk (S : List Ty) (result : Ty) : Signal → Prop
  | .proceed => True
  | .returned r => ResultOk S result r

section Statements

variable {P : Program} {Γ : Context} {calls : CallRule} {result : Ty}

theorem compare_safe {w : World} {a b : Value} {ty : Ty} {rel : Comparison}
    (ha : ValueOk w.types a ty) (hb : ValueOk w.types b ty)
    (hr : ty.isReference = true → rel.isEquality = true) :
    Safe (fun _ w' => w' = w) (Eval.compare rel a b w) := by
  have hkind : (ty = .int ∨ ty = .char) ∨ ty.isReference = true := by
    cases ha with
    | int => exact .inl (.inl rfl)
    | char => exact .inl (.inr rfl)
    | nullArray | nullObject => exact .inr rfl
    | object h =>
        rw [World.getElem?_types, Option.map_eq_some_iff] at h
        obtain ⟨o, -, rfl⟩ := h
        exact .inr (by cases o <;> rfl)
  rcases hkind with ht | ht
  · obtain ⟨x, rfl⟩ := word_safe ha ht
    obtain ⟨y, rfl⟩ := word_safe hb ht
    exact rfl
  · have href : ∀ v, ValueOk w.types v ty → ∃ r, v = .ref r := by
      intro v hv
      cases hv with
      | int | char => cases ht
      | nullArray | nullObject => exact ⟨none, rfl⟩
      | @object i _ _ => exact ⟨some i, rfl⟩
    obtain ⟨x, rfl⟩ := href a ha
    obtain ⟨y, rfl⟩ := href b hb
    have heq := hr ht
    cases rel with
    | eq | ne => exact rfl
    | lt | le | gt | ge => cases heq

theorem ConditionOk.safe (hΓ : Γ.Of P) (hcalls : CallsSafe P calls) {c : Condition}
    (h : ConditionOk Γ c) {w : World} (hw : WorldOk P Γ.frame w) :
    Safe (fun _ w' => Follows P Γ.frame w w' ∧ True) (c.eval P calls w) := by
  obtain ⟨ty, hl, hr, heq⟩ := h
  rw [Condition.eval]
  refine (HasType.safe hΓ hcalls c.left ty hl hw).andThen fun a w' hf ha => ?_
  refine (HasType.safe hΓ hcalls c.right ty hr hf.1).andThen fun b w'' hf' hb => ?_
  refine (compare_safe (ha.mono hf'.2) hb heq).weaken ?_
  rintro holds _ rfl
  exact ⟨.refl hf'.1, trivial⟩

theorem readValue_safe (form : Textual) (w : World) :
    Safe (fun v w' => (∃ rest, w' = { w with input := rest }) ∧ ValueOk w'.types v form.ty)
      (Eval.readValue form w) := by
  have hget : (get : Eval World) w = .ok w w := rfl
  cases form with
  | number =>
      rw [Eval.readValue, bind_ok hget]
      obtain ⟨number, rest⟩ := Word.scan w.input
      cases number with
      | none => exact fun h => by cases h
      | some n => exact ⟨⟨rest, rfl⟩, .int _⟩
  | char =>
      rw [Eval.readValue, bind_ok hget]
      cases w.input with
      | nil => exact fun h => by cases h
      | cons c rest => exact ⟨⟨rest, rfl⟩, .char _⟩

theorem repeatWhile_safe {frame : List Ty} {cond : Eval Bool} {body : Eval Signal}
    (hcond : ∀ w, WorldOk P frame w → Safe (fun _ w' => Follows P frame w w' ∧ True) (cond w))
    (hbody : ∀ w, WorldOk P frame w →
      Safe (fun signal w' => Follows P frame w w' ∧ SignalOk w'.types result signal) (body w))
    (n : Nat) (w : World) (hw : WorldOk P frame w) :
    Safe (fun signal w' => Follows P frame w w' ∧ SignalOk w'.types result signal)
      (repeatWhile cond body n w) := by
  induction n generalizing w with
  | zero => exact fun h => by cases h
  | succ n ih =>
      rw [repeatWhile]
      refine (hcond w hw).andThen fun holds w' hf _ => ?_
      cases holds with
      | false => exact ⟨.refl hf.1, trivial⟩
      | true =>
          refine (hbody w' hf.1).andThen fun signal w'' hf' hsignal => ?_
          cases signal with
          | returned r => exact ⟨.refl hf'.1, hsignal⟩
          | proceed => exact ih w'' hf'.1

mutual

/-- A typed statement keeps the world typed, and returns only what its method may return. -/
theorem StmtOk.safe (hΓ : Γ.Of P) (hcalls : CallsSafe P calls) (fuel : Nat) :
    (s : Stmt) → StmtOk Γ result s → ∀ {w : World}, WorldOk P Γ.frame w →
    Safe (fun signal w' => Follows P Γ.frame w w' ∧ SignalOk w'.types result signal)
      (s.eval P calls fuel w)
  | .assign target value, .assign ht hv, w, hw => by
      rw [Stmt.eval]
      refine (LocationType.safe hΓ hcalls target _ ht hw).andThen fun slot w' hf hslot => ?_
      refine (HasType.safe hΓ hcalls value _ hv hf.1).andThen fun v w'' hf' hval => ?_
      refine (slot.write_safe hΓ hf'.1 (hslot.mono hf'.2) hval).bind ?_
      rintro u w₁ hf₁
      exact ⟨hf₁, trivial⟩
  | .perform method args, .perform hsig ha hr, w, hw => by
      rw [Stmt.eval]
      obtain ⟨m, hm, rfl⟩ := hΓ.signatures _ _ hsig
      refine (ArgsType.safe hΓ hcalls args _ ha hw).andThen fun vs w' hf hvs => ?_
      refine (hcalls method m vs _ w' hm hf.1 hvs).andThen fun r w'' hf' hres => ?_
      cases r with
      | none => exact ⟨.refl hf'.1, trivial⟩
      | some v => exact absurd hr hres.1
  | .discard call, .discard h, w, hw => by
      rw [Stmt.eval]
      refine (HasType.safe hΓ hcalls call _ h hw).bind ?_
      rintro v w' ⟨hf, -⟩
      exact ⟨hf, trivial⟩
  | .ifThen cond body, .ifThen hc hb, w, hw => by
      rw [Stmt.eval]
      refine (hc.safe hΓ hcalls hw).andThen fun holds w' hf _ => ?_
      cases holds with
      | false => exact ⟨.refl hf.1, trivial⟩
      | true => exact StmtOk.safe hΓ hcalls fuel body hb hf.1
  | .ifElse cond body alternative, .ifElse hc hb ha, w, hw => by
      rw [Stmt.eval]
      refine (hc.safe hΓ hcalls hw).andThen fun holds w' hf _ => ?_
      cases holds with
      | false => exact StmtOk.safe hΓ hcalls fuel alternative ha hf.1
      | true => exact StmtOk.safe hΓ hcalls fuel body hb hf.1
  | .loop cond body, .loop hc hb, w, hw => by
      rw [Stmt.eval]
      exact repeatWhile_safe (fun w hw => hc.safe hΓ hcalls hw)
        (fun w hw => StmtOk.safe hΓ hcalls fuel body hb hw) fuel w hw
  | .ret (some value), .retValue h hr, w, hw => by
      rw [Stmt.eval]
      refine (HasType.safe hΓ hcalls value _ h hw).bind ?_
      rintro v w' ⟨hf, hv⟩
      exact ⟨hf, hr, hv⟩
  | .ret none, .ret hr, w, hw => by
      rw [Stmt.eval]
      exact ⟨.refl hw, hr⟩
  | .read form target, .read h, w, hw => by
      rw [Stmt.eval]
      refine (LocationType.safe hΓ hcalls target _ h hw).andThen fun slot w' hf hslot => ?_
      refine (readValue_safe form w').bind ?_
      rintro v _ ⟨⟨rest, rfl⟩, hv⟩
      have hread : WorldOk P Γ.frame { w' with input := rest } :=
        ⟨hf.1.globals, hf.1.frame, hf.1.heap⟩
      refine (slot.write_safe hΓ hread hslot hv).bind ?_
      rintro u w₁ hf₁
      exact ⟨hf₁, trivial⟩
  | .print form value width, .print _ h, w, hw => by
      rw [Stmt.eval]
      refine (HasType.safe hΓ hcalls value _ h hw).bind ?_
      rintro v w' ⟨⟨hw', hs'⟩, hv⟩
      have hform : form.ty = .int ∨ form.ty = .char := by cases form <;> simp [Textual.ty]
      obtain ⟨x, rfl⟩ := word_safe hv hform
      exact ⟨⟨⟨hw'.globals, hw'.frame, hw'.heap⟩, hs'⟩, trivial⟩
  | .block body, .block h, w, hw => by
      rw [Stmt.eval]
      exact StmtsOk.safe hΓ hcalls fuel body h hw
  | .empty, .empty, w, hw => by
      rw [Stmt.eval]
      exact ⟨.refl hw, trivial⟩

theorem StmtsOk.safe (hΓ : Γ.Of P) (hcalls : CallsSafe P calls) (fuel : Nat) :
    (ss : List Stmt) → StmtsOk Γ result ss → ∀ {w : World}, WorldOk P Γ.frame w →
    Safe (fun signal w' => Follows P Γ.frame w w' ∧ SignalOk w'.types result signal)
      (evalStmts P calls fuel ss w)
  | [], .nil, w, hw => by
      rw [evalStmts]
      exact ⟨.refl hw, trivial⟩
  | s :: rest, .cons hs hrest, w, hw => by
      rw [evalStmts]
      refine (StmtOk.safe hΓ hcalls fuel s hs hw).andThen fun signal w' hf hsignal => ?_
      cases signal with
      | returned r => exact ⟨.refl hf.1, hsignal⟩
      | proceed => exact StmtsOk.safe hΓ hcalls fuel rest hrest hf.1

end

end Statements

/-! ## Programs -/

namespace Program.Typed

variable {P : Program}

theorem context_of (h : P.Typed) {i : Nat} {m : Method} (hm : P.methods[i]? = some m) :
    (P.context i m).Of P := by
  refine ⟨rfl, rfl, fun j sig hj => ?_, h.proper i m hm⟩
  rw [Program.context, List.getElem?_map, Option.map_eq_some_iff] at hj
  obtain ⟨m', hm', rfl⟩ := hj
  rw [List.getElem?_take] at hm'
  split at hm'
  · exact ⟨m', hm', rfl⟩
  · cases hm'

theorem activate_safe (h : P.Typed) {calls : CallRule} (hcalls : CallsSafe P calls) (fuel : Nat)
    {i : Nat} {m : Method} (hm : P.methods[i]? = some m) {frame : List Ty} {w : World}
    (hw : WorldOk P frame w) {args : List Value} (ha : Holds w.types args.toArray m.params) :
    Safe (fun r w' => Follows P m.frame w w' ∧ ResultOk w'.types m.result r)
      (m.activate P calls fuel args w) := by
  have hlocals : ∀ ty ∈ m.locals, IsProper ty := fun ty hty =>
    (h.proper i m hm).frame ty (List.mem_append_right _ hty)
  have hframe : WorldOk P m.frame { w with frame := m.fresh args } :=
    hw.withFrame (ha.append (.zeros hlocals))
  have hmodify : (modify fun w => { w with frame := m.fresh args } : Eval Unit) w =
      .ok () { w with frame := m.fresh args } := rfl
  rw [Method.activate, bind_ok hmodify]
  refine (StmtsOk.safe (h.context_of hm) hcalls fuel m.body (h.body i m hm) hframe).bind ?_
  rintro signal w' ⟨⟨hw', hs'⟩, hsignal⟩
  cases signal with
  | returned r => exact ⟨⟨hw', hs'⟩, hsignal⟩
  | proceed =>
      rw [Method.outcome]
      split
      · next hv => exact ⟨⟨hw', hs'⟩, hv⟩
      · exact fun h => by cases h

/-- Calls of a typed program do not get stuck. -/
theorem call_safe (h : P.Typed) (fuel : Nat) : CallsSafe P (P.call fuel) := by
  induction fuel with
  | zero => exact fun i m args frame w hm hw ha => fun h => by cases h
  | succ fuel ih =>
      intro i m args frame w hm hw ha
      have hsome : (Eval.orStuck (some m) : Eval Method) w = .ok m w := rfl
      have hget : (get : Eval World) w = .ok w w := rfl
      have hlen : args.length = m.params.length := by simpa using ha.size
      rw [Program.call, hm, bind_ok hsome, if_pos hlen, bind_ok hget]
      refine (h.activate_safe ih fuel hm hw ha).bind ?_
      rintro r w' ⟨⟨hw', hs'⟩, hr⟩
      exact ⟨⟨hw'.withFrame (hw.frame.mono hs'), hs'⟩, hr⟩

theorem start_ok (h : P.Typed) (input : String) : WorldOk P [] (P.start input) := by
  obtain ⟨i, m, -, hm, -⟩ := h.main
  exact ⟨.zeros (h.proper i m hm).globals, .nil _, by simp [Program.start]⟩

/-- A typed program does not get stuck, and gives nothing back. -/
theorem evaluate_safe (h : P.Typed) (input : String) (fuel : Nat) :
    Safe (fun r _ => r = none) (P.evaluate input fuel) := by
  obtain ⟨i, m, hi, hm, hsig⟩ := h.main
  have hfound : (Eval.orStuck (some i) : Eval Nat) (P.start input) = .ok i (P.start input) := rfl
  have hparams : m.params = [] := congrArg Signature.params hsig
  have hresult : m.result = .void := congrArg Signature.result hsig
  rw [Program.evaluate, hi, bind_ok hfound]
  refine (h.call_safe fuel i m [] [] _ hm (h.start_ok input) (hparams ▸ .nil _)).weaken ?_
  rintro r w ⟨-, hr⟩
  cases r with
  | none => rfl
  | some v => exact absurd hresult hr.1

end Program.Typed

end MicroJava.Resolved
