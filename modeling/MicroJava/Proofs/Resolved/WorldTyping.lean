import MicroJava.Proofs.Machine.Unlimited
import MicroJava.Proofs.Resolved.Evaluation
import MicroJava.Proofs.Resolved.Typing

/-! # Typed worlds

An object never changes its type, so the types of the objects on the heap only grow longer. Values
are typed by them, and the operations on places keep a world typed. -/

namespace MicroJava.Resolved

/-- The type of references to an object. -/
def Obj.ty : Obj → Ty
  | .record cls _ => .object cls
  | .cells elem _ => .array elem
  | .chars _ => .array .char

/-- Types of the objects of a world. -/
def World.types (w : World) : List Ty := w.heap.toList.map Obj.ty

/-- Values of a type, where the objects have the given types. -/
inductive ValueOk (S : List Ty) : Value → Ty → Prop
  | int (w : Int32) : ValueOk S (.word w) .int
  | char (w : Int32) : ValueOk S (.word w) .char
  | nullArray (elem : Ty) : ValueOk S (.ref none) (.array elem)
  | nullObject (cls : ClassId) : ValueOk S (.ref none) (.object cls)
  | object {i : ObjectId} {ty : Ty} (h : S[i.val]? = some ty) : ValueOk S (.ref (some i)) ty

theorem ValueOk.mono {S S' : List Ty} {v : Value} {ty : Ty} (h : ValueOk S v ty) (hs : S <+: S') :
    ValueOk S' v ty := by
  cases h with
  | int w => exact .int w
  | char w => exact .char w
  | nullArray elem => exact .nullArray elem
  | nullObject cls => exact .nullObject cls
  | object h =>
      obtain ⟨rest, rfl⟩ := hs
      refine .object ?_
      rw [List.getElem?_append_left (List.getElem?_eq_some_iff.1 h).1, h]

theorem valueOk_zeroOf (S : List Ty) {ty : Ty} (h : IsProper ty) : ValueOk S (zeroOf ty) ty := by
  cases ty with
  | int => exact .int 0
  | char => exact .char 0
  | array elem => exact .nullArray elem
  | object cls => exact .nullObject cls
  | void | error => exact h.elim

/-- Values of the given types, one after the other. -/
structure Holds (S : List Ty) (vs : Array Value) (tys : List Ty) : Prop where
  size : vs.size = tys.length
  get : ∀ (i : Nat) ty, tys[i]? = some ty → ∃ v, vs[i]? = some v ∧ ValueOk S v ty

namespace Holds

variable {S S' : List Ty} {vs : Array Value} {tys : List Ty}

theorem mono (h : Holds S vs tys) (hs : S <+: S') : Holds S' vs tys := by
  refine ⟨h.size, fun i ty hi => ?_⟩
  obtain ⟨v, hv, hty⟩ := h.get i ty hi
  exact ⟨v, hv, hty.mono hs⟩

theorem set (h : Holds S vs tys) {i : Nat} {v : Value} {ty : Ty} (hi : tys[i]? = some ty)
    (hv : ValueOk S v ty) : Holds S (vs.setIfInBounds i v) tys := by
  refine ⟨by simpa using h.size, fun j ty' hj => ?_⟩
  obtain ⟨v', hv', hty'⟩ := h.get j ty' hj
  by_cases hij : i = j
  · subst hij
    cases hi.symm.trans hj
    exact ⟨v, by simp [(Array.getElem?_eq_some_iff.1 hv').1], hv⟩
  · exact ⟨v', by simpa [Array.getElem?_setIfInBounds, hij] using hv', hty'⟩

theorem lt (h : Holds S vs tys) {i : Nat} {ty : Ty} (hi : tys[i]? = some ty) : i < vs.size := by
  rw [h.size]
  exact (List.getElem?_eq_some_iff.1 hi).1

theorem nil (S : List Ty) : Holds S #[] [] := ⟨rfl, by simp⟩

theorem cons {v : Value} {vs : List Value} {ty : Ty} (hv : ValueOk S v ty)
    (h : Holds S vs.toArray tys) : Holds S (v :: vs).toArray (ty :: tys) := by
  refine ⟨by simpa using h.size, fun i ty' hi => ?_⟩
  cases i with
  | zero =>
      cases hi
      exact ⟨v, rfl, hv⟩
  | succ i => simpa using h.get i ty' (by simpa using hi)

/-- Variables that have not been assigned to. -/
theorem zeros (h : ∀ ty ∈ tys, IsProper ty) : Holds S (tys.map zeroOf).toArray tys := by
  refine ⟨by simp, fun i ty hi => ⟨zeroOf ty, by simp [hi], ?_⟩⟩
  exact valueOk_zeroOf S (h ty (List.mem_of_getElem? hi))

theorem append {vs ws : List Value} {tys tys' : List Ty} (h : Holds S vs.toArray tys)
    (h' : Holds S ws.toArray tys') : Holds S (vs ++ ws).toArray (tys ++ tys') := by
  have hsize : vs.length = tys.length := by simpa using h.size
  have hsize' : ws.length = tys'.length := by simpa using h'.size
  refine ⟨by simp [hsize, hsize'], fun i ty hi => ?_⟩
  by_cases hlt : i < tys.length
  · rw [List.getElem?_append_left hlt] at hi
    obtain ⟨v, hv, hty⟩ := h.get i ty hi
    exact ⟨v, by simpa [List.getElem?_append_left (hsize ▸ hlt)] using hv, hty⟩
  · rw [List.getElem?_append_right (Nat.le_of_not_lt hlt)] at hi
    obtain ⟨v, hv, hty⟩ := h'.get _ ty hi
    refine ⟨v, ?_, hty⟩
    rw [List.getElem?_toArray, List.getElem?_append_right (by omega), hsize]
    simpa using hv

end Holds

/-- Objects of a program whose contents have the right types. -/
inductive ObjOk (P : Program) (S : List Ty) : Obj → Prop
  | record {cls : ClassId} {fields : Array Value} (h : Holds S fields (P.fields cls)) :
      ObjOk P S (.record cls fields)
  | cells {elem : Ty} {elems : Array Value} (he : elem ≠ .char)
      (h : ∀ (i : Nat) v, elems[i]? = some v → ValueOk S v elem) : ObjOk P S (.cells elem elems)
  | chars (elems : Array UInt8) : ObjOk P S (.chars elems)

theorem ObjOk.mono {P : Program} {S S' : List Ty} {o : Obj} (h : ObjOk P S o) (hs : S <+: S') :
    ObjOk P S' o := by
  cases h with
  | record h => exact .record (h.mono hs)
  | cells he h => exact .cells he fun i v hv => (h i v hv).mono hs
  | chars elems => exact .chars elems

/-- A world in which everything has the right type, in a method with the given frame. -/
structure WorldOk (P : Program) (frame : List Ty) (w : World) : Prop where
  globals : Holds w.types w.globals P.globals
  frame : Holds w.types w.frame frame
  heap : ∀ (i : Nat) o, w.heap[i]? = some o → ObjOk P w.types o

section Worlds

variable {P : Program} {frame : List Ty} {w : World}

theorem World.getElem?_types (w : World) (i : Nat) : w.types[i]? = w.heap[i]?.map Obj.ty := by
  simp [World.types]

/-- An object is replaced by one of the same type. -/
theorem World.types_set {i : Nat} {o o' : Obj} (ho : w.heap[i]? = some o) (ht : o'.ty = o.ty) :
    { w with heap := w.heap.setIfInBounds i o' }.types = w.types := by
  refine List.ext_getElem? fun j => ?_
  rw [World.getElem?_types, World.getElem?_types]
  simp only [Array.getElem?_setIfInBounds]
  split
  · next hij =>
      subst hij
      obtain ⟨hlt, rfl⟩ := Array.getElem?_eq_some_iff.1 ho
      simp [hlt, ht]
  · rfl

theorem World.prefix_set {i : Nat} {o o' : Obj} (ho : w.heap[i]? = some o) (ht : o'.ty = o.ty) :
    w.types <+: { w with heap := w.heap.setIfInBounds i o' }.types := by
  have htypes := World.types_set ho ht
  exact htypes.symm ▸ List.prefix_refl w.types

theorem WorldOk.replace (hw : WorldOk P frame w) {i : Nat} {o o' : Obj}
    (ho : w.heap[i]? = some o) (ht : o'.ty = o.ty) (ho' : ObjOk P w.types o') :
    WorldOk P frame { w with heap := w.heap.setIfInBounds i o' } := by
  have htypes := World.types_set ho ht
  refine ⟨htypes ▸ hw.globals, htypes ▸ hw.frame, fun j o₁ hj => ?_⟩
  rw [htypes]
  simp only [Array.getElem?_setIfInBounds] at hj
  split at hj
  · split at hj
    · cases hj
      exact ho'
    · cases hj
  · exact hw.heap j o₁ hj

theorem World.types_push (w : World) (o : Obj) :
    { w with heap := w.heap.push o }.types = w.types ++ [o.ty] := by
  simp [World.types]

theorem WorldOk.allocate (hw : WorldOk P frame w) {o : Obj}
    (ho : ObjOk P (w.types ++ [o.ty]) o) :
    WorldOk P frame { w with heap := w.heap.push o } := by
  have htypes := w.types_push o
  have hgrow : w.types <+: w.types ++ [o.ty] := List.prefix_append _ _
  refine ⟨htypes ▸ hw.globals.mono hgrow, htypes ▸ hw.frame.mono hgrow, fun i o' hi => ?_⟩
  rw [htypes]
  simp only [Array.getElem?_push] at hi
  split at hi
  · cases hi
    exact ho
  · exact (hw.heap i o' hi).mono hgrow

/-- The frame of a method that is called, or that of its caller when it has returned. -/
theorem WorldOk.withFrame {frame' : List Ty} (hw : WorldOk P frame w) {vs : Array Value}
    (h : Holds w.types vs frame') : WorldOk P frame' { w with frame := vs } :=
  ⟨hw.globals, h, hw.heap⟩

end Worlds

/-! ## Safe evaluations -/

variable {α β : Type}

/-- An evaluation that does not get stuck, and what holds when it has come to its end. -/
def Safe (post : α → World → Prop) : EStateM.Result Stop World α → Prop
  | .ok a w => post a w
  | .error e _ => e ≠ .stuck

theorem Safe.bind {act : Eval α} {f : α → Eval β} {w : World} {mid : α → World → Prop}
    {post : β → World → Prop} (h : Safe mid (act w))
    (hf : ∀ a w', mid a w' → Safe post (f a w')) : Safe post ((act >>= f) w) := by
  cases hr : act w with
  | ok a w' =>
      rw [hr] at h
      rw [bind_ok hr]
      exact hf a w' h
  | error e w' =>
      rw [hr] at h
      rw [bind_error hr]
      exact h

theorem Safe.weaken {r : EStateM.Result Stop World α} {mid post : α → World → Prop}
    (h : Safe mid r) (hw : ∀ a w, mid a w → post a w) : Safe post r := by
  cases r with
  | ok a w => exact hw a w h
  | error e w => exact h

section Operations

variable {P : Program} {frame : List Ty} {w : World}

theorem word_safe {v : Value} {ty : Ty} (hv : ValueOk w.types v ty) (ht : ty = .int ∨ ty = .char) :
    ∃ x, v = .word x := by
  cases hv with
  | int x | char x => exact ⟨x, rfl⟩
  | nullArray | nullObject => rcases ht with ht | ht <;> cases ht
  | object h =>
      rw [World.getElem?_types, Option.map_eq_some_iff] at h
      obtain ⟨o, -, rfl⟩ := h
      cases o <;> rcases ht with ht | ht <;> cases ht

/-- A reference leads to an object of its type, if it leads anywhere. -/
theorem dereference_safe {v : Value} {ty : Ty} (hv : ValueOk w.types v ty)
    (ht : ty.isReference = true) :
    Safe (fun found w' => w' = w ∧ w.heap[found.1]? = some found.2 ∧ found.2.ty = ty)
      (Eval.dereference v w) := by
  cases hv with
  | int | char => cases ht
  | nullArray | nullObject => exact fun h => by cases h
  | @object i _ h =>
      rw [World.getElem?_types, Option.map_eq_some_iff] at h
      obtain ⟨o, ho, rfl⟩ := h
      have hd : Eval.dereference (.ref (some i)) w =
          (do return (i.val, ← Eval.orStuck w.heap[i.val]?) : Eval (Nat × Obj)) w := rfl
      rw [hd, ho]
      exact ⟨rfl, ho, rfl⟩

end Operations

end MicroJava.Resolved
