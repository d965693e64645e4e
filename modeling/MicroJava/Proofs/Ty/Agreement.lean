import MicroJava.Proofs.Names.Known

/-! # Types that agree as far as they are known

Only arrays contain another type, so a mistake leaves a type open in one place at most. Two types
are compatible if both can be completed to the same type, and a type may be stored in a place if the
two are compatible or the place takes any array. Leaving more of either type open never makes a
check fail. -/

namespace MicroJava

namespace Ty

/-- The type with `t` in the place that is left open. -/
def completed : Ty → Ty → Ty
  | error, t => t
  | array elem, t => array (elem.completed t)
  | void, _ => void
  | int, _ => int
  | char, _ => char
  | object cls, _ => object cls

variable {a b t : Ty}

theorem completed_of_known (ha : a.Known) (t : Ty) : a.completed t = a := by
  induction a with
  | error => exact ha.elim
  | array elem ih => rw [completed, ih ha]
  | void | int | char | object => rfl

theorem known_completed (a : Ty) (ht : t.Known) : (a.completed t).Known := by
  induction a with
  | error => exact ht
  | array elem ih => exact ih
  | void | int | char | object => trivial

/-- A type is what one mistake may leave of any of its completions. -/
theorem fades_completed (a t : Ty) : (a.completed t).Fades 1 a := by
  induction a with
  | error => exact .error t Nat.one_ne_zero
  | array elem ih => exact .array ih
  | void | int | char | object => exact .refl _

theorem compatible_self (a : Ty) : a.compatible a = true := by
  induction a with
  | array elem ih => rw [compatible, ih]
  | void | int | char | object | error => simp [compatible]

theorem exists_completed_of_compatible (h : a.compatible b = true) :
    ∃ s t : Ty, s.Known ∧ t.Known ∧ a.completed s = b.completed t := by
  induction a generalizing b with
  | error => exact ⟨b.completed int, int, known_completed b trivial, trivial, rfl⟩
  | array a ih =>
      cases b with
      | error =>
          exact ⟨int, (array a).completed int, trivial, known_completed (array a) trivial, rfl⟩
      | array b =>
          rw [compatible] at h
          obtain ⟨s, t, hs, ht, heq⟩ := ih h
          exact ⟨s, t, hs, ht, congrArg array heq⟩
      | void | int | char | object => simp [compatible] at h
  | void | int | char | object =>
      cases b with
      | error => exact ⟨int, _, trivial, by trivial, rfl⟩
      | void | int | char | object | array =>
          exact ⟨int, int, trivial, trivial, congrArg (·.completed int) (of_decide_eq_true h)⟩

/-- Types are compatible if what is left open in them can be filled in so that they are the same. -/
theorem compatible_iff_completed (a b : Ty) :
    a.compatible b = true ↔
      ∃ s t : Ty, s.Known ∧ t.Known ∧ a.completed s = b.completed t := by
  refine ⟨exists_completed_of_compatible, ?_⟩
  -- both types are what a mistake leaves of their common completion
  rintro ⟨s, t, -, -, heq⟩
  exact (fades_completed a s).compatible (heq ▸ fades_completed b t) (compatible_self _)

theorem compatible_comm (a b : Ty) : a.compatible b = b.compatible a := by
  rw [Bool.eq_iff_iff, compatible_iff_completed, compatible_iff_completed]
  constructor
  all_goals
    rintro ⟨s, t, hs, ht, heq⟩
    exact ⟨t, s, ht, hs, heq.symm⟩

theorem compatible_iff_eq (ha : a.Known) (hb : b.Known) : a.compatible b = true ↔ a = b := by
  constructor
  · intro h
    obtain ⟨s, t, -, -, heq⟩ := (compatible_iff_completed a b).1 h
    rwa [completed_of_known ha, completed_of_known hb] at heq
  · rintro rfl
    exact compatible_self a

/-- What the two checks on types accept. Where more of a type is left open they go on accepting. -/
theorem compatible_agreement (a b : Ty) :
    (a.compatible b = true ↔
        ∃ s t : Ty, s.Known ∧ t.Known ∧ a.completed s = b.completed t) ∧
      a.compatible a = true ∧ a.compatible b = b.compatible a ∧
      (a.Known → b.Known → (a.compatible b = true ↔ a = b)) ∧
      (a.assignableTo b = true ↔
        a.compatible b = true ∨ b = .array .void ∧ ∃ elem, a = .array elem) ∧
      ∀ n a' b', a.Fades n a' → b.Fades n b' →
        (a.compatible b = true → a'.compatible b' = true) ∧
          (a.assignableTo b = true → a'.assignableTo b' = true) := by
  refine ⟨compatible_iff_completed a b, compatible_self a, compatible_comm a b,
    compatible_iff_eq, ?_, ?_⟩
  · rw [assignableTo_iff, or_comm, and_comm]
  · intro n a' b' ha hb
    exact ⟨ha.compatible hb, ha.assignableTo hb⟩

/-- An array of objects is no array of `void`, but it may be stored where any array may, also after
a mistake in either type. -/
theorem compatible_agreement_anyArray :
    (array error).assignableTo (array void) = true ∧
      (array (object ⟨0⟩)).compatible (array void) = false ∧
      (array (object ⟨0⟩)).assignableTo (array void) = true ∧
      (array error).assignableTo (array error) = true := by
  obtain ⟨-, -, -, hknown, hassign, hfades⟩ :=
    compatible_agreement (array (object ⟨0⟩)) (array void)
  have hany := hassign.2 (.inr ⟨rfl, object ⟨0⟩, rfl⟩)
  have helem : (array (object ⟨0⟩)).Fades 1 (array error) := .array (.error _ Nat.one_ne_zero)
  refine ⟨(hfades 1 _ _ helem (.refl _)).2 hany, ?_, hany,
    (hfades 1 _ _ helem (.array (.error _ Nat.one_ne_zero))).2 hany⟩
  exact Bool.eq_false_iff.2 fun h => Ty.noConfusion (Ty.array.inj ((hknown trivial trivial).1 h))

end Ty

end MicroJava
