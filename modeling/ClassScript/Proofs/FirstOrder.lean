import ClassScript.StaticType

namespace ClassScript

/-!
# First-order types

The types that a program without classes can write down are those of values without parts. Its
functions take and return nothing else, so that what its expressions can be is of first order:
either such a type, or a function between such types. Types of first order that are compatible are
the same, but for the names that functions carry with them.

* `StaticType.Scalar`, `StaticType.FirstOrder`: these types;
* `Signature.Alike`: functions of the same type under two names;
* `StaticType.FirstOrder.alike`: compatible types of first order.
-/

/-- The two functions take and return the same. -/
def Signature.Alike (s s' : Signature) : Prop := s'.params = s.params ∧ s'.returns = s.returns

namespace StaticType

/-- The type of values without parts: Booleans, numbers, strings and nothing. -/
def Scalar : StaticType → Prop
  | boolean => True
  | number => True
  | string => True
  | void => True
  | _ => False

/-- A scalar, or a function from scalars to a scalar. -/
def FirstOrder : StaticType → Prop
  | function s => (∀ p ∈ s.params, p.Scalar) ∧ s.returns.Scalar
  | type => type.Scalar

theorem Scalar.firstOrder {type : StaticType} (h : type.Scalar) : type.FirstOrder := by
  cases type with
  | function s => cases h
  | _ => exact h

/-- What goes with a scalar is that scalar. -/
theorem Scalar.eq_of_compatible {type other : StaticType} (htype : type.Scalar)
    (hother : other.FirstOrder) (h : type.compatible other = true) : other = type := by
  cases type <;> cases htype <;> cases other <;> first | rfl | cases h | cases hother

/-- What a scalar goes with is that scalar. -/
theorem Scalar.eq_of_compatible_left {type other : StaticType} (htype : type.Scalar)
    (hother : other.FirstOrder) (h : other.compatible type = true) : other = type := by
  cases type <;> cases htype <;> cases other <;> first | rfl | cases h | cases hother

theorem eq_of_compatibleAll {types others : List StaticType} (htypes : ∀ type ∈ types, type.Scalar)
    (hothers : ∀ other ∈ others, other.FirstOrder) (h : compatibleAll types others = true) :
    others = types := by
  induction types generalizing others with
  | nil =>
    cases others with
    | nil => rfl
    | cons other others => cases h
  | cons type types ih =>
    cases others with
    | nil => cases h
    | cons other others =>
      obtain ⟨htype, htypes⟩ := List.forall_mem_cons.mp htypes
      obtain ⟨hother, hothers⟩ := List.forall_mem_cons.mp hothers
      rw [compatibleAll, Bool.and_eq_true] at h
      rw [htype.eq_of_compatible hother h.1, ih htypes hothers h.2]

/-- Compatible types of first order are the same but for names. -/
theorem FirstOrder.alike {type other : StaticType} (htype : type.FirstOrder)
    (hother : other.FirstOrder) (h : type.compatible other = true) :
    other = type ∨ ∃ s s', type = .function s ∧ other = .function s' ∧ s.Alike s' := by
  cases type with
  | function s =>
    cases other with
    | function s' =>
      obtain ⟨name, params, returns⟩ := s
      obtain ⟨hparams, hreturns⟩ := htype
      obtain ⟨hparams', hreturns'⟩ := hother
      rw [compatible, Signature.compatible, Bool.and_eq_true] at h
      refine .inr ⟨_, s', rfl, rfl, ?_, hreturns.eq_of_compatible hreturns'.firstOrder h.1⟩
      exact eq_of_compatibleAll hparams (fun p hp => (hparams' p hp).firstOrder) h.2
    | generic tags => cases hother
    | _ => cases h
  | _ => exact .inl (Scalar.eq_of_compatible htype hother h)

theorem FirstOrder.eq_boolean {type : StaticType} (htype : type.FirstOrder)
    (h : type.isBoolean = true) : type = .boolean :=
  Scalar.eq_of_compatible_left trivial htype h

theorem FirstOrder.eq_number {type : StaticType} (htype : type.FirstOrder)
    (h : type.isNumber = true) : type = .number :=
  Scalar.eq_of_compatible_left trivial htype h

end StaticType

end ClassScript
