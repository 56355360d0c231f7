import ClassScript.Proofs.Execution
import ClassScript.Proofs.TypeSafety.Values

namespace ClassScript

/-!
# Steps that keep types

What the checker asks of the operands of an operator, of the arguments of a function and of the
value that is assigned to a name is enough for each of these steps: it ends with a value of the type
that the checker foresees, or it stops for a reason that no type rules out.

* `RuntimeFault.BeyondTypes`: these reasons;
* `Operator.unary_fits`, `Operator.binary_fits`: operators;
* `TypeSafety.ensures_builtin`: built-in functions;
* `TypeSafety.ensures_lookUp`, `TypeSafety.ensures_assign`, `TypeSafety.ensures_define`: names.
-/

/-- The failures that types do not rule out: an index out of range, and a sink that does not take
    what is written. -/
def RuntimeFault.BeyondTypes : RuntimeFault → Prop
  | .indexRange _ _ => True
  | .refused _ => True
  | _ => False

/-! ### Operators -/

namespace Operator

variable {operator : Token} {v w : Value} {type left right : StaticType}

theorem unary_fits (hoperator : operator.kind ∈ unaryOperators) (hoperand : left.FirstOrder)
    (htype : Typing.unary operator left = .ok type) (hv : v.Fits left) :
    ∃ result, unary operator v = .ok result ∧ result.Fits type := by
  simp only [unaryOperators, List.mem_cons, List.not_mem_nil, or_false] at hoperator
  rcases hoperator with hkind | hkind
  · simp only [Typing.unary, hkind] at htype
    split at htype
    · next hboolean =>
      cases htype
      rw [hoperand.eq_boolean hboolean] at hv
      obtain ⟨b, rfl⟩ := hv.boolean
      exact ⟨.boolean (!b), by simp only [unary, hkind], trivial⟩
    · cases htype
  · simp only [Typing.unary, hkind] at htype
    split at htype
    · next hnumber =>
      cases htype
      rw [hoperand.eq_number hnumber] at hv
      obtain ⟨x, rfl⟩ := hv.number
      exact ⟨.number (-x), by simp only [unary, hkind], trivial⟩
    · cases htype

/-- Both sides of an operator other than an equality are numbers. -/
theorem numbers_of_binary (hleft : left.FirstOrder) (hright : right.FirstOrder)
    (hequal : ¬ (operator.kind = .symbol .equalEqual ∨ operator.kind = .symbol .bangEqual))
    (htype : Typing.binary operator left right = .ok type) : left = .number ∧ right = .number := by
  rw [Typing.binary, if_neg hequal] at htype
  split at htype
  · cases htype
  · next hl =>
    split at htype
    · cases htype
    · next hr =>
      rw [Bool.not_eq_true, Bool.not_eq_false'] at hl hr
      exact ⟨hleft.eq_number hl, hright.eq_number hr⟩

/-- Numbers are compared, or they give a number. -/
theorem numeric_fits (x y : Float) (hoperator : operator.kind ∈ binaryOperators)
    (hequal : ¬ (operator.kind = .symbol .equalEqual ∨ operator.kind = .symbol .bangEqual))
    (htype : Typing.binary operator .number .number = .ok type) :
    ∃ result, numeric operator x y = .ok result ∧ result.Fits type := by
  rw [Typing.binary, if_neg hequal] at htype
  simp only [binaryOperators, List.mem_cons, List.not_mem_nil, or_false] at hoperator
  rcases hoperator with hkind | hkind | hkind | hkind | hkind | hkind | hkind | hkind | hkind |
    hkind | hkind | hkind
  · exact absurd (.inr hkind) hequal
  · exact absurd (.inl hkind) hequal
  all_goals
    rw [hkind] at htype
    cases htype
    rw [numeric, hkind]
    exact ⟨_, rfl, trivial⟩

theorem binary_fits (hoperator : operator.kind ∈ binaryOperators) (hleft : left.FirstOrder)
    (hright : right.FirstOrder) (htype : Typing.binary operator left right = .ok type)
    (hv : v.Fits left) (hw : w.Fits right) :
    ∃ result, binary operator v w = .ok result ∧ result.Fits type := by
  by_cases hequal : operator.kind = .symbol .equalEqual ∨ operator.kind = .symbol .bangEqual
  · -- Any two values are equal or not.
    rw [Typing.binary, if_pos hequal] at htype
    split at htype
    · cases htype
      rcases hequal with hkind | hkind
      · exact ⟨.boolean (v.equals w), by simp only [binary, hkind], trivial⟩
      · exact ⟨.boolean (!v.equals w), by simp only [binary, hkind], trivial⟩
    · cases htype
  · obtain ⟨rfl, rfl⟩ := numbers_of_binary hleft hright hequal htype
    obtain ⟨x, rfl⟩ := hv.number
    obtain ⟨y, rfl⟩ := hw.number
    have hnumeric : binary operator (.number x) (.number y) = numeric operator x y := by
      unfold binary
      split
      · next hkind => exact absurd (.inl hkind) hequal
      · next hkind => exact absurd (.inr hkind) hequal
      · rfl
    rw [hnumeric]
    exact numeric_fits x y hoperator hequal htype

end Operator

namespace TypeSafety

open Eval

/-- The computation stopped for want of fuel, or for a reason that types do not rule out. -/
def TypesKept (reason : Stop) (_ : Machine) : Prop :=
  match reason with
  | .failure fault => fault.what.BeyondTypes
  | .outOfFuel => True

/-- The computation bound no name in the frames that there were, and gave a value of the type. -/
def GivesValue (program : Program) (table : Distances) (m : Machine) (type : StaticType) (v : Value)
    (m' : Machine) : Prop :=
  Later program table [] m m' ∧ ValueFits program table m'.heap m'.globals v ∧ v.Fits type

variable {program : Program} {table : Distances} {m : Machine}

theorem GivesValue.trans {m₁ : Machine} {type : StaticType} {x : Eval Value}
    (hlater : Later program table [] m m₁)
    (h : Ensures x m₁ (GivesValue program table m₁ type) TypesKept) :
    Ensures x m₁ (GivesValue program table m type) TypesKept :=
  h.mono (fun _ _ hv => ⟨hlater.trans hv.1, hv.2⟩) fun _ _ hs => hs

/-- A result of a scalar type. -/
theorem ensures_lift {result : Except RuntimeFault Value} {pos : Position} {type : StaticType}
    (hm : Sound program table m) (htype : type.Scalar)
    (h : ∃ v, result = .ok v ∧ v.Fits type) :
    Ensures (lift pos result) m (GivesValue program table m type) TypesKept := by
  obtain ⟨v, rfl, hv⟩ := h
  exact ⟨.refl hm, valueFits_of_scalar hv htype, hv⟩

/-! ### Built-in functions -/

theorem ensures_write {pos : Position} {text : String} (hm : Sound program table m) :
    Ensures (write pos text) m (fun _ m' => Later program table [] m m') TypesKept := by
  unfold Ensures write
  rcases hwrite : m.sink.write text with ⟨_ | _, sink⟩
  · trivial
  · exact Later.of_eq hm rfl rfl rfl rfl

theorem ensures_print {pos : Position} {text : String} (hm : Sound program table m) :
    Ensures (write pos text >>= fun _ => pure Value.void) m
      (GivesValue program table m .void) TypesKept :=
  (ensures_write hm).bind fun _ _ _ hlater => Ensures.pure ⟨hlater, trivial, trivial⟩

/-- A character of a string, unless the index is out of range. -/
theorem ensures_characterAt {text : String} {index : Float} {paren : Position}
    (hm : Sound program table m) :
    Ensures (lift paren (Builtin.characterAt text index)) m
      (GivesValue program table m .string) TypesKept := by
  refine Ensures.lift ?_ ?_
  · intro v hv
    simp only [Builtin.characterAt] at hv
    split at hv <;> cases hv
    exact ⟨.refl hm, trivial, trivial⟩
  · intro fault hfault
    simp only [Builtin.characterAt] at hfault
    split at hfault <;> cases hfault
    trivial

theorem ensures_builtin {b : Builtin} {arguments : List Value} {paren : Position}
    (hm : Sound program table m)
    (harguments : List.Forall₂ Value.Fits arguments b.signature.params) :
    Ensures (b.apply arguments paren) m (GivesValue program table m b.signature.returns)
      TypesKept := by
  -- Arguments that fit are as many as the parameters, and of the kinds that the function takes.
  cases b with
  | abs =>
    obtain ⟨v, rest, hv, hrest, rfl⟩ := List.forall₂_cons_right_iff.mp harguments
    obtain ⟨x, rfl⟩ := hv.number
    cases hrest
    exact ⟨.refl hm, trivial, trivial⟩
  | len =>
    obtain ⟨v, rest, hv, hrest, rfl⟩ := List.forall₂_cons_right_iff.mp harguments
    obtain ⟨text, rfl⟩ := hv.string
    cases hrest
    exact ⟨.refl hm, trivial, trivial⟩
  | charAt =>
    obtain ⟨v, rest, hv, hrest, rfl⟩ := List.forall₂_cons_right_iff.mp harguments
    obtain ⟨w, none, hw, hnone, rfl⟩ := List.forall₂_cons_right_iff.mp hrest
    obtain ⟨text, rfl⟩ := hv.string
    obtain ⟨index, rfl⟩ := hw.number
    cases hnone
    exact ensures_characterAt hm
  | print => exact ensures_print hm
  | println => exact ensures_print hm

/-! ### Names -/

variable {s : Scopes StaticType}

theorem ensures_lookUp {context : TypeContext} {t : Typing} {ref : Reference} {type : StaticType}
    (hm : Sound program table m) (hstands : Stands m t.scopes) (htable : context.table = table)
    (htype : Typing.lookUp context t ref = .ok type) :
    Ensures (lookUp ref) m (GivesValue program table m type) TypesKept := by
  obtain ⟨g, v, -, hv, hfound, hfits⟩ :=
    hstands.fits.lookUp? (htable.trans hm.table.symm) htype
  unfold Ensures lookUp
  rw [hfound]
  exact ⟨.refl hm, hm.values g _ v hv, hfits⟩

/-- What is assigned is of the scalar type of the name, and so no function. -/
theorem ensures_assign {context : TypeContext} {t : Typing} {ref : Reference} {v : Value}
    {type : StaticType} (hm : Sound program table m) (hstands : Stands m t.scopes)
    (htable : context.table = table) (htype : Typing.lookUp context t ref = .ok type)
    (hscalar : type.Scalar) (hv : v.Fits type) :
    Ensures (assign ref v) m (fun _ m' => Later program table [] m m') TypesKept := by
  obtain ⟨g, w, hholder, hw, -, hfits⟩ :=
    hstands.fits.lookUp? (htable.trans hm.table.symm) htype
  unfold Ensures assign
  rw [hholder]
  refine Later.define hm (valueFits_of_scalar hv hscalar) ?_ (.inl (by rw [hw]; rfl))
  intro w' hw'
  rw [hw] at hw'
  cases hw'
  exact fun other hother => Value.Fits.of_scalar hscalar hfits hv hother

theorem ensures_newIdentity (hm : Sound program table m) :
    Ensures newIdentity m (fun _ m' => Later program table [] m m') TypesKept :=
  Later.of_eq hm rfl rfl rfl rfl

/-- Binding a name that is not declared yet; the value may refer to the name itself. -/
theorem ensures_define {x : String} {v : Value} {type : StaticType} (hm : Sound program table m)
    (hstands : Stands m s) (hx : s.declaredHere x = false) (hfits : v.Fits type)
    (hv : ∀ h, Keeps m.heap h → Matches h m.globals (s.declare x type) m.current →
      ValueFits program table h m.globals v) :
    Ensures (define x v) m
      (fun _ m' => Later program table [x] m m' ∧ m'.heap.lookup? m'.current x = some v)
      TypesKept := by
  have htypes : ∀ w, m.heap.lookup? m.current x = some w →
      ∀ other, w.Fits other → v.Fits other := by
    intro w hw
    rw [hstands.lookup?_eq_none hx] at hw
    cases hw
  have hkeeps : Keeps m.heap (m.heap.define m.current x v) := .define htypes
  have hbound : (m.heap.define m.current x v).lookup? m.current x = some v := by
    rw [Heap.lookup?_define, if_pos ⟨rfl, rfl, hstands.fits.isSome_frame?⟩]
  have hfits' := (hstands.fits.mono hkeeps).declare hbound hfits
  have hnew := List.mem_singleton_self x
  exact ⟨Later.define hm (hv _ hkeeps hfits') htypes (.inr ⟨rfl, hnew⟩), hbound⟩

end TypeSafety

end ClassScript
