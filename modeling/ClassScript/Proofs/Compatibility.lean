import ClassScript.StaticType

namespace ClassScript

/-!
# Laws of compatibility

Compatibility of types does not ask which of the two is which. Where no generic type is involved it
is equality but for names: those of functions, and those of classes, which count by their number.
With generic types it is neither reflexive, since a generic type without a tag goes with nothing,
nor transitive, since what goes with a generic type need not go with what else does.

* `StaticType.Generics`: a condition on the generic types that occur in a type;
* `StaticType.nameless`: a type without the names in it;
* `StaticType.compatible_comm`, `StaticType.compatible_self_iff`: symmetry, and what goes with
  itself;
* `StaticType.compatible_iff_nameless_eq`: compatibility without generic types;
* `Signature.accepts_of_compatible`: compatible functions take the same arguments.
-/

/-! ### Generic types in a type -/

mutual

/-- Every generic type that occurs in the type lists tags with `P`. -/
def StaticType.Generics (P : List Tag → Prop) : StaticType → Prop
  | .generic tags => P tags
  | .function s => s.Generics P
  | _ => True

/-- Every generic type in what a function takes and returns lists tags with `P`. -/
def Signature.Generics (P : List Tag → Prop) : Signature → Prop
  | ⟨_, params, returns⟩ => returns.Generics P ∧ StaticType.AllGenerics P params

/-- Every generic type in any of the types lists tags with `P`. -/
def StaticType.AllGenerics (P : List Tag → Prop) : List StaticType → Prop
  | [] => True
  | type :: types => type.Generics P ∧ StaticType.AllGenerics P types

end

/-- No generic type occurs in the type. -/
abbrev StaticType.Concrete (type : StaticType) : Prop := type.Generics fun _ => False

/-- The generic types that occur in the type have tags. -/
abbrev StaticType.Tagged (type : StaticType) : Prop := type.Generics (· ≠ [])

/-! ### Names in a type -/

mutual

/-- The type without the names of functions and classes in it. -/
def StaticType.nameless : StaticType → StaticType
  | .function s => .function s.nameless
  | .classType id => .classType ⟨id.index, ""⟩
  | .instanceType id => .instanceType ⟨id.index, ""⟩
  | type => type

/-- The type of a function without the names in it. -/
def Signature.nameless : Signature → Signature
  | ⟨_, params, returns⟩ => ⟨"", StaticType.namelessAll params, returns.nameless⟩

/-- The types without the names in them. -/
def StaticType.namelessAll : List StaticType → List StaticType
  | [] => []
  | type :: types => type.nameless :: StaticType.namelessAll types

end

/-! ### Symmetry -/

theorem Tag.any_contains_comm (tags others : List Tag) :
    (tags.any fun tag => others.contains tag) = others.any fun tag => tags.contains tag := by
  rw [Bool.eq_iff_iff]
  simp only [List.any_eq_true, List.contains_iff_mem]
  exact ⟨fun ⟨tag, h, h'⟩ => ⟨tag, h', h⟩, fun ⟨tag, h, h'⟩ => ⟨tag, h', h⟩⟩

mutual

theorem StaticType.compatible_comm : ∀ a b : StaticType, a.compatible b = b.compatible a
  | .generic tags, b => by
    cases b with
    | generic others => exact Tag.any_contains_comm tags others
    | _ => rfl
  | .function s, b => by
    cases b with
    | function s' =>
      rw [StaticType.compatible, StaticType.compatible]
      exact Signature.compatible_comm s s'
    | _ => rfl
  | .classType id, b => by
    cases b with
    | classType id' => exact Bool.beq_comm
    | _ => rfl
  | .instanceType id, b => by
    cases b with
    | instanceType id' => exact Bool.beq_comm
    | _ => rfl
  | .boolean, b | .number, b | .string, b | .void, b => by cases b <;> rfl

theorem Signature.compatible_comm : ∀ a b : Signature, a.compatible b = b.compatible a
  | ⟨_, params, returns⟩, ⟨_, params', returns'⟩ => by
    rw [Signature.compatible, Signature.compatible, StaticType.compatible_comm returns returns',
      StaticType.compatibleAll_comm params params']

theorem StaticType.compatibleAll_comm : ∀ as bs : List StaticType,
    StaticType.compatibleAll as bs = StaticType.compatibleAll bs as
  | [], bs => by cases bs <;> rfl
  | _ :: _, [] => rfl
  | a :: as, b :: bs => by
    rw [StaticType.compatibleAll, StaticType.compatibleAll, StaticType.compatible_comm a b,
      StaticType.compatibleAll_comm as bs]

end

/-! ### What goes with itself -/

mutual

theorem StaticType.compatible_self_iff : ∀ type : StaticType,
    type.compatible type = true ↔ type.Tagged
  | .generic tags => by
    cases tags with
    | nil => simp [StaticType.compatible, StaticType.Generics]
    | cons tag tags => simp [StaticType.compatible, StaticType.Generics]
  | .function s => by
    rw [StaticType.compatible, StaticType.Tagged, StaticType.Generics]
    exact Signature.compatible_self_iff s
  | .classType _ | .instanceType _ | .boolean | .number | .string | .void => by
    simp [StaticType.compatible, StaticType.Generics]

theorem Signature.compatible_self_iff : ∀ s : Signature,
    s.compatible s = true ↔ s.Generics (· ≠ [])
  | ⟨_, params, returns⟩ => by
    rw [Signature.compatible, Signature.Generics, Bool.and_eq_true,
      StaticType.compatible_self_iff returns, StaticType.compatibleAll_self_iff params]

theorem StaticType.compatibleAll_self_iff : ∀ types : List StaticType,
    StaticType.compatibleAll types types = true ↔ StaticType.AllGenerics (· ≠ []) types
  | [] => by simp [StaticType.compatibleAll, StaticType.AllGenerics]
  | type :: types => by
    rw [StaticType.compatibleAll, StaticType.AllGenerics, Bool.and_eq_true,
      StaticType.compatible_self_iff type, StaticType.compatibleAll_self_iff types]

end

/-! ### Without generic types -/

mutual

theorem StaticType.compatible_iff_nameless_eq : ∀ {a b : StaticType}, a.Concrete → b.Concrete →
    (a.compatible b = true ↔ a.nameless = b.nameless)
  | .generic _, _, h, _ => absurd h not_false
  | .function s, b, h, h' => by
    cases b with
    | function s' =>
      rw [StaticType.Concrete, StaticType.Generics] at h h'
      rw [StaticType.compatible, StaticType.nameless, StaticType.nameless,
        StaticType.function.injEq]
      exact Signature.compatible_iff_nameless_eq h h'
    | generic tags => exact absurd h' not_false
    | _ => simp [StaticType.compatible, StaticType.nameless, StaticType.tag?]
  | .classType _, b, _, h' | .instanceType _, b, _, h' | .boolean, b, _, h' | .number, b, _, h'
  | .string, b, _, h' | .void, b, _, h' => by
    cases b with
    | generic tags => exact absurd h' not_false
    | _ => simp [StaticType.compatible, StaticType.nameless, StaticType.tag?]

theorem Signature.compatible_iff_nameless_eq : ∀ {s s' : Signature},
    s.Generics (fun _ => False) → s'.Generics (fun _ => False) →
    (s.compatible s' = true ↔ s.nameless = s'.nameless)
  | ⟨_, params, returns⟩, ⟨_, params', returns'⟩, h, h' => by
    rw [Signature.compatible, Bool.and_eq_true, StaticType.compatible_iff_nameless_eq h.1 h'.1,
      StaticType.compatibleAll_iff_nameless_eq h.2 h'.2]
    simp only [Signature.nameless, Signature.mk.injEq, true_and]
    exact And.comm

theorem StaticType.compatibleAll_iff_nameless_eq : ∀ {as bs : List StaticType},
    StaticType.AllGenerics (fun _ => False) as → StaticType.AllGenerics (fun _ => False) bs →
    (StaticType.compatibleAll as bs = true ↔
      StaticType.namelessAll as = StaticType.namelessAll bs)
  | [], [], _, _ | [], _ :: _, _, _ | _ :: _, [], _, _ => by
    simp [StaticType.compatibleAll, StaticType.namelessAll]
  | a :: as, b :: bs, h, h' => by
    rw [StaticType.compatibleAll, Bool.and_eq_true, StaticType.compatible_iff_nameless_eq h.1 h'.1,
      StaticType.compatibleAll_iff_nameless_eq h.2 h'.2]
    simp only [StaticType.namelessAll, List.cons.injEq]

end

/-- Without generic types compatibility is an equivalence. -/
theorem StaticType.compatible_equivalence :
    Equivalence fun a b : { type : StaticType // type.Concrete } =>
      a.val.compatible b.val = true := by
  have heq : ∀ a b : { type : StaticType // type.Concrete },
      a.val.compatible b.val = true ↔ a.val.nameless = b.val.nameless :=
    fun a b => compatible_iff_nameless_eq a.property b.property
  refine ⟨fun a => (heq a a).mpr rfl, fun {a b} h => (heq b a).mpr ((heq a b).mp h).symm, ?_⟩
  exact fun {a b c} h h' => (heq a c).mpr (((heq a b).mp h).trans ((heq b c).mp h'))

/-! ### Arguments -/

mutual

/-- Compatibility does not look at names. -/
theorem StaticType.compatible_nameless : ∀ a b : StaticType,
    a.nameless.compatible b = a.compatible b
  | .function s, b => by
    cases b with
    | function s' =>
      rw [StaticType.nameless, StaticType.compatible, StaticType.compatible]
      exact Signature.compatible_nameless s s'
    | _ => rfl
  | .classType _, b | .instanceType _, b => by cases b <;> rfl
  | .generic _, _ | .boolean, _ | .number, _ | .string, _ | .void, _ => rfl

theorem Signature.compatible_nameless : ∀ s s' : Signature,
    s.nameless.compatible s' = s.compatible s'
  | ⟨_, params, returns⟩, s' => by
    rw [Signature.nameless, Signature.compatible, Signature.compatible,
      StaticType.compatible_nameless returns s'.returns,
      StaticType.compatibleAll_nameless params s'.params]

theorem StaticType.compatibleAll_nameless : ∀ as bs : List StaticType,
    StaticType.compatibleAll (StaticType.namelessAll as) bs = StaticType.compatibleAll as bs
  | [], _ => rfl
  | _ :: _, [] => rfl
  | a :: as, b :: bs => by
    rw [StaticType.namelessAll, StaticType.compatibleAll, StaticType.compatibleAll,
      StaticType.compatible_nameless a b, StaticType.compatibleAll_nameless as bs]

end

namespace StaticType

/-- Compatible types go with the same types, if no generic type occurs in them. -/
theorem Concrete.compatible_congr {a b : StaticType} (ha : a.Concrete) (hb : b.Concrete)
    (h : a.compatible b = true) (type : StaticType) : a.compatible type = b.compatible type := by
  rw [← compatible_nameless a, (compatible_iff_nameless_eq ha hb).mp h, compatible_nameless]

/-- A concrete type has a kind. -/
theorem Concrete.exists_tag {a : StaticType} (ha : a.Concrete) : ∃ tag, a.tag? = some tag := by
  cases a with
  | generic tags => exact absurd ha not_false
  | _ => exact ⟨_, rfl⟩

theorem compatible_generic {a : StaticType} {tag : Tag} (h : a.tag? = some tag)
    (tags : List Tag) : a.compatible (.generic tags) = tags.contains tag := by
  cases a <;> cases h <;> rfl

/-- What goes with a type goes with any type. -/
theorem Concrete.any_compatible {a type : StaticType} (ha : a.Concrete)
    (h : a.compatible type = true) : any.compatible type = true := by
  have hall : ∀ tag : Tag, Tag.all.contains tag = true := by
    intro tag
    cases tag <;> rfl
  cases htype : type.tag? with
  | some tag =>
    rw [compatible_comm, any, compatible_generic htype]
    exact hall tag
  | none =>
    cases type with
    | generic tags =>
      obtain ⟨tag, htag⟩ := ha.exists_tag
      rw [compatible_generic htag, List.contains_iff_mem] at h
      rw [compatible_comm]
      exact List.any_eq_true.mpr ⟨tag, h, hall tag⟩
    | _ => cases htype

/-- Lists are compatible place by place. -/
theorem compatibleAll_iff {as bs : List StaticType} : compatibleAll as bs = true ↔
    as.length = bs.length ∧
      ∀ (i : Nat) (a b : StaticType), as[i]? = some a → bs[i]? = some b →
        a.compatible b = true := by
  induction as generalizing bs with
  | nil => cases bs <;> simp [compatibleAll]
  | cons a as ih =>
    cases bs with
    | nil => simp [compatibleAll]
    | cons b bs =>
      rw [compatibleAll, Bool.and_eq_true, ih]
      constructor
      · rintro ⟨hfirst, hlength, hrest⟩
        refine ⟨by simp [hlength], fun i a' b' ha hb => ?_⟩
        cases i with
        | zero =>
          cases ha
          cases hb
          exact hfirst
        | succ i => exact hrest i a' b' ha hb
      · rintro ⟨hlength, hall⟩
        exact ⟨hall 0 a b rfl rfl, by simpa using hlength,
          fun i a' b' ha hb => hall (i + 1) a' b' ha hb⟩

end StaticType

theorem Signature.compatible_params {s s' : Signature} (h : s.compatible s' = true) :
    StaticType.compatibleAll s.params s'.params = true := by
  obtain ⟨name, params, returns⟩ := s
  rw [Signature.compatible, Bool.and_eq_true] at h
  exact h.2

/-- Compatible functions take the same arguments, if the parameters of the first are without generic
    types and those of the second are so or take anything. -/
theorem Signature.accepts_of_compatible {s s' : Signature} {types : List StaticType}
    (hs : ∀ p ∈ s.params, p.Concrete) (hs' : ∀ p ∈ s'.params, p.Concrete ∨ p = .any)
    (h : s.compatible s' = true) (haccepts : s.accepts types = true) :
    s'.accepts types = true := by
  obtain ⟨hlength, hparams⟩ := StaticType.compatibleAll_iff.mp (compatible_params h)
  obtain ⟨hcount, htaken⟩ := StaticType.compatibleAll_iff.mp haccepts
  rw [accepts, StaticType.compatibleAll_iff]
  refine ⟨hlength.symm.trans hcount, fun i q type hq htype => ?_⟩
  have hi : i < s.params.length := by
    rw [hlength]
    exact (List.getElem?_eq_some_iff.mp hq).1
  have hp : s.params[i]? = some s.params[i] := List.getElem?_eq_getElem hi
  have hconcrete : s.params[i].Concrete := hs s.params[i] (List.getElem_mem hi)
  rcases hs' q (List.mem_of_getElem? hq) with hq' | rfl
  · rw [← hconcrete.compatible_congr hq' (hparams i _ q hp hq)]
    exact htaken i _ type hp htype
  · exact hconcrete.any_compatible (htaken i _ type hp htype)

/-! ### Equal types -/

mutual

theorem StaticType.compatible_of_same : ∀ {a b : StaticType}, a.same b = true →
    a.compatible a = true → a.compatible b = true
  | .generic tags, b, h, hself => by
    cases b with
    | generic others =>
      obtain rfl : tags = others := eq_of_beq h
      exact hself
    | _ => cases h
  | .function s, b, h, hself => by
    cases b with
    | function s' =>
      rw [StaticType.same] at h
      rw [StaticType.compatible] at hself ⊢
      exact Signature.compatible_of_same h hself
    | _ => cases h
  | .classType _, b, h, _ | .instanceType _, b, h, _ | .boolean, b, h, _ | .number, b, h, _
  | .string, b, h, _ | .void, b, h, _ => by cases b <;> first | exact h | cases h

theorem Signature.compatible_of_same : ∀ {s s' : Signature}, s.same s' = true →
    s.compatible s = true → s.compatible s' = true
  | ⟨_, params, returns⟩, ⟨_, params', returns'⟩, h, hself => by
    rw [Signature.same, Bool.and_eq_true, Bool.and_eq_true] at h
    rw [Signature.compatible, Bool.and_eq_true] at hself ⊢
    exact ⟨StaticType.compatible_of_same h.1.2 hself.1,
      StaticType.compatibleAll_of_sameAll h.2 hself.2⟩

theorem StaticType.compatibleAll_of_sameAll : ∀ {as bs : List StaticType},
    StaticType.sameAll as bs = true → StaticType.compatibleAll as as = true →
    StaticType.compatibleAll as bs = true
  | [], [], _, _ => rfl
  | [], _ :: _, h, _ | _ :: _, [], h, _ => nomatch h
  | a :: as, b :: bs, h, hself => by
    rw [StaticType.sameAll, Bool.and_eq_true] at h
    rw [StaticType.compatibleAll, Bool.and_eq_true] at hself ⊢
    exact ⟨StaticType.compatible_of_same h.1 hself.1,
      StaticType.compatibleAll_of_sameAll h.2 hself.2⟩

end

/-- **Laws of compatibility.** It is symmetric; a type goes with itself exactly if no generic type
    without a tag occurs in it, also in what functions take and return; without generic types it is
    an equivalence, namely equality but for names; and a type that goes with itself goes with every
    type that is the same. -/
theorem compatible_laws :
    (∀ a b : StaticType, a.compatible b = b.compatible a) ∧
      (∀ a : StaticType, a.compatible a = true ↔ a.Tagged) ∧
      (Equivalence fun a b : { type : StaticType // type.Concrete } =>
        a.val.compatible b.val = true) ∧
      (∀ a b : StaticType, a.Concrete → b.Concrete →
        (a.compatible b = true ↔ a.nameless = b.nameless)) ∧
      ∀ a b : StaticType, a.same b = true → a.compatible a = true → a.compatible b = true :=
  ⟨StaticType.compatible_comm, StaticType.compatible_self_iff, StaticType.compatible_equivalence,
    fun _ _ => StaticType.compatible_iff_nameless_eq, fun _ _ => StaticType.compatible_of_same⟩

/-- Two functions under different names, which take instances of one class, and a function that also
    takes a generic type. -/
theorem compatible_laws_functions :
    let f : StaticType := .function ⟨"f", [.instanceType ⟨0, "A"⟩], .void⟩
    let g : StaticType := .function ⟨"g", [.instanceType ⟨0, "B"⟩], .void⟩
    let a : StaticType := .function ⟨"h", [.generic [.number], .classType ⟨0, "A"⟩], .string⟩
    let b : StaticType := .function ⟨"h", [.generic [.number], .classType ⟨0, "B"⟩], .string⟩
    (f.Concrete ∧ g.Concrete ∧ f.nameless = g.nameless ∧ f.compatible g = true) ∧
      a.same b = true ∧ a.Tagged ∧ a.compatible b = true := by
  obtain ⟨-, hself, -, hconcrete, hsame⟩ := compatible_laws
  intro f g a b
  have hf : f.Concrete := ⟨trivial, trivial, trivial⟩
  have hg : g.Concrete := ⟨trivial, trivial, trivial⟩
  have hab : a.same b = true := by decide
  have ha : a.Tagged := ⟨trivial, List.cons_ne_nil _ _, trivial, trivial⟩
  exact ⟨⟨hf, hg, rfl, (hconcrete f g hf hg).mpr rfl⟩, hab, ha, hsame a b hab ((hself a).mpr ha)⟩

-- With generic types it is not transitive.
example : StaticType.number.compatible .any = true ∧ StaticType.any.compatible .string = true ∧
    StaticType.number.compatible .string = false := by
  decide

end ClassScript
