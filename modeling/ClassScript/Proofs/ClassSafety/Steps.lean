import ClassScript.Proofs.ClassSafety.Values
import ClassScript.Proofs.Discipline

namespace ClassScript

/-!
# Steps that keep classes

Every single step of a run keeps the classes of the checker, so runs do. The types of most names say
nothing about what the names are bound to. But at the top level, where classes are declared, the
type of an expression is that of a class only if the expression reads a name that never changes.

* `Typing.ne_classType_of_computed`: classes are read, not computed;
* `ClassSafety.Accepted`: a program that passes the checks;
* `ClassSafety.discipline`: what runs of the program keep;
* `ClassSafety.Accepted.exprLaws`, `ClassSafety.Accepted.callLaws`: expressions and calls keep it.
-/

namespace Typing

variable {context : TypeContext} {t : Typing} {type : StaticType}

/-- What goes with a class and is not generic is that class. -/
theorem eq_classType_of_compatible {id : ClassId}
    (h : (StaticType.classType id).compatible type = true)
    (hgeneric : ∀ tags, type ≠ .generic tags) :
    ∃ id', type = .classType id' ∧ id'.index = id.index := by
  cases type with
  | classType id' =>
    simp only [StaticType.compatible, beq_iff_eq] at h
    exact ⟨id', rfl, h.symm⟩
  | generic tags => exact absurd rfl (hgeneric tags)
  | _ => simp [StaticType.compatible, StaticType.tag?] at h

/-- A class is not a type that can be written down. -/
theorem ne_classType_of_written {names : List String} (h : type.Written names) (id : ClassId) :
    type ≠ .classType id := by
  rintro rfl
  exact h

/-- An expression that is neither a use of a name nor has the value of a part of it is no class. -/
theorem ne_classType_of_computed {e : Expr} (h : Contained ⟨context, t⟩) (hread : e.read? = none)
    (hresults : e.results = []) (htype : typeOf context t e = .ok type) (id : ClassId) :
    type ≠ .classType id := by
  rintro rfl
  cases e with
  | literal value => cases value <;> cases htype
  | unary operator operand =>
    obtain ⟨_, -, htype⟩ := typeOf_unary_ok htype
    exact unary_scalar htype
  | binary left operator right =>
    obtain ⟨_, _, -, -, htype⟩ := typeOf_binary_ok htype
    exact binary_scalar htype
  | logical left operator right =>
    obtain ⟨-, -, -, -, -, -, heq⟩ := typeOf_logical_ok htype
    cases heq
  | call callee paren arguments =>
    obtain ⟨calleeType, types, hcallee, -, htype⟩ := typeOf_call_ok htype
    -- Functions return what is written down, and a class that is called gives an instance.
    have hadmitted := admitted_of_typeOf h callee hcallee
    cases calleeType with
    | function s =>
      obtain ⟨-, heq⟩ := call_function_ok htype
      exact ne_classType_of_written hadmitted.1.2 id heq.symm
    | classType id' =>
      obtain ⟨-, heq⟩ := call_class_ok htype
      cases heq
    | generic tags => cases call_generic_ok htype
    | _ => cases htype
  | get object name =>
    obtain ⟨id', -, htype⟩ := typeOf_get_ok htype
    rcases property_ok htype with ⟨s, -, heq⟩ | ⟨current, -, -, -, heq⟩ <;> cases heq
  | super keyword method =>
    obtain ⟨id', s, -, -, heq⟩ := typeOf_super_ok htype
    cases heq
  | var ref => cases hread
  | this ref => cases hread
  | _ => cases hresults

/-- The target of an assignment is no class. -/
theorem ne_classType_of_assign {target : Reference} {value : Expr} {declared : StaticType}
    (h : typeOf context t (.assign target value) = .ok type)
    (hdeclared : lookUp context t target = .ok declared) (id : ClassId) :
    declared ≠ .classType id := by
  rintro rfl
  obtain ⟨valueType, -, h⟩ := except_bind_eq_ok.mp h
  obtain ⟨declared, hlookUp, h⟩ := except_bind_eq_ok.mp h
  rw [hdeclared] at hlookUp
  cases hlookUp
  cases h

theorem expr_mem_parts_of_mem_results {e e' : Expr} (h : e' ∈ e.results) : .expr e' ∈ e.parts := by
  cases e with
  | grouping inner => simp_all [Expr.results, Expr.parts]
  | ternary condition question yes no =>
    simp only [Expr.results, List.mem_cons, List.not_mem_nil, or_false] at h
    rcases h with rfl | rfl <;> simp [Expr.parts]
  | assign target value => simp_all [Expr.results, Expr.parts]
  | set object name value => simp_all [Expr.results, Expr.parts]
  | _ => cases h

/-- The part that an expression has its value from is a class if the expression is one. -/
theorem classType_of_results {e e' : Expr} {id : ClassId} (h : Contained ⟨context, t⟩)
    (hcurrent : context.current = none) (he' : e' ∈ e.results)
    (htype : typeOf context t e = .ok (.classType id)) :
    ∃ id', typeOf context t e' = .ok (.classType id') ∧ id'.index = id.index := by
  cases e with
  | grouping inner =>
    cases List.mem_singleton.mp he'
    rw [typeOf] at htype
    exact ⟨id, htype, rfl⟩
  | ternary condition question yes no =>
    obtain ⟨-, noType, -, -, hyes, hno, hcompatible⟩ := typeOf_ternary_ok htype
    simp only [Expr.results, List.mem_cons, List.not_mem_nil, or_false] at he'
    rcases he' with rfl | rfl
    · exact ⟨id, hyes, rfl⟩
    · -- Nothing is generic outside of classes, so only a class goes with a class.
      have hgeneric := (admitted_of_typeOf h e' hno).2 hcurrent
      obtain ⟨id', rfl, hindex⟩ := eq_classType_of_compatible hcompatible hgeneric
      exact ⟨id', hno, hindex⟩
  | assign target value =>
    cases List.mem_singleton.mp he'
    obtain ⟨-, hvalue, -⟩ := typeOf_assign_ok htype
    exact ⟨id, hvalue, rfl⟩
  | set object name value =>
    cases List.mem_singleton.mp he'
    obtain ⟨-, -, hvalue⟩ := typeOf_set_ok htype
    exact ⟨id, hvalue, rfl⟩
  | _ => cases he'

theorem typeOf_read {e : Expr} {ref : Reference} (h : e.read? = some ref) :
    typeOf context t e = lookUp context t ref := by
  cases e with
  | var ref' =>
    cases h
    rw [typeOf]
  | this ref' =>
    cases h
    rw [typeOf]
  | _ => cases h

/-- A use of a name uses this name only. -/
theorem references_read {e : Expr} {ref : Reference} (h : e.read? = some ref) :
    e.references = [ref] := by
  cases e with
  | var ref' =>
    cases h
    rfl
  | this ref' =>
    cases h
    rfl
  | _ => cases h

end Typing

namespace ClassSafety

open Eval
open Typing (start walk Checked Known inBody)

/-! ### The discipline -/

/-- The program passes the checks; `T` is what the checker knows at the end. -/
structure Accepted (T : Typing) (program : Program) (table : Distances) : Prop where
  complete : T.Complete
  checked : ∀ v, walk.Visits (start table program) v → Checked T table v
  known : ∀ v, walk.Visits (start table program) v → Known T v.place
  nodup : ((start table program).part.references.map Reference.id).Nodup

section Discipline

variable (T : Typing) (program : Program) (table : Distances) (m₀ : Machine)

/-- The machine is in a frame that fits a place where the checker comes to the part. -/
structure Runs (m : Machine) (part : Part) : Prop where
  good : Good T program table m₀ m
  stands : ∃ site, walk.Visits (start table program) ⟨part, site⟩ ∧ Stands T m site.typing.scopes

/-- The value fits, and at the top level it is the class that the checker takes it for, if any. -/
structure Gives (m : Machine) (e : Expr) (v : Value) : Prop where
  fits : ValueFits T program table m.globals m.heap v
  respects : ∀ site id, walk.Visits (start table program) ⟨.expr e, site⟩ →
    site.typing.scopes.frames = [] →
    Typing.typeOf site.context site.typing e = .ok (.classType id) →
    Respects T m.globals m.heap (.classType id) v

/-- The function fits, and it gets as many arguments as it takes, which fit. -/
structure Enters (m : Machine) (c : Closure) (values : List Value) : Prop where
  good : Good T program table m₀ m
  closure : ClosureFits T program table m.globals m.heap c
  arguments : ∀ v ∈ values, ValueFits T program table m.globals m.heap v
  length_eq : values.length = c.arity

/-- The statement has taken the machine from a place of the checker to the place after it. -/
structure Executed (m : Machine) (s : Stmt) (m' : Machine) : Prop where
  since : Since T program table m₀ m m'
  later : s.declared? = none → Later T program table m₀ m m'
  stands : ∀ site t, walk.Visits (start table program) ⟨.stmt s, site⟩ →
    Typing.stmt site.context s site.typing = .ok t → Stands T m site.typing.scopes →
    Stands T m' t.scopes

/-- The run did not stop for a superclass that is no class. -/
def SuperclassFound : Stop → Prop
  | .failure fault => ∀ tag, fault.what ≠ .superclass tag
  | .outOfFuel => True

/-- What runs of a program keep that passes the checks. -/
def discipline : Discipline where
  Good := Good T program table m₀
  Later := Later T program table m₀
  Since := Since T program table m₀
  Executed := Executed T program table m₀
  Allows := SuperclassFound
  Holds m v := ValueFits T program table m.globals m.heap v
  Gives := Gives T program table
  Runs := Runs T program table m₀
  Calls m f values _ := Good T program table m₀ m ∧ ValueFits T program table m.globals m.heap f ∧
    ∀ v ∈ values, ValueFits T program table m.globals m.heap v
  Enters := Enters T program table m₀

end Discipline

variable {T : Typing} {program : Program} {table : Distances} {m₀ m m' : Machine}

/-- No expression fails for want of a superclass. -/
theorem superclassFound_of_raises {e : Expr} {fault : Located RuntimeFault} (h : e.Raises fault) :
    SuperclassFound (.failure fault) := by
  obtain ⟨what, pos⟩ := fault
  rintro tag rfl
  cases e <;> simp [Expr.Raises] at h

/-- No statement fails for want of a superclass. -/
theorem superclassFound_of_stmt_raises {s : Stmt} {fault : Located RuntimeFault}
    (h : s.Raises fault) : SuperclassFound (.failure fault) := by
  obtain ⟨what, pos⟩ := fault
  rintro tag rfl
  cases s <;> simp [Stmt.Raises] at h

/-- No call fails for want of a superclass. -/
theorem superclassFound_of_call {fault : RuntimeFault} (h : fault.OfCall) (paren : Position) :
    SuperclassFound (.failure ⟨fault, paren⟩) := by
  rintro tag rfl
  exact h

/-- The parts of an expression run where it does. -/
theorem Runs.parts {e : Expr} {part : Part} (h : Runs T program table m₀ m (.expr e))
    (hpart : part ∈ e.parts) : Runs T program table m₀ m part := by
  obtain ⟨hm, site, hvisit, hstands⟩ := h
  exact ⟨hm, site, .tail hvisit (List.mem_map_of_mem hpart), hstands⟩

theorem Runs.list {e : Expr} {es : List Expr} (h : Runs T program table m₀ m (.exprs (e :: es))) :
    Runs T program table m₀ m (.expr e) ∧ Runs T program table m₀ m (.exprs es) := by
  obtain ⟨hm, site, hvisit, hstands⟩ := h
  exact ⟨⟨hm, site, .tail hvisit (by simp [Walk.enters]), hstands⟩,
    ⟨hm, site, .tail hvisit (by simp [Walk.enters]), hstands⟩⟩

namespace Accepted

variable (hA : Accepted T program table)

include hA

/-! ### Machines and values -/

theorem machineLaws : (discipline T program table m₀).MachineLaws where
  refl := Later.refl
  trans := Later.trans
  since_of_later := Later.since
  since_trans := Later.since_trans
  good := Since.good
  back := Later.back hA.complete
  outOfFuel := trivial

/-- A method with its receiver, which inherits from the class of the method, as a function. -/
theorem bindReceiver {owner : Nat} {c : Closure} {object : Instance}
    (hm : Good T program table m₀ m) (hc : MethodFits T program table m.globals m.heap owner c)
    (hobject : Descends T m.globals m.heap owner object.cls) :
    Ensures (bindReceiver c object) m
      (fun bound m' => Later T program table m₀ m m' ∧ bound.arity = c.arity ∧
        ClosureFits T program table m'.globals m'.heap bound) fun _ _ => False := by
  have hfits : ∀ x v, (Bindings.empty.insert thisName (.instanceValue object)).find? x = some v →
      ValueFits T program table m.globals m.heap v := by
    intro x v hv
    obtain ⟨-, rfl⟩ := Bindings.eq_of_find?_single hv
    obtain ⟨i, hcls, -⟩ := hobject
    exact ⟨i, hcls⟩
  exact ⟨Later.alloc hA.complete hm c.frame hfits, rfl, hc.bind hA.complete hobject hm.root⟩

theorem boundMethod {owner : Nat} {c : Closure} {object : Instance}
    (hm : Good T program table m₀ m) (hc : MethodFits T program table m.globals m.heap owner c)
    (hobject : Descends T m.globals m.heap owner object.cls) :
    Ensures (boundMethod c object) m ((discipline T program table m₀).Yields m)
      fun _ _ => False := by
  refine (hA.bindReceiver hm hc hobject).bind fun bound m₁ _ hbound => ?_
  obtain ⟨hlater, -, hfits⟩ := hbound
  have hidentity : Later T program table m₀ m₁ { m₁ with nextIdentity := m₁.nextIdentity + 1 } :=
    .of_heap_eq hlater.since.good rfl rfl rfl rfl hlater.since.good.fields
  exact ⟨hlater.trans hidentity, hfits⟩

/-- The method that a class of the checker has, and the class that declares it. -/
theorem exists_owner {index : Nat} {cls : Class} {x : String} {c : Closure}
    (hm : Good T program table m₀ m) (hcls : T.classes.classAt? m.heap m.globals index = some cls)
    (hc : cls.findMethod? x = some c) :
    ∃ owner, T.classes.inherits owner index = true ∧
      MethodFits T program table m.globals m.heap owner c := by
  have hrel := rel_findMethod? hA.complete hm.classes hcls x
  rw [hc] at hrel
  generalize T.classes.findMethod? x index = found at hrel
  cases hrel with
  | some h => exact h.2

theorem valueLaws : (discipline T program table m₀).ValueLaws where
  later hv h := h.valueFits hv
  current hv := hv
  plain := by
    intro m v _ hv
    cases v <;> trivial
  field hm _ hv := hm.field? hv
  method := by
    rintro m object x c hm ⟨index, hcls⟩ hc
    obtain ⟨owner, hinherits, hmethod⟩ := hA.exists_owner hm hcls hc
    exact hA.boundMethod hm hmethod ⟨index, hcls, hinherits⟩

/-! ### Expressions -/

theorem gives_read {e : Expr} {ref : Reference} {v : Value}
    (h : Runs T program table m₀ m (.expr e)) (hread : e.read? = some ref)
    (hv : m.lookUp? ref = some v) : Gives T program table m e v := by
  obtain ⟨hm, site, hvisit, hstands⟩ := h
  have hc := hA.checked _ hvisit
  obtain ⟨type, htype⟩ := hc.accepted
  have htable : site.context.table = m.table := hc.table.trans hm.table_eq.symm
  rw [Typing.typeOf_read hread] at htype
  obtain ⟨g, v', -, hlookup, hfound, -⟩ := hstands.fits.lookUp? htable htype
  rw [hv] at hfound
  cases hfound
  refine ⟨hm.values _ _ _ hlookup, fun site' id hvisit' hglobal htype' => ?_⟩
  -- The expression uses a name, so the checker comes to it only once.
  have hrefs : (Part.expr e).references ≠ [] := by
    show e.references ≠ []
    rw [Typing.references_read hread]
    exact List.cons_ne_nil _ _
  obtain rfl := Walk.place_unique hA.nodup hrefs hvisit hvisit'
  rw [Typing.typeOf_read hread] at htype'
  obtain ⟨w, hw, hrespects⟩ := hstands.fits.lookUp?_global htable hglobal htype'
  rw [hv] at hw
  cases hw
  exact hrespects

theorem gives_result {e e' : Expr} {v : Value} (he' : e' ∈ e.results)
    (h : Gives T program table m e' v) : Gives T program table m e v := by
  refine ⟨h.fits, fun site id hvisit hglobal htype => ?_⟩
  have hknown := hA.known _ hvisit
  obtain ⟨id', htype', hindex⟩ := Typing.classType_of_results hknown.contained
    (hknown.current_eq_none hglobal) he' htype
  have hpart := Typing.expr_mem_parts_of_mem_results he'
  obtain ⟨cls, hcls, hclass⟩ :=
    h.respects site id' (.tail hvisit (List.mem_map_of_mem hpart)) hglobal htype'
  exact ⟨cls, hcls, hindex ▸ hclass⟩

theorem gives_computed {e : Expr} {v : Value} (hread : e.read? = none) (hresults : e.results = [])
    (hv : ValueFits T program table m.globals m.heap v) : Gives T program table m e v := by
  refine ⟨hv, fun site id hvisit _ htype => ?_⟩
  have hcontained := (hA.known _ hvisit).contained
  exact absurd rfl (Typing.ne_classType_of_computed hcontained hread hresults htype id)

/-- An assignment to a name that is no class. -/
theorem later_assign {target : Reference} {value : Expr} {v : Value} {f : FrameId}
    (h : Runs T program table m₀ m (.expr (.assign target value)))
    (hv : ValueFits T program table m.globals m.heap v) (hholder : m.holder? target = some f) :
    Later T program table m₀ m { m with heap := m.heap.define f target.name.text v } := by
  obtain ⟨hm, site, hvisit, hstands⟩ := h
  have hc := hA.checked _ hvisit
  obtain ⟨type, htype⟩ := hc.accepted
  obtain ⟨declared, -, hdeclared, -⟩ := Typing.typeOf_assign_ok htype
  have hnoClass := Typing.ne_classType_of_assign htype hdeclared
  have htable : site.context.table = m.table := hc.table.trans hm.table_eq.symm
  -- The checker has seen the binding that is changed, and it is not that of a class,
  obtain ⟨g, w, hholder', hw, -, hglobal, -⟩ := hstands.fits.lookUp? htable hdeclared
  rw [hholder] at hholder'
  cases hholder'
  -- so it is none of those that stay as they are.
  have hfixed : ¬ Fixed T m.globals f target.name.text := by
    have hplain : target.name.Plain := hc.wellFormed.1
    rintro (hthis | hsuper | ⟨heq, id, hid⟩)
    · exact hplain.1 hthis
    · exact hplain.2 hsuper
    · rw [hglobal heq] at hid
      cases hid
      exact hnoClass id rfl
  have hkeeps : Keeps T m.globals m.heap (m.heap.define f target.name.text v) :=
    .define hA.complete (fun _ => hfixed) v
  have hgood : Good T program table m₀
      { m with heap := m.heap.define f target.name.text v } := by
    refine hm.define hA.complete (fun _ => hfixed) (hv.mono hkeeps) fun i cls hcls => .inl ?_
    rw [classAt?_define] at hcls
    · exact hcls
    · rintro rfl i info hinfo hname
      exact hfixed (.inr (.inr ⟨rfl, _, hname ▸ hA.complete.named i info hinfo⟩))
  have hnames : NoNames m { m with heap := m.heap.define f target.name.text v } := by
    intro x hx
    rw [Heap.lookup?_define] at hx
    split at hx
    · next heq =>
      obtain ⟨rfl, rfl, -⟩ := heq
      rw [hw]
      rfl
    · exact hx
  exact ⟨⟨hgood, hkeeps, rfl, rfl, fun _ => hnames⟩, hnames⟩

theorem superMethod {keyword : Reference} {method : Name} {inner : Nat} {superclass : Class}
    {object : Instance} {c : Closure}
    (h : Runs T program table m₀ m (.expr (.super keyword method)))
    (hdistance : m.table.get? keyword.id = some (inner + 1))
    (hclass : m.heap.getAt? m.current (inner + 1) keyword.name.text = some (.classValue superclass))
    (hreceiver : m.heap.getAt? m.current inner thisName = some (.instanceValue object))
    (hmethod : superclass.findMethod? method.text = some c) :
    Ensures (Eval.boundMethod c object) m ((discipline T program table m₀).Yields m)
      fun _ _ => False := by
  obtain ⟨hm, site, hvisit, hstands⟩ := h
  have hc := hA.checked _ hvisit
  have hname : keyword.name.text = superName := hc.wellFormed
  obtain ⟨type, htype⟩ := hc.accepted
  rw [Typing.typeOf] at htype
  obtain ⟨found, hfound, -⟩ := except_bind_eq_ok.mp htype
  obtain ⟨place, hplace, hget, hrecorded⟩ := Typing.lookUp_ok hfound
  rw [hname] at hget hclass
  obtain ⟨id, super, d, -, hsuper, rfl, rfl, hthisFrame, hsuperFrame⟩ :=
    (hA.known _ hvisit).framed.superclass hget
  -- The superclass is where the table says, and the receiver one frame inside of it.
  have hd : d = inner := by
    rw [hc.table.trans hm.table_eq.symm, hdistance] at hrecorded
    cases hrecorded
    rfl
  subst hd
  obtain ⟨g, hg, hholds⟩ := hstands.fits.frames.ancestor hsuperFrame
  obtain ⟨-, w, hw, hrespects⟩ := hholds superName (.classType super)
    (by rw [Bindings.find?_insert, if_pos rfl])
  rw [Heap.getAt?, hg, Option.bind_some, hw] at hclass
  cases hclass
  obtain ⟨cls, heq, hcls⟩ := hrespects (.inr (.inl rfl))
  cases heq
  obtain ⟨object', heq, i, hobject, hinherits⟩ := hstands.receiver hthisFrame hreceiver
  cases heq
  obtain ⟨owner, howner, hfits⟩ := hA.exists_owner hm hcls hmethod
  -- The owner of the method is an ancestor of the superclass, and so of the class at hand.
  refine hA.boundMethod hm hfits ⟨i, hobject, ?_⟩
  have hordered := hA.complete.ordered
  have howner' := ClassTable.inherits_of_superclass hordered hsuper howner
  rw [ClassTable.inherits_iff hordered] at hinherits howner' ⊢
  exact hinherits.trans howner'

/-- Expressions give values that fit. -/
theorem exprLaws : (discipline T program table m₀).ExprLaws where
  good := Runs.good
  later := by
    rintro m m' part ⟨hm, site, hvisit, hstands⟩ hlater
    exact ⟨hlater.since.good, site, hvisit, hstands.later hlater⟩
  parts := Runs.parts
  list := Runs.list
  raises _ h _ := superclassFound_of_raises h
  holds := Gives.fits
  gives_later h hlater := ⟨hlater.valueFits h.fits, fun site id hvisit hglobal htype =>
    hlater.respects (h.respects site id hvisit hglobal htype)⟩
  read h ref href hv := hA.gives_read h href hv
  result _ e' he' h := hA.gives_result he' h
  computed _ hread hresults hv := hA.gives_computed hread hresults hv
  assign h hv hholder := hA.later_assign h hv.fits hholder
  setField h _ hv := Later.setField h.good _ _ hv
  superMethod := hA.superMethod

/-! ### Calls -/

/-- Making an instance, and binding it as the receiver of the constructor. -/
theorem construct {cls : Class} {values : List Value} (hm : Good T program table m₀ m)
    (hcls : ValueFits T program table m.globals m.heap (.classValue cls))
    (hvalues : ∀ v ∈ values, ValueFits T program table m.globals m.heap v)
    (hlength : values.length = cls.arity) :
    Ensures (newInstance cls) m
      (fun object m₁ => Later T program table m₀ m m₁ ∧
        ValueFits T program table m₁.globals m₁.heap (.instanceValue object) ∧
        ∀ method ∈ cls.initializer?, Ensures (Eval.bindReceiver method object) m₁
          (fun bound m₂ =>
            Later T program table m₀ m₁ m₂ ∧ Enters T program table m₀ m₂ bound values)
          fun _ _ => False)
      fun _ _ => False := by
  obtain ⟨index, hindex⟩ := hcls
  have hlater := Later.newInstance hm
  refine ⟨hlater, ⟨index, hindex⟩, fun method hmethod => ?_⟩
  obtain ⟨owner, hinherits, hfits⟩ := hA.exists_owner hm hindex hmethod
  have hobject : Descends T m.globals m.heap owner (Instance.mk m.fields.size cls).cls :=
    ⟨index, hindex, hinherits⟩
  have hbinds := hA.bindReceiver hlater.since.good hfits hobject
  refine hbinds.mono (fun bound m₂ h => ?_) fun _ _ h => h
  obtain ⟨hlater', harity, hclosure⟩ := h
  have hinitializer : cls.initializer? = some method := hmethod
  refine ⟨hlater', hlater'.since.good, hclosure, ?_, ?_⟩
  · exact fun v hv => hlater'.valueFits (hlater.valueFits (hvalues v hv))
  · rw [hlength, harity, Class.arity, hinitializer]
    rfl

/-- The body of a function runs in a frame that binds its parameters. -/
theorem runs_body {c : Closure} {values : List Value} (h : Enters T program table m₀ m c values) :
    Runs T program table m₀ (m.inside c.frame
      (Bindings.ofList ((c.decl.params.map fun p => p.name.text).zip values)))
      (.stmts c.decl.body) := by
  obtain ⟨hm, ⟨hplain, site, s, hvisit, hmatch⟩, hvalues, hlength⟩ := h
  have hfits : ∀ x v,
      (Bindings.ofList ((c.decl.params.map fun p => p.name.text).zip values)).find? x = some v →
      ValueFits T program table m.globals m.heap v := by
    intro x v hv
    exact hvalues v (List.of_mem_zip (Bindings.find?_ofList hv)).2
  have hlater := Later.alloc hA.complete hm c.frame hfits
  refine ⟨hlater.since.good.within _, inBody c.decl s site, hvisit, ?_, fun hglobal => ?_⟩
  · refine (hmatch.openFrame hA.complete _).declareAll hm.ne_next.symm fun pair hpair => ?_
    have hparam : pair.1 ∈ c.decl.params := (List.of_mem_zip hpair).1
    refine ⟨hplain _ hparam, ?_⟩
    rw [Heap.lookup?_alloc_next]
    refine Bindings.isSome_find?_ofList ?_
    rw [List.map_fst_zip (by rw [List.length_map, hlength]; exact Nat.le_refl _)]
    exact List.mem_map_of_mem hparam
  · exact absurd hglobal (Typing.inBody_local c.decl s site).2

/-- Calls give values that fit. -/
theorem callLaws : (discipline T program table m₀).CallLaws where
  calls := by
    intro m callee paren arguments f values hruns hf hvalues
    refine ⟨hruns.good, hf.fits, ?_⟩
    clear hruns
    induction hvalues with
    | nil => nofun
    | cons hv _ ih => exact List.forall_mem_cons.mpr ⟨hv.fits, ih⟩
  good h := h.1
  raises _ h := superclassFound_of_call h _
  write text h := Later.of_heap_eq h.1 rfl rfl rfl rfl h.1.fields
  function h hlength := ⟨h.1, h.2.1, h.2.2, hlength⟩
  construct h hlength := hA.construct h.1 h.2.1 h.2.2 hlength
  entered := Enters.good
  invoke := hA.runs_body
  receiver _ hlater hv := hlater.since.good.values _ _ _ hv
  unbound := by
    intro m m' c values _ _ _ _ tag htag
    cases htag

end Accepted

end ClassSafety

end ClassScript
