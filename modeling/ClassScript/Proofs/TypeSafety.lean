import ClassScript.Proofs.Grammar.Trees
import ClassScript.Proofs.TypeSafety.Steps

namespace ClassScript

/-!
# Basic programs keep to their types

A basic program that passes the checks runs as the type checker foresees. Wherever a run comes to,
the names in scope are bound to values of their types, so that every expression gives a value of its
type, every function returns what it declares, and nothing fails but for a reason that no type rules
out.

* `Typed`: a value of whatever type the checker gives an expression;
* `Executed`, `ExecutedAll`: what statements leave behind;
* `Ready`, `Done`: jobs in frames of the right types, and how they end;
* `ready_step`: the step of a run;
* `run_keeps_types`: every run of a basic program.
-/

namespace TypeSafety

open Typing (Site start walk Gives)

/-! ### Runs -/

section Runs

variable (program : Program) (table : Distances)

/-- The part runs where the checker came to it, in a frame that fits the names in scope there. -/
def Placed (part : Part) (m : Machine) : Prop :=
  ∃ site, walk.Visits (start table program) ⟨part, site⟩ ∧ Stands m site.typing.scopes

/-- The value is of the type that the checker gives the expression. -/
def Typed (e : Expr) (v : Value) : Prop := ∀ type, Gives table program e type → v.Fits type

/-- The value that a part returns is one that the function around it may return. -/
def FlowFits (part : Part) (m : Machine) : Flow → Prop
  | .normal => True
  | .returned v => ValueFits program table m.heap m.globals v ∧
    ∀ site, walk.Visits (start table program) ⟨part, site⟩ →
      ∀ type ∈ site.context.returns, v.Fits type

/-- What a statement leaves behind: it binds the name that it declares and no other, it returns what
    it may, and behind it the machine fits the names in scope there. -/
structure Executed (m : Machine) (s : Stmt) (flow : Flow) (m' : Machine) : Prop where
  later : Later program table s.declared?.toList m m'
  fits : FlowFits program table (.stmt s) m' flow
  returns : Stmt.endInReturn [s] = true → flow ≠ .normal
  stands : flow = .normal → ∀ site t, walk.Visits (start table program) ⟨.stmt s, site⟩ →
    Typing.stmt site.context s site.typing = .ok t → Stands m site.typing.scopes →
    Stands m' t.scopes

/-- What statements in order leave behind. -/
structure ExecutedAll (m : Machine) (ss : List Stmt) (flow : Flow) (m' : Machine) : Prop where
  later : Later program table (ss.filterMap Stmt.declared?) m m'
  fits : FlowFits program table (.stmts ss) m' flow
  returns : Stmt.endInReturn ss = true → flow ≠ .normal

/-- A task fits the machine that it starts on. -/
def TaskFits (m : Machine) : Task → Prop
  | .evaluate e => Placed program table (.expr e) m
  | .evaluateAll es => Placed program table (.exprs es) m
  | .call callee arguments _ =>
    ValueFits program table m.heap m.globals callee ∧
      (∀ v ∈ arguments, ValueFits program table m.heap m.globals v) ∧
      ∃ s, callee.Fits (.function s) ∧ List.Forall₂ Value.Fits arguments s.params
  | .invoke closure arguments =>
    ClosureFits program table m.heap m.globals closure ∧
      (∀ v ∈ arguments, ValueFits program table m.heap m.globals v) ∧
      ∃ s, closure.decl.Declares s ∧ List.Forall₂ Value.Fits arguments s.params
  | .execute s => Placed program table (.stmt s) m
  | .executeAll ss => Placed program table (.stmts ss) m

/-- A job of a run that keeps to the types. -/
def Ready (j : Job) : Prop :=
  Sound program table j.machine ∧ TaskFits program table j.machine j.task

/-- The job ends with what its types say, or stops for a reason that types do not rule out. -/
def Done (n : Nat) (j : Job) : Prop :=
  match j.task with
  | .evaluate e => ∀ type, Gives table program e type →
    Eval.Ensures (Eval.evaluate n e) j.machine (GivesValue program table j.machine type) TypesKept
  | .evaluateAll es =>
    Eval.Ensures (Eval.evaluateAll n es) j.machine
      (fun vs m' => Later program table [] j.machine m' ∧
        (∀ v ∈ vs, ValueFits program table m'.heap m'.globals v) ∧
        List.Forall₂ (Typed program table) es vs) TypesKept
  | .call callee arguments paren => ∀ s, callee.Fits (.function s) →
    Eval.Ensures (Eval.call n callee arguments paren) j.machine
      (GivesValue program table j.machine s.returns) TypesKept
  | .invoke closure arguments => ∀ s, closure.decl.Declares s →
    Eval.Ensures (Eval.invoke n closure arguments) j.machine
      (GivesValue program table j.machine s.returns) TypesKept
  | .execute s =>
    Eval.Ensures (Eval.execute n s) j.machine (Executed program table j.machine s) TypesKept
  | .executeAll ss =>
    Eval.Ensures (Eval.executeAll n ss) j.machine (ExecutedAll program table j.machine ss) TypesKept

end Runs

variable {program : Program} {table : Distances}

theorem Placed.part {e : Expr} {part : Part} {m m' : Machine}
    (h : Placed program table (.expr e) m) (hpart : part ∈ e.parts)
    (hlater : Later program table [] m m') : Placed program table part m' := by
  obtain ⟨site, hvisit, hstands⟩ := h
  exact ⟨site, hvisit.tail (List.mem_map_of_mem hpart), hstands.later hlater⟩

/-- What is returned passes through a part inside another one, if both stand in one function. -/
theorem FlowFits.outward {part part' : Part} {m : Machine} {flow : Flow}
    (h : FlowFits program table part' m flow)
    (hinside : ∀ site, walk.Visits (start table program) ⟨part, site⟩ →
      ∃ site', walk.Visits (start table program) ⟨part', site'⟩ ∧
        site'.context.returns = site.context.returns) :
    FlowFits program table part m flow := by
  cases flow with
  | normal => trivial
  | returned v =>
    refine ⟨h.1, fun site hvisit type htype => ?_⟩
    obtain ⟨site', hvisit', hreturns⟩ := hinside site hvisit
    exact h.2 site' hvisit' type (hreturns ▸ htype)

/-- Arguments of the types that the checker gives them. -/
theorem fits_of_typed {es : List Expr} {vs : List Value} {types : List StaticType} {site : Site}
    (hvisit : walk.Visits (start table program) ⟨.exprs es, site⟩)
    (htypes : Typing.typesOf site.context site.typing es = .ok types)
    (h : List.Forall₂ (Typed program table) es vs) : List.Forall₂ Value.Fits vs types := by
  induction h generalizing types with
  | nil =>
    cases htypes
    exact .nil
  | @cons e v es vs hv _ ih =>
    obtain ⟨first, rest, hfirst, hrest, rfl⟩ := Typing.typesOf_cons_ok htypes
    have hfits := hv first ⟨site, hvisit.tail (by simp [Walk.enters]), hfirst⟩
    exact .cons hfits (ih (hvisit.tail (by simp [Walk.enters])) hrest)

/-- What is assigned to is no function. -/
theorem scalar_of_ofName {type : StaticType} (h : type.OfName) (hnot : ∀ s, type ≠ .function s) :
    type.Scalar := by
  rcases h with hfirst | ⟨b, -, rfl⟩
  · cases type with
    | function s => exact absurd rfl (hnot s)
    | _ => exact hfirst
  · exact absurd rfl (hnot b.signature)

/-! ### Statements -/

theorem endInReturn_cons_cons (s s' : Stmt) (ss : List Stmt) :
    Stmt.endInReturn (s :: s' :: ss) = Stmt.endInReturn (s' :: ss) := by
  unfold Stmt.endInReturn
  rw [List.getLast?_cons_cons]

/-- A statement that declares nothing. -/
theorem Executed.plain {m m' : Machine} {s : Stmt} {flow : Flow} (hs : s.declared? = none)
    (hwf : s.WellFormed) (hlater : Later program table [] m m')
    (hflow : FlowFits program table (.stmt s) m' flow)
    (hreturns : Stmt.endInReturn [s] = true → flow ≠ .normal) :
    Executed program table m s flow m' := by
  refine ⟨?_, hflow, hreturns, fun _ site t _ ht hstands => ?_⟩
  · rw [hs]
    exact hlater
  · rw [Typing.stmt_scopes s hwf hs ht]
    exact hstands.later hlater

/-- A statement that declares nothing and does not have to return. -/
theorem Executed.passing {m m' : Machine} {s : Stmt} {flow : Flow} (hs : s.declared? = none)
    (hwf : s.WellFormed) (hreturn : Stmt.endInReturn [s] = false)
    (hlater : Later program table [] m m') (hflow : FlowFits program table (.stmt s) m' flow) :
    Executed program table m s flow m' := by
  refine .plain hs hwf hlater hflow fun hends => ?_
  rw [hreturn] at hends
  cases hends

/-- A statement that binds the name that it declares to a value of its type. -/
theorem Executed.declares {m m' : Machine} {s : Stmt} {x : String} {v : Value}
    (hs : s.declared? = some x) (hlater : Later program table [x] m m')
    (hv : m'.heap.lookup? m'.current x = some v)
    (htyped : ∀ site t, walk.Visits (start table program) ⟨.stmt s, site⟩ →
      Typing.stmt site.context s site.typing = .ok t →
      ∃ type, v.Fits type ∧ t.scopes = site.typing.scopes.declare x type) :
    Executed program table m s .normal m' := by
  refine ⟨?_, trivial, fun hreturn => ?_, fun _ site t hvisit ht hstands => ?_⟩
  · rw [hs]
    exact hlater
  · cases s with
    | ret => cases hs
    | _ => cases hreturn
  · obtain ⟨type, hfits, hscopes⟩ := htyped site t hvisit ht
    rw [hscopes]
    exact hstands.declare hlater hv hfits

/-- A statement inside another one that runs in its place. -/
theorem Executed.inside {m m₁ m' : Machine} {s s' : Stmt} {flow : Flow} (hs : s.declared? = none)
    (hwf : s.WellFormed) (hreturn : Stmt.endInReturn [s] = false) (hs' : s'.declared? = none)
    (hlater : Later program table [] m m₁) (h : Executed program table m₁ s' flow m')
    (hinside : ∀ site, walk.Visits (start table program) ⟨.stmt s, site⟩ →
      ∃ site', walk.Visits (start table program) ⟨.stmt s', site'⟩ ∧
        site'.context.returns = site.context.returns) :
    Executed program table m s flow m' := by
  have hlater' : Later program table [] m₁ m' := by
    have := h.later
    rwa [hs'] at this
  exact .passing hs hwf hreturn (hlater.trans hlater') (h.fits.outward hinside)

/-- A condition is a Boolean. -/
theorem gives_boolean {site : Site} {e : Expr} {keyword : Position}
    (hplace : FirstOrderSite table site) (hwf : e.WellFormed) (hbasic : e.isBasic table = true)
    (hvisit : walk.Visits (start table program) ⟨.expr e, site⟩)
    (h : Typing.condition site.context site.typing keyword e = .ok ()) :
    Gives table program e .boolean := by
  obtain ⟨type, htype, hboolean⟩ := Typing.condition_ok h
  cases (hplace.firstOrder hwf hbasic htype).eq_boolean hboolean
  exact ⟨site, hvisit, htype⟩

/-- A variable holds a value of its type, whether that is written or not. -/
theorem fits_declaredType {site : Site} {name : Name} {written : Option TypeName} {e : Expr}
    {v : Value} {type : StaticType} (hplace : FirstOrderSite table site) (hwf : e.WellFormed)
    (hbasic : e.isBasic table = true)
    (hvisit : walk.Visits (start table program) ⟨.expr e, site⟩) (hv : Typed program table e v)
    (h : Typing.declaredType site.context site.typing name written (some e) = .ok type) :
    v.Fits type := by
  obtain ⟨inferred, hinferred, hcases⟩ := Typing.declaredType_ok h
  have hfits : v.Fits inferred := hv inferred ⟨site, hvisit, hinferred⟩
  rcases hcases with ⟨rfl, rfl⟩ | ⟨⟨writtenType, hwritten⟩, hcompatible⟩
  · exact hfits
  · have hscalar := TypeName.scalar_of_scalar? (Typing.annotated_scalar hplace.scopes hwritten)
    have hfirst := hplace.firstOrder hwf hbasic hinferred
    exact hfits.of_compatible hscalar.firstOrder hfirst hcompatible

section Steps

open Job Eval

/-- A machine is as sound in another frame. -/
theorem Sound.enter {m : Machine} (hm : Sound program table m) (frame : FrameId) :
    Sound program table { m with current := frame } :=
  ⟨hm.values, hm.table⟩

/-- A list of statements in a new frame. -/
theorem plan_within {n : Nat} {m m₁ : Machine} {body : List Stmt} {frame : FrameId} {site : Site}
    (hlater : Later program table [] m m₁) (hnew : m.heap.frame? frame = none)
    (hvisit : walk.Visits (start table program) ⟨.stmts body, site⟩)
    (hstands : Stands { m₁ with current := frame } site.typing.scopes) :
    Plan (Ready program table) (Done program table n)
      [⟨.executeAll body, { m₁ with current := frame }⟩] (within frame (executeAll n body)) m₁
      (fun flow m' => Later program table [] m m' ∧ FlowFits program table (.stmts body) m' flow ∧
        (Stmt.endInReturn body = true → flow ≠ .normal)) TypesKept := by
  refine .single ⟨hlater.sound.enter frame, site, hvisit, hstands⟩ fun hdone => Ensures.within ?_
  refine hdone.mono (fun flow m' h => ⟨?_, h.fits, h.returns⟩) fun _ _ h => h
  rw [hlater.current]
  exact hlater.back hnew h.later

theorem plan_evaluate {n : Nat} {m : Machine} {e : Expr} {site : Site} {type : StaticType}
    (hvalid : ∀ v, walk.Visits (start table program) v → Valid table v)
    (hm : Sound program table m) (hvisit : walk.Visits (start table program) ⟨.expr e, site⟩)
    (hstands : Stands m site.typing.scopes)
    (htype : Typing.typeOf site.context site.typing e = .ok type) :
    Plan (Ready program table) (Done program table n) (ofExpr n m e) (evaluate (n + 1) e) m
      (GivesValue program table m type) TypesKept := by
  have hplaced : Placed program table (.expr e) m := ⟨site, hvisit, hstands⟩
  have hwf : e.WellFormed := (hvalid _ hvisit).wellFormed
  have hplace := (hvalid _ hvisit).place
  have hrefl : Later program table [] m m := Later.refl hm
  -- A part of the expression is ready on every later machine, and has its type there.
  have hready : ∀ {e'}, .expr e' ∈ e.parts → ∀ {m'}, Later program table [] m m' →
      Ready program table ⟨.evaluate e', m'⟩ :=
    fun hpart _ hlater => ⟨hlater.sound, hplaced.part hpart hlater⟩
  have hdone : ∀ {e' type' m'}, .expr e' ∈ e.parts →
      Typing.typeOf site.context site.typing e' = .ok type' →
      Done program table n ⟨.evaluate e', m'⟩ →
      Ensures (evaluate n e') m' (GivesValue program table m' type') TypesKept :=
    fun hpart htype' h => h _ ⟨site, hvisit.tail (List.mem_map_of_mem hpart), htype'⟩
  -- The type of a part that is not called is of first order.
  have hfirst : ∀ {e' type'}, e'.WellFormed → e'.isBasic table = true →
      Typing.typeOf site.context site.typing e' = .ok type' → type'.FirstOrder :=
    fun hwf' hbasic' htype' => hplace.firstOrder hwf' hbasic' htype'
  have hbasic : (∀ ref, e ≠ .var ref) → e.isBasic table = true :=
    fun hne => (hvalid _ hvisit).basic.resolve_right (not_exists.mpr hne)
  cases e with
  | literal value =>
    refine .nil ?_
    cases value <;> cases htype <;> exact ⟨hrefl, trivial, trivial⟩
  | grouping inner =>
    rw [Typing.typeOf] at htype
    exact .single (hready (by simp [Expr.parts]) hrefl) (hdone (by simp [Expr.parts]) htype)
  | unary operator operand =>
    obtain ⟨operandType, hoperand, hunary⟩ := Typing.typeOf_unary_ok htype
    have hfirst' := hfirst hwf.2 (hbasic (by simp)) hoperand
    refine .last (hready (by simp [Expr.parts]) hrefl) (hdone (by simp [Expr.parts]) hoperand)
      fun v m₁ _ h => ?_
    obtain ⟨hlater, -, hv⟩ := h
    exact GivesValue.trans hlater (ensures_lift hlater.sound (Typing.unary_scalar hunary)
      (Operator.unary_fits hwf.1 hfirst' hunary hv))
  | binary left operator right =>
    obtain ⟨leftType, rightType, hleft, hright, hbinary⟩ := Typing.typeOf_binary_ok htype
    have hparts := Bool.and_eq_true_iff.mp (hbasic (by simp))
    refine .cons (hready (by simp [Expr.parts]) hrefl) (hdone (by simp [Expr.parts]) hleft)
      fun v m₁ _ h => ?_
    obtain ⟨hlater, -, hv⟩ := h
    refine .last (hready (by simp [Expr.parts]) hlater) (hdone (by simp [Expr.parts]) hright)
      fun w m₂ _ h => ?_
    obtain ⟨hlater', -, hw⟩ := h
    exact GivesValue.trans (hlater.trans hlater') (ensures_lift hlater'.sound
      (Typing.binary_scalar hbinary) (Operator.binary_fits hwf.1 (hfirst hwf.2.1 hparts.1 hleft)
        (hfirst hwf.2.2 hparts.2 hright) hbinary hv hw))
  | logical left operator right =>
    obtain ⟨leftType, rightType, hleft, hright, hl, hr, rfl⟩ := Typing.typeOf_logical_ok htype
    have hparts := Bool.and_eq_true_iff.mp (hbasic (by simp))
    cases (hfirst hwf.1 hparts.1 hleft).eq_boolean hl
    cases (hfirst hwf.2 hparts.2 hright).eq_boolean hr
    refine .cons (hready (by simp [Expr.parts]) hrefl) (hdone (by simp [Expr.parts]) hleft)
      fun v m₁ _ h => ?_
    obtain ⟨hlater, -, hv⟩ := h
    obtain ⟨b, rfl⟩ := hv.boolean
    simp only
    split
    · exact .nil ⟨hlater, trivial, trivial⟩
    · exact .single (hready (by simp [Expr.parts]) hlater) fun h =>
        GivesValue.trans hlater (hdone (by simp [Expr.parts]) hright h)
  | ternary condition question yes no =>
    obtain ⟨conditionType, noType, hcondition, hboolean, hyes, hno, hcompatible⟩ :=
      Typing.typeOf_ternary_ok htype
    have hparts := hbasic (by simp)
    simp only [Expr.isBasic, Bool.and_eq_true] at hparts
    obtain ⟨⟨hbc, hby⟩, hbn⟩ := hparts
    cases (hfirst hwf.1 hbc hcondition).eq_boolean hboolean
    refine .cons (hready (by simp [Expr.parts]) hrefl) (hdone (by simp [Expr.parts]) hcondition)
      fun v m₁ _ h => ?_
    obtain ⟨hlater, -, hv⟩ := h
    obtain ⟨b, rfl⟩ := hv.boolean
    cases b
    · refine .single (hready (by simp [Expr.parts]) hlater) fun h => GivesValue.trans hlater ?_
      have hvalue := hdone (by simp [Expr.parts]) hno h
      refine hvalue.mono (fun w m₂ h => ⟨h.1, h.2.1, ?_⟩) fun _ _ h => h
      exact h.2.2.of_compatible (hfirst hwf.2.1 hby hyes) (hfirst hwf.2.2 hbn hno) hcompatible
    · exact .single (hready (by simp [Expr.parts]) hlater) fun h =>
        GivesValue.trans hlater (hdone (by simp [Expr.parts]) hyes h)
  | var ref =>
    rw [Typing.typeOf] at htype
    exact .nil (ensures_lookUp hm hstands hplace.table htype)
  | this ref =>
    rw [Typing.typeOf] at htype
    exact .nil (ensures_lookUp hm hstands hplace.table htype)
  | super keyword method => exact absurd htype (Typing.typeOf_super_ne_ok hplace.scopes)
  | assign target value =>
    obtain ⟨declared, hvalue, hdeclared, hnot, hcompatible⟩ := Typing.typeOf_assign_ok htype
    have hscalar : declared.Scalar := scalar_of_ofName (hplace.scopes.lookUp hdeclared).1 hnot
    cases hscalar.eq_of_compatible (hfirst hwf.2 (hbasic (by simp)) hvalue) hcompatible
    refine .last (hready (by simp [Expr.parts]) hrefl) (hdone (by simp [Expr.parts]) hvalue)
      fun v m₁ _ h => ?_
    obtain ⟨hlater, hv, hfits⟩ := h
    refine Ensures.bind (ensures_assign hlater.sound (hstands.later hlater) hplace.table hdeclared
      hscalar hfits) fun _ m₂ _ hlater' => ?_
    exact Ensures.pure ⟨hlater.trans hlater', hlater'.valueFits hv, hfits⟩
  | call callee paren arguments =>
    obtain ⟨calleeType, types, hcallee, htypes, hcall⟩ := Typing.typeOf_call_ok htype
    have hparts := Expr.isBasic_call (hbasic (by simp))
    rw [← hplace.table] at hparts
    have hname := Typing.ofName_of_typeOf hplace.scopes hwf.1 hparts.1 hcallee
    obtain ⟨s, rfl, haccepts, rfl, -⟩ := Typing.call_ok hname hcall
    refine .cons (hready (by simp [Expr.parts]) hrefl) (hdone (by simp [Expr.parts]) hcallee)
      fun f m₁ _ h => ?_
    obtain ⟨hlater, hf, hfits⟩ := h
    have harguments : Ready program table ⟨.evaluateAll arguments, m₁⟩ :=
      ⟨hlater.sound, hplaced.part (by simp [Expr.parts]) hlater⟩
    refine .cons harguments id fun values m₂ _ h => ?_
    obtain ⟨hlater', hvalues, htyped⟩ := h
    have hvisit' : walk.Visits (start table program) ⟨.exprs arguments, site⟩ :=
      hvisit.tail (by simp [Walk.enters, Expr.parts])
    have haccepted := Value.fits_of_accepts hname
      (Typing.firstOrder_of_typesOf hplace.scopes hwf.2 hparts.2 htypes) haccepts
      (fits_of_typed hvisit' htypes htyped)
    refine .single ⟨hlater'.sound, hlater'.valueFits hf, hvalues, s, hfits, haccepted⟩ fun h => ?_
    exact GivesValue.trans (hlater.trans hlater') (h s hfits)
  | get object name =>
    obtain ⟨id, hobject, -⟩ := Typing.typeOf_get_ok htype
    have hobjectWf : object.WellFormed := hwf
    exact absurd (hfirst hobjectWf (hbasic (by simp)) hobject) not_false
  | set object name value =>
    obtain ⟨id, hobject, -⟩ := Typing.typeOf_set_ok htype
    have hparts := Bool.and_eq_true_iff.mp (hbasic (by simp))
    exact absurd (hfirst hwf.1 hparts.1 hobject) not_false

theorem plan_evaluateAll {n : Nat} {m : Machine} {es : List Expr} (hm : Sound program table m)
    (hplaced : Placed program table (.exprs es) m)
    (hvalid : ∀ v, walk.Visits (start table program) v → Valid table v)
    (hnodup : ((Stmt.referencesAll program).map Reference.id).Nodup) :
    Plan (Ready program table) (Done program table n) (Job.next n ⟨.evaluateAll es, m⟩)
      (evaluateAll (n + 1) es) m
      (fun vs m' => Later program table [] m m' ∧
        (∀ v ∈ vs, ValueFits program table m'.heap m'.globals v) ∧
        List.Forall₂ (Typed program table) es vs) TypesKept := by
  cases es with
  | nil => exact .nil ⟨.refl hm, List.forall_mem_nil _, .nil⟩
  | cons e es =>
    obtain ⟨site, hvisit, hstands⟩ := hplaced
    have hvisit' : walk.Visits (start table program) ⟨.expr e, site⟩ :=
      hvisit.tail (by simp [Walk.enters])
    obtain ⟨type, htype⟩ := (hvalid _ hvisit').accepted
    have hgives : Gives table program e type := ⟨site, hvisit', htype⟩
    refine .cons ⟨hm, site, hvisit', hstands⟩ (fun h => h type hgives) fun v m₁ _ h => ?_
    obtain ⟨hlater, hv, hfits⟩ := h
    have hrest : Ready program table ⟨.evaluateAll es, m₁⟩ :=
      ⟨hlater.sound, site, hvisit.tail (by simp [Walk.enters]), hstands.later hlater⟩
    refine .last hrest id fun vs m₂ _ h => ?_
    obtain ⟨hlater', hvs, htyped⟩ := h
    refine Ensures.pure ⟨hlater.trans hlater',
      List.forall_mem_cons.mpr ⟨hlater'.valueFits hv, hvs⟩, .cons ?_ htyped⟩
    -- The checker gives the expression one type only.
    intro type' hgives'
    rw [hgives.unique hnodup hgives']
    exact hfits

theorem plan_call {n : Nat} {m : Machine} {callee : Value} {arguments : List Value}
    {paren : Position} {s : Signature} (hm : Sound program table m)
    (hcallee : ValueFits program table m.heap m.globals callee)
    (hvalues : ∀ v ∈ arguments, ValueFits program table m.heap m.globals v)
    (hfits : callee.Fits (.function s)) (harguments : List.Forall₂ Value.Fits arguments s.params) :
    Plan (Ready program table) (Done program table n) (ofCallee m arguments callee)
      (Eval.call (n + 1) callee arguments paren) m (GivesValue program table m s.returns)
      TypesKept := by
  cases callee with
  | builtin b =>
    rw [hfits.1] at harguments
    rw [hfits.2]
    exact .skip (checkCount_eq_ok harguments.length_eq) (.nil (ensures_builtin hm harguments))
  | function identity closure =>
    have hlength : arguments.length = closure.arity :=
      harguments.length_eq.trans (FunctionDecl.Declares.length hfits)
    rw [ofCallee, if_pos hlength]
    refine .skip (checkCount_eq_ok hlength) ?_
    exact .single ⟨hm, hcallee, hvalues, s, hfits, harguments⟩ fun h => h s hfits
  | _ => cases hfits

/-- A function that has nothing to return declares that. -/
theorem returns_of_isNothing {decl : FunctionDecl} {s : Signature} (h : decl.Declares s)
    (hnothing : TypeName.isNothing decl.returns = true) : s.returns = .void := by
  have hreturns := h.returns
  cases hwritten : decl.returns with
  | none =>
    rw [hwritten] at hreturns
    exact (Option.some.inj hreturns).symm
  | some written =>
    rw [hwritten] at hreturns hnothing
    rw [of_decide_eq_true hnothing] at hreturns
    exact (Option.some.inj hreturns).symm

theorem plan_invoke {n : Nat} {m : Machine} {closure : Closure} {arguments : List Value}
    {s : Signature} (hvalid : ∀ v, walk.Visits (start table program) v → Valid table v)
    (hm : Sound program table m) (hclosure : ClosureFits program table m.heap m.globals closure)
    (hvalues : ∀ v ∈ arguments, ValueFits program table m.heap m.globals v)
    (hdeclares : closure.decl.Declares s)
    (harguments : List.Forall₂ Value.Fits arguments s.params) :
    Plan (Ready program table) (Done program table n)
      (Job.next n ⟨.invoke closure arguments, m⟩) (invoke (n + 1) closure arguments) m
      (GivesValue program table m s.returns) TypesKept := by
  obtain ⟨hplain, site, s', hvisit, hs', hmatch⟩ := hclosure
  have hfunction := hvalid _ hvisit
  have halike := hdeclares.alike (Typing.declares_of_signature hfunction.place.scopes hs')
  have hbody : walk.Visits (start table program) ⟨.stmts closure.decl.body,
      walk.function closure.decl site⟩ := hvisit.tail (by simp [Walk.enters, Walk.entersStmt])
  rw [Typing.walk_function hs'] at hbody
  -- The new frame binds the parameters to values of their types.
  rw [← halike.1] at harguments
  have hstands := Stands.params hmatch hfunction.nodup_params
    (halike.1 ▸ hdeclares.length) harguments
  have hbindings : ∀ x v, (Bindings.ofList ((closure.decl.params.map fun p => p.name.text).zip
      arguments)).find? x = some v → ValueFits program table m.heap m.globals v := by
    intro x v hv
    exact hvalues v (List.of_mem_zip (Bindings.find?_ofList hv)).2
  have hlater : Later program table [] m _ := Later.alloc hm closure.frame hbindings
  rw [invoke, Job.next]
  refine .bind (P := fun frame m' => frame = m.heap.next ∧ m' = _) (Ensures.newFrame ⟨rfl, rfl⟩)
    fun frame m₁ _ h => ?_
  obtain ⟨rfl, rfl⟩ := h
  refine (plan_within hlater (Heap.frame?_next _) hbody hstands).andThen fun flow m₂ _ h => ?_
  obtain ⟨hlater', hflow, hreturned⟩ := h
  rw [hplain]
  cases flow with
  | returned v =>
    refine Ensures.pure ⟨hlater', hflow.1, ?_⟩
    rw [← halike.2]
    exact hflow.2 _ hbody _ rfl
  | normal =>
    -- A function that has something to return ends in a `return`.
    have hnothing : TypeName.isNothing closure.decl.returns = true := by
      have hbasic : FunctionDecl.isBasic table closure.decl = true := hfunction.basic
      obtain ⟨decl, frame, isInitializer⟩ := closure
      obtain ⟨name, params, returns, body⟩ := decl
      rw [FunctionDecl.isBasic, Bool.and_eq_true, Bool.or_eq_true] at hbasic
      exact hbasic.1.resolve_right fun hends => hreturned hends rfl
    refine Ensures.pure ⟨hlater', trivial, ?_⟩
    rw [returns_of_isNothing hdeclares hnothing]
    trivial

/-- What a `return` gives is of the type that the function around it returns. -/
theorem flowFits_ret {m : Machine} {keyword : Position} {value : Option Expr} {v : Value}
    (hvalid : ∀ v, walk.Visits (start table program) v → Valid table v)
    (hv : ValueFits program table m.heap m.globals v)
    (hfits : ∀ site actual, walk.Visits (start table program) ⟨.stmt (.ret keyword value), site⟩ →
      value.elim (.ok .void) (Typing.typeOf site.context site.typing) = .ok actual →
      v.Fits actual ∧ actual.FirstOrder) :
    FlowFits program table (.stmt (.ret keyword value)) m (.returned v) := by
  refine ⟨hv, fun site hvisit type htype => ?_⟩
  obtain ⟨t, ht⟩ := (hvalid _ hvisit).accepted
  obtain ⟨expected, actual, hexpected, hactual, hcompatible, -⟩ := Typing.stmt_ret_ok ht
  have hscalar := (hvalid _ hvisit).place.returns type htype
  rw [Option.mem_def, hexpected] at htype
  cases htype
  obtain ⟨hfits', hfirst⟩ := hfits site actual hvisit hactual
  exact hfits'.of_compatible hscalar.firstOrder hfirst hcompatible

theorem plan_execute {n : Nat} {m : Machine} {s : Stmt}
    (hvalid : ∀ v, walk.Visits (start table program) v → Valid table v)
    (hnodup : ((Stmt.referencesAll program).map Reference.id).Nodup)
    (hm : Sound program table m) (hplaced : Placed program table (.stmt s) m) :
    Plan (Ready program table) (Done program table n) (ofStmt n m s) (execute (n + 1) s) m
      (Executed program table m s) TypesKept := by
  obtain ⟨site, hvisit, hstands⟩ := hplaced
  have hwf : s.WellFormed := (hvalid _ hvisit).wellFormed
  have hbasic : s.isBasic table = true := (hvalid _ hvisit).basic
  have hplace := (hvalid _ hvisit).place
  obtain ⟨t, ht⟩ := (hvalid _ hvisit).accepted
  have hrefl : Later program table [] m m := .refl hm
  -- A part that the walk enters is ready wherever the names in scope there fit.
  have hexpr : ∀ {e site'}, ⟨.expr e, site'⟩ ∈ walk.entersStmt s site →
      Stands m site'.typing.scopes → Ready program table ⟨.evaluate e, m⟩ :=
    fun hmem hstands' => ⟨hm, _, hvisit.tail hmem, hstands'⟩
  have hstmt : ∀ {s' site' m'}, ⟨.stmt s', site'⟩ ∈ walk.entersStmt s site →
      Later program table [] m m' → Stands m' site'.typing.scopes →
      Ready program table ⟨.execute s', m'⟩ :=
    fun hmem hlater hstands' => ⟨hlater.sound, _, hvisit.tail hmem, hstands'⟩
  cases s with
  | expression e =>
    obtain ⟨⟨type, htype⟩, -⟩ := Typing.stmt_expression_ok ht
    have hvisit' : walk.Visits (start table program) ⟨.expr e, site⟩ :=
      hvisit.tail (by simp [Walk.enters, Walk.entersStmt])
    refine .last (hexpr (by simp [Walk.entersStmt]) hstands)
      (fun h => h type ⟨site, hvisit', htype⟩) fun _ m₁ _ h => ?_
    exact Ensures.pure (.passing rfl hwf rfl h.1 trivial)
  | val name written initializer =>
    cases initializer with
    | none => cases hbasic
    | some e =>
      obtain ⟨type, hdeclared, -⟩ := Typing.stmt_val_ok ht
      obtain ⟨inferred, hinferred, -⟩ := Typing.declaredType_ok hdeclared
      have henters : ∀ site',
          walk.Visits (start table program) ⟨.stmt (.val name written e), site'⟩ →
          walk.Visits (start table program) ⟨.expr e, site'⟩ :=
        fun _ h => h.tail (by simp [Walk.enters, Walk.entersStmt]; rfl)
      have hgives : Gives table program e inferred := ⟨site, henters site hvisit, hinferred⟩
      have hnew := (hvalid _ hvisit).declaredHere_eq_false name.text rfl
      refine .last (hexpr (by simp [Walk.entersStmt]; rfl) hstands) (fun h => h inferred hgives)
        fun v m₁ _ h => ?_
      obtain ⟨hlater, hv, hfits⟩ := h
      have htyped : Typed program table e v := fun type' hgives' =>
        hgives.unique hnodup hgives' ▸ hfits
      refine Ensures.bind (ensures_define hlater.sound (hstands.later hlater) hnew hfits
        fun _ hkeeps _ => hv.mono hkeeps) fun _ m₂ _ h => ?_
      refine Ensures.pure (.declares rfl ((hlater.mono (List.nil_subset _)).trans h.1) h.2 ?_)
      intro site' t' hvisit' ht'
      obtain ⟨type', hdeclared', rfl⟩ := Typing.stmt_val_ok ht'
      exact ⟨type', fits_declaredType (hvalid _ hvisit').place (hwf.2.2 e rfl) hbasic
        (henters site' hvisit') htyped hdeclared', rfl⟩
  | block body =>
    have henters : ∀ site', walk.Visits (start table program) ⟨.stmt (.block body), site'⟩ →
        walk.Visits (start table program) ⟨.stmts body, walk.block site'⟩ :=
      fun _ h => h.tail (by simp [Walk.enters, Walk.entersStmt])
    have hlater :
        Later program table [] m { m with heap := m.heap.alloc (some m.current) .empty } :=
      Later.alloc hm m.current fun _ _ hv => (by cases hv)
    rw [ofStmt]
    refine .skip (x := currentFrame) rfl (.bind (P := fun frame m' => frame = m.heap.next ∧ m' = _)
      (Ensures.newFrame ⟨rfl, rfl⟩) fun frame m₁ _ h => ?_)
    obtain ⟨rfl, rfl⟩ := h
    refine (plan_within hlater (Heap.frame?_next _) (henters site hvisit) hstands.openFrame).imp
      fun flow m' h => Executed.passing rfl hwf rfl h.1 (h.2.1.outward fun site' hvisit' => ?_)
    exact ⟨walk.block site', henters site' hvisit', rfl⟩
  | ifThen keyword condition yes =>
    rw [Stmt.isBasic, Bool.and_eq_true] at hbasic
    obtain ⟨hcondition, -⟩ := Typing.stmt_ifThen_ok ht
    have hgives := gives_boolean hplace hwf.1 hbasic.1
      (hvisit.tail (by simp [Walk.enters, Walk.entersStmt])) hcondition
    refine .cons (hexpr (by simp [Walk.entersStmt]) hstands) (fun h => h _ hgives)
      fun v m₁ _ h => ?_
    obtain ⟨hlater, -, hv⟩ := h
    obtain ⟨b, rfl⟩ := hv.boolean
    cases b with
    | false => exact .nil (Ensures.pure (.passing rfl hwf rfl hlater trivial))
    | true =>
      refine .single (hstmt (by simp [Walk.entersStmt]) hlater (hstands.later hlater)) fun hdone =>
        hdone.mono (fun _ _ h => .inside rfl hwf rfl hwf.2.2 hlater h ?_) fun _ _ h => h
      exact fun site' h' => ⟨site', h'.tail (by simp [Walk.enters, Walk.entersStmt]), rfl⟩
  | ifElse keyword condition yes no =>
    simp only [Stmt.isBasic, Bool.and_eq_true] at hbasic
    obtain ⟨hcondition, t₁, hyes, -⟩ := Typing.stmt_ifElse_ok ht
    have hgives := gives_boolean hplace hwf.1 hbasic.1.1
      (hvisit.tail (by simp [Walk.enters, Walk.entersStmt])) hcondition
    refine .cons (hexpr (by simp [Walk.entersStmt]) hstands) (fun h => h _ hgives)
      fun v m₁ _ h => ?_
    obtain ⟨hlater, -, hv⟩ := h
    obtain ⟨b, rfl⟩ := hv.boolean
    cases b with
    | false =>
      have hstands' : Stands m₁ (walk.after yes site).typing.scopes := by
        rw [Typing.walk_after hyes, Typing.stmt_scopes yes hwf.2.1.1 hwf.2.1.2 hyes]
        exact hstands.later hlater
      have hmem : (⟨.stmt no, walk.after yes site⟩ : Visit Site) ∈
          walk.entersStmt (.ifElse keyword condition yes no) site := by simp [Walk.entersStmt]
      refine .single (hstmt hmem hlater hstands') fun hdone =>
        hdone.mono (fun _ _ h => .inside rfl hwf rfl hwf.2.2.2 hlater h ?_) fun _ _ h => h
      exact fun site' h' => ⟨walk.after yes site',
        h'.tail (by simp [Walk.enters, Walk.entersStmt]), rfl⟩
    | true =>
      refine .single (hstmt (by simp [Walk.entersStmt]) hlater (hstands.later hlater)) fun hdone =>
        hdone.mono (fun _ _ h => .inside rfl hwf rfl hwf.2.1.2 hlater h ?_) fun _ _ h => h
      exact fun site' h' => ⟨site', h'.tail (by simp [Walk.enters, Walk.entersStmt]), rfl⟩
  | whileLoop keyword condition body =>
    rw [Stmt.isBasic, Bool.and_eq_true] at hbasic
    obtain ⟨hcondition, -⟩ := Typing.stmt_whileLoop_ok ht
    have hgives := gives_boolean hplace hwf.1 hbasic.1
      (hvisit.tail (by simp [Walk.enters, Walk.entersStmt])) hcondition
    refine .cons (hexpr (by simp [Walk.entersStmt]) hstands) (fun h => h _ hgives)
      fun v m₁ _ h => ?_
    obtain ⟨hlater, -, hv⟩ := h
    obtain ⟨b, rfl⟩ := hv.boolean
    cases b with
    | false => exact .nil (Ensures.pure (.passing rfl hwf rfl hlater trivial))
    | true =>
      refine .cons (hstmt (by simp [Walk.entersStmt]) hlater (hstands.later hlater)) id
        fun flow m₂ _ h => ?_
      have hlater' : Later program table [] m₁ m₂ := by
        have := h.later
        rwa [hwf.2.2] at this
      cases flow with
      | returned v =>
        refine .nil (Ensures.pure (.inside rfl hwf rfl hwf.2.2 hlater h ?_))
        exact fun site' h' => ⟨site', h'.tail (by simp [Walk.enters, Walk.entersStmt]), rfl⟩
      | normal =>
        -- The loop goes on where it stands.
        have hall := hlater.trans hlater'
        refine .single ⟨hall.sound, site, hvisit, hstands.later hall⟩ fun hdone =>
          hdone.mono (fun _ _ h => .inside rfl hwf rfl rfl hall h ?_) fun _ _ h => h
        exact fun site' h' => ⟨site', h', rfl⟩
  | funDecl decl =>
    obtain ⟨s, hs, -⟩ := Typing.stmt_funDecl_ok ht
    have hnew := (hvalid _ hvisit).declaredHere_eq_false decl.name.text rfl
    have hdeclares := Typing.declares_of_signature hplace.scopes hs
    refine .nil (Ensures.bind (x := currentFrame) (P := fun frame m' => frame = m.current ∧ m' = m)
      ⟨rfl, rfl⟩ ?_)
    rintro _ _ - ⟨rfl, rfl⟩
    refine Ensures.bind (ensures_newIdentity hm) fun identity m₁ _ hlater => ?_
    have hfits (frame : FrameId) :
        (Value.function identity ⟨decl, frame, false⟩).Fits (.function s) := hdeclares
    refine Ensures.bind (ensures_define hlater.sound (hstands.later hlater) hnew (hfits _) ?_)
      fun _ m₂ _ h => ?_
    · intro h hkeeps hmatch
      rw [hlater.current] at hmatch
      exact ⟨rfl, site, s, hvisit, hs, hmatch⟩
    · refine Ensures.pure (.declares rfl ((hlater.mono (List.nil_subset _)).trans h.1) h.2 ?_)
      intro site' t' hvisit' ht'
      obtain ⟨s', hs', hfunction⟩ := Typing.stmt_funDecl_ok ht'
      refine ⟨.function s', Typing.declares_of_signature (hvalid _ hvisit').place.scopes hs', ?_⟩
      exact (Typing.accepts_body
        ⟨site'.context, site'.typing.declare decl.name.text (.function s')⟩ hfunction).2
  | ret keyword value =>
    cases value with
    | none =>
      refine .nil (Ensures.pure (.plain rfl hwf hrefl (flowFits_ret hvalid trivial ?_)
        fun _ => Flow.noConfusion))
      rintro site' actual - hactual
      cases hactual
      exact ⟨trivial, trivial⟩
    | some e =>
      obtain ⟨-, inferred, -, hinferred, -⟩ := Typing.stmt_ret_ok ht
      have henters : ∀ site', walk.Visits (start table program) ⟨.stmt (.ret keyword e), site'⟩ →
          walk.Visits (start table program) ⟨.expr e, site'⟩ :=
        fun _ h => h.tail (by simp [Walk.enters, Walk.entersStmt])
      have hgives : Gives table program e inferred := ⟨site, henters site hvisit, hinferred⟩
      refine .last (hexpr (by simp [Walk.entersStmt]) hstands) (fun h => h inferred hgives)
        fun v m₁ _ h => ?_
      obtain ⟨hlater, hv, hfits⟩ := h
      refine Ensures.pure (.plain rfl hwf hlater (flowFits_ret hvalid hv ?_)
        fun _ => Flow.noConfusion)
      intro site' actual hvisit' hactual
      have hgives' : Gives table program e actual := ⟨site', henters site' hvisit', hactual⟩
      exact ⟨hgives.unique hnodup hgives' ▸ hfits,
        (hvalid _ hvisit').place.firstOrder (hwf e rfl) hbasic hactual⟩
  | classDecl name superclass decls => cases hbasic

theorem plan_executeAll {n : Nat} {m : Machine} {ss : List Stmt}
    (hvalid : ∀ v, walk.Visits (start table program) v → Valid table v)
    (hm : Sound program table m) (hplaced : Placed program table (.stmts ss) m) :
    Plan (Ready program table) (Done program table n) (Job.next n ⟨.executeAll ss, m⟩)
      (executeAll (n + 1) ss) m (ExecutedAll program table m ss) TypesKept := by
  cases ss with
  | nil => exact .nil ⟨.refl hm, trivial, fun hends => absurd hends Bool.false_ne_true⟩
  | cons s ss =>
    obtain ⟨site, hvisit, hstands⟩ := hplaced
    have hvisit' : walk.Visits (start table program) ⟨.stmt s, site⟩ :=
      hvisit.tail (by simp [Walk.enters])
    obtain ⟨t, ht⟩ := (hvalid _ hvisit').accepted
    have hfirst : s.declared?.toList ⊆ (s :: ss).filterMap Stmt.declared? := by
      cases hs : s.declared? <;> simp [hs]
    have hrest : ss.filterMap Stmt.declared? ⊆ (s :: ss).filterMap Stmt.declared? :=
      (List.Sublist.filterMap _ (List.sublist_cons_self s ss)).subset
    refine .cons ⟨hm, site, hvisit', hstands⟩ id fun flow m₁ _ h => ?_
    cases flow with
    | returned v =>
      refine .nil (Ensures.pure ⟨h.later.mono hfirst, h.fits.outward ?_, fun _ => Flow.noConfusion⟩)
      exact fun site' h' => ⟨site', h'.tail (by simp [Walk.enters]), rfl⟩
    | normal =>
      have hready : Ready program table ⟨.executeAll ss, m₁⟩ := by
        refine ⟨h.later.sound, walk.after s site, hvisit.tail (by simp [Walk.enters]), ?_⟩
        rw [Typing.walk_after ht]
        exact h.stands rfl site t hvisit' ht hstands
      refine .single hready fun hdone => hdone.mono (fun flow m₂ h' => ?_) fun _ _ h => h
      refine ⟨(h.later.mono hfirst).trans (h'.later.mono hrest), h'.fits.outward ?_, ?_⟩
      · exact fun site' hsite' => ⟨walk.after s site', hsite'.tail (by simp [Walk.enters]), rfl⟩
      · intro hends
        cases ss with
        | nil => exact absurd rfl (h.returns hends)
        | cons s' ss =>
          rw [endInReturn_cons_cons] at hends
          exact h'.returns hends

theorem ready_step (hvalid : ∀ v, walk.Visits (start table program) v → Valid table v)
    (hnodup : ((Stmt.referencesAll program).map Reference.id).Nodup)
    (n : Nat) (j : Job) (hj : Ready program table j) :
    (∀ j' ∈ j.next n, Ready program table j' → Done program table n j') →
      (∀ j' ∈ j.next n, Ready program table j') ∧ Done program table (n + 1) j := by
  obtain ⟨task, m⟩ := j
  obtain ⟨hm, hfits⟩ := hj
  intro hjobs
  cases task with
  | evaluate e =>
    obtain ⟨site, hvisit, hstands⟩ := hfits
    obtain ⟨type, htype⟩ := (hvalid _ hvisit).accepted
    obtain ⟨hready, hends⟩ := plan_evaluate hvalid hm hvisit hstands htype hjobs
    refine ⟨hready, fun type' hgives => ?_⟩
    have hunique : type' = type := Gives.unique hnodup ⟨site, hvisit, htype⟩ hgives
    exact hunique ▸ hends
  | evaluateAll es => exact plan_evaluateAll hm hfits hvalid hnodup hjobs
  | call callee arguments paren =>
    obtain ⟨hcallee, hvalues, s, hs, harguments⟩ := hfits
    obtain ⟨hready, hends⟩ := plan_call hm hcallee hvalues hs harguments hjobs
    refine ⟨hready, fun s' hs' => ?_⟩
    rw [(hs.alike hs').2]
    exact hends
  | invoke closure arguments =>
    obtain ⟨hclosure, hvalues, s, hs, harguments⟩ := hfits
    obtain ⟨hready, hends⟩ := plan_invoke hvalid hm hclosure hvalues hs harguments hjobs
    refine ⟨hready, fun s' hs' => ?_⟩
    rw [(hs.alike hs').2]
    exact hends
  | execute s => exact plan_execute hvalid hnodup hm hfits hjobs
  | executeAll ss => exact plan_executeAll hvalid hm hfits hjobs

end Steps

theorem done_zero (j : Job) (_ : Ready program table j) : Done program table 0 j := by
  obtain ⟨task, m⟩ := j
  cases task <;> simp only [Done] <;> intros <;> trivial

theorem lookup?_fresh_builtin (sink : Sink) (b : Builtin) :
    (Machine.fresh sink).heap.lookup? (Machine.fresh sink).globals b.name = some (.builtin b) := by
  show (Machine.fresh sink).heap.lookup? (Heap.empty : Heap Value).next b.name = _
  rw [Machine.fresh, Heap.lookup?_alloc_next]
  cases b <;> rfl

/-- Every run starts on a machine that fits. -/
theorem ready_fresh (program : Program) (table : Distances) (sink : Sink) :
    Ready program table ⟨.executeAll program, { Machine.fresh sink with table }⟩ := by
  have hglobals : HoldsTypes (Machine.fresh sink).heap Typing.initial.scopes.globals
      (Machine.fresh sink).globals := by
    intro x type htype
    -- The checker and the machine take their globals from the same list.
    obtain ⟨b, rfl, rfl⟩ := Typing.builtin_of_initial htype
    exact ⟨.builtin b, lookup?_fresh_builtin sink b, rfl, rfl⟩
  refine ⟨⟨fun f x v hv => ?_, rfl⟩, _, .refl, ⟨rfl, rfl, hglobals, rfl⟩, fun x hx => ?_⟩
  · obtain ⟨b, rfl, -⟩ := Machine.lookup?_fresh sink hv
    trivial
  · obtain ⟨v, hv⟩ := Option.isSome_iff_exists.mp hx
    obtain ⟨b, -, rfl⟩ := Machine.lookup?_fresh sink hv
    cases b <;> rfl

/-- The type that the checker gives an expression of a basic program has a tag of its own. -/
theorem ofName_of_gives {e : Expr} {type : StaticType}
    (hvalid : ∀ v, walk.Visits (start table program) v → Valid table v)
    (h : Gives table program e type) : type.OfName := by
  obtain ⟨site, hvisit, htype⟩ := h
  have hv := hvalid _ hvisit
  have hbasic : (Part.expr e).Basic site.context.table := hv.place.table ▸ hv.basic
  exact Typing.ofName_of_typeOf hv.place.scopes hv.wellFormed hbasic htype

end TypeSafety

/-! ### Programs -/

theorem Source.checked_eq_ok {source : String} {program : Program} {table : Distances}
    (h : Source.checked source = .ok (program, table)) :
    Source.program source = .ok program ∧ resolve program = .ok table ∧
      typecheck table program = .ok () := by
  obtain ⟨p, hp, h⟩ := except_bind_eq_ok.mp h
  obtain ⟨t, ht, h⟩ := except_bind_eq_ok.mp h
  cases h
  obtain ⟨t', ht', hcheck⟩ := except_bind_eq_ok.mp (mapError_eq_ok.mp ht)
  obtain ⟨_, htypes, heq⟩ := except_bind_eq_ok.mp hcheck
  cases heq
  exact ⟨hp, mapError_eq_ok.mp ht', mapError_eq_ok.mp htypes⟩

open TypeSafety

/-- A run of a basic program that passes the checks fails for no reason that types rule out, and
    every expression that it evaluates has the kind of the type that the checker gives it. -/
theorem run_keeps_types {source : String} {program : Program} {table : Distances}
    (hchecked : Source.checked source = .ok (program, table))
    (hbasic : Stmt.areBasic table program = true) (sink : Sink) (fuel : Nat) :
    (∀ fault m, (Machine.fresh sink).interpret fuel program table = (.failed fault, m) →
      fault.what.BeyondTypes) ∧
      ∀ k e m v m',
        Job.Reaches fuel ⟨.executeAll program, { Machine.fresh sink with table }⟩ k
          ⟨.evaluate e, m⟩ →
        Eval.evaluate k e m = .ok v m' →
        (∃ type, Typing.Gives table program e type) ∧
          ∀ type, Typing.Gives table program e type → type.tag? = some v.tag := by
  obtain ⟨hprogram, hresolve, hcheck⟩ := Source.checked_eq_ok hchecked
  have hwf := Source.program_wellFormed hprogram
  have hnodup := Source.program_nodup hprogram
  have hvalid : ∀ v, Typing.walk.Visits (Typing.start table program) v → Valid table v :=
    fun _ hv => valid_of_visits hwf hnodup hresolve hcheck hbasic hv
  have hstep := ready_step hvalid hnodup
  have hfresh := ready_fresh program table sink
  constructor
  · intro fault m hrun
    have hdone := Job.done_of_ready done_zero hstep fuel _ hfresh
    exact hdone.of_error (Machine.executeAll_of_interpret hrun)
  · intro k e m v m' hreach hvalue
    obtain ⟨⟨-, site, hvisit, -⟩, hdone⟩ := Job.of_reaches done_zero hstep hfresh hreach
    obtain ⟨type, htype⟩ := (hvalid _ hvisit).accepted
    refine ⟨⟨type, site, hvisit, htype⟩, fun type' hgives => ?_⟩
    exact ((hdone type' hgives).of_ok hvalue).2.2.tag? (ofName_of_gives hvalid hgives)

/-- Whether the job is the evaluation of an assignment and gives a value. -/
def Job.assigns : Nat × Job → Bool
  | (k, ⟨.evaluate (.assign target value), m⟩) =>
    match Eval.evaluate k (.assign target value) m with
    | .ok _ _ => true
    | .error _ _ => false
  | _ => false

theorem Job.exists_assign_of_assigns {k : Nat} {j : Job} (h : Job.assigns (k, j) = true) :
    ∃ target value m v m', j = ⟨.evaluate (.assign target value), m⟩ ∧
      Eval.evaluate k (.assign target value) m = .ok v m' := by
  obtain ⟨task, m⟩ := j
  unfold assigns at h
  split at h
  · next target value m heq =>
    cases heq
    split at h
    · next v m' hvalue => exact ⟨target, value, _, v, m', rfl, hvalue⟩
    · cases h
  · cases h

/-- A function as a value, a closure that assigns to a parameter, which the run comes to, a `return`
    in a loop, and an index that is out of range where it is used. -/
theorem run_keeps_types_closure :
    ∃ program table, Source.checked
        "def f(b: Boolean) -> String \x7b
          def stop() \x7b b = false; \x7d
          while (b) \x7b stop(); if (b) \x7b return charAt(\"ab\", 5); \x7d \x7d
          return \"ab\";
        \x7d
        val g = true ? f : f; println(g(true));" = .ok (program, table) ∧
      Stmt.areBasic table program = true ∧
      (∃ k target value m v m',
        Job.Reaches 22 ⟨.executeAll program, { Machine.fresh .unbounded with table }⟩ k
          ⟨.evaluate (.assign target value), m⟩ ∧
        Eval.evaluate k (.assign target value) m = .ok v m') ∧
      ∀ sink fuel,
        (∀ fault m, (Machine.fresh sink).interpret fuel program table = (.failed fault, m) →
          fault.what.BeyondTypes) ∧
          ∀ k e m v m',
            Job.Reaches fuel ⟨.executeAll program, { Machine.fresh sink with table }⟩ k
              ⟨.evaluate e, m⟩ →
            Eval.evaluate k e m = .ok v m' →
            (∃ type, Typing.Gives table program e type) ∧
              ∀ type, Typing.Gives table program e type → type.tag? = some v.tag := by
  have hfound : (Source.checked
        "def f(b: Boolean) -> String \x7b
          def stop() \x7b b = false; \x7d
          while (b) \x7b stop(); if (b) \x7b return charAt(\"ab\", 5); \x7d \x7d
          return \"ab\";
        \x7d
        val g = true ? f : f; println(g(true));").toOption.any
      (fun checked => Stmt.areBasic checked.2 checked.1 &&
        (Job.reached 22 ⟨.executeAll checked.1, { Machine.fresh .unbounded with
          table := checked.2 }⟩).any Job.assigns) = true := by
    decide +kernel
  obtain ⟨⟨program, table⟩, hchecked, hfound⟩ := exists_ok_of_any hfound
  obtain ⟨hbasic, hany⟩ := Bool.and_eq_true_iff.mp hfound
  obtain ⟨k, j, hreach, hassigns⟩ := Job.exists_reaches_of_any hany
  obtain ⟨target, value, m, v, m', rfl, hvalue⟩ := Job.exists_assign_of_assigns hassigns
  exact ⟨program, table, hchecked, hbasic, ⟨k, target, value, m, v, m', hreach, hvalue⟩,
    run_keeps_types hchecked hbasic⟩

end ClassScript
