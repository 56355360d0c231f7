import ClassScript.Proofs.CheckerInvariants
import ClassScript.Proofs.Discipline
import ClassScript.Pipeline

namespace ClassScript

/-!
# Where generic types come from

Inside the methods of a class a field may hold anything, so that reading it gives a generic type. A
variable takes such a type over if nothing is written down for it, and so does an expression from
some of its parts. None of this leads out of the method: what a method declares is bound in its own
frames, and functions take and return what is written down.

* `Typing.FromField`: a generic type that comes from reading a field;
* `Typing.fromField_of_typeOf`: every generic type of an expression does;
* `Scopes.Around`: the frames around a method, which stay as they are;
* `generic_types_stay_in_methods`: outside of methods nothing is generic.
-/

/-- The type is generic. -/
def StaticType.IsGeneric : StaticType → Prop
  | .generic _ => True
  | _ => False

/-- No name is bound to a generic type. -/
def Bindings.NoGeneric (b : Bindings StaticType) : Prop :=
  ∀ x type, b.find? x = some type → ¬ type.IsGeneric

/-- A type without parts is not generic. -/
theorem StaticType.Scalar.not_isGeneric {type : StaticType} (h : type.Scalar) :
    ¬ type.IsGeneric := by
  cases type with
  | generic tags => exact h.elim
  | _ => exact not_false

theorem StaticType.Written.not_isGeneric {names : List String} {type : StaticType}
    (h : type.Written names) : ¬ type.IsGeneric := by
  cases type with
  | generic tags => exact h.elim
  | _ => exact not_false

theorem StaticType.Admitted.not_isGeneric {names : List String} {current : Option ClassId}
    {type : StaticType} (h : type.Admitted names current) (hcurrent : current = none) :
    ¬ type.IsGeneric := by
  cases type with
  | generic tags => exact absurd rfl (h.2 hcurrent tags)
  | _ => exact not_false

/-- The part of an expression from which it has a generic type, if it has one: a part whose type it
    takes over, or what it calls. -/
def Expr.origin? : Expr → Option Expr
  | .grouping inner => some inner
  | .ternary _ _ yes _ => some yes
  | .assign _ value => some value
  | .set _ _ value => some value
  | .call callee _ _ => some callee
  | _ => none

namespace Typing

/-! ### Reading fields -/

/-- The expression has a generic type because it reads a field inside a method, or because a part of
    it or a variable without a written type does. -/
inductive FromField (root : Visit Site) : Site → Expr → Prop where
  | field {site : Site} {object : Expr} {name : Name} {id current : ClassId}
      (hcurrent : site.context.current = some current)
      (hobject : typeOf site.context site.typing object = .ok (.instanceType id))
      (hmethod : site.typing.classes.findMethod? name.text id.index = none)
      (hinherits : site.typing.classes.inherits id.index current.index = true) :
      FromField root site (.get object name)
  | part {site : Site} {e e' : Expr} (hpart : e.origin? = some e') (h : FromField root site e') :
      FromField root site e
  | bound {site site' : Site} {e initializer : Expr} {ref : Reference} {name : Name}
      (hread : e.read? = some ref) (hname : name.text = ref.name.text)
      (hvisit : walk.Visits root ⟨.stmt (.val name none (some initializer)), site'⟩)
      (h : FromField root site' initializer) : FromField root site e

/-- If the name is bound to a generic type, then by a variable that has it from reading a field. -/
def Traced (root : Visit Site) (x : String) (type : StaticType) : Prop :=
  type.IsGeneric → ∃ name initializer site, name.text = x ∧
    walk.Visits root ⟨.stmt (.val name none (some initializer)), site⟩ ∧
    FromField root site initializer

variable {root : Visit Site} {context : TypeContext} {t : Typing}

theorem traced_of_not {x : String} {type : StaticType} (h : ¬ type.IsGeneric) :
    Traced root x type :=
  fun hgeneric => absurd hgeneric h

theorem fromField_of_lookUp {e : Expr} {ref : Reference} {type : StaticType}
    (hs : t.scopes.Every (Traced root)) (hread : e.read? = some ref)
    (htype : lookUp context t ref = .ok type) (hgeneric : type.IsGeneric) :
    FromField root ⟨context, t⟩ e := by
  obtain ⟨place, -, hget, -⟩ := lookUp_ok htype
  obtain ⟨name, initializer, site, hname, hvisit, hfield⟩ := hs.get? hget hgeneric
  exact .bound hread hname hvisit hfield

/-- A call gives a generic type only if what is called is generic. -/
theorem isGeneric_of_call {paren : Position} {callee type : StaticType} {types : List StaticType}
    (hcallee : callee.Formed t.names) (htype : call t paren callee types = .ok type)
    (hgeneric : type.IsGeneric) : callee.IsGeneric := by
  cases callee with
  | function s =>
    obtain ⟨-, rfl⟩ := call_function_ok htype
    exact absurd hgeneric hcallee.2.not_isGeneric
  | classType id =>
    obtain ⟨-, rfl⟩ := call_class_ok htype
    exact hgeneric
  | generic tags => trivial
  | _ => cases htype

/-- A property has a generic type only if it is a field that is read inside a method. -/
theorem fromField_of_property {object : Expr} {id : ClassId} {name : Name} {type : StaticType}
    (hobject : typeOf context t object = .ok (.instanceType id))
    (htype : property context t id name = .ok type) (hgeneric : type.IsGeneric) :
    FromField root ⟨context, t⟩ (.get object name) := by
  rcases property_ok htype with ⟨s, -, rfl⟩ | ⟨current, hcurrent, hmethod, hinherits, -⟩
  · exact hgeneric.elim
  · exact .field hcurrent hobject hmethod hinherits

/-- **Generic types come from reading fields.** -/
theorem fromField_of_typeOf (hc : Contained ⟨context, t⟩) (hs : t.scopes.Every (Traced root)) :
    ∀ (e : Expr) {type : StaticType}, typeOf context t e = .ok type → type.IsGeneric →
      FromField root ⟨context, t⟩ e
  | .literal value, _, htype, hgeneric => by
    cases value <;> cases htype <;> exact hgeneric.elim
  | .grouping inner, _, htype, hgeneric => by
    rw [typeOf] at htype
    exact .part rfl (fromField_of_typeOf hc hs inner htype hgeneric)
  | .unary _ _, _, htype, hgeneric => by
    obtain ⟨_, -, htype⟩ := typeOf_unary_ok htype
    exact absurd hgeneric (unary_scalar htype).not_isGeneric
  | .binary _ _ _, _, htype, hgeneric => by
    obtain ⟨_, _, -, -, htype⟩ := typeOf_binary_ok htype
    exact absurd hgeneric (binary_scalar htype).not_isGeneric
  | .logical _ _ _, _, htype, hgeneric => by
    obtain ⟨-, -, -, -, -, -, rfl⟩ := typeOf_logical_ok htype
    exact hgeneric.elim
  | .ternary _ _ yes _, _, htype, hgeneric => by
    obtain ⟨-, -, -, -, hyes, -, -⟩ := typeOf_ternary_ok htype
    exact .part rfl (fromField_of_typeOf hc hs yes hyes hgeneric)
  | .var ref, _, htype, hgeneric => by
    rw [typeOf] at htype
    exact fromField_of_lookUp hs rfl htype hgeneric
  | .assign _ value, _, htype, hgeneric => by
    obtain ⟨-, hvalue, -⟩ := typeOf_assign_ok htype
    exact .part rfl (fromField_of_typeOf hc hs value hvalue hgeneric)
  | .call callee _ _, _, htype, hgeneric => by
    obtain ⟨calleeType, _, hcallee, -, htype⟩ := typeOf_call_ok htype
    -- Functions return what is written down, which is not generic; so what is called is generic.
    have hformed := (admitted_of_typeOf hc callee hcallee).1
    exact .part rfl
      (fromField_of_typeOf hc hs callee hcallee (isGeneric_of_call hformed htype hgeneric))
  | .get object name, _, htype, hgeneric => by
    obtain ⟨id, hobject, htype⟩ := typeOf_get_ok htype
    exact fromField_of_property hobject htype hgeneric
  | .set _ _ value, _, htype, hgeneric => by
    obtain ⟨-, -, hvalue⟩ := typeOf_set_ok htype
    exact .part rfl (fromField_of_typeOf hc hs value hvalue hgeneric)
  | .this ref, _, htype, hgeneric => by
    rw [typeOf] at htype
    exact fromField_of_lookUp hs rfl htype hgeneric
  | .super _ _, _, htype, hgeneric => by
    obtain ⟨id, s, -, -, rfl⟩ := typeOf_super_ok htype
    exact hgeneric.elim

/-- A variable has a generic type only from its initializer. -/
theorem traced_of_declaredType {site : Site} {name : Name} {written : Option TypeName}
    {initializer : Option Expr} {type : StaticType} (hc : Contained site)
    (hs : site.typing.scopes.Every (Traced root))
    (hvisit : walk.Visits root ⟨.stmt (.val name written initializer), site⟩)
    (htype : declaredType site.context site.typing name written initializer = .ok type) :
    Traced root name.text type := by
  intro hgeneric
  -- A type that is written down is not generic, so this one is inferred.
  cases initializer with
  | none =>
    rcases declaredType_none_ok htype with rfl | ⟨written, hwritten⟩
    · exact hgeneric.elim
    · exact absurd hgeneric (hc.annotated hwritten).not_isGeneric
  | some e =>
    obtain ⟨inferred, hinferred, ⟨rfl, rfl⟩ | ⟨⟨written, hwritten⟩, -⟩⟩ := declaredType_ok htype
    · exact ⟨name, e, site, rfl, hvisit, fromField_of_typeOf hc hs e hinferred hgeneric⟩
    · exact absurd hgeneric (hc.annotated hwritten).not_isGeneric

/-- Wherever the checker comes to, each generic type that a name has comes from reading a field. -/
theorem traced_invariant (root : Visit Site) :
    Invariant root (fun site => Contained site ∧ site.typing.scopes.Every (Traced root))
      fun t s => s.Formed t.names ∧ ∀ type ∈ s.params, type.Written t.names where
  block h := ⟨(Contained.invariant root).block h.1, h.2.openFrame⟩
  val hvisit h htype := ⟨(Contained.invariant root).val hvisit h.1 htype,
    h.2.declare (traced_of_declaredType h.1 h.2 hvisit htype)⟩
  signature h hs := h.1.signature hs
  grows := (Contained.invariant root).grows
  function x h hs :=
    ⟨(Contained.invariant root).function x h.1 hs, h.2.declare (traced_of_not not_false)⟩
  body decl h hs := ⟨(Contained.invariant root).body decl h.1 hs,
    h.2.openFrame.params fun type htype _ => traced_of_not (hs.2 type htype).not_isGeneric⟩
  cls := by
    intro site superclass super ss name h hsuper hss
    obtain ⟨hclass, hinside⟩ := (Contained.invariant root).cls name h.1 hsuper hss
    have hscopes : (site.typing.scopes.declare name.text
        (.classType (site.typing.classId name))).Every (Traced root) :=
      h.2.declare (traced_of_not not_false)
    have hthis : Traced root thisName (.instanceType (site.typing.classId name)) :=
      traced_of_not not_false
    -- Inside of the class there are the receiver and the superclass, and neither is generic.
    refine ⟨⟨hclass, hscopes⟩, hinside, ?_⟩
    cases super with
    | none => exact hscopes.openFrame.declare hthis
    | some id =>
      have hsuperName : Traced root superName (.classType id) := traced_of_not not_false
      exact (hscopes.openFrame.declare hsuperName).openFrame.declare hthis
  restore h h' hnames := ⟨(Contained.invariant root).restore h.1 h'.1 hnames, h.2⟩

theorem traced_of_visits {table : Distances} {program : Program} {v : Visit Site}
    (hvisit : walk.Visits (start table program) v) :
    v.place.typing.scopes.Every (Traced (start table program)) := by
  have hstart : (initial.scopes).Every (Traced (start table program)) := by
    intro b hb x type htype
    cases List.mem_singleton.mp hb
    obtain ⟨b, -, rfl⟩ := builtin_of_initial htype
    exact traced_of_not not_false
  exact ((traced_invariant _).of_visits ⟨.initial table, hstart⟩ hvisit).2

end Typing

/-! ### The frames around a method -/

/-- Some frames are open inside the frames `outer`, which are as they were, and so are the
    globals. -/
def Scopes.Around {α : Type} (globals : Bindings α) (outer : List (Bindings α)) (s : Scopes α) :
    Prop :=
  s.globals = globals ∧ ∃ inner, inner ≠ [] ∧ s.frames = inner ++ outer

namespace Scopes.Around

variable {α : Type} {globals : Bindings α} {outer : List (Bindings α)} {s : Scopes α}

/-- Scopes with a frame, by what is around it. -/
theorem of_ne_nil (h : s.frames ≠ []) : s.Around s.globals s.frames.tail := by
  obtain ⟨globals, frames⟩ := s
  cases frames with
  | nil => exact absurd rfl h
  | cons frame outer => exact ⟨rfl, [frame], by simp, rfl⟩

theorem openFrame (h : s.Around globals outer) : s.openFrame.Around globals outer := by
  obtain ⟨hglobals, inner, -, hframes⟩ := h
  exact ⟨hglobals, .empty :: inner, by simp, by simp [Scopes.openFrame, hframes]⟩

/-- A name is declared in the innermost frame. -/
theorem declare (h : s.Around globals outer) (x : String) (a : α) :
    (s.declare x a).Around globals outer := by
  obtain ⟨hglobals, inner, hinner, hframes⟩ := h
  obtain ⟨globals', frames⟩ := s
  cases inner with
  | nil => exact absurd rfl hinner
  | cons frame inner =>
    cases hframes
    exact ⟨hglobals, frame.insert x a :: inner, by simp, rfl⟩

/-- Parameters are declared inside. -/
theorem params {outer : List (Bindings StaticType)} {globals : Bindings StaticType}
    {s : Scopes StaticType} (h : s.Around globals outer) (params : List Param)
    (types : List StaticType) :
    ((params.zip types).foldl (fun scopes (p, type) => scopes.declare p.name.text type) s).Around
      globals outer := by
  induction params generalizing s types with
  | nil => exact h
  | cons p ps ih =>
    cases types with
    | nil => exact h
    | cons type types => exact ih (h.declare p.name.text type) types

end Scopes.Around

namespace Typing

/-- Nothing that is checked inside a frame changes the frames around it. -/
theorem around_invariant (root : Visit Site) (globals : Bindings StaticType)
    (outer : List (Bindings StaticType)) :
    Invariant root (fun site => site.typing.scopes.Around globals outer) fun _ _ => True where
  block h := h.openFrame
  val _ h _ := h.declare _ _
  signature _ _ := trivial
  grows _ _ := trivial
  function x h _ := h.declare x _
  body decl h _ := h.openFrame.params decl.params _
  cls := by
    intro site superclass super ss name h _ _
    have hclass := h.declare name.text (.classType (site.typing.classId name))
    refine ⟨hclass, ?_⟩
    cases super with
    | none => exact hclass.openFrame.declare _ _
    | some id => exact (hclass.openFrame.declare _ _).openFrame.declare _ _
  restore h _ _ := h

/-! ### Methods -/

/-- The visit is to the body of a method of a class that is declared outside of classes. -/
def OpensMethod (root body : Visit Site) : Prop :=
  ∃ name superclass decls site,
    walk.Visits root ⟨.stmt (.classDecl name superclass decls), site⟩ ∧
      site.context.current = none ∧
      body ∈ walk.enters ⟨.stmt (.classDecl name superclass decls), site⟩

/-- Only where a class is declared the walk goes into another class. -/
theorem current_of_enters {v v' : Visit Site} (h : v' ∈ walk.enters v) :
    v'.place.context.current = v.place.context.current ∨
      ∃ name superclass decls, v.part = .stmt (.classDecl name superclass decls) := by
  rcases enters_cases h with heq | heq | ⟨s, -, heq⟩ | ⟨decl, heq⟩ | hclass
  · exact .inl (by rw [heq])
  · exact .inl (by rw [heq]; rfl)
  · exact .inl (by rw [heq]; rfl)
  · refine .inl ?_
    rw [heq]
    cases hs : signature v.place.context v.place.typing decl with
    | ok s => rw [walk_function hs]; rfl
    | error fault => simp only [walk, hs]; rfl
  · exact .inr hclass

/-- Inside a class the walk has come through a method of a class that is declared outside. -/
theorem exists_opensMethod {v : Visit Site} (hroot : root.place.context.current = none)
    (hvisit : walk.Visits root v) (hcurrent : v.place.context.current ≠ none) :
    ∃ body, OpensMethod root body ∧ walk.Visits body v := by
  induction hvisit with
  | refl => exact absurd hroot hcurrent
  | @tail v v' hbefore hstep ih =>
    by_cases houtside : v.place.context.current = none
    · rcases current_of_enters hstep with heq | ⟨name, superclass, decls, hpart⟩
      · exact absurd (heq.trans houtside) hcurrent
      · obtain ⟨part, site⟩ := v
        cases hpart
        exact ⟨v', ⟨name, superclass, decls, site, hbefore, houtside, hstep⟩, .refl⟩
    · obtain ⟨body, hopens, hbody⟩ := ih houtside
      exact ⟨body, hopens, .tail hbody hstep⟩

/-- Parameters change the innermost frame only. -/
theorem frames_tail_params (params : List Param) (types : List StaticType)
    (scopes : Scopes StaticType) :
    ((params.zip types).foldl (fun scopes (p, type) => scopes.declare p.name.text type)
      scopes).frames.tail = scopes.frames.tail := by
  induction params generalizing types scopes with
  | nil => rfl
  | cons p ps ih =>
    cases types with
    | nil => rfl
    | cons type types =>
      refine (ih types (scopes.declare p.name.text type)).trans ?_
      obtain ⟨globals, frames⟩ := scopes
      cases frames <;> rfl

/-- A method of a class is checked in a frame inside those of the class. -/
theorem exists_inBody {name : Name} {superclass : Option Reference} {decls : List FunctionDecl}
    {site : Site} {body : Visit Site}
    (haccepts : Accepts ⟨.stmt (.classDecl name superclass decls), site⟩)
    (hbody : body ∈ walk.enters ⟨.stmt (.classDecl name superclass decls), site⟩) :
    ∃ context decl s super t, body.place = inBody decl s ⟨context, t⟩ ∧
      t.scopes = classScopes (site.typing.scopes.declare name.text
        (.classType (site.typing.classId name))) (site.typing.classId name) super := by
  obtain ⟨t, ht⟩ := haccepts
  obtain ⟨super, ss, inner, hsuper, hss, hinner, -⟩ := stmt_classDecl_ok ht
  obtain ⟨⟨decl, site'⟩, hmem, rfl⟩ := List.mem_map.mp hbody
  rw [walk_methods hsuper hss] at hmem
  -- Each method leaves the scopes as they were before it.
  obtain ⟨s, t₁, -, hscopes, hsite⟩ := mem_inMethods hinner
    (fun _ _ _ t t' ht hfunction => (accepts_body ⟨_, t⟩ hfunction).2.trans ht)
    (P := fun t => t.scopes = _) rfl hmem
  exact ⟨_, decl, s, super, t₁, hsite, hscopes⟩

/-- No name around a method of a class that is declared outside of classes has a generic type. -/
theorem noGeneric_of_opensMethod {table : Distances} {program : Program} {body : Visit Site}
    (hcheck : typecheck table program = .ok ()) (h : OpensMethod (start table program) body) :
    body.place.typing.scopes.frames ≠ [] ∧
      ∀ b ∈ body.place.typing.scopes.globals :: body.place.typing.scopes.frames.tail,
        b.NoGeneric := by
  obtain ⟨name, superclass, decls, site, hvisit, hcurrent, hbody⟩ := h
  obtain ⟨context, decl, s, super, t, hplace, hscopes⟩ :=
    exists_inBody (accepts_of_visits hcheck hvisit) hbody
  obtain ⟨hglobals, hframes⟩ := inBody_local decl s ⟨context, t⟩
  have htail : (inBody decl s ⟨context, t⟩).typing.scopes.frames.tail = t.scopes.frames :=
    frames_tail_params decl.params s.params t.scopes.openFrame
  rw [hplace]
  refine ⟨hframes, ?_⟩
  rw [hglobals, htail, hscopes]
  have hsite : site.typing.scopes.Every fun _ type => ¬ type.IsGeneric :=
    (contained_of_visits hvisit).scopes.imp fun _ _ htype => htype.not_isGeneric hcurrent
  have hclass := hsite.declare (x := name.text)
    (show ¬ (StaticType.classType (site.typing.classId name)).IsGeneric from not_false)
  have hthis : ¬ (StaticType.instanceType (site.typing.classId name)).IsGeneric := not_false
  cases super with
  | none => exact hclass.openFrame.declare hthis
  | some id =>
    have hsuper : ¬ (StaticType.classType id).IsGeneric := not_false
    exact (hclass.openFrame.declare hsuper).openFrame.declare hthis

/-- Generic types are found inside methods only, on the walk over a program. -/
structure ConfinesGeneric (table : Distances) (program : Program) : Prop where
  /-- Every expression has a type. Outside of classes it is not generic, and where it is generic it
      comes from reading a field inside a method. -/
  expr : ∀ e site, walk.Visits (start table program) ⟨.expr e, site⟩ →
    ∃ type, typeOf site.context site.typing e = .ok type ∧
      (site.context.current = none → ¬ type.IsGeneric) ∧
      (type.IsGeneric → FromField (start table program) site e)
  /-- Outside of classes no name has a generic type. -/
  outside : ∀ v, walk.Visits (start table program) v → v.place.context.current = none →
    ∀ b ∈ v.place.typing.scopes.globals :: v.place.typing.scopes.frames, b.NoGeneric
  /-- What is inside a class is so in a method of a class that is declared outside of classes. The
      globals and the other frames around the method are as they were before it, and no name in them
      has a generic type. -/
  inside : ∀ v, walk.Visits (start table program) v → v.place.context.current ≠ none →
    ∃ body, OpensMethod (start table program) body ∧ walk.Visits body v ∧
      v.place.typing.scopes.Around body.place.typing.scopes.globals
        body.place.typing.scopes.frames.tail ∧
      ∀ b ∈ body.place.typing.scopes.globals :: body.place.typing.scopes.frames.tail, b.NoGeneric

end Typing

open Typing

/-- **Generic types stay in methods.** This holds of every program that passes the type checker,
    whatever the table of distances is: no generic type gets out of a class by a variable, a
    parameter, what a function returns, a ternary or an assignment. -/
theorem generic_types_stay_in_methods {table : Distances} {program : Program}
    (hcheck : typecheck table program = .ok ()) : ConfinesGeneric table program where
  expr e site hvisit := by
    obtain ⟨type, htype⟩ := accepts_of_visits hcheck hvisit
    have hc := contained_of_visits hvisit
    exact ⟨type, htype, (admitted_of_typeOf hc e htype).not_isGeneric,
      fromField_of_typeOf hc (traced_of_visits hvisit) e htype⟩
  outside v hvisit hcurrent b hb x type htype :=
    ((contained_of_visits hvisit).scopes b hb x type htype).not_isGeneric hcurrent
  inside v hvisit hcurrent := by
    obtain ⟨body, hopens, hbody⟩ := exists_opensMethod rfl hvisit hcurrent
    obtain ⟨hframes, hnone⟩ := noGeneric_of_opensMethod hcheck hopens
    exact ⟨body, hopens, hbody,
      (around_invariant body _ _).of_visits (.of_ne_nil hframes) hbody, hnone⟩

/-- A method that keeps what a field holds in a variable, and a use of it outside of the class. -/
theorem generic_types_stay_in_methods_box :
    ∃ program table, Source.program
        "class Box \x7b put(x: Boolean) \x7b this.x = x; \x7d
        show() \x7b val y = this.x; println(y = true ? y : this.x); \x7d \x7d
        val b = Box(); b.put(true); b.show();" = .ok program ∧
      resolve program = .ok table ∧ typecheck table program = .ok () ∧
      ConfinesGeneric table program := by
  have haccepted : (Source.program
        "class Box \x7b put(x: Boolean) \x7b this.x = x; \x7d
        show() \x7b val y = this.x; println(y = true ? y : this.x); \x7d \x7d
        val b = Box(); b.put(true); b.show();").toOption.any (fun program =>
      (resolve program).toOption.any fun table =>
        (typecheck table program).toOption.isSome) = true := by
    decide +kernel
  obtain ⟨program, hprogram, htable⟩ := exists_ok_of_any haccepted
  obtain ⟨table, hresolve, htyped⟩ := exists_ok_of_any htable
  obtain ⟨_, hunit⟩ := Option.isSome_iff_exists.mp htyped
  have hcheck : typecheck table program = .ok () := ok_of_toOption hunit
  exact ⟨program, table, hprogram, hresolve, hcheck, generic_types_stay_in_methods hcheck⟩

end ClassScript
