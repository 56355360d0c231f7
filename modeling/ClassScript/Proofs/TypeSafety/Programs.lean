import ClassScript.Proofs.CheckedVisits
import ClassScript.Proofs.Frames

namespace ClassScript

/-!
# Basic programs

A basic program declares no class, gives every variable a value, ends every function that has to
return something in a `return`, and uses the functions that print only to call them. Whatever has a
type in such a program has one of first order, except for the two functions that print, which take
anything.

* `Stmt.areBasic`: basic programs;
* `FunctionDecl.Declares`: the type that a function declares;
* `Typing.FirstOrderScopes`, `Typing.firstOrder_of_typeOf`: names and expressions of first order;
* `TypeSafety.Valid`, `TypeSafety.valid_of_visits`: what holds wherever the checker comes to.
-/

/-! ### Basic programs -/

/-- The built-in functions that print. -/
def Builtin.printers : List Builtin := [.print, .println]

/-- The use of a name stands for a built-in function that prints. -/
def Reference.prints (table : Distances) (ref : Reference) : Bool :=
  (table.get? ref.id).isNone && Builtin.printers.any fun b => b.name == ref.name.text

mutual

/-- The functions that print are only used to call them. -/
def Expr.isBasic (table : Distances) : Expr → Bool
  | .literal _ => true
  | .grouping inner => inner.isBasic table
  | .unary _ operand => operand.isBasic table
  | .binary left _ right => left.isBasic table && right.isBasic table
  | .logical left _ right => left.isBasic table && right.isBasic table
  | .ternary condition _ yes no =>
    condition.isBasic table && yes.isBasic table && no.isBasic table
  | .var ref => !ref.prints table
  | .assign _ value => value.isBasic table
  | .call (.var _) _ arguments => Expr.areBasic table arguments
  | .call callee _ arguments => callee.isBasic table && Expr.areBasic table arguments
  | .get object _ => object.isBasic table
  | .set object _ value => object.isBasic table && value.isBasic table
  | .this _ => true
  | .super _ _ => true

/-- The functions that print are only used to call them. -/
def Expr.areBasic (table : Distances) : List Expr → Bool
  | [] => true
  | e :: es => e.isBasic table && Expr.areBasic table es

end

/-- The last of the statements is a `return`. -/
def Stmt.endInReturn (ss : List Stmt) : Bool :=
  match ss.getLast? with
  | some (.ret _ _) => true
  | _ => false

/-- A function with this annotation has nothing to return. -/
def TypeName.isNothing : Option TypeName → Bool
  | none => true
  | some type => type = .void

mutual

/-- A statement of a basic program. -/
def Stmt.isBasic (table : Distances) : Stmt → Bool
  | .expression e => e.isBasic table
  | .val _ _ initializer => initializer.any fun e => e.isBasic table
  | .block body => Stmt.areBasic table body
  | .ifThen _ condition yes => condition.isBasic table && yes.isBasic table
  | .ifElse _ condition yes no =>
    condition.isBasic table && yes.isBasic table && no.isBasic table
  | .whileLoop _ condition body => condition.isBasic table && body.isBasic table
  | .funDecl decl => decl.isBasic table
  | .ret _ value => value.all fun e => e.isBasic table
  | .classDecl _ _ _ => false

/-- Statements of a basic program. -/
def Stmt.areBasic (table : Distances) : List Stmt → Bool
  | [] => true
  | s :: ss => s.isBasic table && Stmt.areBasic table ss

/-- A function of a basic program. -/
def FunctionDecl.isBasic (table : Distances) : FunctionDecl → Bool
  | ⟨_, _, returns, body⟩ =>
    (TypeName.isNothing returns || Stmt.endInReturn body) && Stmt.areBasic table body

end

/-- A part of a basic program: what is called may be a function that prints. -/
def Part.Basic (table : Distances) : Part → Prop
  | expr e => e.isBasic table = true ∨ ∃ ref, e = .var ref
  | exprs es => Expr.areBasic table es = true
  | stmt s => s.isBasic table = true
  | stmts ss => Stmt.areBasic table ss = true

theorem Expr.isBasic_call {table : Distances} {callee : Expr} {paren : Position}
    {arguments : List Expr} (h : Expr.isBasic table (.call callee paren arguments) = true) :
    (Part.expr callee).Basic table ∧ Expr.areBasic table arguments = true := by
  cases callee with
  | var ref => exact ⟨.inr ⟨ref, rfl⟩, h⟩
  | _ =>
    rw [Expr.isBasic, Bool.and_eq_true] at h
    · exact ⟨.inl h.1, h.2⟩
    · nofun

/-- The parts of a basic expression are basic. -/
theorem Expr.basic_of_mem_parts {table : Distances} {e : Expr} (h : (Part.expr e).Basic table) :
    ∀ part ∈ e.parts, part.Basic table := by
  rcases h with h | ⟨ref, rfl⟩
  · cases e with
    | literal => nofun
    | var => nofun
    | this => nofun
    | super => nofun
    | call callee paren arguments =>
      obtain ⟨hcallee, harguments⟩ := Expr.isBasic_call h
      exact List.forall_mem_cons.mpr ⟨hcallee, List.forall_mem_singleton.mpr harguments⟩
    | _ =>
      simp only [Expr.isBasic, Bool.and_eq_true] at h
      simp [Expr.parts, Part.Basic, h]
  · nofun

theorem Typing.basic_of_mem_entersStmt {table : Distances} {s : Stmt} {site : Typing.Site}
    (h : s.isBasic table = true) : ∀ v ∈ Typing.walk.entersStmt s site, v.part.Basic table := by
  cases s with
  | val name type initializer =>
    cases initializer with
    | none => nofun
    | some e => exact List.forall_mem_singleton.mpr (.inl h)
  | funDecl decl =>
    obtain ⟨name, params, returns, body⟩ := decl
    rw [Stmt.isBasic, FunctionDecl.isBasic, Bool.and_eq_true] at h
    exact List.forall_mem_singleton.mpr h.2
  | ret keyword value =>
    cases value with
    | none => nofun
    | some e => exact List.forall_mem_singleton.mpr (.inl h)
  | classDecl => cases h
  | _ =>
    simp only [Stmt.isBasic, Bool.and_eq_true] at h
    simp [Walk.entersStmt, Part.Basic, h]

/-- The parts of a basic part are basic. -/
theorem Typing.basic_of_mem_enters {table : Distances} {v v' : Visit Typing.Site}
    (h : v.part.Basic table) (hv' : v' ∈ Typing.walk.enters v) : v'.part.Basic table := by
  obtain ⟨part, site⟩ := v
  rcases part with e | ⟨_ | ⟨e, es⟩⟩ | s | ⟨_ | ⟨s, ss⟩⟩
  · obtain ⟨part, hpart, rfl⟩ := List.mem_map.mp hv'
    exact Expr.basic_of_mem_parts h part hpart
  · cases hv'
  · obtain ⟨he, hes⟩ := Bool.and_eq_true_iff.mp h
    simp only [Walk.enters, List.mem_cons, List.not_mem_nil, or_false] at hv'
    rcases hv' with rfl | rfl
    · exact .inl he
    · exact hes
  · exact basic_of_mem_entersStmt h v' hv'
  · cases hv'
  · obtain ⟨hs, hss⟩ := Bool.and_eq_true_iff.mp h
    simp only [Walk.enters, List.mem_cons, List.not_mem_nil, or_false] at hv'
    rcases hv' with rfl | rfl
    · exact hs
    · exact hss

/-! ### Declared types -/

/-- The scalar that a type stands for, if it names no class. -/
def TypeName.scalar? : TypeName → Option StaticType
  | .boolean => some .boolean
  | .number => some .number
  | .string => some .string
  | .void => some .void
  | .named _ => none

theorem TypeName.scalar_of_scalar? {written : TypeName} {type : StaticType}
    (h : written.scalar? = some type) : type.Scalar := by
  cases written <;> cases h <;> trivial

/-- The function is written with the scalars of the given type. -/
structure FunctionDecl.Declares (decl : FunctionDecl) (s : Signature) : Prop where
  params : decl.params.map (fun p => p.type.scalar?) = s.params.map some
  returns : decl.returns.elim (some .void) TypeName.scalar? = some s.returns

namespace FunctionDecl.Declares

variable {decl : FunctionDecl} {s s' : Signature}

theorem alike (h : decl.Declares s) (h' : decl.Declares s') : s.Alike s' := by
  have hparams : s'.params.map some = s.params.map some := h'.params.symm.trans h.params
  have hreturns : some s'.returns = some s.returns := h'.returns.symm.trans h.returns
  exact ⟨(List.map_inj_right fun _ _ => Option.some.inj).mp hparams, Option.some.inj hreturns⟩

theorem length (h : decl.Declares s) : s.params.length = decl.params.length := by
  have hlength := congrArg List.length h.params
  simpa using hlength.symm

theorem firstOrder (h : decl.Declares s) : (StaticType.function s).FirstOrder := by
  constructor
  · intro type htype
    have hmem : some type ∈ decl.params.map fun p => p.type.scalar? := by
      rw [h.params]
      exact List.mem_map_of_mem htype
    obtain ⟨p, -, hp⟩ := List.mem_map.mp hmem
    exact TypeName.scalar_of_scalar? hp
  · have hreturns := h.returns
    cases hwritten : decl.returns with
    | none =>
      rw [hwritten] at hreturns
      rw [← Option.some.inj hreturns]
      trivial
    | some written =>
      rw [hwritten] at hreturns
      exact TypeName.scalar_of_scalar? hreturns

end FunctionDecl.Declares

/-! ### Names and expressions of first order -/

/-- The type of a name in a basic program: it is of first order, or that of a function that
    prints. -/
def StaticType.OfName (type : StaticType) : Prop :=
  type.FirstOrder ∨ ∃ b ∈ Builtin.printers, type = .function b.signature

namespace Typing

/-- Every name has a type of first order, but for the functions that print, which are globals. -/
structure FirstOrderScopes (s : Scopes StaticType) : Prop where
  frames : ∀ b ∈ s.frames, ∀ x type, b.find? x = some type → type.FirstOrder
  globals : ∀ x type, s.globals.find? x = some type →
    type.FirstOrder ∨ ∃ b ∈ Builtin.printers, x = b.name ∧ type = .function b.signature

namespace FirstOrderScopes

variable {s : Scopes StaticType}

/-- A new frame has no names. -/
theorem openFrame (h : FirstOrderScopes s) : FirstOrderScopes s.openFrame :=
  ⟨List.forall_mem_cons.mpr ⟨nofun, h.frames⟩, h.globals⟩

/-- A name of a first-order type. -/
theorem declare {x : String} {type : StaticType} (h : FirstOrderScopes s)
    (htype : type.FirstOrder) : FirstOrderScopes (s.declare x type) := by
  obtain ⟨globals, frames⟩ := s
  cases frames with
  | nil =>
    refine ⟨h.frames, ?_⟩
    intro y other hother
    rw [Scopes.declare, Scopes.declareGlobal, Bindings.find?_insert] at hother
    split at hother
    · cases hother
      exact .inl htype
    · exact h.globals y other hother
  | cons frame outer =>
    obtain ⟨hframe, houter⟩ := List.forall_mem_cons.mp h.frames
    refine ⟨List.forall_mem_cons.mpr ⟨?_, houter⟩, h.globals⟩
    intro y other hother
    rw [Bindings.find?_insert] at hother
    split at hother
    · cases hother
      exact htype
    · exact hframe y other hother

/-- Parameters have types without parts. -/
theorem params {params : List Param} {types : List StaticType} (h : FirstOrderScopes s)
    (htypes : ∀ type ∈ types, type.Scalar) :
    FirstOrderScopes ((params.zip types).foldl
      (fun scopes (p, type) => scopes.declare p.name.text type) s) := by
  induction params generalizing s types with
  | nil => exact h
  | cons p ps ih =>
    cases types with
    | nil => exact h
    | cons type types =>
      obtain ⟨htype, htypes⟩ := List.forall_mem_cons.mp htypes
      exact ih (h.declare htype.firstOrder) htypes

/-- The built-in functions are of first order. -/
theorem initial : FirstOrderScopes Typing.initial.scopes := by
  refine ⟨nofun, ?_⟩
  intro x type htype
  obtain ⟨b, rfl, rfl⟩ := builtin_of_initial htype
  cases b with
  | print => exact .inr ⟨.print, by decide, rfl, rfl⟩
  | println => exact .inr ⟨.println, by decide, rfl, rfl⟩
  | _ => exact .inl ⟨by simp [Builtin.signature, StaticType.Scalar], trivial⟩

/-- A use of a name is of first order, or stands for a function that prints. -/
theorem lookUp {context : TypeContext} {t : Typing} {ref : Reference} {type : StaticType}
    (h : FirstOrderScopes t.scopes) (htype : lookUp context t ref = .ok type) :
    type.OfName ∧ (ref.prints context.table = false → type.FirstOrder) := by
  obtain ⟨place, -, hget, hrecorded⟩ := lookUp_ok htype
  cases place with
  | frame d =>
    obtain ⟨b, hb, hfind⟩ := Option.bind_eq_some_iff.mp hget
    have hfirst := h.frames b (List.mem_of_getElem? hb) _ _ hfind
    exact ⟨.inl hfirst, fun _ => hfirst⟩
  | global =>
    rcases h.globals _ _ hget with hfirst | ⟨b, hb, hname, hsignature⟩
    · exact ⟨.inl hfirst, fun _ => hfirst⟩
    · refine ⟨.inr ⟨b, hb, hsignature⟩, fun hprints => ?_⟩
      have htrue : ref.prints context.table = true := by
        rw [Reference.prints, hrecorded]
        exact List.any_eq_true.mpr ⟨b, hb, by simp [hname]⟩
      rw [hprints] at htrue
      cases htrue

/-- No name stands for a class. -/
theorem lookUp_ne_classType {context : TypeContext} {t : Typing} {ref : Reference} {id : ClassId}
    (h : FirstOrderScopes t.scopes) : Typing.lookUp context t ref ≠ .ok (.classType id) := by
  intro hclass
  rcases (h.lookUp hclass).1 with hfirst | ⟨b, -, hsignature⟩
  · cases hfirst
  · cases hsignature

end FirstOrderScopes

variable {context : TypeContext} {t t' : Typing} {type : StaticType}

/-- Where there are no classes, types are written as scalars. -/
theorem annotated_scalar {written : TypeName} (hs : FirstOrderScopes t.scopes)
    (h : annotated context t written = .ok type) : written.scalar? = some type := by
  cases written with
  | named ref =>
    obtain ⟨found, hfound, h⟩ := except_bind_eq_ok.mp h
    cases found with
    | classType id => exact absurd hfound hs.lookUp_ne_classType
    | _ => cases h
  | _ =>
    cases h
    rfl

theorem mapM_annotated {params : List Param} {types : List StaticType}
    (hs : FirstOrderScopes t.scopes)
    (h : params.mapM (fun p => annotated context t p.type) = .ok types) :
    params.map (fun p => p.type.scalar?) = types.map some := by
  have hall := forall₂_of_mapM h
  clear h
  induction hall with
  | nil => rfl
  | cons hfirst _ ih => rw [List.map_cons, List.map_cons, annotated_scalar hs hfirst, ih]

/-- A function has the type that it declares. -/
theorem declares_of_signature {decl : FunctionDecl} {s : Signature}
    (hs : FirstOrderScopes t.scopes) (h : signature context t decl = .ok s) : decl.Declares s := by
  obtain ⟨params, hparams, h⟩ := except_bind_eq_ok.mp h
  have htypes := mapM_annotated hs hparams
  obtain ⟨name, ps, returns, body⟩ := decl
  cases returns with
  | none =>
    cases h
    exact ⟨htypes, rfl⟩
  | some written =>
    obtain ⟨returned, hreturned, h⟩ := except_bind_eq_ok.mp h
    cases h
    exact ⟨htypes, annotated_scalar hs hreturned⟩

/-- In a basic program functions are called, and nothing else. -/
theorem call_ok {paren : Position} {callee : StaticType} {types : List StaticType}
    (hcallee : callee.OfName) (h : call t paren callee types = .ok type) :
    ∃ s, callee = .function s ∧ s.accepts types = true ∧ type = s.returns ∧ type.Scalar := by
  cases callee with
  | function s =>
    obtain ⟨haccepts, rfl⟩ := call_function_ok h
    refine ⟨s, rfl, haccepts, rfl, ?_⟩
    rcases hcallee with hfirst | ⟨b, hb, hsignature⟩
    · exact hfirst.2
    · cases hsignature
      simp only [Builtin.printers, List.mem_cons, List.not_mem_nil, or_false] at hb
      rcases hb with rfl | rfl <;> trivial
  | _ =>
    rcases hcallee with hfirst | ⟨b, -, hsignature⟩
    · cases hfirst <;> cases h
    · cases hsignature

/-- Where there are no classes, there is no superclass. -/
theorem typeOf_super_ne_ok {keyword : Reference} {method : Name} (hs : FirstOrderScopes t.scopes) :
    typeOf context t (.super keyword method) ≠ .ok type := by
  intro h
  obtain ⟨id, s, hclass, -, -⟩ := typeOf_super_ok h
  exact hs.lookUp_ne_classType hclass

/-- The expressions of a basic program have types of first order. -/
theorem firstOrder_of_typeOf (hs : FirstOrderScopes t.scopes) : ∀ (e : Expr) {type : StaticType},
    e.WellFormed → e.isBasic context.table = true → typeOf context t e = .ok type →
    type.FirstOrder
  | .literal value, _, _, _, h => by
    cases value <;> cases h <;> trivial
  | .grouping inner, _, hwf, hbasic, h => by
    rw [typeOf] at h
    exact firstOrder_of_typeOf hs inner hwf hbasic h
  | .unary _ _, _, _, _, h => by
    obtain ⟨_, _, h⟩ := typeOf_unary_ok h
    exact (unary_scalar h).firstOrder
  | .binary _ _ _, _, _, _, h => by
    obtain ⟨_, _, _, _, h⟩ := typeOf_binary_ok h
    exact (binary_scalar h).firstOrder
  | .logical _ _ _, _, _, _, h => by
    obtain ⟨-, -, -, -, -, -, rfl⟩ := typeOf_logical_ok h
    trivial
  | .ternary _ _ yes _, _, hwf, hbasic, h => by
    obtain ⟨-, -, -, -, hyes, -, -⟩ := typeOf_ternary_ok h
    simp only [Expr.isBasic, Bool.and_eq_true] at hbasic
    exact firstOrder_of_typeOf hs yes hwf.2.1 hbasic.1.2 hyes
  | .var ref, _, _, hbasic, h => by
    rw [typeOf] at h
    exact (hs.lookUp h).2 (by simpa [Expr.isBasic] using hbasic)
  | .assign _ value, _, hwf, hbasic, h => by
    obtain ⟨-, hvalue, -⟩ := typeOf_assign_ok h
    exact firstOrder_of_typeOf hs value hwf.2 hbasic hvalue
  | .call callee _ _, _, hwf, hbasic, h => by
    obtain ⟨calleeType, types, hcallee, -, h⟩ := typeOf_call_ok h
    have hname : calleeType.OfName := by
      rcases (Expr.isBasic_call hbasic).1 with hbasic | ⟨ref, hvar⟩
      · exact .inl (firstOrder_of_typeOf hs callee hwf.1 hbasic hcallee)
      · rw [hvar, typeOf] at hcallee
        exact (hs.lookUp hcallee).1
    obtain ⟨_, _, _, _, hscalar⟩ := call_ok hname h
    exact hscalar.firstOrder
  | .get object _, _, hwf, hbasic, h => by
    obtain ⟨id, hobject, -⟩ := typeOf_get_ok h
    -- Only instances have properties, and their types are not of first order.
    exact absurd (firstOrder_of_typeOf hs object hwf hbasic hobject) not_false
  | .set object _ _, _, hwf, hbasic, h => by
    obtain ⟨id, hobject, -⟩ := typeOf_set_ok h
    rw [Expr.isBasic, Bool.and_eq_true] at hbasic
    exact absurd (firstOrder_of_typeOf hs object hwf.1 hbasic.1 hobject) not_false
  | .this ref, _, hwf, _, h => by
    rw [typeOf] at h
    refine (hs.lookUp h).2 ?_
    -- The word for the receiver is not the name of a function that prints.
    rw [Reference.prints, show ref.name.text = thisName from hwf]
    simp [Builtin.printers, Builtin.name, thisName]
  | .super _ _, _, _, _, h => absurd h (typeOf_super_ne_ok hs)

/-- What is called may be a function that prints. -/
theorem ofName_of_typeOf {e : Expr} (hs : FirstOrderScopes t.scopes) (hwf : e.WellFormed)
    (hbasic : (Part.expr e).Basic context.table) (h : typeOf context t e = .ok type) :
    type.OfName := by
  rcases hbasic with hbasic | ⟨ref, rfl⟩
  · exact .inl (firstOrder_of_typeOf hs e hwf hbasic h)
  · rw [typeOf] at h
    exact (hs.lookUp h).1

/-- Basic expressions have first-order types. -/
theorem firstOrder_of_typesOf {es : List Expr} {types : List StaticType}
    (hs : FirstOrderScopes t.scopes) (hwf : Expr.AllWellFormed es)
    (hbasic : Expr.areBasic context.table es = true) (h : typesOf context t es = .ok types) :
    ∀ type ∈ types, type.FirstOrder := by
  induction es generalizing types with
  | nil =>
    cases h
    nofun
  | cons e es ih =>
    obtain ⟨first, rest, hfirst, hrest, rfl⟩ := typesOf_cons_ok h
    rw [Expr.areBasic, Bool.and_eq_true] at hbasic
    exact List.forall_mem_cons.mpr
      ⟨firstOrder_of_typeOf hs e hwf.1 hbasic.1 hfirst, ih hwf.2 hbasic.2 hrest⟩

theorem firstOrder_of_declaredType {name : Name} {written : Option TypeName} {e : Expr}
    (hs : FirstOrderScopes t.scopes) (hwf : e.WellFormed)
    (hbasic : e.isBasic context.table = true)
    (h : declaredType context t name written (some e) = .ok type) : type.FirstOrder := by
  obtain ⟨inferred, hinferred, ⟨rfl, rfl⟩ | ⟨⟨written, hwritten⟩, -⟩⟩ := declaredType_ok h
  · exact firstOrder_of_typeOf hs e hwf hbasic hinferred
  · exact (TypeName.scalar_of_scalar? (annotated_scalar hs hwritten)).firstOrder

/-- The scopes after a statement of a basic program. -/
theorem firstOrder_of_stmt {s : Stmt} (hs : FirstOrderScopes t.scopes) (hwf : s.WellFormed)
    (hbasic : s.isBasic context.table = true) (h : stmt context s t = .ok t') :
    FirstOrderScopes t'.scopes := by
  cases s with
  | val name written initializer =>
    cases initializer with
    | none => cases hbasic
    | some e =>
      obtain ⟨type, htype, rfl⟩ := stmt_val_ok h
      exact hs.declare (firstOrder_of_declaredType hs (hwf.2.2 e rfl) hbasic htype)
  | funDecl decl =>
    obtain ⟨s, hsignature, hfunction⟩ := stmt_funDecl_ok h
    rw [(accepts_body ⟨context, _⟩ hfunction).2]
    exact hs.declare (declares_of_signature hs hsignature).firstOrder
  | classDecl => cases hbasic
  | _ =>
    rw [stmt_scopes _ hwf rfl h]
    exact hs

theorem firstOrder_inBody {decl : FunctionDecl} {s : Signature} {site : Site}
    (hs : FirstOrderScopes site.typing.scopes) (hdeclares : decl.Declares s) :
    FirstOrderScopes (inBody decl s
      ⟨site.context, site.typing.declare decl.name.text (.function s)⟩).typing.scopes :=
  (hs.declare hdeclares.firstOrder).openFrame.params hdeclares.firstOrder.1

/-- A name that is new to resolution is new to the type checker. -/
theorem Mirrors.declaredHere_eq_false {s : Scopes Readiness} {scopes : Scopes StaticType}
    (h : Mirrors s scopes) {x : String} (hx : s.declaredHere x = false) :
    scopes.declaredHere x = false := by
  obtain ⟨globals, frames⟩ := s
  obtain ⟨globals', frames'⟩ := scopes
  obtain ⟨hglobals, hframes⟩ := h
  cases hframes with
  | nil => exact hglobals.contains_eq_false hx
  | cons hframe _ => exact hframe.contains_eq_false hx

end Typing

namespace TypeSafety

open Typing (Site)

/-! ### Wherever the checker comes to -/

/-- Resolution accepts the part at a place with the same names in scope. -/
structure Resolved (table : Distances) (v : Visit Site) (r : Resolution.Setting) : Prop where
  valid : Resolution.Valid table ⟨v.part, r⟩
  mirrors : Typing.Mirrors r.scopes v.place.typing.scopes
  returns : r.around.body ≠ .topLevel → v.place.context.returns.isSome = true

/-- The names in scope at a place are of first order, and what is returned there is a scalar. -/
structure FirstOrderSite (table : Distances) (site : Site) : Prop where
  scopes : Typing.FirstOrderScopes site.typing.scopes
  returns : ∀ type ∈ site.context.returns, type.Scalar
  table : site.context.table = table

theorem FirstOrderSite.firstOrder {table : Distances} {site : Site} {e : Expr} {type : StaticType}
    (h : FirstOrderSite table site) (hwf : e.WellFormed) (hbasic : e.isBasic table = true)
    (htype : Typing.typeOf site.context site.typing e = .ok type) : type.FirstOrder := by
  have hbasic' : e.isBasic site.context.table = true := h.table ▸ hbasic
  exact Typing.firstOrder_of_typeOf h.scopes e hwf hbasic' htype

/-- What holds of every visit in a basic program. -/
structure Valid (table : Distances) (v : Visit Site) : Prop where
  accepted : Typing.Accepts v
  basic : v.part.Basic table
  place : FirstOrderSite table v.place
  resolved : ∃ r, Resolved table v r

variable {table : Distances}

/-- After a statement the two walks have the same names in scope. -/
theorem Resolved.after {s : Stmt} {site : Site} {t : Typing} {r : Resolution.Setting}
    (h : Resolved table ⟨.stmt s, site⟩ r) (htable : site.context.table = table)
    (hstmt : Typing.stmt site.context s site.typing = .ok t) :
    Typing.Mirrors (s.after r.scopes) t.scopes := by
  obtain ⟨⟨table', returns, current⟩, typing⟩ := site
  subst htable
  exact (Typing.tracks_stmt h.mirrors h.returns h.valid.bound h.valid.wellFormed).post t hstmt

theorem Resolved.entersStmt {s : Stmt} {site : Site} {r : Resolution.Setting} {v : Visit Site}
    (h : Resolved table ⟨.stmt s, site⟩ r) (htable : site.context.table = table)
    (haccepted : Typing.Accepts ⟨.stmt s, site⟩) (hv : v ∈ Typing.walk.entersStmt s site) :
    ∃ r', Resolved table v r' := by
  have hvalid := h.valid.entersStmt
  cases s with
  | expression e =>
    cases List.mem_singleton.mp hv
    exact ⟨r, hvalid _ (by simp [Walk.entersStmt]), h.mirrors, h.returns⟩
  | val name written initializer =>
    cases initializer with
    | none => cases hv
    | some e =>
      cases List.mem_singleton.mp hv
      refine ⟨Resolution.walk.initializer name r, hvalid _ (by simp [Walk.entersStmt]), ?_,
        h.returns⟩
      exact h.mirrors.declare_declared h.valid.bound.2.1
  | block body =>
    cases List.mem_singleton.mp hv
    exact ⟨Resolution.walk.block r, hvalid _ (by simp [Walk.entersStmt]), h.mirrors.openFrame,
      h.returns⟩
  | ifThen keyword e yes =>
    simp only [Walk.entersStmt, List.mem_cons, List.not_mem_nil, or_false] at hv
    rcases hv with rfl | rfl
    · exact ⟨r, hvalid _ (by simp [Walk.entersStmt]), h.mirrors, h.returns⟩
    · exact ⟨r, hvalid _ (by simp [Walk.entersStmt]), h.mirrors, h.returns⟩
  | ifElse keyword e yes no =>
    simp only [Walk.entersStmt, List.mem_cons, List.not_mem_nil, or_false] at hv
    have hyes : Resolved table ⟨.stmt yes, site⟩ r :=
      ⟨hvalid _ (by simp [Walk.entersStmt]), h.mirrors, h.returns⟩
    rcases hv with rfl | rfl | rfl
    · exact ⟨r, hvalid _ (by simp [Walk.entersStmt]), h.mirrors, h.returns⟩
    · exact ⟨r, hyes⟩
    · obtain ⟨t, ht⟩ := haccepted
      obtain ⟨-, t₁, hstmt, -⟩ := Typing.stmt_ifElse_ok ht
      refine ⟨Resolution.walk.after yes r, hvalid _ (by simp [Walk.entersStmt]), ?_, ?_⟩
      · rw [Typing.walk_after hstmt]
        exact hyes.after htable hstmt
      · rw [Typing.walk_after hstmt]
        exact h.returns
  | whileLoop keyword e body =>
    simp only [Walk.entersStmt, List.mem_cons, List.not_mem_nil, or_false] at hv
    rcases hv with rfl | rfl
    · exact ⟨r, hvalid _ (by simp [Walk.entersStmt]), h.mirrors, h.returns⟩
    · exact ⟨r, hvalid _ (by simp [Walk.entersStmt]), h.mirrors, h.returns⟩
  | funDecl decl =>
    obtain ⟨t, ht⟩ := haccepted
    obtain ⟨s, hs, -⟩ := Typing.stmt_funDecl_ok ht
    cases List.mem_singleton.mp hv
    refine ⟨Resolution.walk.function decl r, hvalid _ (by simp [Walk.entersStmt]), ?_, ?_⟩
    · obtain ⟨⟨table', returns, current⟩, typing⟩ := site
      subst htable
      have hlength := (Typing.tracks_signature h.mirrors h.valid.bound.1).post s hs
      obtain ⟨hname, hparams⟩ := FunctionDecl.plain_of_wellFormed h.valid.wellFormed
      rw [Typing.walk_function hs]
      exact (h.mirrors.declare_plain (.function s) hname).openFrame.params hlength hparams
    · rw [Typing.walk_function hs]
      exact fun _ => rfl
  | ret keyword value =>
    cases value with
    | none => cases hv
    | some e =>
      cases List.mem_singleton.mp hv
      exact ⟨r, hvalid _ (by simp [Walk.entersStmt]), h.mirrors, h.returns⟩
  | classDecl name superclass decls =>
    obtain ⟨t, ht⟩ := haccepted
    obtain ⟨super, ss, inner, hsuper, hss, hinner, -⟩ := Typing.stmt_classDecl_ok ht
    obtain ⟨⟨decl, site'⟩, hmem, rfl⟩ := List.mem_map.mp hv
    rw [Typing.walk_methods hsuper hss] at hmem
    obtain ⟨⟨table', returns, current⟩, typing⟩ := site
    subst htable
    obtain ⟨-, -, hbounds, hsignatures, -⟩ := h.valid.bound
    -- The methods come one after the other, and each leaves the scopes of the class alone.
    obtain ⟨s, t₁, hzip, hscopes, rfl⟩ := Typing.mem_inMethods hinner
      (fun decl _ s t t' hscopes hfunction =>
        (Typing.accepts_body ⟨_, t⟩ hfunction).2.trans hscopes) rfl hmem
    have hdecl := (List.of_mem_zip hzip).1
    have hdeclared := h.mirrors.declare_plain
      (.classType ⟨typing.classes.length, name.text⟩) h.valid.wellFormed.1
    have hisSome : super.isSome = superclass.isSome :=
      (Typing.Tracks.mapM_option superclass fun ref href =>
        Typing.tracks_superclassId h.mirrors
          ((hbounds ref href).2.of_declare (hbounds ref href).1)).post super hsuper
    have hfits := (Typing.tracks_signatures (t := ⟨_, _⟩) hdeclared hsignatures).post ss hss
    have hlength : s.params.length = decl.params.length :=
      List.forall₂_iff_zip.mp hfits |>.2 hzip
    have hplain := (FunctionDecl.plain_of_wellFormed
      (Resolution.Valid.wellFormed_of_mem h.valid.wellFormed.2.2 hdecl)).2
    refine ⟨Resolution.inMethod name superclass decl r, hvalid _ ?_, ?_, fun _ => rfl⟩
    · rw [Resolution.walk_entersStmt_classDecl]
      exact List.mem_map_of_mem hdecl
    · rw [Resolution.inMethod, ← hisSome]
      refine Typing.Mirrors.params (Typing.Mirrors.openFrame ?_) hlength hplain
      rw [hscopes]
      exact hdeclared.classScopes

theorem Resolved.enters {v v' : Visit Site} {r : Resolution.Setting} (h : Resolved table v r)
    (htable : v.place.context.table = table) (haccepted : Typing.Accepts v)
    (hv' : v' ∈ Typing.walk.enters v) : ∃ r', Resolved table v' r' := by
  have hvalid := h.valid.enters
  obtain ⟨part, site⟩ := v
  rcases part with e | ⟨_ | ⟨e, es⟩⟩ | s | ⟨_ | ⟨s, ss⟩⟩
  · obtain ⟨part, hpart, rfl⟩ := List.mem_map.mp hv'
    exact ⟨r, h.valid.parts part hpart, h.mirrors, h.returns⟩
  · cases hv'
  · simp only [Walk.enters, List.mem_cons, List.not_mem_nil, or_false] at hv'
    rcases hv' with rfl | rfl
    · exact ⟨r, hvalid _ (by simp [Walk.enters]), h.mirrors, h.returns⟩
    · exact ⟨r, hvalid _ (by simp [Walk.enters]), h.mirrors, h.returns⟩
  · exact h.entersStmt htable haccepted hv'
  · cases hv'
  · simp only [Walk.enters, List.mem_cons, List.not_mem_nil, or_false] at hv'
    have hfirst : Resolved table ⟨.stmt s, site⟩ r :=
      ⟨hvalid _ (by simp [Walk.enters]), h.mirrors, h.returns⟩
    rcases hv' with rfl | rfl
    · exact ⟨r, hfirst⟩
    · obtain ⟨t, ht⟩ := haccepted
      obtain ⟨t₁, hstmt, -⟩ := Typing.stmts_cons_ok ht
      refine ⟨Resolution.walk.after s r, hvalid _ (by simp [Walk.enters]), ?_, ?_⟩
      · rw [Typing.walk_after hstmt]
        exact hfirst.after htable hstmt
      · rw [Typing.walk_after hstmt]
        exact h.returns

namespace Valid

variable {v v' : Visit Site} {s : Stmt} {site : Site}

/-- What is valid is well formed. -/
theorem wellFormed (h : Valid table v) : v.part.WellFormed := by
  obtain ⟨r, hr⟩ := h.resolved
  exact hr.valid.wellFormed

/-- A name that a statement declares is new in its frame. -/
theorem declaredHere_eq_false (h : Valid table ⟨.stmt s, site⟩) :
    ∀ x ∈ s.declared?, site.typing.scopes.declaredHere x = false := by
  obtain ⟨r, hr⟩ := h.resolved
  intro x hx
  refine hr.mirrors.declaredHere_eq_false ?_
  cases s <;> cases hx <;> exact hr.valid.bound.2.1

/-- The parameters of a function have different names. -/
theorem nodup_params {decl : FunctionDecl} (h : Valid table ⟨.stmt (.funDecl decl), site⟩) :
    (decl.params.map fun p => p.name.text).Nodup := by
  obtain ⟨r, hr⟩ := h.resolved
  obtain ⟨name, params, returns, body⟩ := decl
  exact hr.valid.bound.2.2.1

/-- The names in scope are of first order further inside. -/
theorem entersStmt (h : Valid table ⟨.stmt s, site⟩) (hv : v ∈ Typing.walk.entersStmt s site) :
    FirstOrderSite table v.place := by
  obtain ⟨t, ht⟩ := h.accepted
  have hsite : FirstOrderSite table site := h.place
  cases s with
  | val name written initializer =>
    cases initializer with
    | none => cases hv
    | some e =>
      cases List.mem_singleton.mp hv
      exact hsite
  | block body =>
    cases List.mem_singleton.mp hv
    exact ⟨hsite.scopes.openFrame, hsite.returns, hsite.table⟩
  | ifElse keyword e yes no =>
    obtain ⟨-, t₁, hyes, -⟩ := Typing.stmt_ifElse_ok ht
    have hwf := h.wellFormed
    simp only [Walk.entersStmt, List.mem_cons, List.not_mem_nil, or_false] at hv
    rcases hv with rfl | rfl | rfl
    · exact hsite
    · exact hsite
    · -- The first branch declares nothing.
      have hscopes := Typing.stmt_scopes yes hwf.2.1.1 hwf.2.1.2 hyes
      rw [Typing.walk_after hyes]
      exact ⟨hscopes ▸ hsite.scopes, hsite.returns, hsite.table⟩
  | funDecl decl =>
    obtain ⟨s, hs, -⟩ := Typing.stmt_funDecl_ok ht
    have hdeclares := Typing.declares_of_signature hsite.scopes hs
    cases List.mem_singleton.mp hv
    rw [Typing.walk_function hs]
    refine ⟨Typing.firstOrder_inBody hsite.scopes hdeclares, ?_, hsite.table⟩
    rintro _ ⟨⟩
    exact hdeclares.firstOrder.2
  | ret keyword value =>
    cases value with
    | none => cases hv
    | some e =>
      cases List.mem_singleton.mp hv
      exact hsite
  | classDecl =>
    -- There are no classes in a basic program.
    have hbasic := h.basic
    cases hbasic
  | expression e =>
    cases List.mem_singleton.mp hv
    exact hsite
  | _ =>
    simp only [Walk.entersStmt, List.mem_cons, List.not_mem_nil, or_false] at hv
    rcases hv with rfl | rfl <;> exact hsite

theorem enters (h : Valid table v) (hv' : v' ∈ Typing.walk.enters v) : Valid table v' := by
  have hplace : FirstOrderSite table v'.place := by
    obtain ⟨part, site⟩ := v
    have hsite : FirstOrderSite table site := h.place
    rcases part with e | ⟨_ | ⟨e, es⟩⟩ | s | ⟨_ | ⟨s, ss⟩⟩
    · obtain ⟨part, hpart, rfl⟩ := List.mem_map.mp hv'
      exact hsite
    · cases hv'
    · simp only [Walk.enters, List.mem_cons, List.not_mem_nil, or_false] at hv'
      rcases hv' with rfl | rfl <;> exact hsite
    · exact h.entersStmt hv'
    · cases hv'
    · obtain ⟨t, ht⟩ := h.accepted
      obtain ⟨t₁, hstmt, -⟩ := Typing.stmts_cons_ok ht
      have hwf := h.wellFormed
      have hbasic : s.isBasic site.context.table = true :=
        hsite.table ▸ (Bool.and_eq_true_iff.mp h.basic).1
      simp only [Walk.enters, List.mem_cons, List.not_mem_nil, or_false] at hv'
      rcases hv' with rfl | rfl
      · exact hsite
      · rw [Typing.walk_after hstmt]
        exact ⟨Typing.firstOrder_of_stmt hsite.scopes hwf.1 hbasic hstmt, hsite.returns,
          hsite.table⟩
  obtain ⟨r, hr⟩ := h.resolved
  exact ⟨Typing.accepts_enters h.accepted v' hv', Typing.basic_of_mem_enters h.basic hv', hplace,
    hr.enters h.place.table h.accepted hv'⟩

end Valid

/-- Every visit in a basic program that passes the checks is valid. -/
theorem valid_of_visits {program : Program} {v : Visit Site} (hwf : Stmt.AllWellFormed program)
    (hnodup : (Resolution.ids (Stmt.referencesAll program)).Nodup)
    (hresolve : resolve program = .ok table) (hcheck : typecheck table program = .ok ())
    (hbasic : Stmt.areBasic table program = true)
    (h : Typing.walk.Visits (Typing.start table program) v) : Valid table v := by
  induction h with
  | refl =>
    have hstart := Resolution.valid_of_visits hwf hnodup hresolve .refl
    refine ⟨Typing.accepts_of_visits hcheck .refl, hbasic, ⟨.initial, nofun, rfl⟩,
      ⟨_, hstart, .initial, ?_⟩⟩
    exact fun htop => absurd rfl htop
  | tail _ hstep ih => exact ih.enters hstep

end TypeSafety

end ClassScript
