import ClassScript.Proofs.FirstOrder
import ClassScript.Proofs.Frames
import ClassScript.Proofs.ScopeAgreement
import ClassScript.Proofs.Visits

namespace ClassScript

/-!
# The walk of the type checker

The type checker is a walk over the parts of a program, too. What it knows at a place is what the
function at hand has to return, the class at hand, and the types of the names in scope.

* `Typing.typeOf_binary_ok` and its like: what a step of the checker has tested if it succeeds;
* `Typing.Site`, `Typing.walk`: the walk;
* `Typing.accepts_of_visits`: in a program that is accepted, every part is;
* `Typing.Gives`, `Typing.Gives.unique`: the type that the checker gives an expression.
-/

namespace Typing

variable {context : TypeContext} {t t' : Typing} {type : StaticType}

/-! ### Steps that succeed -/

theorem forall₂_of_mapM {α β : Type} {f : α → Result β} {as : List α} {bs : List β}
    (h : as.mapM f = .ok bs) : List.Forall₂ (fun a b => f a = .ok b) as bs := by
  induction as generalizing bs with
  | nil =>
    cases h
    exact .nil
  | cons a as ih =>
    rw [List.mapM_cons] at h
    obtain ⟨b, hb, h⟩ := except_bind_eq_ok.mp h
    obtain ⟨rest, hrest, h⟩ := except_bind_eq_ok.mp h
    cases h
    exact .cons hb (ih hrest)

/-- What an accepted sign tells. -/
theorem typeOf_unary_ok {operator : Token} {operand : Expr}
    (h : typeOf context t (.unary operator operand) = .ok type) :
    ∃ operandType, typeOf context t operand = .ok operandType ∧
      unary operator operandType = .ok type :=
  except_bind_eq_ok.mp h

/-- What an accepted operator tells. -/
theorem typeOf_binary_ok {left right : Expr} {operator : Token}
    (h : typeOf context t (.binary left operator right) = .ok type) :
    ∃ leftType rightType, typeOf context t left = .ok leftType ∧
      typeOf context t right = .ok rightType ∧ binary operator leftType rightType = .ok type := by
  obtain ⟨leftType, hleft, h⟩ := except_bind_eq_ok.mp h
  obtain ⟨rightType, hright, h⟩ := except_bind_eq_ok.mp h
  exact ⟨leftType, rightType, hleft, hright, h⟩

theorem typeOf_logical_ok {left right : Expr} {operator : Token}
    (h : typeOf context t (.logical left operator right) = .ok type) :
    ∃ leftType rightType, typeOf context t left = .ok leftType ∧
      typeOf context t right = .ok rightType ∧ leftType.isBoolean = true ∧
      rightType.isBoolean = true ∧ type = .boolean := by
  obtain ⟨leftType, hleft, h⟩ := except_bind_eq_ok.mp h
  obtain ⟨rightType, hright, h⟩ := except_bind_eq_ok.mp h
  refine ⟨leftType, rightType, hleft, hright, ?_⟩
  split at h
  · cases h
  · next hl =>
    split at h
    · cases h
    · next hr =>
      cases h
      exact ⟨by simpa using hl, by simpa using hr, rfl⟩

theorem typeOf_ternary_ok {condition yes no : Expr} {question : Position}
    (h : typeOf context t (.ternary condition question yes no) = .ok type) :
    ∃ conditionType noType, typeOf context t condition = .ok conditionType ∧
      conditionType.isBoolean = true ∧ typeOf context t yes = .ok type ∧
      typeOf context t no = .ok noType ∧ type.compatible noType = true := by
  obtain ⟨conditionType, hcondition, h⟩ := except_bind_eq_ok.mp h
  split at h
  · cases h
  · next hboolean =>
    obtain ⟨yesType, hyes, h⟩ := except_bind_eq_ok.mp h
    obtain ⟨noType, hno, h⟩ := except_bind_eq_ok.mp h
    split at h
    · next hcompatible =>
      cases h
      exact ⟨conditionType, noType, hcondition, by simpa using hboolean, hyes, hno, hcompatible⟩
    · cases h

theorem typeOf_assign_ok {target : Reference} {value : Expr}
    (h : typeOf context t (.assign target value) = .ok type) :
    ∃ declared, typeOf context t value = .ok type ∧ lookUp context t target = .ok declared ∧
      (∀ s, declared ≠ .function s) ∧ declared.compatible type = true := by
  obtain ⟨valueType, hvalue, h⟩ := except_bind_eq_ok.mp h
  obtain ⟨declared, hdeclared, h⟩ := except_bind_eq_ok.mp h
  refine ⟨declared, ?_⟩
  cases declared with
  | function s => cases h
  | classType id => cases h
  | _ =>
    simp only at h
    split at h
    · next hcompatible =>
      cases h
      exact ⟨hvalue, hdeclared, nofun, hcompatible⟩
    · cases h

theorem typeOf_call_ok {callee : Expr} {paren : Position} {arguments : List Expr}
    (h : typeOf context t (.call callee paren arguments) = .ok type) :
    ∃ calleeType types, typeOf context t callee = .ok calleeType ∧
      typesOf context t arguments = .ok types ∧ call t paren calleeType types = .ok type := by
  obtain ⟨calleeType, hcallee, h⟩ := except_bind_eq_ok.mp h
  obtain ⟨types, htypes, h⟩ := except_bind_eq_ok.mp h
  exact ⟨calleeType, types, hcallee, htypes, h⟩

theorem call_function_ok {paren : Position} {s : Signature} {types : List StaticType}
    (h : call t paren (.function s) types = .ok type) :
    s.accepts types = true ∧ type = s.returns := by
  simp only [call] at h
  split at h
  · next haccepts =>
    cases h
    exact ⟨haccepts, rfl⟩
  · cases h

/-- A class takes the arguments of its constructor, or none. -/
theorem call_class_ok {paren : Position} {id : ClassId} {types : List StaticType}
    (h : call t paren (.classType id) types = .ok type) :
    (t.classes.findMethod? constructorName id.index).elim (types = [])
        (fun s => s.accepts types = true) ∧ type = .instanceType id := by
  unfold call at h
  cases hfound : t.classes.findMethod? constructorName id.index with
  | none =>
    simp only [hfound] at h
    split at h
    · next hempty =>
      cases h
      exact ⟨List.isEmpty_iff.mp hempty, rfl⟩
    · cases h
  | some s =>
    simp only [hfound] at h
    split at h
    · next haccepts =>
      cases h
      exact ⟨haccepts, rfl⟩
    · cases h

/-- A call of what is generic may give anything. -/
theorem call_generic_ok {paren : Position} {tags : List Tag} {types : List StaticType}
    (h : call t paren (.generic tags) types = .ok type) : type = .any := by
  simp only [call] at h
  split at h
  · cases h
    rfl
  · cases h

theorem typeOf_get_ok {object : Expr} {name : Name}
    (h : typeOf context t (.get object name) = .ok type) :
    ∃ id, typeOf context t object = .ok (.instanceType id) ∧
      property context t id name = .ok type := by
  obtain ⟨objectType, hobject, h⟩ := except_bind_eq_ok.mp h
  obtain ⟨id, hid, hproperty⟩ := except_bind_eq_ok.mp h
  cases objectType <;> cases hid
  exact ⟨_, hobject, hproperty⟩

/-- A property is a method, or else a field, which is known only inside the class. -/
theorem property_ok {id : ClassId} {name : Name} (h : property context t id name = .ok type) :
    (∃ s, t.classes.findMethod? name.text id.index = some s ∧ type = .function s) ∨
      ∃ current, context.current = some current ∧
        t.classes.findMethod? name.text id.index = none ∧
        t.classes.inherits id.index current.index = true ∧ type = .any := by
  unfold property at h
  cases hmethod : t.classes.findMethod? name.text id.index with
  | some s =>
    rw [hmethod] at h
    cases h
    exact .inl ⟨s, rfl, rfl⟩
  | none =>
    cases hcurrent : context.current with
    | none =>
      simp only [hmethod, hcurrent] at h
      cases h
    | some current =>
      simp only [hmethod, hcurrent] at h
      split at h
      · next hinherits =>
        cases h
        exact .inr ⟨current, rfl, rfl, hinherits, rfl⟩
      · cases h

theorem typeOf_set_ok {object value : Expr} {name : Name}
    (h : typeOf context t (.set object name value) = .ok type) :
    ∃ id, typeOf context t object = .ok (.instanceType id) ∧
      typeOf context t value = .ok type := by
  obtain ⟨objectType, hobject, h⟩ := except_bind_eq_ok.mp h
  obtain ⟨id, hid, hset⟩ := except_bind_eq_ok.mp h
  split at hset
  · cases hset
  · cases objectType <;> cases hid
    exact ⟨_, hobject, hset⟩

theorem typeOf_super_ok {keyword : Reference} {method : Name}
    (h : typeOf context t (.super keyword method) = .ok type) :
    ∃ id s, lookUp context t keyword = .ok (.classType id) ∧
      t.classes.findMethod? method.text id.index = some s ∧ type = .function s := by
  obtain ⟨found, hfound, h⟩ := except_bind_eq_ok.mp h
  cases found with
  | classType id =>
    simp only at h
    split at h
    · next s hs =>
      cases h
      exact ⟨id, s, hfound, hs, rfl⟩
    · cases h
  | _ => cases h

/-- Accepted expressions are accepted one by one. -/
theorem typesOf_cons_ok {e : Expr} {es : List Expr} {types : List StaticType}
    (h : typesOf context t (e :: es) = .ok types) :
    ∃ first rest, typeOf context t e = .ok first ∧ typesOf context t es = .ok rest ∧
      types = first :: rest := by
  obtain ⟨first, hfirst, h⟩ := except_bind_eq_ok.mp h
  obtain ⟨rest, hrest, h⟩ := except_bind_eq_ok.mp h
  cases h
  exact ⟨first, rest, hfirst, hrest, rfl⟩

theorem lookUp_ok {ref : Reference} (h : lookUp context t ref = .ok type) :
    ∃ place, t.scopes.find? ref.name.text = some place ∧
      t.scopes.get? place ref.name.text = some type ∧
      context.table.get? ref.id = place.distance? := by
  cases hfind : t.scopes.find? ref.name.text with
  | none =>
    rw [lookUp, hfind] at h
    cases h
  | some place =>
    obtain ⟨found, hget⟩ := Option.isSome_iff_exists.mp (Scopes.isSome_get?_of_find? hfind)
    rw [lookUp_eq hfind hget] at h
    split at h
    · next hrecorded =>
      cases h
      exact ⟨place, rfl, hget, hrecorded⟩
    · cases h

/-- At first the globals are the functions that are built in. -/
theorem builtin_of_initial {x : String} (h : initial.scopes.globals.find? x = some type) :
    ∃ b : Builtin, x = b.name ∧ type = .function b.signature := by
  have hmem : (x, type) ∈ Builtin.all.map fun b => (b.name, StaticType.function b.signature) :=
    Bindings.find?_ofList h
  obtain ⟨b, -, heq⟩ := List.mem_map.mp hmem
  cases heq
  exact ⟨b, rfl, rfl⟩

/-- An accepted condition is boolean. -/
theorem condition_ok {keyword : Position} {e : Expr}
    (h : condition context t keyword e = .ok ()) :
    ∃ type, typeOf context t e = .ok type ∧ type.isBoolean = true := by
  obtain ⟨type, htype, h⟩ := except_bind_eq_ok.mp h
  split at h
  · next hboolean => exact ⟨type, htype, hboolean⟩
  · cases h

theorem stmt_expression_ok {e : Expr} (h : stmt context (.expression e) t = .ok t') :
    (∃ type, typeOf context t e = .ok type) ∧ t' = t := by
  obtain ⟨type, htype, h⟩ := except_bind_eq_ok.mp h
  cases h
  exact ⟨⟨type, htype⟩, rfl⟩

theorem stmt_val_ok {name : Name} {typeName : Option TypeName} {initializer : Option Expr}
    (h : stmt context (.val name typeName initializer) t = .ok t') :
    ∃ type, declaredType context t name typeName initializer = .ok type ∧
      t' = t.declare name.text type := by
  obtain ⟨type, htype, h⟩ := except_bind_eq_ok.mp h
  cases h
  exact ⟨type, htype, rfl⟩

/-- A variable with an initializer has the type of the initializer, or one that is written and goes
    with it. -/
theorem declaredType_ok {name : Name} {typeName : Option TypeName} {e : Expr}
    (h : declaredType context t name typeName (some e) = .ok type) :
    ∃ inferred, typeOf context t e = .ok inferred ∧
      ((typeName = none ∧ type = inferred) ∨
        (∃ written, annotated context t written = .ok type) ∧ type.compatible inferred = true) := by
  cases typeName with
  | none =>
    obtain ⟨declared, hnone, h⟩ := except_bind_eq_ok.mp h
    cases hnone
    obtain ⟨inferred, hinferred, h⟩ := except_bind_eq_ok.mp h
    obtain ⟨inferredType, htype, hsome⟩ := except_bind_eq_ok.mp hinferred
    cases hsome
    cases h
    exact ⟨type, htype, .inl ⟨rfl, rfl⟩⟩
  | some written =>
    obtain ⟨declared, hdeclared, h⟩ := except_bind_eq_ok.mp h
    obtain ⟨declaredType, hwritten, hsome⟩ := except_bind_eq_ok.mp hdeclared
    cases hsome
    obtain ⟨inferred, hinferred, h⟩ := except_bind_eq_ok.mp h
    obtain ⟨inferredType, htype, hsome⟩ := except_bind_eq_ok.mp hinferred
    cases hsome
    simp only at h
    split at h
    · next hcompatible =>
      cases h
      exact ⟨inferredType, htype, .inr ⟨⟨written, hwritten⟩, hcompatible⟩⟩
    · cases h

/-- A variable without an initializer has the type that is written, or else none. -/
theorem declaredType_none_ok {name : Name} {typeName : Option TypeName}
    (h : declaredType context t name typeName none = .ok type) :
    type = .void ∨ ∃ written, annotated context t written = .ok type := by
  obtain ⟨declared, hdeclared, h⟩ := except_bind_eq_ok.mp h
  obtain ⟨inferred, hinferred, h⟩ := except_bind_eq_ok.mp h
  cases hinferred
  cases typeName with
  | none =>
    cases hdeclared
    cases h
    exact .inl rfl
  | some written =>
    obtain ⟨declaredType, hwritten, hsome⟩ := except_bind_eq_ok.mp hdeclared
    cases hsome
    cases h
    exact .inr ⟨written, hwritten⟩

theorem stmt_block_ok {body : List Stmt} (h : stmt context (.block body) t = .ok t') :
    ∃ inner, stmts context body { t with scopes := t.scopes.openFrame } = .ok inner ∧
      t' = { inner with scopes := t.scopes } := by
  obtain ⟨inner, hinner, h⟩ := except_bind_eq_ok.mp h
  cases h
  exact ⟨inner, hinner, rfl⟩

/-- What an accepted conditional tells. -/
theorem stmt_ifThen_ok {keyword : Position} {e : Expr} {yes : Stmt}
    (h : stmt context (.ifThen keyword e yes) t = .ok t') :
    condition context t keyword e = .ok () ∧ stmt context yes t = .ok t' := by
  obtain ⟨_, hcondition, h⟩ := except_bind_eq_ok.mp h
  exact ⟨hcondition, h⟩

theorem stmt_ifElse_ok {keyword : Position} {e : Expr} {yes no : Stmt}
    (h : stmt context (.ifElse keyword e yes no) t = .ok t') :
    condition context t keyword e = .ok () ∧
      ∃ t₁, stmt context yes t = .ok t₁ ∧ stmt context no t₁ = .ok t' := by
  obtain ⟨_, hcondition, h⟩ := except_bind_eq_ok.mp h
  exact ⟨hcondition, except_bind_eq_ok.mp h⟩

/-- What an accepted loop tells. -/
theorem stmt_whileLoop_ok {keyword : Position} {e : Expr} {body : Stmt}
    (h : stmt context (.whileLoop keyword e body) t = .ok t') :
    condition context t keyword e = .ok () ∧ stmt context body t = .ok t' := by
  obtain ⟨_, hcondition, h⟩ := except_bind_eq_ok.mp h
  exact ⟨hcondition, h⟩

theorem stmt_funDecl_ok {decl : FunctionDecl} (h : stmt context (.funDecl decl) t = .ok t') :
    ∃ s, signature context t decl = .ok s ∧
      function context decl s (t.declare decl.name.text (.function s)) = .ok t' :=
  except_bind_eq_ok.mp h

/-- Types that fit are compatible. -/
theorem compatible_of_fits {expected actual : StaticType} {keyword : Position}
    (h : fits expected actual keyword t = .ok t') : expected.compatible actual = true := by
  unfold fits at h
  split at h
  · next hcompatible => exact hcompatible
  · cases h

theorem stmt_ret_ok {keyword : Position} {value : Option Expr}
    (h : stmt context (.ret keyword value) t = .ok t') :
    ∃ expected actual, context.returns = some expected ∧
      value.elim (.ok .void) (typeOf context t) = .ok actual ∧
      expected.compatible actual = true ∧ t' = t := by
  obtain ⟨table, returns, current⟩ := context
  cases returns with
  | none =>
    cases value with
    | none => cases h
    | some e =>
      obtain ⟨actual, -, houtside⟩ := except_bind_eq_ok.mp h
      cases houtside
  | some expected =>
    cases value with
    | none =>
      have hfits : fits expected .void keyword t = .ok t' := h
      exact ⟨expected, .void, rfl, rfl, compatible_of_fits hfits, fits_eq_ok hfits⟩
    | some e =>
      obtain ⟨actual, hactual, hfits⟩ := except_bind_eq_ok.mp h
      exact ⟨expected, actual, rfl, hactual, compatible_of_fits hfits, fits_eq_ok hfits⟩

/-- The class that the next declaration makes. -/
def classId (t : Typing) (name : Name) : ClassId := ⟨t.classes.length, name.text⟩

/-- With one more class, which its name is bound to. -/
def withClass (t : Typing) (name : Name) (superclass : Option ClassId)
    (methods : Bindings Signature) : Typing :=
  ⟨t.scopes.declare name.text (.classType (t.classId name)),
    ⟨name.text, superclass, methods⟩ :: t.classes⟩

/-- The types of methods by name; of two methods with one name the later counts. -/
def methodTypes (ss : List Signature) : Bindings Signature :=
  Bindings.ofList (ss.map fun s => (s.name, s))

theorem stmts_cons_ok {s : Stmt} {ss : List Stmt} (h : stmts context (s :: ss) t = .ok t') :
    ∃ t₁, stmt context s t = .ok t₁ ∧ stmts context ss t₁ = .ok t' :=
  except_bind_eq_ok.mp h

/-- A statement that declares no name leaves the scopes alone. -/
theorem stmt_scopes : ∀ (s : Stmt) {t t' : Typing}, s.WellFormed → s.declared? = none →
    stmt context s t = .ok t' → t'.scopes = t.scopes
  | .expression e, _, _, _, _, h => by
    obtain ⟨-, rfl⟩ := stmt_expression_ok h
    rfl
  | .block body, _, _, _, _, h => by
    obtain ⟨inner, -, rfl⟩ := stmt_block_ok h
    rfl
  | .ifThen _ _ yes, _, _, hwf, _, h => stmt_scopes yes hwf.2.1 hwf.2.2 (stmt_ifThen_ok h).2
  | .ifElse _ _ yes no, _, _, hwf, _, h => by
    obtain ⟨-, t₁, hyes, hno⟩ := stmt_ifElse_ok h
    rw [stmt_scopes no hwf.2.2.1 hwf.2.2.2 hno, stmt_scopes yes hwf.2.1.1 hwf.2.1.2 hyes]
  | .whileLoop _ _ body, _, _, hwf, _, h =>
    stmt_scopes body hwf.2.1 hwf.2.2 (stmt_whileLoop_ok h).2
  | .ret _ _, _, _, _, _, h => by
    obtain ⟨-, -, -, -, -, rfl⟩ := stmt_ret_ok h
    rfl

/-! ### The walk -/

/-- A place of a program, as the type checker knows it. -/
structure Site where
  context : TypeContext
  typing : Typing

/-- In the body of a function of the given type. -/
def inBody (decl : FunctionDecl) (s : Signature) (site : Site) : Site :=
  ⟨{ site.context with returns := some s.returns },
    { site.typing with
      scopes := (decl.params.zip s.params).foldl
        (fun scopes (p, type) => scopes.declare p.name.text type) site.typing.scopes.openFrame }⟩

/-- Inside a class, where its methods are declared. -/
def insideClass (id : ClassId) (superclass : Option ClassId) (site : Site) : Site :=
  ⟨{ site.context with current := some id },
    { site.typing with scopes := classScopes site.typing.scopes id superclass }⟩

theorem stmt_classDecl_ok {name : Name} {superclass : Option Reference}
    {decls : List FunctionDecl} (h : stmt context (.classDecl name superclass decls) t = .ok t') :
    ∃ super ss inner, superclass.mapM (superclassId context t) = .ok super ∧
      signatures context (t.withClass name super .empty) decls = .ok ss ∧
      methods { context with current := some (t.classId name) } decls ss
        (insideClass (t.classId name) super
          ⟨context, t.withClass name super (methodTypes ss)⟩).typing = .ok inner ∧
      t' = { inner with scopes := (t.withClass name super (methodTypes ss)).scopes } := by
  obtain ⟨super, hsuper, h⟩ := except_bind_eq_ok.mp h
  obtain ⟨ss, hss, h⟩ := except_bind_eq_ok.mp h
  obtain ⟨inner, hinner, h⟩ := except_bind_eq_ok.mp h
  cases h
  exact ⟨super, ss, inner, hsuper, hss, hinner, rfl⟩

/-- In the bodies of methods of the given types, in order. -/
def inMethods (context : TypeContext) : List FunctionDecl → List Signature → Typing → List Site
  | decl :: decls, s :: ss, t =>
    inBody decl s ⟨context, t⟩ ::
      (function context decl s t).toOption.elim [] fun t => inMethods context decls ss t
  | _, _, _ => []

/-- In the bodies of the methods of a class. -/
def inClass (name : Name) (superclass : Option Reference) (decls : List FunctionDecl)
    (site : Site) : Result (List Site) := do
  let superclass ← superclass.mapM (superclassId site.context site.typing)
  let id : ClassId := ⟨site.typing.classes.length, name.text⟩
  let t : Typing := ⟨site.typing.scopes, ⟨name.text, superclass, .empty⟩ :: site.typing.classes⟩
  let t := t.declare name.text (.classType id)
  let ss ← signatures site.context t decls
  let known := Bindings.ofList (ss.map fun s => (s.name, s))
  return inMethods { site.context with current := some id } decls ss
    ⟨classScopes t.scopes id superclass, ClassTable.setMethods known t.classes⟩

/-- The walk of the type checker. A step that fails would end it. -/
def walk : Walk Site where
  initializer _ site := site
  block site := { site with typing := { site.typing with scopes := site.typing.scopes.openFrame } }
  after s site :=
    { site with typing := (stmt site.context s site.typing).toOption.getD site.typing }
  function decl site :=
    (signature site.context site.typing decl).toOption.elim site fun s =>
      inBody decl s ⟨site.context, site.typing.declare decl.name.text (.function s)⟩
  methods name superclass decls site := (inClass name superclass decls site).toOption.getD []

/-- Where the walk of the type checker over a program starts. -/
def start (table : Distances) (program : Program) : Visit Site :=
  ⟨.stmts program, ⟨table, none, none⟩, .initial⟩

theorem walk_after {s : Stmt} {site : Site} (h : stmt site.context s site.typing = .ok t) :
    walk.after s site = ⟨site.context, t⟩ := by
  simp only [walk, h]
  rfl

theorem walk_function {decl : FunctionDecl} {site : Site} {s : Signature}
    (h : signature site.context site.typing decl = .ok s) :
    walk.function decl site =
      inBody decl s ⟨site.context, site.typing.declare decl.name.text (.function s)⟩ := by
  simp only [walk, h]
  rfl

theorem walk_methods {name : Name} {superclass : Option Reference} {decls : List FunctionDecl}
    {site : Site} {super : Option ClassId} {ss : List Signature}
    (hsuper : superclass.mapM (superclassId site.context site.typing) = .ok super)
    (hss : signatures site.context (site.typing.withClass name super .empty) decls = .ok ss) :
    walk.methods name superclass decls site
      = inMethods { site.context with current := some (site.typing.classId name) } decls ss
        (insideClass (site.typing.classId name) super
          ⟨site.context, site.typing.withClass name super (methodTypes ss)⟩).typing := by
  have hclass : inClass name superclass decls site = .ok _ :=
    except_bind_eq_ok.mpr ⟨super, hsuper, except_bind_eq_ok.mpr ⟨ss, hss, rfl⟩⟩
  simp only [walk, hclass]
  rfl

/-- The type checker accepts a part where it comes to it. -/
def Accepts : Visit Site → Prop
  | ⟨.expr e, site⟩ => ∃ type, typeOf site.context site.typing e = .ok type
  | ⟨.exprs es, site⟩ => ∃ types, typesOf site.context site.typing es = .ok types
  | ⟨.stmt s, site⟩ => ∃ t, stmt site.context s site.typing = .ok t
  | ⟨.stmts ss, site⟩ => ∃ t, stmts site.context ss site.typing = .ok t

theorem accepts_body {decl : FunctionDecl} {s : Signature} (site : Site)
    (h : function site.context decl s site.typing = .ok t) :
    Accepts ⟨.stmts decl.body, inBody decl s site⟩ ∧ t.scopes = site.typing.scopes := by
  obtain ⟨name, params, returns, body⟩ := decl
  rw [function] at h
  obtain ⟨inner, hinner, h⟩ := except_bind_eq_ok.mp h
  cases h
  exact ⟨⟨inner, hinner⟩, rfl⟩

theorem accepts_parts {e : Expr} {site : Site} (h : Accepts ⟨.expr e, site⟩) :
    ∀ part ∈ e.parts, Accepts ⟨part, site⟩ := by
  obtain ⟨type, htype⟩ := h
  cases e with
  | literal => nofun
  | var => nofun
  | this => nofun
  | super => nofun
  | grouping inner =>
    rw [typeOf] at htype
    exact List.forall_mem_singleton.mpr ⟨type, htype⟩
  | unary operator operand =>
    obtain ⟨operandType, hoperand, -⟩ := typeOf_unary_ok htype
    exact List.forall_mem_singleton.mpr ⟨operandType, hoperand⟩
  | binary left operator right =>
    obtain ⟨leftType, rightType, hleft, hright, -⟩ := typeOf_binary_ok htype
    exact List.forall_mem_cons.mpr ⟨⟨leftType, hleft⟩,
      List.forall_mem_singleton.mpr ⟨rightType, hright⟩⟩
  | logical left operator right =>
    obtain ⟨leftType, rightType, hleft, hright, -⟩ := typeOf_logical_ok htype
    exact List.forall_mem_cons.mpr ⟨⟨leftType, hleft⟩,
      List.forall_mem_singleton.mpr ⟨rightType, hright⟩⟩
  | ternary condition question yes no =>
    obtain ⟨conditionType, noType, hcondition, -, hyes, hno, -⟩ := typeOf_ternary_ok htype
    exact List.forall_mem_cons.mpr ⟨⟨conditionType, hcondition⟩, List.forall_mem_cons.mpr
      ⟨⟨type, hyes⟩, List.forall_mem_singleton.mpr ⟨noType, hno⟩⟩⟩
  | assign target value =>
    obtain ⟨-, hvalue, -⟩ := typeOf_assign_ok htype
    exact List.forall_mem_singleton.mpr ⟨type, hvalue⟩
  | call callee paren arguments =>
    obtain ⟨calleeType, types, hcallee, htypes, -⟩ := typeOf_call_ok htype
    exact List.forall_mem_cons.mpr ⟨⟨calleeType, hcallee⟩,
      List.forall_mem_singleton.mpr ⟨types, htypes⟩⟩
  | get object name =>
    obtain ⟨id, hobject, -⟩ := typeOf_get_ok htype
    exact List.forall_mem_singleton.mpr ⟨.instanceType id, hobject⟩
  | set object name value =>
    obtain ⟨id, hobject, hvalue⟩ := typeOf_set_ok htype
    exact List.forall_mem_cons.mpr ⟨⟨.instanceType id, hobject⟩,
      List.forall_mem_singleton.mpr ⟨type, hvalue⟩⟩

theorem accepts_methods {context : TypeContext} {decls : List FunctionDecl}
    {ss : List Signature} (h : methods context decls ss t = .ok t') :
    ∀ decl site, (decl, site) ∈ decls.zip (inMethods context decls ss t) →
      Accepts ⟨.stmts decl.body, site⟩ := by
  induction decls generalizing ss t with
  | nil =>
    intro decl site hmem
    cases hmem
  | cons first decls ih =>
    cases ss with
    | nil =>
      intro decl site hmem
      cases hmem
    | cons s ss =>
      rw [methods] at h
      obtain ⟨t₁, hfirst, hrest⟩ := except_bind_eq_ok.mp h
      intro decl site hmem
      rw [inMethods, hfirst] at hmem
      rcases List.mem_cons.mp hmem with heq | hmem
      · cases heq
        exact (accepts_body ⟨context, t⟩ hfirst).1
      · exact ih hrest decl site hmem

/-- Where the checker comes to in the methods of a class, if each of them leaves behind what holds
    before the first. -/
theorem mem_inMethods {context : TypeContext} {decls : List FunctionDecl} {ss : List Signature}
    {P : Typing → Prop} (h : methods context decls ss t = .ok t')
    (hkeeps : ∀ decl ∈ decls, ∀ s t t', P t → function context decl s t = .ok t' → P t')
    (ht : P t) {decl : FunctionDecl} {site : Site}
    (hmem : (decl, site) ∈ decls.zip (inMethods context decls ss t)) :
    ∃ s t₁, (decl, s) ∈ decls.zip ss ∧ P t₁ ∧ site = inBody decl s ⟨context, t₁⟩ := by
  induction decls generalizing ss t with
  | nil => cases hmem
  | cons first decls ih =>
    cases ss with
    | nil => cases hmem
    | cons s ss =>
      rw [methods] at h
      obtain ⟨t₁, hfirst, hrest⟩ := except_bind_eq_ok.mp h
      rw [inMethods, hfirst] at hmem
      rcases List.mem_cons.mp hmem with heq | hmem
      · cases heq
        exact ⟨s, t, List.mem_cons_self, ht, rfl⟩
      · have hkeeps' := fun decl hdecl => hkeeps decl (List.mem_cons_of_mem first hdecl)
        obtain ⟨s', t₂, hzip, ht₂, hsite⟩ :=
          ih hrest hkeeps' (hkeeps first List.mem_cons_self s t t₁ ht hfirst) hmem
        exact ⟨s', t₂, List.mem_cons_of_mem _ hzip, ht₂, hsite⟩

theorem accepts_entersStmt {s : Stmt} {site : Site} (h : Accepts ⟨.stmt s, site⟩) :
    ∀ v ∈ walk.entersStmt s site, Accepts v := by
  obtain ⟨t, ht⟩ := h
  cases s with
  | expression e =>
    obtain ⟨htype, -⟩ := stmt_expression_ok ht
    exact List.forall_mem_singleton.mpr htype
  | val name typeName initializer =>
    cases initializer with
    | none => nofun
    | some e =>
      obtain ⟨type, htype, -⟩ := stmt_val_ok ht
      obtain ⟨inferred, hinferred, -⟩ := declaredType_ok htype
      exact List.forall_mem_singleton.mpr ⟨inferred, hinferred⟩
  | block body =>
    obtain ⟨inner, hinner, -⟩ := stmt_block_ok ht
    exact List.forall_mem_singleton.mpr ⟨inner, hinner⟩
  | ifThen keyword e yes =>
    obtain ⟨hcondition, hyes⟩ := stmt_ifThen_ok ht
    obtain ⟨type, htype, -⟩ := condition_ok hcondition
    exact List.forall_mem_cons.mpr ⟨⟨type, htype⟩, List.forall_mem_singleton.mpr ⟨t, hyes⟩⟩
  | ifElse keyword e yes no =>
    obtain ⟨hcondition, t₁, hyes, hno⟩ := stmt_ifElse_ok ht
    obtain ⟨type, htype, -⟩ := condition_ok hcondition
    refine List.forall_mem_cons.mpr ⟨⟨type, htype⟩, List.forall_mem_cons.mpr
      ⟨⟨t₁, hyes⟩, List.forall_mem_singleton.mpr ?_⟩⟩
    rw [walk_after hyes]
    exact ⟨t, hno⟩
  | whileLoop keyword e body =>
    obtain ⟨hcondition, hbody⟩ := stmt_whileLoop_ok ht
    obtain ⟨type, htype, -⟩ := condition_ok hcondition
    exact List.forall_mem_cons.mpr ⟨⟨type, htype⟩, List.forall_mem_singleton.mpr ⟨t, hbody⟩⟩
  | funDecl decl =>
    obtain ⟨s, hs, hfunction⟩ := stmt_funDecl_ok ht
    refine List.forall_mem_singleton.mpr ?_
    rw [walk_function hs]
    exact (accepts_body ⟨site.context, _⟩ hfunction).1
  | ret keyword value =>
    cases value with
    | none => nofun
    | some e =>
      obtain ⟨-, actual, -, hactual, -⟩ := stmt_ret_ok ht
      exact List.forall_mem_singleton.mpr ⟨actual, hactual⟩
  | classDecl name superclass decls =>
    obtain ⟨super, ss, inner, hsuper, hss, hinner, -⟩ := stmt_classDecl_ok ht
    intro v hv
    obtain ⟨⟨decl, site'⟩, hmem, rfl⟩ := List.mem_map.mp hv
    -- The bodies are checked with the class declared and all of its methods known.
    rw [walk_methods hsuper hss] at hmem
    exact accepts_methods hinner decl site' hmem

theorem accepts_enters {v : Visit Site} (h : Accepts v) : ∀ v' ∈ walk.enters v, Accepts v' := by
  obtain ⟨part, site⟩ := v
  rcases part with e | ⟨_ | ⟨e, es⟩⟩ | s | ⟨_ | ⟨s, ss⟩⟩
  · exact List.forall_mem_map.mpr (accepts_parts h)
  · nofun
  · obtain ⟨types, htypes⟩ := h
    obtain ⟨first, rest, hfirst, hrest, -⟩ := typesOf_cons_ok htypes
    exact List.forall_mem_cons.mpr ⟨⟨first, hfirst⟩, List.forall_mem_singleton.mpr ⟨rest, hrest⟩⟩
  · exact accepts_entersStmt h
  · nofun
  · obtain ⟨t, ht⟩ := h
    obtain ⟨t₁, hs, hss⟩ := stmts_cons_ok ht
    refine List.forall_mem_cons.mpr ⟨⟨t₁, hs⟩, List.forall_mem_singleton.mpr ?_⟩
    rw [walk_after hs]
    exact ⟨t, hss⟩

/-- Every part of a program that the type checker accepts is accepted where it stands. -/
theorem accepts_of_visits {table : Distances} {program : Program} {v : Visit Site}
    (hcheck : typecheck table program = .ok ()) (h : walk.Visits (start table program) v) :
    Accepts v := by
  induction h with
  | refl =>
    obtain ⟨t, ht, -⟩ := except_bind_eq_ok.mp hcheck
    exact ⟨t, ht⟩
  | tail _ hstep ih => exact accepts_enters ih _ hstep

/-! ### The type of an expression -/

/-- The type checker gives the expression a type, at a place where it comes to it. -/
def Gives (table : Distances) (program : Program) (e : Expr) (type : StaticType) : Prop :=
  ∃ site, walk.Visits (start table program) ⟨.expr e, site⟩ ∧
    typeOf site.context site.typing e = .ok type

/-- Signs give values without parts. -/
theorem unary_scalar {operator : Token} {operand : StaticType}
    (h : unary operator operand = .ok type) : type.Scalar := by
  unfold unary at h
  split at h <;> split at h <;> cases h <;> trivial

/-- Operators give values without parts. -/
theorem binary_scalar {operator : Token} {left right : StaticType}
    (h : binary operator left right = .ok type) : type.Scalar := by
  unfold binary at h
  repeat' split at h
  all_goals cases h
  all_goals trivial

/-- Nothing can be done with a scalar but to compute with it. -/
theorem call_ne_ok_of_scalar {paren : Position} {callee : StaticType} {types : List StaticType}
    (hcallee : callee.Scalar) : call t paren callee types ≠ .ok type := by
  intro h
  cases callee <;> cases hcallee <;> cases h

/-- An expression that uses no name has one type wherever it stands. -/
theorem typeOf_closed : ∀ (e : Expr) {context context' : TypeContext} {t t' : Typing}
    {type type' : StaticType}, e.references = [] → typeOf context t e = .ok type →
    typeOf context' t' e = .ok type' → type.Scalar ∧ type' = type
  | .literal value, _, _, _, _, _, _, _, h, h' => by
    cases value <;> cases h <;> cases h' <;> exact ⟨trivial, rfl⟩
  | .grouping inner, _, _, _, _, _, _, hrefs, h, h' => by
    rw [typeOf] at h h'
    exact typeOf_closed inner hrefs h h'
  | .unary _ operand, _, _, _, _, _, _, hrefs, h, h' => by
    obtain ⟨operandType, hoperand, h⟩ := typeOf_unary_ok h
    obtain ⟨operandType', hoperand', h'⟩ := typeOf_unary_ok h'
    obtain ⟨-, rfl⟩ := typeOf_closed operand hrefs hoperand hoperand'
    exact ⟨unary_scalar h, Except.ok.inj (h'.symm.trans h)⟩
  | .binary left _ right, _, _, _, _, _, _, hrefs, h, h' => by
    obtain ⟨hleftRefs, hrightRefs⟩ := List.append_eq_nil_iff.mp hrefs
    obtain ⟨leftType, rightType, hleft, hright, h⟩ := typeOf_binary_ok h
    obtain ⟨leftType', rightType', hleft', hright', h'⟩ := typeOf_binary_ok h'
    obtain ⟨-, rfl⟩ := typeOf_closed left hleftRefs hleft hleft'
    obtain ⟨-, rfl⟩ := typeOf_closed right hrightRefs hright hright'
    exact ⟨binary_scalar h, Except.ok.inj (h'.symm.trans h)⟩
  | .logical _ _ _, _, _, _, _, _, _, _, h, h' => by
    obtain ⟨-, -, -, -, -, -, rfl⟩ := typeOf_logical_ok h
    obtain ⟨-, -, -, -, -, -, rfl⟩ := typeOf_logical_ok h'
    exact ⟨trivial, rfl⟩
  | .ternary _ _ yes _, _, _, _, _, _, _, hrefs, h, h' => by
    obtain ⟨-, hrefs⟩ := List.append_eq_nil_iff.mp hrefs
    obtain ⟨-, -, -, -, hyes, -, -⟩ := typeOf_ternary_ok h
    obtain ⟨-, -, -, -, hyes', -, -⟩ := typeOf_ternary_ok h'
    exact typeOf_closed yes (List.append_eq_nil_iff.mp hrefs).1 hyes hyes'
  | .call callee _ _, _, _, _, _, _, _, hrefs, h, _ => by
    obtain ⟨calleeType, types, hcallee, -, h⟩ := typeOf_call_ok h
    -- Without a name there is nothing to call, and no object either.
    have hscalar := (typeOf_closed callee (List.append_eq_nil_iff.mp hrefs).1 hcallee hcallee).1
    exact absurd h (call_ne_ok_of_scalar hscalar)
  | .get object _, _, _, _, _, _, _, hrefs, h, _ => by
    obtain ⟨id, hobject, -⟩ := typeOf_get_ok h
    exact absurd (typeOf_closed object hrefs hobject hobject).1 not_false
  | .set object _ _, _, _, _, _, _, _, hrefs, h, _ => by
    obtain ⟨id, hobject, -⟩ := typeOf_set_ok h
    have hobjectRefs := (List.append_eq_nil_iff.mp hrefs).1
    exact absurd (typeOf_closed object hobjectRefs hobject hobject).1 not_false

/-- The type checker gives an expression one type. -/
theorem Gives.unique {table : Distances} {program : Program} {e : Expr} {type type' : StaticType}
    (hnodup : ((Stmt.referencesAll program).map Reference.id).Nodup)
    (h : Gives table program e type) (h' : Gives table program e type') : type' = type := by
  obtain ⟨site, hvisit, htype⟩ := h
  obtain ⟨site', hvisit', htype'⟩ := h'
  by_cases hrefs : e.references = []
  · exact (typeOf_closed e hrefs htype htype').2
  · have hstart : ((start table program).part.references.map Reference.id).Nodup := hnodup
    have hpart : (Part.expr e).references ≠ [] := hrefs
    have hplace : site = site' := Walk.place_unique hstart hpart hvisit hvisit'
    rw [hplace, htype'] at htype
    exact Except.ok.inj htype

end Typing

end ClassScript
