import ClassScript.Proofs.Erasure.Trees
import ClassScript.Resolution
import ClassScript.Typing

namespace ClassScript

/-!
# Checking without positions

Resolution and typing carry the positions of names into their faults and nowhere else. So they end
on an erased program as they end on the program, with the same table and the same types, and with a
fault of the same wording.

* `resolve_erase`: resolution;
* `typecheck_erase`: typing.
-/

namespace Resolution

/-! ### Resolution -/

/-- A use of a name is resolved alike. -/
theorem reference_erase (scopes : Scopes Readiness) (ref : Reference) (t : Distances) :
    reference scopes ref.erase t = (reference scopes ref t).mapError Located.erase := by
  simp only [reference, Reference.erase, Name.erase]
  cases scopes.find? ref.name.text with
  | none => rfl
  | some place =>
    refine ite_mapError rfl ?_
    cases place <;> rfl

/-- A name is declared alike. -/
theorem declare_erase (scopes : Scopes Readiness) (name : Name) :
    declare scopes name.erase = (declare scopes name).mapError Located.erase :=
  ite_mapError rfl rfl

/-- A name is introduced alike. -/
theorem introduce_erase (scopes : Scopes Readiness) (name : Name) :
    introduce scopes name.erase = (introduce scopes name).mapError Located.erase :=
  bind_mapError (declare_erase scopes name) fun _ => rfl

/-- A type is resolved alike. -/
theorem typeName_erase (scopes : Scopes Readiness) (type : TypeName) (t : Distances) :
    typeName scopes type.erase t = (typeName scopes type t).mapError Located.erase := by
  cases type with
  | named ref => exact reference_erase scopes ref t
  | _ => rfl

/-- The types of a function are resolved alike. -/
theorem signature_erase (scopes : Scopes Readiness) (decl : FunctionDecl) (t : Distances) :
    signature scopes decl.erase t = (signature scopes decl t).mapError Located.erase := by
  obtain ⟨name, params, returns, body⟩ := decl
  refine bind_mapError ?_ fun t' => ?_
  · exact foldlM_mapError (fun t' p => typeName_erase scopes p.type t') params t
  · cases returns with
    | none => rfl
    | some type => exact typeName_erase scopes type t'

mutual

theorem expr_erase (around : Surroundings) (scopes : Scopes Readiness) :
    ∀ (e : Expr) (t : Distances),
    expr around scopes e.erase t = (expr around scopes e t).mapError Located.erase
  | .literal _, _ => rfl
  | .grouping inner, t => expr_erase around scopes inner t
  | .unary _ operand, t => expr_erase around scopes operand t
  | .binary left _ right, t =>
    bind_mapError (expr_erase around scopes left t) (expr_erase around scopes right)
  | .logical left _ right, t =>
    bind_mapError (expr_erase around scopes left t) (expr_erase around scopes right)
  | .ternary condition _ yes no, t =>
    bind_mapError (expr_erase around scopes condition t) fun t' =>
      bind_mapError (expr_erase around scopes yes t') (expr_erase around scopes no)
  | .var ref, t => reference_erase scopes ref t
  | .assign target value, t =>
    bind_mapError (expr_erase around scopes value t) (reference_erase scopes target)
  | .call callee _ arguments, t =>
    bind_mapError (expr_erase around scopes callee t) (exprs_erase around scopes arguments)
  | .get object _, t => expr_erase around scopes object t
  | .set object _ value, t =>
    bind_mapError (expr_erase around scopes object t) (expr_erase around scopes value)
  | .this ref, t => by
    simp only [Expr.erase, expr]
    cases around.enclosure with
    | outside => rfl
    | _ => exact reference_erase scopes ref t
  | .super keyword _, t => by
    simp only [Expr.erase, expr]
    cases around.enclosure with
    | inSubclass => exact reference_erase scopes keyword t
    | _ => rfl

/-- Lists of expressions are resolved alike. -/
theorem exprs_erase (around : Surroundings) (scopes : Scopes Readiness) :
    ∀ (es : List Expr) (t : Distances),
      exprs around scopes (Expr.eraseAll es) t = (exprs around scopes es t).mapError Located.erase
  | [], _ => rfl
  | e :: es, t => bind_mapError (expr_erase around scopes e t) (exprs_erase around scopes es)

end

mutual

theorem stmt_erase (around : Surroundings) : ∀ (s : Stmt) (r : Resolution),
    stmt around s.erase r = (stmt around s r).mapError Located.erase
  | .expression e, r => bind_mapError (expr_erase around r.scopes e r.table) fun _ => rfl
  | .val name type initializer, r => by
    have hrest (t : Distances) :
        stmt around (.val name.erase none (initializer.map Expr.erase)) { r with table := t }
          = (stmt around (.val name none initializer) { r with table := t }).mapError
            Located.erase := by
      refine bind_mapError rfl fun t => bind_mapError (declare_erase r.scopes name) fun scopes => ?_
      cases initializer with
      | none => rfl
      | some e => exact bind_mapError (expr_erase around scopes e t) fun _ => rfl
    cases type with
    | none => exact hrest r.table
    | some type => exact bind_mapError (typeName_erase r.scopes type r.table) hrest
  | .block body, r => bind_mapError (stmts_erase around body _) fun _ => rfl
  | .ifThen _ condition yes, r =>
    bind_mapError (expr_erase around r.scopes condition r.table) fun _ => stmt_erase around yes _
  | .ifElse _ condition yes no, r =>
    bind_mapError (expr_erase around r.scopes condition r.table) fun _ =>
      bind_mapError (stmt_erase around yes _) (stmt_erase around no)
  | .whileLoop _ condition body, r =>
    bind_mapError (expr_erase around r.scopes condition r.table) fun _ => stmt_erase around body _
  | .funDecl ⟨name, params, returns, body⟩, r =>
    bind_mapError (signature_erase r.scopes ⟨name, params, returns, body⟩ r.table) fun t =>
      bind_mapError (introduce_erase r.scopes name) fun scopes =>
        bind_mapError (function_erase _ ⟨name, params, returns, body⟩ scopes t) fun _ => rfl
  | .ret keyword value, r => by
    obtain ⟨body, enclosure⟩ := around
    cases value with
    | none => cases body <;> rfl
    | some e =>
      cases body with
      | topLevel => rfl
      | initializer => rfl
      | _ => exact bind_mapError (expr_erase _ r.scopes e r.table) fun _ => rfl
  | .classDecl name superclass decls, r => by
    -- What is left once the superclass is known.
    have hrest (inner : Surroundings) (derived : Bool) (scopes : Scopes Readiness) (t : Distances) :
        (do
          let t ← (FunctionDecl.eraseAll decls).foldlM (fun t decl => signature scopes decl t) t
          let t ← methods inner (FunctionDecl.eraseAll decls) (classScopes scopes derived) t
          (pure ⟨scopes, t⟩ : Result Resolution))
          = (do
            let t ← decls.foldlM (fun t decl => signature scopes decl t) t
            let t ← methods inner decls (classScopes scopes derived) t
            (pure ⟨scopes, t⟩ : Result Resolution)).mapError Located.erase := by
      refine bind_mapError ?_ fun t => bind_mapError (methods_erase _ decls _ t) fun _ => rfl
      rw [FunctionDecl.eraseAll_eq_map]
      exact foldlM_mapError (fun t decl => signature_erase scopes decl t) decls t
    simp only [Stmt.erase, stmt]
    refine ite_mapError rfl (bind_mapError (introduce_erase r.scopes name) fun scopes => ?_)
    cases superclass with
    | none => exact hrest _ false scopes r.table
    | some ref =>
      refine ite_mapError rfl (bind_mapError (reference_erase scopes ref r.table) fun t => ?_)
      exact hrest _ true scopes t

/-- Lists of statements are resolved alike. -/
theorem stmts_erase (around : Surroundings) : ∀ (ss : List Stmt) (r : Resolution),
    stmts around (Stmt.eraseAll ss) r = (stmts around ss r).mapError Located.erase
  | [], _ => rfl
  | s :: ss, r => bind_mapError (stmt_erase around s r) (stmts_erase around ss)

/-- Functions are resolved alike. -/
theorem function_erase (around : Surroundings) : ∀ (decl : FunctionDecl) (scopes : Scopes Readiness)
    (t : Distances),
    function around decl.erase scopes t = (function around decl scopes t).mapError Located.erase
  | ⟨_, params, _, body⟩, _, _ =>
    bind_mapError (foldlM_mapError (fun scopes p => introduce_erase scopes p.name) params _)
      fun _ => bind_mapError (stmts_erase around body _) fun _ => rfl

/-- Methods are resolved alike. -/
theorem methods_erase (around : Surroundings) : ∀ (decls : List FunctionDecl)
    (scopes : Scopes Readiness) (t : Distances),
    methods around (FunctionDecl.eraseAll decls) scopes t
      = (methods around decls scopes t).mapError Located.erase
  | [], _, _ => rfl
  | ⟨name, params, returns, body⟩ :: decls, scopes, t =>
    bind_mapError (function_erase { around with body := methodBody name }
      ⟨name, params, returns, body⟩ scopes t) (methods_erase around decls scopes)

end

end Resolution

/-- Resolution ends on an erased program as on the program. -/
theorem resolve_erase (program : Program) :
    resolve (Stmt.eraseAll program) = (resolve program).mapError Located.erase :=
  bind_mapError (Resolution.stmts_erase _ program .initial) fun _ => rfl

namespace Typing

/-! ### Typing -/

variable (context : TypeContext) (t : Typing)

/-- A use of a name has the same type. -/
theorem lookUp_erase (ref : Reference) :
    lookUp context t ref.erase = (lookUp context t ref).mapError Located.erase := by
  simp only [lookUp, Reference.erase, Name.erase]
  cases t.scopes.find? ref.name.text with
  | none => rfl
  | some found =>
    refine ite_mapError ?_ rfl
    cases t.scopes.get? found ref.name.text <;> rfl

/-- A type that is written means the same. -/
theorem annotated_erase (type : TypeName) :
    annotated context t type.erase = (annotated context t type).mapError Located.erase := by
  cases type with
  | named ref =>
    refine bind_mapError (lookUp_erase context t ref) fun found => ?_
    cases found <;> rfl
  | _ => rfl

/-- A function has the same types. -/
theorem signature_erase (decl : FunctionDecl) :
    signature context t decl.erase = (signature context t decl).mapError Located.erase := by
  obtain ⟨name, params, returns, body⟩ := decl
  refine bind_mapError ?_ fun types => ?_
  · exact mapM_mapError (fun p => annotated_erase context t p.type) params
  · cases returns with
    | none => rfl
    | some type => exact bind_mapError (annotated_erase context t type) fun _ => rfl

/-- Signs give the same types. -/
theorem unary_erase (operator : Token) (operand : StaticType) :
    unary operator.erase operand = (unary operator operand).mapError Located.erase := by
  simp only [unary, Token.erase]
  split <;> exact ite_mapError rfl rfl

/-- Operators give the same types. -/
theorem binary_erase (operator : Token) (left right : StaticType) :
    binary operator.erase left right = (binary operator left right).mapError Located.erase := by
  refine ite_mapError (ite_mapError rfl rfl) (ite_mapError rfl (ite_mapError rfl ?_))
  simp only [Token.erase]
  split <;> rfl

/-- Calls give the same types. -/
theorem call_erase (paren : Position) (callee : StaticType) (arguments : List StaticType) :
    call t .start callee arguments = (call t paren callee arguments).mapError Located.erase := by
  cases callee with
  | function s => exact ite_mapError rfl rfl
  | classType id => exact ite_mapError rfl rfl
  | generic tags => exact ite_mapError rfl rfl
  | _ => rfl

/-- An object is an instance of the same class. -/
theorem instanceClass_erase (object : StaticType) (name : Name) :
    instanceClass object name.erase = (instanceClass object name).mapError Located.erase := by
  cases object <;> rfl

/-- A property has the same type. -/
theorem property_erase (id : ClassId) (name : Name) :
    property context t id name.erase = (property context t id name).mapError Located.erase := by
  simp only [property, Name.erase]
  cases ClassTable.findMethod? name.text t.classes id.index with
  | none => exact ite_mapError rfl rfl
  | some method => rfl

mutual

theorem typeOf_erase : ∀ e : Expr,
    typeOf context t e.erase = (typeOf context t e).mapError Located.erase
  | .literal value => by cases value <;> rfl
  | .grouping inner => typeOf_erase inner
  | .unary operator operand => bind_mapError (typeOf_erase operand) (unary_erase operator)
  | .binary left operator right =>
    bind_mapError (typeOf_erase left) fun type =>
      bind_mapError (typeOf_erase right) (binary_erase operator type)
  | .logical left _ right =>
    bind_mapError (typeOf_erase left) fun _ => bind_mapError (typeOf_erase right) fun _ =>
      ite_mapError rfl (ite_mapError rfl rfl)
  | .ternary condition _ yes no =>
    bind_mapError (typeOf_erase condition) fun _ => ite_mapError rfl <|
      bind_mapError (typeOf_erase yes) fun _ => bind_mapError (typeOf_erase no) fun _ =>
        ite_mapError rfl rfl
  | .var ref => lookUp_erase context t ref
  | .assign target value => by
    refine bind_mapError (typeOf_erase value) fun actual =>
      bind_mapError (lookUp_erase context t target) fun type => ?_
    cases type with
    | function s => rfl
    | classType id => rfl
    | _ => exact ite_mapError rfl rfl
  | .call callee paren arguments =>
    bind_mapError (typeOf_erase callee) fun type =>
      bind_mapError (typesOf_erase arguments) (call_erase t paren type)
  | .get object name =>
    bind_mapError (typeOf_erase object) fun type =>
      bind_mapError (instanceClass_erase type name) fun id => property_erase context t id name
  | .set object name value => by
    refine bind_mapError (typeOf_erase object) fun type =>
      bind_mapError (instanceClass_erase type name) fun id => ?_
    simp only [Name.erase]
    cases ClassTable.findMethod? name.text t.classes id.index with
    | none => exact typeOf_erase value
    | some method => rfl
  | .this ref => lookUp_erase context t ref
  | .super keyword method => by
    refine bind_mapError (lookUp_erase context t keyword) fun type => ?_
    cases type with
    | classType id =>
      simp only [Name.erase]
      cases ClassTable.findMethod? method.text t.classes id.index <;> rfl
    | _ => rfl

/-- Lists of expressions have the same types. -/
theorem typesOf_erase : ∀ es : List Expr,
    typesOf context t (Expr.eraseAll es) = (typesOf context t es).mapError Located.erase
  | [] => rfl
  | e :: es =>
    bind_mapError (typeOf_erase e) fun _ => bind_mapError (typesOf_erase es) fun _ => rfl

end

/-- Conditions are accepted alike. -/
theorem condition_erase (keyword : Position) (e : Expr) :
    condition context t .start e.erase
      = (condition context t keyword e).mapError Located.erase :=
  bind_mapError (typeOf_erase context t e) fun _ => ite_mapError rfl rfl

/-- Variables get the same types. -/
theorem declaredType_erase (name : Name) (type : Option TypeName) (initializer : Option Expr) :
    declaredType context t name.erase (type.map TypeName.erase) (initializer.map Expr.erase)
      = (declaredType context t name type initializer).mapError Located.erase := by
  refine bind_mapError (option_mapM_mapError (annotated_erase context t) type) fun declared =>
    bind_mapError (option_mapM_mapError (typeOf_erase context t) initializer) fun inferred => ?_
  cases declared with
  | none => cases inferred <;> rfl
  | some declared =>
    cases inferred with
    | none => rfl
    | some inferred => exact ite_mapError rfl rfl

/-- The superclass is the same. -/
theorem superclassId_erase (ref : Reference) :
    superclassId context t ref.erase
      = (superclassId context t ref).mapError Located.erase := by
  refine bind_mapError (lookUp_erase context t ref) fun type => ?_
  cases type <;> rfl

/-- Methods have the same types. -/
theorem signatures_erase (decls : List FunctionDecl) :
    signatures context t (FunctionDecl.eraseAll decls)
      = (signatures context t decls).mapError Located.erase := by
  rw [FunctionDecl.eraseAll_eq_map]
  exact mapM_mapError (signature_erase context t) decls

mutual

theorem stmt_erase : ∀ (context : TypeContext) (s : Stmt) (t : Typing),
    stmt context s.erase t = (stmt context s t).mapError Located.erase
  | context, .expression e, t => bind_mapError (typeOf_erase context t e) fun _ => rfl
  | context, .val name type initializer, t =>
    bind_mapError (declaredType_erase context t name type initializer) fun _ => rfl
  | context, .block body, _ => bind_mapError (stmts_erase context body _) fun _ => rfl
  | context, .ifThen keyword e yes, t =>
    bind_mapError (condition_erase context t keyword e) fun _ => stmt_erase context yes t
  | context, .ifElse keyword e yes no, t =>
    bind_mapError (condition_erase context t keyword e) fun _ =>
      bind_mapError (stmt_erase context yes t) (stmt_erase context no)
  | context, .whileLoop keyword e body, t =>
    bind_mapError (condition_erase context t keyword e) fun _ => stmt_erase context body t
  | context, .funDecl ⟨name, params, returns, body⟩, t =>
    bind_mapError (signature_erase context t ⟨name, params, returns, body⟩) fun s =>
      function_erase context ⟨name, params, returns, body⟩ s _
  | ⟨table, returns, current⟩, .ret keyword value, t => by
    cases value with
    | none =>
      cases returns with
      | none => rfl
      | some expected => exact ite_mapError rfl rfl
    | some e =>
      refine bind_mapError (typeOf_erase _ t e) fun actual => ?_
      cases returns with
      | none => rfl
      | some expected => exact ite_mapError rfl rfl
  | context, .classDecl _ superclass decls, t =>
    bind_mapError (option_mapM_mapError (superclassId_erase context t) superclass) fun _ =>
      bind_mapError (signatures_erase context _ decls) fun ss =>
        bind_mapError (methods_erase _ decls ss _) fun _ => rfl

/-- Lists of statements are checked alike. -/
theorem stmts_erase : ∀ (context : TypeContext) (ss : List Stmt) (t : Typing),
    stmts context (Stmt.eraseAll ss) t = (stmts context ss t).mapError Located.erase
  | _, [], _ => rfl
  | context, s :: ss, t => bind_mapError (stmt_erase context s t) (stmts_erase context ss)

/-- Functions are checked alike. -/
theorem function_erase : ∀ (context : TypeContext) (decl : FunctionDecl) (s : Signature)
    (t : Typing),
    function context decl.erase s t = (function context decl s t).mapError Located.erase
  | context, ⟨_, params, _, body⟩, s, t => by
    simp only [FunctionDecl.erase, function, List.zip_map_left, List.foldl_map]
    exact bind_mapError (stmts_erase _ body _) fun _ => rfl

/-- Methods are checked alike. -/
theorem methods_erase : ∀ (context : TypeContext) (decls : List FunctionDecl) (ss : List Signature)
    (t : Typing),
    methods context (FunctionDecl.eraseAll decls) ss t
      = (methods context decls ss t).mapError Located.erase
  | _, [], [], _ => rfl
  | _, [], _ :: _, _ => rfl
  | _, _ :: _, [], _ => rfl
  | context, decl :: decls, s :: ss, t =>
    bind_mapError (function_erase context decl s t) (methods_erase context decls ss)

end

end Typing

/-- Typing ends on an erased program as on the program. -/
theorem typecheck_erase (table : Distances) (program : Program) :
    typecheck table (Stmt.eraseAll program) = (typecheck table program).mapError Located.erase :=
  bind_mapError (Typing.stmts_erase _ program .initial) fun _ => rfl

end ClassScript
