import ClassScript.Proofs.Positions

namespace ClassScript

/-!
# Where the checks report

Resolution and the type checker walk over the tree of a program, and end at the first thing that is
wrong. What they report, they report at a position of the tree.

* `ReportsIn`: a step that reports in a given set of positions only;
* `Resolution.reportsIn_stmt`, `Typing.reportsIn_stmt`: the two walks;
* `resolve_reportsIn`, `typecheck_reportsIn`: whole programs.
-/

/-- The step goes well, or what it reports is at a position in the set. -/
def ReportsIn {ε α : Type} (P : Position → Prop) (x : Except (Located ε) α) : Prop :=
  ∀ fault, x = .error fault → P fault.pos

namespace ReportsIn

variable {ε α β : Type} {P : Position → Prop}

/-- What succeeds reports nothing. -/
theorem ok {a : α} : ReportsIn P (.ok a : Except (Located ε) α) := by
  intro fault h
  cases h

/-- A fault is reported where it is. -/
theorem error {fault : Located ε} (h : P fault.pos) :
    ReportsIn P (.error fault : Except (Located ε) α) := by
  intro fault' h'
  cases h'
  exact h

/-- Two steps report what each of them reports. -/
theorem bind {x : Except (Located ε) α} {f : α → Except (Located ε) β} (hx : ReportsIn P x)
    (hf : ∀ a, ReportsIn P (f a)) : ReportsIn P (x >>= f) := by
  cases x with
  | ok a => exact hf a
  | error fault => exact error (hx fault rfl)

/-- Of two branches, whichever is taken. -/
theorem ite {c : Prop} [Decidable c] {x y : Except (Located ε) α} (hx : ReportsIn P x)
    (hy : ReportsIn P y) : ReportsIn P (if c then x else y) := by
  by_cases hc : c
  · rw [if_pos hc]
    exact hx
  · rw [if_neg hc]
    exact hy

theorem foldlM {f : β → α → Except (Located ε) β} {l : List α}
    (hf : ∀ a ∈ l, ∀ b, ReportsIn P (f b a)) (b : β) : ReportsIn P (l.foldlM f b) := by
  induction l generalizing b with
  | nil => exact ok
  | cons a l ih =>
    obtain ⟨ha, hl⟩ := List.forall_mem_cons.mp hf
    exact (ha b).bind (ih hl)

theorem mapM {f : α → Except (Located ε) β} {l : List α} (hf : ∀ a ∈ l, ReportsIn P (f a)) :
    ReportsIn P (l.mapM f) := by
  induction l with
  | nil => exact ok
  | cons a l ih =>
    obtain ⟨ha, hl⟩ := List.forall_mem_cons.mp hf
    rw [List.mapM_cons]
    exact ha.bind fun _ => (ih hl).bind fun _ => ok

theorem option_mapM {f : α → Except (Located ε) β} {o : Option α}
    (hf : ∀ a ∈ o, ReportsIn P (f a)) : ReportsIn P (o.mapM f) := by
  cases o with
  | none => exact ok
  | some a => exact (hf a rfl).bind fun _ => ok

end ReportsIn

variable {P : Position → Prop}

/-! ### Resolution -/

namespace Resolution

/-- A use of a name is reported at the name. -/
theorem reportsIn_reference (scopes : Scopes Readiness) {ref : Reference} (h : P ref.name.pos)
    (table : Distances) : ReportsIn P (reference scopes ref table) := by
  unfold reference
  cases scopes.find? ref.name.text with
  | none => exact .error h
  | some place =>
    refine .ite (.error h) ?_
    cases place <;> exact .ok

theorem reportsIn_introduce (scopes : Scopes Readiness) {name : Name} (h : P name.pos) :
    ReportsIn P (declare scopes name) ∧ ReportsIn P (introduce scopes name) := by
  have hdeclare : ReportsIn P (declare scopes name) := .ite (.error h) .ok
  exact ⟨hdeclare, hdeclare.bind fun _ => .ok⟩

theorem reportsIn_typeName (scopes : Scopes Readiness) {type : TypeName} (h : type.PlacedIn P)
    (table : Distances) : ReportsIn P (typeName scopes type table) := by
  cases type with
  | named ref => exact reportsIn_reference scopes (h ref List.mem_cons_self) table
  | _ => exact .ok

theorem reportsIn_signature (scopes : Scopes Readiness) :
    ∀ {decl : FunctionDecl}, decl.PlacedIn P → ∀ table, ReportsIn P (signature scopes decl table)
  | ⟨_, params, returns, _⟩, h, table => by
    refine (ReportsIn.foldlM (fun p hp table =>
      reportsIn_typeName scopes (h.2.1 p hp).2 table) table).bind fun table => ?_
    cases returns with
    | none => exact .ok
    | some type => exact reportsIn_typeName scopes (h.2.2.1 type rfl) table

mutual

theorem reportsIn_expr (around : Surroundings) (scopes : Scopes Readiness) :
    ∀ (e : Expr) (table : Distances), e.PlacedIn P → ReportsIn P (expr around scopes e table)
  | .literal _, _, _ => .ok
  | .grouping inner, table, h => reportsIn_expr around scopes inner table h
  | .unary _ operand, table, h => reportsIn_expr around scopes operand table h.2
  | .binary left _ right, table, h =>
    (reportsIn_expr around scopes left table h.2.1).bind fun table =>
      reportsIn_expr around scopes right table h.2.2
  | .logical left _ right, table, h =>
    (reportsIn_expr around scopes left table h.2.1).bind fun table =>
      reportsIn_expr around scopes right table h.2.2
  | .ternary condition _ yes no, table, h =>
    (reportsIn_expr around scopes condition table h.2.1).bind fun table =>
      (reportsIn_expr around scopes yes table h.2.2.1).bind fun table =>
        reportsIn_expr around scopes no table h.2.2.2
  | .var _, table, h => reportsIn_reference scopes h table
  | .assign _ value, table, h =>
    (reportsIn_expr around scopes value table h.2).bind (reportsIn_reference scopes h.1)
  | .call callee _ arguments, table, h =>
    (reportsIn_expr around scopes callee table h.2.1).bind fun table =>
      reportsIn_exprs around scopes arguments table h.2.2
  | .get object _, table, h => reportsIn_expr around scopes object table h.2
  | .set object _ value, table, h =>
    (reportsIn_expr around scopes object table h.2.1).bind fun table =>
      reportsIn_expr around scopes value table h.2.2
  | .this ref, table, h => by
    rw [expr]
    cases around.enclosure with
    | outside => exact .error h
    | _ => exact reportsIn_reference scopes h table
  | .super keyword _, table, h => by
    rw [expr]
    cases around.enclosure with
    | inSubclass => exact reportsIn_reference scopes h.1 table
    | _ => exact .error h.1

theorem reportsIn_exprs (around : Surroundings) (scopes : Scopes Readiness) :
    ∀ (es : List Expr) (table : Distances), Expr.AllPlacedIn P es →
      ReportsIn P (exprs around scopes es table)
  | [], _, _ => .ok
  | e :: es, table, h =>
    (reportsIn_expr around scopes e table h.1).bind fun table =>
      reportsIn_exprs around scopes es table h.2

end

mutual

theorem reportsIn_stmt : ∀ (around : Surroundings) (s : Stmt) (r : Resolution), s.PlacedIn P →
    ReportsIn P (stmt around s r)
  | around, .expression e, r, h =>
    (reportsIn_expr around r.scopes e r.table h).bind fun _ => .ok
  | around, .val name type initializer, r, h => by
    have hdeclare := (reportsIn_introduce r.scopes h.1).1
    rcases type with _ | type <;> rcases initializer with _ | e
    · exact hdeclare.bind fun _ => .ok
    · exact hdeclare.bind fun scopes =>
        (reportsIn_expr around scopes e r.table (h.2.2 e rfl)).bind fun _ => .ok
    · exact (reportsIn_typeName r.scopes (h.2.1 type rfl) r.table).bind fun _ =>
        hdeclare.bind fun _ => .ok
    · exact (reportsIn_typeName r.scopes (h.2.1 type rfl) r.table).bind fun table =>
        hdeclare.bind fun scopes =>
          (reportsIn_expr around scopes e table (h.2.2 e rfl)).bind fun _ => .ok
  | around, .block body, r, h => (reportsIn_stmts around body _ h).bind fun _ => .ok
  | around, .ifThen _ condition yes, r, h =>
    (reportsIn_expr around r.scopes condition r.table h.2.1).bind fun _ =>
      reportsIn_stmt around yes _ h.2.2
  | around, .ifElse _ condition yes no, r, h =>
    (reportsIn_expr around r.scopes condition r.table h.2.1).bind fun _ =>
      (reportsIn_stmt around yes _ h.2.2.1).bind fun r => reportsIn_stmt around no r h.2.2.2
  | around, .whileLoop _ condition body, r, h =>
    (reportsIn_expr around r.scopes condition r.table h.2.1).bind fun _ =>
      reportsIn_stmt around body _ h.2.2
  | around, .funDecl ⟨name, params, returns, body⟩, r, h =>
    (reportsIn_signature r.scopes h r.table).bind fun table =>
      (reportsIn_introduce r.scopes h.1).2.bind fun scopes =>
        (reportsIn_function _ ⟨name, params, returns, body⟩ scopes table h).bind fun _ => .ok
  | around, .ret keyword value, r, h => by
    obtain ⟨body, enclosure⟩ := around
    cases value with
    | none =>
      cases body with
      | topLevel => exact .error h.1
      | _ => exact .ok
    | some e =>
      cases body with
      | topLevel => exact .error h.1
      | initializer => exact .error h.1
      | _ => exact (reportsIn_expr _ r.scopes e r.table (h.2 e rfl)).bind fun _ => .ok
  | around, .classDecl name superclass decls, r, h => by
    -- What is left once the superclass is known.
    have hrest : ∀ (inner : Surroundings) (derived : Bool) (scopes : Scopes Readiness)
        (table : Distances), ReportsIn P (do
          let table ← decls.foldlM (fun table decl => signature scopes decl table) table
          let table ← methods inner decls (classScopes scopes derived) table
          (pure ⟨scopes, table⟩ : Result Resolution)) := by
      intro inner derived scopes table
      have hdecls := FunctionDecl.placedIn_of_mem h.2.2
      exact (ReportsIn.foldlM (fun decl hdecl table =>
        reportsIn_signature scopes (hdecls decl hdecl) table) table).bind fun table =>
          (reportsIn_methods inner decls _ table h.2.2).bind fun _ => .ok
    rw [stmt]
    refine .ite (.error h.1) ((reportsIn_introduce r.scopes h.1).2.bind fun scopes => ?_)
    cases superclass with
    | none => exact hrest _ false scopes r.table
    | some ref =>
      have href := h.2.1 ref rfl
      exact .ite (.error href) ((reportsIn_reference scopes href r.table).bind fun table =>
        hrest _ true scopes table)

theorem reportsIn_stmts : ∀ (around : Surroundings) (ss : List Stmt) (r : Resolution),
    Stmt.AllPlacedIn P ss → ReportsIn P (stmts around ss r)
  | _, [], _, _ => .ok
  | around, s :: ss, r, h =>
    (reportsIn_stmt around s r h.1).bind fun r => reportsIn_stmts around ss r h.2

theorem reportsIn_function : ∀ (around : Surroundings) (decl : FunctionDecl)
    (scopes : Scopes Readiness) (table : Distances), decl.PlacedIn P →
    ReportsIn P (function around decl scopes table)
  | around, ⟨_, _, _, body⟩, scopes, _, h =>
    (ReportsIn.foldlM (fun p hp scopes =>
      (reportsIn_introduce scopes (h.2.1 p hp).1).2) scopes.openFrame).bind fun _ =>
        (reportsIn_stmts around body _ h.2.2.2).bind fun _ => .ok

theorem reportsIn_methods : ∀ (around : Surroundings) (decls : List FunctionDecl)
    (scopes : Scopes Readiness) (table : Distances), FunctionDecl.AllPlacedIn P decls →
    ReportsIn P (methods around decls scopes table)
  | _, [], _, _, _ => .ok
  | around, ⟨name, params, returns, body⟩ :: decls, scopes, table, h =>
    (reportsIn_function { around with body := methodBody name } ⟨name, params, returns, body⟩
      scopes table h.1).bind fun table => reportsIn_methods around decls scopes table h.2

end

end Resolution

/-- Resolution reports at positions of the program. -/
theorem resolve_reportsIn {program : Program} (h : Stmt.AllPlacedIn P program) :
    ReportsIn P (resolve program) :=
  (Resolution.reportsIn_stmts _ program .initial h).bind fun _ => .ok

/-! ### Typing -/

namespace Typing

variable (context : TypeContext) (t : Typing)

theorem reportsIn_lookUp {ref : Reference} (h : P ref.name.pos) :
    ReportsIn P (lookUp context t ref) := by
  simp only [lookUp]
  cases t.scopes.find? ref.name.text with
  | none => exact .error h
  | some found =>
    refine .ite ?_ (.error h)
    cases t.scopes.get? found ref.name.text with
    | none => exact .error h
    | some type => exact .ok

theorem reportsIn_annotated {type : TypeName} (h : type.PlacedIn P) :
    ReportsIn P (annotated context t type) := by
  cases type with
  | named ref =>
    have href := h ref List.mem_cons_self
    refine (reportsIn_lookUp context t href).bind fun found => ?_
    cases found with
    | classType id => exact .ok
    | _ => exact .error href
  | _ => exact .ok

theorem reportsIn_signature : ∀ {decl : FunctionDecl}, decl.PlacedIn P →
    ReportsIn P (signature context t decl)
  | ⟨_, params, returns, _⟩, h => by
    refine (ReportsIn.mapM fun p hp => reportsIn_annotated context t (h.2.1 p hp).2).bind
      fun types => ?_
    cases returns with
    | none => exact .ok
    | some type => exact (reportsIn_annotated context t (h.2.2.1 type rfl)).bind fun _ => .ok

/-- The checker reports a sign where it stands. -/
theorem reportsIn_unary {operator : Token} (h : P operator.pos) (operand : StaticType) :
    ReportsIn P (unary operator operand) := by
  unfold unary
  split <;> exact .ite .ok (.error h)

theorem reportsIn_binary {operator : Token} (h : P operator.pos) (left right : StaticType) :
    ReportsIn P (binary operator left right) := by
  refine .ite (.ite .ok (.error h)) (.ite (.error h) (.ite (.error h) ?_))
  split <;> exact .ok

theorem reportsIn_call {paren : Position} (h : P paren) (callee : StaticType)
    (arguments : List StaticType) : ReportsIn P (call t paren callee arguments) := by
  cases callee with
  | function s => exact .ite .ok (.error h)
  | classType id => exact .ite .ok (.error h)
  | generic tags => exact .ite .ok (.error h)
  | _ => exact .error h

theorem reportsIn_instanceClass {name : Name} (h : P name.pos) (object : StaticType) :
    ReportsIn P (instanceClass object name) := by
  cases object with
  | instanceType id => exact .ok
  | _ => exact .error h

/-- The checker reports a property at its name. -/
theorem reportsIn_property {name : Name} (h : P name.pos) (id : ClassId) :
    ReportsIn P (property context t id name) := by
  unfold property
  cases ClassTable.findMethod? name.text t.classes id.index with
  | none => exact .ite .ok (.error h)
  | some method => exact .ok

mutual

theorem reportsIn_typeOf : ∀ e : Expr, e.PlacedIn P → ReportsIn P (typeOf context t e)
  | .literal value, _ => by cases value <;> exact .ok
  | .grouping inner, h => reportsIn_typeOf inner h
  | .unary _ operand, h => (reportsIn_typeOf operand h.2).bind (reportsIn_unary h.1)
  | .binary left _ right, h =>
    (reportsIn_typeOf left h.2.1).bind fun type =>
      (reportsIn_typeOf right h.2.2).bind (reportsIn_binary h.1 type)
  | .logical left _ right, h =>
    (reportsIn_typeOf left h.2.1).bind fun _ => (reportsIn_typeOf right h.2.2).bind fun _ =>
      .ite (.error h.1) (.ite (.error h.1) .ok)
  | .ternary condition _ yes no, h =>
    (reportsIn_typeOf condition h.2.1).bind fun _ => .ite (.error h.1) <|
      (reportsIn_typeOf yes h.2.2.1).bind fun _ => (reportsIn_typeOf no h.2.2.2).bind fun _ =>
        .ite .ok (.error h.1)
  | .var _, h => reportsIn_lookUp context t h
  | .assign target value, h => by
    refine (reportsIn_typeOf value h.2).bind fun actual =>
      (reportsIn_lookUp context t h.1).bind fun type => ?_
    cases type with
    | function s => exact .error h.1
    | classType id => exact .error h.1
    | _ => exact .ite .ok (.error h.1)
  | .call callee _ arguments, h =>
    (reportsIn_typeOf callee h.2.1).bind fun type =>
      (reportsIn_typesOf arguments h.2.2).bind (reportsIn_call t h.1 type)
  | .get object _, h =>
    (reportsIn_typeOf object h.2).bind fun type =>
      (reportsIn_instanceClass h.1 type).bind (reportsIn_property context t h.1)
  | .set object name value, h => by
    refine (reportsIn_typeOf object h.2.1).bind fun type =>
      (reportsIn_instanceClass h.1 type).bind fun id => ?_
    cases ClassTable.findMethod? name.text t.classes id.index with
    | none => exact reportsIn_typeOf value h.2.2
    | some method => exact .error h.1
  | .this _, h => reportsIn_lookUp context t h
  | .super keyword method, h => by
    refine (reportsIn_lookUp context t h.1).bind fun type => ?_
    cases type with
    | classType id =>
      simp only
      cases ClassTable.findMethod? method.text t.classes id.index with
      | none => exact .error h.2
      | some s => exact .ok
    | _ => exact .error h.1

theorem reportsIn_typesOf : ∀ es : List Expr, Expr.AllPlacedIn P es →
    ReportsIn P (typesOf context t es)
  | [], _ => .ok
  | e :: es, h =>
    (reportsIn_typeOf e h.1).bind fun _ => (reportsIn_typesOf es h.2).bind fun _ => .ok

end

theorem reportsIn_condition {keyword : Position} {e : Expr} (hkeyword : P keyword)
    (he : e.PlacedIn P) : ReportsIn P (condition context t keyword e) :=
  (reportsIn_typeOf context t e he).bind fun _ => .ite .ok (.error hkeyword)

theorem reportsIn_declaredType {name : Name} {type : Option TypeName} {initializer : Option Expr}
    (hname : P name.pos) (htype : ∀ u ∈ type, u.PlacedIn P)
    (hinitializer : ∀ e ∈ initializer, e.PlacedIn P) :
    ReportsIn P (declaredType context t name type initializer) := by
  refine (ReportsIn.option_mapM fun u hu => reportsIn_annotated context t (htype u hu)).bind
    fun declared => (ReportsIn.option_mapM fun e he =>
      reportsIn_typeOf context t e (hinitializer e he)).bind fun inferred => ?_
  cases declared with
  | none => cases inferred <;> exact .ok
  | some declared =>
    cases inferred with
    | none => exact .ok
    | some inferred => exact .ite .ok (.error hname)

/-- The checker reports a superclass at its name. -/
theorem reportsIn_superclassId {ref : Reference} (h : P ref.name.pos) :
    ReportsIn P (superclassId context t ref) := by
  refine (reportsIn_lookUp context t h).bind fun type => ?_
  cases type with
  | classType id => exact .ok
  | _ => exact .error h

mutual

theorem reportsIn_stmt : ∀ (context : TypeContext) (s : Stmt) (t : Typing), s.PlacedIn P →
    ReportsIn P (stmt context s t)
  | context, .expression e, t, h => (reportsIn_typeOf context t e h).bind fun _ => .ok
  | context, .val name type initializer, t, h =>
    (reportsIn_declaredType context t h.1 h.2.1 h.2.2).bind fun _ => .ok
  | context, .block body, t, h => (reportsIn_stmts context body _ h).bind fun _ => .ok
  | context, .ifThen _ e yes, t, h =>
    (reportsIn_condition context t h.1 h.2.1).bind fun _ => reportsIn_stmt context yes t h.2.2
  | context, .ifElse _ e yes no, t, h =>
    (reportsIn_condition context t h.1 h.2.1).bind fun _ =>
      (reportsIn_stmt context yes t h.2.2.1).bind fun t => reportsIn_stmt context no t h.2.2.2
  | context, .whileLoop _ e body, t, h =>
    (reportsIn_condition context t h.1 h.2.1).bind fun _ => reportsIn_stmt context body t h.2.2
  | context, .funDecl ⟨name, params, returns, body⟩, t, h =>
    (reportsIn_signature context t h).bind fun s =>
      reportsIn_function context ⟨name, params, returns, body⟩ s _ h
  | context, .ret keyword value, t, h => by
    obtain ⟨table, _ | expected⟩ := context <;> rcases value with _ | e
    · exact .error h.1
    · exact (reportsIn_typeOf _ t e (h.2 e rfl)).bind fun _ => .error h.1
    · exact .ite .ok (.error h.1)
    · exact (reportsIn_typeOf _ t e (h.2 e rfl)).bind fun _ => .ite .ok (.error h.1)
  | context, .classDecl name superclass decls, t, h =>
    (ReportsIn.option_mapM fun ref href => reportsIn_superclassId context t (h.2.1 ref href)).bind
      fun _ => (ReportsIn.mapM fun decl hdecl =>
        reportsIn_signature context _ (FunctionDecl.placedIn_of_mem h.2.2 decl hdecl)).bind
          fun ss => (reportsIn_methods _ decls ss _ h.2.2).bind fun _ => .ok

theorem reportsIn_stmts : ∀ (context : TypeContext) (ss : List Stmt) (t : Typing),
    Stmt.AllPlacedIn P ss → ReportsIn P (stmts context ss t)
  | _, [], _, _ => .ok
  | context, s :: ss, t, h =>
    (reportsIn_stmt context s t h.1).bind fun t => reportsIn_stmts context ss t h.2

theorem reportsIn_function : ∀ (context : TypeContext) (decl : FunctionDecl) (s : Signature)
    (t : Typing), decl.PlacedIn P → ReportsIn P (function context decl s t)
  | _, ⟨_, _, _, body⟩, _, _, h => (reportsIn_stmts _ body _ h.2.2.2).bind fun _ => .ok

theorem reportsIn_methods : ∀ (context : TypeContext) (decls : List FunctionDecl)
    (ss : List Signature) (t : Typing), FunctionDecl.AllPlacedIn P decls →
    ReportsIn P (methods context decls ss t)
  | _, [], _, _, _ => .ok
  | _, _ :: _, [], _, _ => .ok
  | context, ⟨name, params, returns, body⟩ :: decls, s :: ss, t, h =>
    (reportsIn_function context ⟨name, params, returns, body⟩ s t h.1).bind fun t =>
      reportsIn_methods context decls ss t h.2

end

end Typing

/-- The type checker reports at positions of the program. -/
theorem typecheck_reportsIn {table : Distances} {program : Program}
    (h : Stmt.AllPlacedIn P program) : ReportsIn P (typecheck table program) :=
  (Typing.reportsIn_stmts _ program .initial h).bind fun _ => .ok

end ClassScript
