import ClassScript.Proofs.Grammar.Trees
import ClassScript.Proofs.Visits
import ClassScript.Proofs.WellScoped
import Mathlib.Data.List.Induction

namespace ClassScript

/-!
# Resolution decides scoping

The walk of resolution keeps, at each part of a program, exactly the frames that stand around it. So
it succeeds on the programs that are well scoped and on no others, and it records for each use how
many frames lie between the use and the declaration.

* `Context.scopes`: the frames of the walk in a given context;
* `Accepts`: a computation succeeds;
* `accepts_stmt`, `records_stmt`: the two results for the parts of a program;
* `resolve_ok_iff_wellScoped`: the results for programs.
-/

/-! ### The frames of the walk -/

/-- The bindings of names that are ready for use. -/
def ready (names : List String) : Bindings Readiness :=
  .ofList (names.map fun x => (x, .defined))

/-- One more name that is ready for use. -/
theorem ready_append (names : List String) (x : String) :
    ready (names ++ [x]) = (ready names).insert x .defined := by
  simp [ready, Bindings.ofList]

/-- The names are bound, and no others are. -/
theorem find?_ready (names : List String) (x : String) :
    (ready names).find? x = if x ∈ names then some .defined else none := by
  induction names using List.reverseRecOn with
  | nil => rfl
  | append_singleton names y ih =>
    rw [ready_append, Bindings.find?_insert, ih]
    by_cases hyx : y = x
    · simp [hyx]
    · simp [hyx, Ne.symm hyx]

theorem contains_ready (names : List String) (x : String) :
    (ready names).contains x = decide (x ∈ names) := by
  rw [Bindings.contains, find?_ready]
  by_cases hx : x ∈ names <;> simp [hx]

namespace Context

/-- The frames of the walk in a context. -/
def scopes (Γ : Context) : Scopes Readiness := ⟨ready Γ.globals, Γ.locals.map ready⟩

variable (Γ : Context)

theorem scopes_add (x : String) : (Γ.add x).scopes = Γ.scopes.declare x .defined := by
  obtain ⟨locals, globals⟩ := Γ
  cases locals with
  | nil => simp [add, scopes, Scopes.declare, Scopes.declareGlobal, ready_append]
  | cons names outer => simp [add, scopes, Scopes.declare, ready_append]

theorem scopes_inside_nil : (Γ.inside []).scopes = Γ.scopes.openFrame := rfl

theorem scopes_inside_params (params : List Param) :
    (Γ.inside (params.map fun p => p.name.text)).scopes = parameterScopes params Γ.scopes := by
  rw [parameterScopes_eq]
  simp only [inside, scopes, ready, List.map_cons, List.map_map]
  rfl

theorem scopes_inMethods (derived : Bool) :
    (Γ.inMethods derived).scopes = Resolution.classScopes Γ.scopes derived := by
  cases derived <;> rfl

theorem scopes_initial : initial.scopes = Resolution.initial.scopes := rfl

theorem scopes_extend (s : Stmt) : (s.extend Γ).scopes = s.after Γ.scopes := by
  unfold Stmt.extend Stmt.after
  cases s.declared? with
  | none => rfl
  | some x => exact Γ.scopes_add x

theorem declaredHere_scopes (x : String) : Γ.scopes.declaredHere x = decide (x ∈ Γ.here) := by
  obtain ⟨locals, globals⟩ := Γ
  cases locals with
  | nil => exact contains_ready globals x
  | cons names outer => exact contains_ready names x

theorem isGlobal_scopes : Γ.scopes.isGlobal = true ↔ Γ.locals = [] := by
  obtain ⟨locals, globals⟩ := Γ
  cases locals <;> simp [scopes, Scopes.isGlobal]

theorem here_add (x : String) : (Γ.add x).here = Γ.here ++ [x] := by
  obtain ⟨locals, globals⟩ := Γ
  cases locals <;> rfl

/-- A name is found in the innermost frame that declares it. -/
theorem find?_scopes (x : String) :
    Γ.scopes.find? x =
      match Γ.distance? x with
      | some d => some (.frame d)
      | none => if x ∈ Γ.globals then some .global else none := by
  unfold Scopes.find? distance? scopes
  simp only [List.findIdx?_map, contains_ready]
  rw [show ((fun frame : Bindings Readiness => frame.contains x) ∘ ready)
    = fun names => decide (x ∈ names) from funext fun names => contains_ready names x]
  cases Γ.locals.findIdx? fun names => decide (x ∈ names) <;> simp

theorem declares_iff (x : String) :
    Γ.Declares x ↔ (Γ.distance? x).isSome = true ∨ x ∈ Γ.globals := by
  unfold Declares distance?
  rw [List.findIdx?_isSome]
  simp

/-- What is found is ready for use. -/
theorem get?_scopes {x : String} {place : Place} (h : Γ.scopes.find? x = some place) :
    Γ.scopes.get? place x = some .defined := by
  have hsome := Scopes.isSome_get?_of_find? h
  cases place with
  | global =>
    simp only [Scopes.get?, Scopes.frame?, scopes, Option.bind_some, find?_ready] at hsome ⊢
    by_cases hx : x ∈ Γ.globals <;> simp_all
  | frame d =>
    simp only [Scopes.get?, Scopes.frame?, scopes, List.getElem?_map] at hsome ⊢
    cases hd : Γ.locals[d]? with
    | none => simp [hd] at hsome
    | some names =>
      rw [hd] at hsome
      simp only [Option.map_some, Option.bind_some, find?_ready] at hsome ⊢
      by_cases hx : x ∈ names <;> simp_all

end Context

/-! ### Success -/

section Success

variable {ε α β : Type}

/-- A computation succeeds. -/
def Accepts (x : Except ε α) : Prop := ∃ a, x = .ok a

theorem accepts_ok (a : α) : Accepts (.ok a : Except ε α) ↔ True :=
  ⟨fun _ => trivial, fun _ => ⟨a, rfl⟩⟩

theorem accepts_error (e : ε) : Accepts (.error e : Except ε α) ↔ False := by
  constructor
  · rintro ⟨a, h⟩
    cases h
  · exact False.elim

/-- Two steps succeed if the first does and the second does from there. -/
theorem accepts_bind {x : Except ε α} {f : α → Except ε β} {P : Prop}
    (hf : ∀ a, x = .ok a → (Accepts (f a) ↔ P)) : Accepts (x >>= f) ↔ Accepts x ∧ P := by
  cases x with
  | error e =>
    constructor
    · rintro ⟨a, h⟩
      cases h
    · rintro ⟨⟨a, h⟩, -⟩
      cases h
  | ok a =>
    show Accepts (f a) ↔ _
    rw [hf a rfl]
    exact ⟨fun h => ⟨⟨a, rfl⟩, h⟩, fun h => h.2⟩

/-- A last step that only puts a result together does not matter. -/
theorem accepts_bind_pure {x : Except ε α} {f : α → β} :
    Accepts (x >>= fun a => pure (f a)) ↔ Accepts x := by
  have h : Accepts (x >>= fun a => .ok (f a)) ↔ Accepts x ∧ True :=
    accepts_bind fun a _ => accepts_ok (f a)
  rwa [and_true] at h

end Success

namespace Resolution

/-! ### Expressions -/

/-- A use of a name finds a binding that is ready for use. -/
def Resolves (scopes : Scopes Readiness) (ref : Reference) : Prop :=
  ∃ place, scopes.find? ref.name.text = some place ∧
    scopes.get? place ref.name.text = some .defined

theorem accepts_reference (scopes : Scopes Readiness) (ref : Reference) (t : Distances) :
    Accepts (reference scopes ref t) ↔ Resolves scopes ref := by
  unfold reference Resolves
  cases hfind : scopes.find? ref.name.text with
  | none => simp [accepts_error]
  | some place =>
    have hsome := Scopes.isSome_get?_of_find? hfind
    obtain ⟨readiness, hget⟩ := Option.isSome_iff_exists.1 hsome
    simp only [Option.some.injEq, exists_eq_left', hget]
    cases readiness with
    | declared => simp [accepts_error]
    | defined =>
      simp only [reduceCtorEq, if_false]
      cases place <;> simp [accepts_ok]

mutual

/-- An expression is walked if the receiver and the superclass are used where they may be, and every
    use of a name finds its binding. -/
theorem accepts_expr (around : Surroundings) (scopes : Scopes Readiness) :
    ∀ (e : Expr) (t : Distances), Accepts (expr around scopes e t) ↔
      e.Allowed around.enclosure ∧ ∀ ref ∈ e.references, Resolves scopes ref
  | .literal _, t => by simp [expr, accepts_ok, Expr.Allowed, Expr.references]
  | .grouping inner, t => accepts_expr around scopes inner t
  | .unary _ operand, t => accepts_expr around scopes operand t
  | .binary left _ right, t => by
    rw [expr, accepts_bind fun t' _ => accepts_expr around scopes right t',
      accepts_expr around scopes left t]
    simp only [Expr.Allowed, Expr.references, List.forall_mem_append]
    exact and_and_and_comm
  | .logical left _ right, t => by
    rw [expr, accepts_bind fun t' _ => accepts_expr around scopes right t',
      accepts_expr around scopes left t]
    simp only [Expr.Allowed, Expr.references, List.forall_mem_append]
    exact and_and_and_comm
  | .ternary condition _ yes no, t => by
    have hbranches (t' : Distances) :
        Accepts (expr around scopes yes t' >>= fun t'' => expr around scopes no t'') ↔
          (yes.Allowed around.enclosure ∧ no.Allowed around.enclosure) ∧
            (∀ ref ∈ yes.references, Resolves scopes ref) ∧
              ∀ ref ∈ no.references, Resolves scopes ref := by
      rw [accepts_bind fun t'' _ => accepts_expr around scopes no t'',
        accepts_expr around scopes yes t']
      exact and_and_and_comm
    rw [expr, accepts_bind fun t' _ => hbranches t', accepts_expr around scopes condition t]
    simp only [Expr.Allowed, Expr.references, List.forall_mem_append]
    exact and_and_and_comm
  | .var ref, t => by
    rw [expr, accepts_reference]
    simp [Expr.Allowed, Expr.references]
  | .assign target value, t => by
    -- The value is walked first, but the target is the first use in the text.
    rw [expr, accepts_bind fun t' _ => accepts_reference scopes target t',
      accepts_expr around scopes value t]
    simp only [Expr.Allowed, Expr.references, List.forall_mem_cons]
    rw [and_assoc, and_comm (a := Resolves _ _)]
  | .call callee _ arguments, t => by
    rw [expr, accepts_bind fun t' _ => accepts_exprs around scopes arguments t',
      accepts_expr around scopes callee t]
    simp only [Expr.Allowed, Expr.references, List.forall_mem_append]
    exact and_and_and_comm
  | .get object _, t => accepts_expr around scopes object t
  | .set object _ value, t => by
    rw [expr, accepts_bind fun t' _ => accepts_expr around scopes value t',
      accepts_expr around scopes object t]
    simp only [Expr.Allowed, Expr.references, List.forall_mem_append]
    exact and_and_and_comm
  | .this ref, t => by
    rw [expr]
    cases h : around.enclosure <;>
      simp [accepts_error, accepts_reference, Expr.Allowed, Expr.references]
  | .super keyword _, t => by
    rw [expr]
    cases h : around.enclosure <;>
      simp [accepts_error, accepts_reference, Expr.Allowed, Expr.references]

theorem accepts_exprs (around : Surroundings) (scopes : Scopes Readiness) :
    ∀ (es : List Expr) (t : Distances), Accepts (exprs around scopes es t) ↔
      Expr.AllAllowed around.enclosure es ∧ ∀ ref ∈ Expr.referencesAll es, Resolves scopes ref
  | [], t => by simp [exprs, accepts_ok, Expr.AllAllowed, Expr.referencesAll]
  | e :: es, t => by
    rw [exprs, accepts_bind fun t' _ => accepts_exprs around scopes es t',
      accepts_expr around scopes e t]
    simp only [Expr.AllAllowed, Expr.referencesAll, List.forall_mem_append]
    exact and_and_and_comm

end

/-! ### Contexts around expressions -/

/-- A context has the frames that belong to the class around it. -/
def Suits (enclosure : Enclosure) (Γ : Context) : Prop :=
  (enclosure ≠ .outside → Γ.Declares thisName) ∧
    (enclosure = .inSubclass → Γ.Declares superName)

theorem Suits.mono {enclosure : Enclosure} {Γ Δ : Context} (h : Suits enclosure Γ)
    (hsub : ∀ x, Γ.Declares x → Δ.Declares x) : Suits enclosure Δ :=
  ⟨fun he => hsub _ (h.1 he), fun he => hsub _ (h.2 he)⟩

theorem declares_inside {Γ : Context} (names : List String) {x : String} (h : Γ.Declares x) :
    (Γ.inside names).Declares x := by
  rcases h with ⟨other, hother, hx⟩ | hx
  · exact .inl ⟨other, List.mem_cons_of_mem _ hother, hx⟩
  · exact .inr hx

theorem declares_add {Γ : Context} (x : String) {y : String} :
    (Γ.add x).Declares y ↔ Γ.Declares y ∨ y = x := by
  obtain ⟨locals, globals⟩ := Γ
  unfold Context.Declares Context.add
  cases locals with
  | nil => simp
  | cons names outer => simp [or_assoc, or_comm, or_left_comm]

/-- The frames of a class suit its methods. -/
theorem suits_inMethods (Γ : Context) (superclass : Option Reference) :
    Suits (enclosureOf superclass) (Γ.inMethods superclass.isSome) := by
  refine ⟨fun _ => .inl ⟨[thisName], List.mem_cons_self, List.mem_cons_self⟩, fun h => ?_⟩
  cases superclass with
  | none => cases h
  | some ref =>
    refine .inl ⟨[superName], ?_, List.mem_cons_self⟩
    exact List.mem_cons_of_mem _ List.mem_cons_self

theorem resolves_scopes (Γ : Context) (ref : Reference) :
    Resolves Γ.scopes ref ↔ Γ.Declares ref.name.text := by
  rw [Context.declares_iff]
  constructor
  · rintro ⟨place, hfind, -⟩
    rw [Context.find?_scopes] at hfind
    cases hd : Γ.distance? ref.name.text with
    | some d => exact .inl rfl
    | none =>
      rw [hd] at hfind
      by_cases hx : ref.name.text ∈ Γ.globals
      · exact .inr hx
      · simp [hx] at hfind
  · intro h
    have hfound : ∃ place, Γ.scopes.find? ref.name.text = some place := by
      rw [Context.find?_scopes]
      cases hd : Γ.distance? ref.name.text with
      | some d => exact ⟨_, rfl⟩
      | none =>
        rw [hd] at h
        exact ⟨.global, by simpa using h⟩
    obtain ⟨place, hplace⟩ := hfound
    exact ⟨place, hplace, Γ.get?_scopes hplace⟩

/-- While its initializer is walked, a name is found and not ready for use. -/
theorem resolves_declare {scopes : Scopes Readiness} {x : String} {ref : Reference} :
    Resolves (scopes.declare x .declared) ref ↔ ref.name.text ≠ x ∧ Resolves scopes ref := by
  by_cases hx : ref.name.text = x
  · -- The innermost frame hides any binding of the name further out.
    have hnot : ¬ Resolves (scopes.declare x .declared) ref := by
      rintro ⟨place, hfind, hget⟩
      obtain ⟨globals, frames⟩ := scopes
      cases frames with
      | nil =>
        simp [Scopes.declare, Scopes.declareGlobal, Scopes.find?, Bindings.contains, hx] at hfind
        subst hfind
        simp [Scopes.declare, Scopes.declareGlobal, Scopes.get?, Scopes.frame?, hx] at hget
      | cons frame outer =>
        simp [Scopes.declare, Scopes.find?, List.findIdx?_cons, Bindings.contains, hx] at hfind
        subst hfind
        simp [Scopes.declare, Scopes.get?, Scopes.frame?, hx] at hget
    exact ⟨fun h => absurd h hnot, fun h => absurd hx h.1⟩
  · unfold Resolves
    simp only [Scopes.find?_declare_ne Readiness.declared (Ne.symm hx),
      Scopes.get?_declare_ne Readiness.declared (Ne.symm hx), ne_eq, hx, not_false_eq_true,
      true_and]

mutual

/-- The uses in an expression are ordinary names, the receiver or the superclass. -/
theorem references_cases {enclosure : Enclosure} : ∀ e : Expr, e.WellFormed →
    e.Allowed enclosure → ∀ ref ∈ e.references, ref.name.Plain ∨
      (ref.name.text = thisName ∧ enclosure ≠ .outside) ∨
        (ref.name.text = superName ∧ enclosure = .inSubclass)
  | .literal _, _, _ => nofun
  | .grouping inner, hwf, h => references_cases inner hwf h
  | .unary _ operand, hwf, h => references_cases operand hwf.2 h
  | .binary left _ right, hwf, h => List.forall_mem_append.2
    ⟨references_cases left hwf.2.1 h.1, references_cases right hwf.2.2 h.2⟩
  | .logical left _ right, hwf, h => List.forall_mem_append.2
    ⟨references_cases left hwf.1 h.1, references_cases right hwf.2 h.2⟩
  | .ternary condition _ yes no, hwf, h => List.forall_mem_append.2
    ⟨references_cases condition hwf.1 h.1, List.forall_mem_append.2
      ⟨references_cases yes hwf.2.1 h.2.1, references_cases no hwf.2.2 h.2.2⟩⟩
  | .var _, hwf, _ => List.forall_mem_singleton.2 (.inl hwf)
  | .assign _ value, hwf, h =>
    List.forall_mem_cons.2 ⟨.inl hwf.1, references_cases value hwf.2 h⟩
  | .call callee _ arguments, hwf, h => List.forall_mem_append.2
    ⟨references_cases callee hwf.1 h.1, referencesAll_cases arguments hwf.2 h.2⟩
  | .get object _, hwf, h => references_cases object hwf h
  | .set object _ value, hwf, h => List.forall_mem_append.2
    ⟨references_cases object hwf.1 h.1, references_cases value hwf.2 h.2⟩
  | .this _, hwf, h => List.forall_mem_singleton.2 (.inr (.inl ⟨hwf, h⟩))
  | .super _ _, hwf, h => List.forall_mem_singleton.2 (.inr (.inr ⟨hwf, h⟩))

theorem referencesAll_cases {enclosure : Enclosure} : ∀ es : List Expr, Expr.AllWellFormed es →
    Expr.AllAllowed enclosure es → ∀ ref ∈ Expr.referencesAll es, ref.name.Plain ∨
      (ref.name.text = thisName ∧ enclosure ≠ .outside) ∨
        (ref.name.text = superName ∧ enclosure = .inSubclass)
  | [], _, _ => nofun
  | e :: es, hwf, h => List.forall_mem_append.2
    ⟨references_cases e hwf.1 h.1, referencesAll_cases es hwf.2 h.2⟩

end

/-- In a context that has the frames of its class, an expression is well scoped if all its uses are
    declared. -/
theorem wellScoped_iff {enclosure : Enclosure} {Γ : Context} {e : Expr} (hwf : e.WellFormed)
    (hsuits : Suits enclosure Γ) :
    e.WellScoped enclosure Γ ↔
      e.Allowed enclosure ∧ ∀ ref ∈ e.references, Γ.Declares ref.name.text := by
  refine and_congr_right fun hallowed => ⟨fun h ref href => ?_, fun h ref href _ => h ref href⟩
  -- Well-scoped expressions ask for declarations of ordinary names only; the frames of the class
  -- have the other two.
  rcases references_cases e hwf hallowed ref href with hplain | ⟨hthis, he⟩ | ⟨hsuper, he⟩
  · exact h ref href hplain
  · exact hthis ▸ hsuits.1 he
  · exact hsuper ▸ hsuits.2 he

theorem accepts_expr_iff {around : Surroundings} {Γ : Context} {e : Expr} (hwf : e.WellFormed)
    (hsuits : Suits around.enclosure Γ) (t : Distances) :
    Accepts (expr around Γ.scopes e t) ↔ e.WellScoped around.enclosure Γ := by
  rw [accepts_expr, wellScoped_iff hwf hsuits]
  simp only [resolves_scopes]

/-- An initializer is walked if it is well scoped and does not use the name that is declared. -/
theorem accepts_initializer_iff {around : Surroundings} {Γ : Context} {e : Expr} {x : String}
    (hwf : e.WellFormed) (hsuits : Suits around.enclosure Γ) (t : Distances) :
    Accepts (expr around (Γ.scopes.declare x .declared) e t) ↔
      e.WellScoped around.enclosure Γ ∧ ∀ ref ∈ e.references, ref.name.text ≠ x := by
  rw [accepts_expr, wellScoped_iff hwf hsuits, and_assoc]
  refine and_congr_right fun _ => ?_
  simp only [resolves_declare, resolves_scopes]
  exact ⟨fun h => ⟨fun ref href => (h ref href).2, fun ref href => (h ref href).1⟩,
    fun h ref href => ⟨h.2 ref href, h.1 ref href⟩⟩

/-! ### Types and parameters -/

theorem accepts_optionally {α : Type} {f : α → Distances → Result Distances} {P : α → Prop}
    {o : Option α} (h : ∀ a ∈ o, ∀ t, Accepts (f a t) ↔ P a) (t : Distances) :
    Accepts (optionally f o t) ↔ ∀ a ∈ o, P a := by
  cases o with
  | none => simp [optionally, accepts_ok]
  | some a =>
    rw [optionally, h a rfl t]
    simp

theorem accepts_foldlM {α : Type} {f : Distances → α → Result Distances} {P : α → Prop}
    {xs : List α} (h : ∀ x ∈ xs, ∀ t, Accepts (f t x) ↔ P x) (t : Distances) :
    Accepts (xs.foldlM f t) ↔ ∀ x ∈ xs, P x := by
  induction xs generalizing t with
  | nil => simp [pure, Except.pure, accepts_ok]
  | cons x xs ih =>
    rw [List.forall_mem_cons] at h
    rw [List.foldlM_cons, accepts_bind fun t' _ => ih h.2 t', h.1 t, List.forall_mem_cons]

theorem accepts_typeName {Γ : Context} {type : TypeName} (hwf : type.WellFormed) (t : Distances) :
    Accepts (typeName Γ.scopes type t) ↔ AllDeclared Γ type.references := by
  cases type with
  | named ref =>
    rw [typeName, accepts_reference, resolves_scopes]
    have hplain : ref.name.Plain := hwf ref List.mem_cons_self
    exact ⟨fun h => List.forall_mem_singleton.2 fun _ => h,
      fun h => List.forall_mem_singleton.1 h hplain⟩
  | _ => simp [typeName, accepts_ok, AllDeclared, TypeName.references]

theorem accepts_signature {Γ : Context} {decl : FunctionDecl} (hwf : decl.WellFormed)
    (t : Distances) :
    Accepts (signature Γ.scopes decl t) ↔ AllDeclared Γ decl.typeReferences := by
  obtain ⟨name, params, returns, body⟩ := decl
  obtain ⟨-, hparams, hreturns, -⟩ := hwf
  have hresult (t : Distances) : Accepts (optionally (typeName Γ.scopes) returns t) ↔
      ∀ type ∈ returns, AllDeclared Γ type.references :=
    accepts_optionally (fun type htype t => accepts_typeName (hreturns type htype) t) t
  have hstep : signature Γ.scopes ⟨name, params, returns, body⟩ t
      = (params.foldlM (fun t p => typeName Γ.scopes p.type t) t >>=
        optionally (typeName Γ.scopes) returns) := by
    cases returns <;> rfl
  rw [hstep, accepts_bind fun t' _ => hresult t',
    accepts_foldlM fun p hp t => accepts_typeName (hparams p hp).2 t]
  unfold AllDeclared FunctionDecl.typeReferences
  rw [List.forall_mem_append]
  refine and_congr ?_ ?_
  · simp only [List.forall_mem_flatMap]
  · cases returns <;> simp

theorem accepts_introduce (Γ : Context) (name : Name) :
    Accepts (introduce Γ.scopes name) ↔ name.text ∉ Γ.here := by
  have hnew : name.text ∉ Γ.here ↔ Γ.scopes.declaredHere name.text = false := by
    rw [Context.declaredHere_scopes, decide_eq_false_iff_not]
  rw [hnew]
  constructor
  · rintro ⟨scopes, h⟩
    exact (introduce_eq_ok.1 h).1
  · intro h
    exact ⟨_, introduce_eq_ok.2 ⟨h, rfl⟩⟩

/-- After a name is introduced the walk has the frames behind its declaration. -/
theorem introduce_ok {Γ : Context} {name : Name} {scopes : Scopes Readiness}
    (h : introduce Γ.scopes name = .ok scopes) :
    name.text ∉ Γ.here ∧ scopes = (Γ.add name.text).scopes := by
  refine ⟨(accepts_introduce Γ name).1 ⟨scopes, h⟩, ?_⟩
  rw [Context.scopes_add]
  exact (introduce_eq_ok.1 h).2

theorem nodup_append_cons {names more : List String} {x : String} :
    (names ++ x :: more).Nodup ↔ x ∉ names ∧ (names ++ [x] ++ more).Nodup := by
  rw [List.append_assoc, List.singleton_append]
  refine ⟨fun h => ⟨fun hx => ?_, h⟩, fun h => h.2⟩
  exact (List.nodup_append.1 h).2.2 x hx x List.mem_cons_self rfl

theorem nodup_here_add {Γ : Context} {x : String} (h : Γ.here.Nodup) (hx : x ∉ Γ.here) :
    (Γ.add x).here.Nodup := by
  rw [Context.here_add, List.nodup_append]
  refine ⟨h, List.pairwise_singleton _ _, fun a ha b hb hab => hx ?_⟩
  rw [List.mem_singleton.1 hb] at hab
  exact hab ▸ ha

theorem accepts_params {params : List Param} {Γ : Context} (h : Γ.here.Nodup) :
    Accepts (params.foldlM (fun scopes p => introduce scopes p.name) Γ.scopes) ↔
      (Γ.here ++ params.map fun p => p.name.text).Nodup := by
  induction params generalizing Γ with
  | nil => simp [pure, Except.pure, accepts_ok, h]
  | cons p ps ih =>
    have hrest (scopes : Scopes Readiness) (hs : introduce Γ.scopes p.name = .ok scopes) :
        Accepts (ps.foldlM (fun scopes p => introduce scopes p.name) scopes) ↔
          (Γ.here ++ [p.name.text] ++ ps.map fun p => p.name.text).Nodup := by
      obtain ⟨hnew, rfl⟩ := introduce_ok hs
      rw [ih (nodup_here_add h hnew), Context.here_add]
    rw [List.foldlM_cons, accepts_bind hrest, accepts_introduce, List.map_cons, nodup_append_cons]

/-! ### Statements -/

theorem stmt_val_eq (around : Surroundings) (name : Name) (type : Option TypeName)
    (initializer : Option Expr) (scopes : Scopes Readiness) (t : Distances) :
    stmt around (.val name type initializer) ⟨scopes, t⟩ = (do
      let t ← optionally (typeName scopes) type t
      let inner ← declare scopes name
      let t ← optionally (expr around inner) initializer t
      return ⟨define inner name, t⟩) := by
  cases type <;> cases initializer <;> rfl

theorem stmt_classDecl_eq (around : Surroundings) (name : Name) (superclass : Option Reference)
    (decls : List FunctionDecl) {scopes : Scopes Readiness} (h : scopes.isGlobal = true)
    (t : Distances) :
    stmt around (.classDecl name superclass decls) ⟨scopes, t⟩ = (do
      let inner ← introduce scopes name
      let t ← optionally (superclassStep inner name) superclass t
      let t ← decls.foldlM (fun t decl => signature inner decl t) t
      let t ← methods { around with enclosure := enclosureOf superclass } decls
        (classScopes inner superclass.isSome) t
      return ⟨inner, t⟩) := by
  rw [stmt]
  simp only [h, Bool.not_true, Bool.false_eq_true, if_false]
  cases superclass with
  | none => rfl
  | some ref =>
    by_cases hself : ref.name.text = name.text
    · simp only [optionally, superclassStep, if_pos hself]
      rfl
    · simp only [optionally, superclassStep, if_neg hself]
      rfl

theorem stmt_ret_eq (around : Surroundings) (keyword : Position) (value : Option Expr)
    {scopes : Scopes Readiness} (htop : around.body ≠ .topLevel)
    (hvalue : value.isSome → around.body ≠ .initializer) (t : Distances) :
    stmt around (.ret keyword value) ⟨scopes, t⟩ = (do
      let t ← optionally (expr around scopes) value t
      return ⟨scopes, t⟩) := by
  obtain ⟨body, enclosure⟩ := around
  cases body <;> cases value <;> simp_all [stmt, optionally]

theorem accepts_val {around : Surroundings} {Γ : Context} (hsuits : Suits around.enclosure Γ)
    {name : Name} {type : Option TypeName} {initializer : Option Expr}
    (htype : ∀ t ∈ type, t.WellFormed) (hinitializer : ∀ e ∈ initializer, e.WellFormed)
    (t : Distances) :
    Accepts (stmt around (.val name type initializer) ⟨Γ.scopes, t⟩) ↔
      Stmt.WellScoped around (.val name type initializer) Γ ∧ name.text ∉ Γ.here := by
  -- The initializer is walked where the name is declared and not yet defined, so it may not use it.
  have hvalue (inner : Scopes Readiness) (hinner : declare Γ.scopes name = .ok inner)
      (t : Distances) :
      Accepts (optionally (expr around inner) initializer t >>= fun t =>
        (pure ⟨define inner name, t⟩ : Result Resolution)) ↔
        ∀ e ∈ initializer, e.WellScoped around.enclosure Γ ∧
          ∀ ref ∈ e.references, ref.name.text ≠ name.text := by
    obtain ⟨-, rfl⟩ := declare_eq_ok.1 hinner
    rw [accepts_bind_pure]
    exact accepts_optionally
      (fun e he t => accepts_initializer_iff (hinitializer e he) hsuits t) t
  have hnew : Accepts (declare Γ.scopes name) ↔ name.text ∉ Γ.here := by
    rw [← decide_eq_false_iff_not, ← Context.declaredHere_scopes]
    exact ⟨fun ⟨_, h⟩ => (declare_eq_ok.1 h).1, fun h => ⟨_, declare_eq_ok.2 ⟨h, rfl⟩⟩⟩
  have hrest (t : Distances) :
      Accepts (do
        let inner ← declare Γ.scopes name
        let t ← optionally (expr around inner) initializer t
        (pure ⟨define inner name, t⟩ : Result Resolution)) ↔
        name.text ∉ Γ.here ∧ ∀ e ∈ initializer, e.WellScoped around.enclosure Γ ∧
          ∀ ref ∈ e.references, ref.name.text ≠ name.text := by
    rw [accepts_bind fun inner hinner => hvalue inner hinner t, hnew]
  rw [stmt_val_eq, accepts_bind fun t' _ => hrest t',
    accepts_optionally fun type' ht t => accepts_typeName (htype type' ht) t]
  simp only [Stmt.WellScoped]
  rw [and_comm (a := name.text ∉ Γ.here), and_assoc]

theorem accepts_superclassStep {Γ : Context} {name : Name} {ref : Reference}
    (hplain : ref.name.Plain) (t : Distances) :
    Accepts (superclassStep (Γ.add name.text).scopes name ref t) ↔
      ref.name.text ≠ name.text ∧ AllDeclared Γ [ref] := by
  unfold superclassStep
  by_cases hself : ref.name.text = name.text
  · simp [hself, accepts_error]
  · rw [if_neg hself, accepts_reference, resolves_scopes, declares_add]
    simp [hself, AllDeclared, hplain]

/-- A class at the top level is walked if it is well scoped and its name is new, given that its
    methods are walked if they are well scoped. -/
theorem accepts_class {around : Surroundings} {Γ : Context} {name : Name}
    {superclass : Option Reference} {decls : List FunctionDecl} {P : Prop} (hglobal : Γ.locals = [])
    (hsuperclass : ∀ ref ∈ superclass, ref.name.Plain) (hdecls : FunctionDecl.AllWellFormed decls)
    (hmethods : ∀ t, Accepts (methods { around with enclosure := enclosureOf superclass } decls
      ((Γ.add name.text).inMethods superclass.isSome).scopes t) ↔ P) (t : Distances) :
    Accepts (stmt around (.classDecl name superclass decls) ⟨Γ.scopes, t⟩) ↔
      name.text ∉ Γ.here ∧ (∀ ref ∈ superclass, ref.name.text ≠ name.text ∧ AllDeclared Γ [ref]) ∧
        (∀ decl ∈ decls, AllDeclared (Γ.add name.text) decl.typeReferences) ∧ P := by
  let Δ := Γ.add name.text
  -- From the last step back to the first: the bodies, the types of the methods, the superclass.
  have hbodies (t : Distances) :
      Accepts (do
        let t ← methods { around with enclosure := enclosureOf superclass } decls
          (classScopes Δ.scopes superclass.isSome) t
        (pure ⟨Δ.scopes, t⟩ : Result Resolution)) ↔ P := by
    rw [accepts_bind_pure, ← Context.scopes_inMethods, hmethods]
  have htypes (t : Distances) :
      Accepts (do
        let t ← decls.foldlM (fun t decl => signature Δ.scopes decl t) t
        let t ← methods { around with enclosure := enclosureOf superclass } decls
          (classScopes Δ.scopes superclass.isSome) t
        (pure ⟨Δ.scopes, t⟩ : Result Resolution)) ↔
        (∀ decl ∈ decls, AllDeclared Δ decl.typeReferences) ∧ P := by
    rw [accepts_bind fun t' _ => hbodies t', accepts_foldlM fun decl hdecl t =>
      accepts_signature (Valid.wellFormed_of_mem hdecls hdecl) t]
  have hrest (inner : Scopes Readiness) (hinner : introduce Γ.scopes name = .ok inner) :
      Accepts (do
        let t ← optionally (superclassStep inner name) superclass t
        let t ← decls.foldlM (fun t decl => signature inner decl t) t
        let t ← methods { around with enclosure := enclosureOf superclass } decls
          (classScopes inner superclass.isSome) t
        (pure ⟨inner, t⟩ : Result Resolution)) ↔
        (∀ ref ∈ superclass, ref.name.text ≠ name.text ∧ AllDeclared Γ [ref]) ∧
          (∀ decl ∈ decls, AllDeclared Δ decl.typeReferences) ∧ P := by
    obtain ⟨-, rfl⟩ := introduce_ok hinner
    rw [accepts_bind fun t' _ => htypes t', accepts_optionally fun ref href t =>
      accepts_superclassStep (hsuperclass ref href) t]
  rw [stmt_classDecl_eq around name superclass decls (Γ.isGlobal_scopes.2 hglobal),
    accepts_bind hrest, accepts_introduce]

theorem suits_extend {enclosure : Enclosure} {Γ : Context} (h : Suits enclosure Γ) (s : Stmt) :
    Suits enclosure (s.extend Γ) := by
  unfold Stmt.extend
  cases s.declared? with
  | none => exact h
  | some x => exact h.mono fun _ hy => (declares_add x).2 (.inl hy)

theorem nodup_here_extend {Γ : Context} {s : Stmt} (h : Γ.here.Nodup)
    (hnew : ∀ x ∈ s.declared?, x ∉ Γ.here) : (s.extend Γ).here.Nodup := by
  unfold Stmt.extend
  cases hs : s.declared? with
  | none => exact h
  | some x => exact nodup_here_add h (hnew x hs)

/-- The names of a frame are distinct if each is new where it is declared. -/
theorem nodup_declarations_cons {Γ : Context} {s : Stmt} {ss : List Stmt} :
    (Γ.here ++ Stmt.declarations (s :: ss)).Nodup ↔
      (∀ x ∈ s.declared?, x ∉ Γ.here) ∧ ((s.extend Γ).here ++ Stmt.declarations ss).Nodup := by
  unfold Stmt.declarations Stmt.extend
  cases hs : s.declared? with
  | none => simp [hs]
  | some x =>
    rw [List.filterMap_cons_some hs, nodup_append_cons, Context.here_add]
    simp

mutual

/-- A statement is walked if it is well scoped and the name that it declares is new. -/
theorem accepts_stmt (around : Surroundings) : ∀ s : Stmt, s.WellFormed → ∀ Γ,
    Suits around.enclosure Γ → ∀ t, Accepts (stmt around s ⟨Γ.scopes, t⟩) ↔
      s.WellScoped around Γ ∧ ∀ x ∈ s.declared?, x ∉ Γ.here
  | .expression e, hwf, Γ, hsuits, t => by
    rw [stmt, accepts_bind_pure, accepts_expr_iff hwf hsuits]
    simp [Stmt.WellScoped, Stmt.declared?]
  | .val name type initializer, ⟨_, htype, hinitializer⟩, Γ, hsuits, t => by
    rw [accepts_val hsuits htype hinitializer]
    simp [Stmt.declared?]
  | .block body, hwf, Γ, hsuits, t => by
    have hinside : Suits around.enclosure (Γ.inside []) := hsuits.mono fun _ => declares_inside []
    have hbody := accepts_stmts around body hwf (Γ.inside []) hinside .nil t
    rw [stmt, accepts_bind_pure]
    rw [Context.scopes_inside_nil] at hbody
    rw [hbody]
    simp [Stmt.WellScoped, Stmt.declared?, Context.here, Context.inside, and_comm]
  | .ifThen _ condition yes, ⟨hcondition, hyes, hplain⟩, Γ, hsuits, t => by
    have hbranch (t : Distances) : Accepts (stmt around yes ⟨Γ.scopes, t⟩) ↔
        yes.WellScoped around Γ := by
      rw [accepts_stmt around yes hyes Γ hsuits t, hplain]
      simp
    rw [stmt, accepts_bind fun t' _ => hbranch t', accepts_expr_iff hcondition hsuits]
    simp [Stmt.WellScoped, Stmt.declared?]
  | .ifElse _ condition yes no, ⟨hcondition, ⟨hyes, hplain⟩, hno, hplain'⟩, Γ, hsuits, t => by
    -- The first branch declares no name, so the second one starts from the same frames.
    have hsecond (t : Distances) (r : Resolution) (hr : stmt around yes ⟨Γ.scopes, t⟩ = .ok r) :
        Accepts (stmt around no r) ↔ no.WellScoped around Γ := by
      have hscopes := ((passes_stmt around yes hyes Γ.scopes).eq_ok hr).1
      rw [Stmt.after_eq_self hplain] at hscopes
      rw [hscopes, accepts_stmt around no hno Γ hsuits r.table, hplain']
      simp
    have hbranches (t : Distances) :
        Accepts (stmt around yes ⟨Γ.scopes, t⟩ >>= fun r => stmt around no r) ↔
          yes.WellScoped around Γ ∧ no.WellScoped around Γ := by
      rw [accepts_bind (hsecond t), accepts_stmt around yes hyes Γ hsuits t, hplain]
      simp
    rw [stmt, accepts_bind fun t' _ => hbranches t', accepts_expr_iff hcondition hsuits]
    simp [Stmt.WellScoped, Stmt.declared?]
  | .whileLoop _ condition body, ⟨hcondition, hbody, hplain⟩, Γ, hsuits, t => by
    have hinner (t : Distances) : Accepts (stmt around body ⟨Γ.scopes, t⟩) ↔
        body.WellScoped around Γ := by
      rw [accepts_stmt around body hbody Γ hsuits t, hplain]
      simp
    rw [stmt, accepts_bind fun t' _ => hinner t', accepts_expr_iff hcondition hsuits]
    simp [Stmt.WellScoped, Stmt.declared?]
  | .funDecl ⟨name, params, returns, body⟩, hwf, Γ, hsuits, t => by
    -- The types are looked up before the name of the function is there, the body after it.
    have hinside : Suits around.enclosure (Γ.add name.text) :=
      hsuits.mono fun _ h => (declares_add name.text).2 (.inl h)
    have hbody (scopes : Scopes Readiness) (hs : introduce Γ.scopes name = .ok scopes)
        (t : Distances) :
        Accepts (function { around with body := .function } ⟨name, params, returns, body⟩ scopes t
          >>= fun t => (pure ⟨scopes, t⟩ : Result Resolution)) ↔
          FunctionDecl.WellScoped { around with body := .function } ⟨name, params, returns, body⟩
            (Γ.add name.text) := by
      obtain ⟨-, rfl⟩ := introduce_ok hs
      rw [accepts_bind_pure]
      exact accepts_function { around with body := .function } ⟨name, params, returns, body⟩
        hwf.2.2.2 (Γ.add name.text) hinside t
    have hrest (t : Distances) :
        Accepts (introduce Γ.scopes name >>= fun scopes =>
          function { around with body := .function } ⟨name, params, returns, body⟩ scopes t
            >>= fun t => (pure ⟨scopes, t⟩ : Result Resolution)) ↔
          name.text ∉ Γ.here ∧ FunctionDecl.WellScoped { around with body := .function }
            ⟨name, params, returns, body⟩ (Γ.add name.text) := by
      rw [accepts_bind fun scopes hs => hbody scopes hs t, accepts_introduce]
    rw [stmt, accepts_bind fun t' _ => hrest t', accepts_signature hwf]
    simp only [Stmt.WellScoped, Stmt.declared?, Option.mem_some_iff, forall_eq']
    rw [and_comm (a := name.text ∉ Γ.here), and_assoc]
  | .ret keyword value, hwf, Γ, hsuits, t => by
    have hvalue (t : Distances) : Accepts (optionally (expr around Γ.scopes) value t) ↔
        ∀ e ∈ value, e.WellScoped around.enclosure Γ :=
      accepts_optionally (fun e he t => accepts_expr_iff (hwf e he) hsuits t) t
    simp only [Stmt.WellScoped, Stmt.declared?]
    constructor
    · rintro ⟨r, h⟩
      obtain ⟨⟨htop, hplace⟩, -, ht⟩ := stmt_ret_ok h
      exact ⟨⟨htop, hplace, (hvalue t).1 ⟨_, ht⟩⟩, nofun⟩
    · rintro ⟨⟨htop, hplace, h⟩, -⟩
      rw [stmt_ret_eq around keyword value htop hplace, accepts_bind_pure, hvalue]
      exact h
  | .classDecl name superclass decls, ⟨_, hsuperclass, hdecls⟩, Γ, hsuits, t => by
    by_cases hglobal : Γ.locals = []
    · rw [accepts_class hglobal hsuperclass hdecls fun t => accepts_methods _ decls hdecls _
        (suits_inMethods (Γ.add name.text) superclass) t]
      simp only [Stmt.WellScoped, Stmt.declared?, Option.mem_some_iff, forall_eq', hglobal,
        true_and]
      rw [and_comm (a := name.text ∉ Γ.here), ← and_assoc (b := AllDeclared Γ superclass.toList)]
      cases superclass <;> simp [AllDeclared]
    · have hnot : ¬ Accepts (stmt around (.classDecl name superclass decls) ⟨Γ.scopes, t⟩) := by
        rintro ⟨r, h⟩
        exact hglobal (Γ.isGlobal_scopes.1 (stmt_classDecl_ok h).1)
      exact ⟨fun h => absurd h hnot, fun h => absurd h.1.1 hglobal⟩

/-- Statements are walked if they are well scoped and the names that they declare are new and
    distinct. -/
theorem accepts_stmts (around : Surroundings) : ∀ ss : List Stmt, Stmt.AllWellFormed ss → ∀ Γ,
    Suits around.enclosure Γ → Γ.here.Nodup → ∀ t, Accepts (stmts around ss ⟨Γ.scopes, t⟩) ↔
      Stmt.AllWellScoped around ss Γ ∧ (Γ.here ++ Stmt.declarations ss).Nodup
  | [], _, Γ, _, hnodup, t => by
    simp [stmts, accepts_ok, Stmt.AllWellScoped, Stmt.declarations, hnodup]
  | s :: ss, ⟨hs, hss⟩, Γ, hsuits, hnodup, t => by
    have hrest (r : Resolution) (hr : stmt around s ⟨Γ.scopes, t⟩ = .ok r) :
        Accepts (stmts around ss r) ↔ Stmt.AllWellScoped around ss (s.extend Γ) ∧
          ((s.extend Γ).here ++ Stmt.declarations ss).Nodup := by
      have hnew := ((accepts_stmt around s hs Γ hsuits t).1 ⟨r, hr⟩).2
      have hscopes := ((passes_stmt around s hs Γ.scopes).eq_ok hr).1
      rw [← Context.scopes_extend] at hscopes
      rw [hscopes]
      exact accepts_stmts around ss hss (s.extend Γ) (suits_extend hsuits s)
        (nodup_here_extend hnodup hnew) r.table
    rw [stmts, accepts_bind hrest, accepts_stmt around s hs Γ hsuits t, Stmt.AllWellScoped,
      nodup_declarations_cons, and_and_and_comm]

theorem accepts_function (around : Surroundings) : ∀ decl : FunctionDecl,
    Stmt.AllWellFormed decl.body → ∀ Γ, Suits around.enclosure Γ → ∀ t,
      Accepts (function around decl Γ.scopes t) ↔ decl.WellScoped around Γ
  | ⟨name, params, returns, body⟩, hbody, Γ, hsuits, t => by
    let names := params.map fun p => p.name.text
    have hinside : Suits around.enclosure (Γ.inside names) := hsuits.mono fun _ => declares_inside _
    have hparams : Accepts (params.foldlM (fun scopes p => introduce scopes p.name)
        Γ.scopes.openFrame) ↔ names.Nodup :=
      accepts_params (Γ := Γ.inside []) .nil
    have hrest (scopes : Scopes Readiness) (hs : params.foldlM
          (fun scopes p => introduce scopes p.name) Γ.scopes.openFrame = .ok scopes) :
        Accepts (stmts around body ⟨scopes, t⟩ >>= fun inner =>
            (pure inner.table : Result Distances))
          ↔ Stmt.AllWellScoped around body (Γ.inside names) ∧
            (names ++ Stmt.declarations body).Nodup := by
      have hscopes : scopes = (Γ.inside names).scopes := by
        rw [Context.scopes_inside_params]
        exact (introduceAll_ok hs).1
      rw [accepts_bind_pure, hscopes]
      exact accepts_stmts around body hbody (Γ.inside names) hinside (hparams.1 ⟨scopes, hs⟩) t
    rw [function, accepts_bind hrest, hparams, FunctionDecl.WellScoped]
    -- Parameters and body share a frame: names that are distinct in all of it are so among the
    -- parameters, where the walk looks first.
    refine ⟨fun h => ⟨h.2.2, h.2.1⟩, fun h => ⟨?_, h.2, h.1⟩⟩
    exact (List.nodup_append.1 h.1).1

theorem accepts_methods (around : Surroundings) : ∀ decls : List FunctionDecl,
    FunctionDecl.AllWellFormed decls → ∀ Γ, Suits around.enclosure Γ → ∀ t,
      Accepts (methods around decls Γ.scopes t) ↔ FunctionDecl.AllWellScoped around decls Γ
  | [], _, _, _, _ => by simp [methods, accepts_ok, FunctionDecl.AllWellScoped]
  | ⟨name, params, returns, body⟩ :: decls, ⟨⟨_, _, _, hbody⟩, hdecls⟩, Γ, hsuits, t => by
    rw [methods, accepts_bind fun t' _ => accepts_methods around decls hdecls Γ hsuits t',
      accepts_function { around with body := methodBody name } ⟨name, params, returns, body⟩ hbody Γ
        hsuits t]
    rfl

end

/-! ### What is recorded -/

mutual

theorem bound_of_scopedExpr {table : Distances} {around : Surroundings}
    {scopes : Scopes Readiness} :
    ∀ e : Expr, ScopedExpr table around scopes e → ∀ ref ∈ e.references, Bound table scopes ref
  | .literal _, _ => nofun
  | .grouping inner, h => bound_of_scopedExpr inner h
  | .unary _ operand, h => bound_of_scopedExpr operand h
  | .binary left _ right, h => List.forall_mem_append.2
    ⟨bound_of_scopedExpr left h.1, bound_of_scopedExpr right h.2⟩
  | .logical left _ right, h => List.forall_mem_append.2
    ⟨bound_of_scopedExpr left h.1, bound_of_scopedExpr right h.2⟩
  | .ternary condition _ yes no, h => List.forall_mem_append.2
    ⟨bound_of_scopedExpr condition h.1, List.forall_mem_append.2
      ⟨bound_of_scopedExpr yes h.2.1, bound_of_scopedExpr no h.2.2⟩⟩
  | .var _, h => List.forall_mem_singleton.2 h
  | .assign _ value, h => List.forall_mem_cons.2 ⟨h.2, bound_of_scopedExpr value h.1⟩
  | .call callee _ arguments, h => List.forall_mem_append.2
    ⟨bound_of_scopedExpr callee h.1, bound_of_scopedExprs arguments h.2⟩
  | .get object _, h => bound_of_scopedExpr object h
  | .set object _ value, h => List.forall_mem_append.2
    ⟨bound_of_scopedExpr object h.1, bound_of_scopedExpr value h.2⟩
  | .this _, h => List.forall_mem_singleton.2 h.2
  | .super _ _, h => List.forall_mem_singleton.2 h.2

theorem bound_of_scopedExprs {table : Distances} {around : Surroundings}
    {scopes : Scopes Readiness} : ∀ es : List Expr, ScopedExprs table around scopes es →
      ∀ ref ∈ Expr.referencesAll es, Bound table scopes ref
  | [], _ => nofun
  | e :: es, h => List.forall_mem_append.2
    ⟨bound_of_scopedExpr e h.1, bound_of_scopedExprs es h.2⟩

end

theorem bound_of_scopedSignature {table : Distances} {scopes : Scopes Readiness}
    {decl : FunctionDecl} (h : ScopedSignature table scopes decl) :
    ∀ ref ∈ decl.typeReferences, Bound table scopes ref := by
  refine List.forall_mem_append.2 ⟨?_, ?_⟩
  · rw [List.forall_mem_flatMap]
    exact h.1
  · cases hreturns : decl.returns with
    | none => exact nofun
    | some type => exact h.2 type hreturns

/-- The table has the distance of a use, or no entry if the declaration is a global one. -/
def Records (table : Distances) (use : Use) : Prop := table.get? use.ref.id = use.distance?

theorem records_of_bound {table : Distances} {Γ : Context} {ref : Reference}
    (h : Bound table Γ.scopes ref) : Records table ⟨ref, Γ⟩ := by
  obtain ⟨place, hfind, -, hrecorded⟩ := h
  rw [Records, hrecorded]
  show _ = Γ.distance? ref.name.text
  rw [Context.find?_scopes] at hfind
  cases hd : Γ.distance? ref.name.text with
  | some d =>
    rw [hd] at hfind
    cases hfind
    rfl
  | none =>
    by_cases hx : ref.name.text ∈ Γ.globals
    · simp only [hd, hx, if_true, Option.some.injEq] at hfind
      subst hfind
      rfl
    · simp [hd, hx] at hfind

theorem records_usesAt {table : Distances} {Γ : Context} {refs : List Reference}
    (h : ∀ ref ∈ refs, Bound table Γ.scopes ref) : ∀ use ∈ usesAt Γ refs, Records table use := by
  intro use huse
  obtain ⟨ref, href, rfl⟩ := List.mem_map.1 huse
  exact records_of_bound (h ref href)

theorem bound_of_initializer {table : Distances} {around : Surroundings}
    {scopes : Scopes Readiness} {x : String} {e : Expr}
    (h : ScopedExpr table around (scopes.declare x .declared) e) :
    ∀ ref ∈ e.references, Bound table scopes ref := by
  intro ref href
  have hbound := bound_of_scopedExpr e h ref href
  -- A name that is found in the frame while it is declared is not ready for use.
  have hresolves : Resolves (scopes.declare x .declared) ref := by
    obtain ⟨place, hfind, hready, -⟩ := hbound
    exact ⟨place, hfind, hready⟩
  exact hbound.of_declare (resolves_declare.1 hresolves).1

mutual

/-- Where a statement is scoped, the table has the distances of its uses. -/
theorem records_stmt {table : Distances} : ∀ (s : Stmt) {around : Surroundings} {Γ : Context},
    ScopedStmt table around s Γ.scopes → ∀ use ∈ s.uses Γ, Records table use
  | .expression e, _, _, h => records_usesAt (bound_of_scopedExpr e h)
  | .val name type initializer, _, _, h => by
    refine List.forall_mem_append.2 ⟨records_usesAt ?_, records_usesAt ?_⟩
    · cases type with
      | none => exact nofun
      | some t => exact h.1 t rfl
    · cases initializer with
      | none => exact nofun
      | some e => exact bound_of_initializer (h.2.2 e rfl)
  | .block body, _, _, h => records_stmts body h
  | .ifThen _ condition yes, _, _, h => List.forall_mem_append.2
    ⟨records_usesAt (bound_of_scopedExpr condition h.1), records_stmt yes h.2⟩
  | .ifElse _ condition yes no, _, _, h => List.forall_mem_append.2
    ⟨records_usesAt (bound_of_scopedExpr condition h.1), List.forall_mem_append.2
      ⟨records_stmt yes h.2.1, records_stmt no h.2.2⟩⟩
  | .whileLoop _ condition body, _, _, h => List.forall_mem_append.2
    ⟨records_usesAt (bound_of_scopedExpr condition h.1), records_stmt body h.2⟩
  | .funDecl ⟨name, params, returns, body⟩, _, Γ, h => by
    obtain ⟨hsignature, -, hfunction⟩ := h
    rw [← Context.scopes_add] at hfunction
    exact List.forall_mem_append.2 ⟨records_usesAt (bound_of_scopedSignature hsignature),
      records_function ⟨name, params, returns, body⟩ hfunction⟩
  | .ret _ value, _, _, h => by
    refine records_usesAt ?_
    cases value with
    | none => exact nofun
    | some e => exact bound_of_scopedExpr e (h.2.2 e rfl)
  | .classDecl name superclass decls, _, Γ, h => by
    obtain ⟨-, -, hsuperclass, hsignatures, hmethods⟩ := h
    rw [← Context.scopes_add] at hsignatures hmethods
    rw [← Context.scopes_inMethods] at hmethods
    refine List.forall_mem_append.2 ⟨records_usesAt ?_, List.forall_mem_append.2
      ⟨records_usesAt ?_, records_methods decls hmethods⟩⟩
    · -- The superclass is looked up behind the name of the class, which it differs from.
      intro ref href
      obtain ⟨hself, hbound⟩ := hsuperclass ref (Option.mem_toList.1 href)
      exact hbound.of_declare hself
    · rw [List.forall_mem_flatMap]
      exact fun decl hdecl => bound_of_scopedSignature (hsignatures decl hdecl)

theorem records_stmts {table : Distances} : ∀ (ss : List Stmt) {around : Surroundings}
    {Γ : Context}, ScopedStmts table around ss Γ.scopes →
      ∀ use ∈ Stmt.usesAll ss Γ, Records table use
  | [], _, _, _ => nofun
  | s :: ss, _, Γ, ⟨hs, hss⟩ => by
    rw [← Context.scopes_extend] at hss
    exact List.forall_mem_append.2 ⟨records_stmt s hs, records_stmts ss hss⟩

theorem records_function {table : Distances} : ∀ (decl : FunctionDecl) {around : Surroundings}
    {Γ : Context}, ScopedFunction table around decl Γ.scopes →
      ∀ use ∈ decl.uses Γ, Records table use
  | ⟨_, params, _, body⟩, _, Γ, ⟨_, hbody⟩ => by
    rw [← Context.scopes_inside_params] at hbody
    exact records_stmts body hbody

theorem records_methods {table : Distances} : ∀ (decls : List FunctionDecl)
    {around : Surroundings} {Γ : Context}, ScopedMethods table around decls Γ.scopes →
      ∀ use ∈ FunctionDecl.usesAll decls Γ, Records table use
  | [], _, _, _ => nofun
  | decl :: decls, _, _, ⟨hdecl, hdecls⟩ => List.forall_mem_append.2
    ⟨records_function decl hdecl, records_methods decls hdecls⟩

end

/-! ### All uses have their frames -/

theorem map_ref_usesAt (Γ : Context) (refs : List Reference) :
    (usesAt Γ refs).map Use.ref = refs := by
  rw [usesAt, List.map_map]
  exact List.map_id refs

mutual

/-- The uses with their frames are the uses in the tree, each once. -/
theorem perm_uses : ∀ (s : Stmt) (Γ : Context), ((s.uses Γ).map Use.ref).Perm s.references
  | .expression e, Γ => .of_eq (map_ref_usesAt Γ e.references)
  | .val name type initializer, Γ => by
    simp only [Stmt.uses, Stmt.references, List.map_append, map_ref_usesAt]
    exact .refl _
  | .block body, Γ => perm_usesAll body (Γ.inside [])
  | .ifThen _ condition yes, Γ => by
    simp only [Stmt.uses, Stmt.references, List.map_append, map_ref_usesAt]
    exact (perm_uses yes Γ).append_left _
  | .ifElse _ condition yes no, Γ => by
    simp only [Stmt.uses, Stmt.references, List.map_append, map_ref_usesAt]
    exact ((perm_uses yes Γ).append (perm_uses no Γ)).append_left _
  | .whileLoop _ condition body, Γ => by
    simp only [Stmt.uses, Stmt.references, List.map_append, map_ref_usesAt]
    exact (perm_uses body Γ).append_left _
  | .funDecl ⟨name, params, returns, body⟩, Γ => by
    simp only [Stmt.uses, Stmt.references, FunctionDecl.references, List.map_append,
      map_ref_usesAt]
    exact (perm_uses_function ⟨name, params, returns, body⟩ _).append_left _
  | .ret _ value, Γ => .of_eq (map_ref_usesAt Γ _)
  | .classDecl name superclass decls, Γ => by
    simp only [Stmt.uses, Stmt.references, List.map_append, map_ref_usesAt]
    refine .append_left _ (.trans (.append_left _ ?_) (perm_referencesAll decls))
    exact perm_uses_methods decls _

theorem perm_usesAll : ∀ (ss : List Stmt) (Γ : Context),
    ((Stmt.usesAll ss Γ).map Use.ref).Perm (Stmt.referencesAll ss)
  | [], _ => .refl _
  | s :: ss, Γ => by
    simp only [Stmt.usesAll, Stmt.referencesAll, List.map_append]
    exact (perm_uses s Γ).append (perm_usesAll ss (s.extend Γ))

theorem perm_uses_function : ∀ (decl : FunctionDecl) (Γ : Context),
    ((decl.uses Γ).map Use.ref).Perm (Stmt.referencesAll decl.body)
  | ⟨_, _, _, body⟩, _ => perm_usesAll body _

theorem perm_uses_methods : ∀ (decls : List FunctionDecl) (Γ : Context),
    ((FunctionDecl.usesAll decls Γ).map Use.ref).Perm
      (decls.flatMap fun decl => Stmt.referencesAll decl.body)
  | [], _ => .refl _
  | decl :: decls, Γ => by
    simp only [FunctionDecl.usesAll, List.flatMap_cons, List.map_append]
    exact (perm_uses_function decl Γ).append (perm_uses_methods decls Γ)

end

end Resolution

/-! ### Programs -/

open Resolution

theorem accepts_resolve {program : Program} (hwf : Stmt.AllWellFormed program) :
    Accepts (resolve program) ↔ Program.WellScoped program := by
  have hbuiltins : Context.initial.here.Nodup := by decide
  have hsuits : Suits .outside .initial := ⟨fun h => absurd rfl h, nofun⟩
  have hwalk := accepts_stmts ⟨.topLevel, .outside⟩ program hwf .initial hsuits hbuiltins .empty
  rw [resolve, accepts_bind_pure]
  exact hwalk.trans and_comm

/-- A program has entries in its table for the uses in it and for nothing else. -/
theorem get?_eq_none_of_resolve {program : Program} {table : Distances}
    (hwf : Stmt.AllWellFormed program) (h : resolve program = .ok table) {id : Nat}
    (hid : id ∉ ids (Stmt.referencesAll program)) : table.get? id = none := by
  rw [resolve, except_bind_eq_ok] at h
  obtain ⟨r, hr, htable⟩ := h
  cases htable
  have hwalks := walks_stmts ⟨.topLevel, .outside⟩ program hwf Resolution.initial.scopes
  exact hwalks.keeps (map_table_eq_ok.2 ⟨r.scopes, hr⟩) hid

/-- A program is resolved if it is well scoped, and only then. The table has the distance of each
    use that is declared in a local frame, and no other entries. -/
theorem resolve_ok_iff_wellScoped {source : String} {program : Program}
    (h : Source.program source = .ok program) :
    ((∃ table, resolve program = .ok table) ↔ Program.WellScoped program) ∧
      ∀ table, resolve program = .ok table → ∀ id d, table.get? id = some d ↔
        ∃ use ∈ Program.uses program, use.ref.id = id ∧ use.distance? = some d := by
  have hwf := Source.program_wellFormed h
  refine ⟨accepts_resolve hwf, fun table htable id d => ?_⟩
  have hscoped := scoped_of_resolve hwf (Source.program_nodup h) htable
  rw [← Context.scopes_initial] at hscoped
  have hrecords : ∀ use ∈ Program.uses program, Records table use := records_stmts program hscoped
  constructor
  · intro hentry
    have hid : id ∈ ids (Stmt.referencesAll program) := by
      by_contra hid
      rw [get?_eq_none_of_resolve hwf htable hid] at hentry
      cases hentry
    obtain ⟨ref, href, rfl⟩ := List.mem_map.1 hid
    obtain ⟨use, huse, rfl⟩ := List.mem_map.1 ((perm_usesAll program .initial).mem_iff.2 href)
    exact ⟨use, huse, rfl, (hrecords use huse).symm.trans hentry⟩
  · rintro ⟨use, huse, rfl, hdistance⟩
    exact (hrecords use huse).trans hdistance

/-- In a method of a subclass `this` is one frame out and `super` two. -/
theorem resolve_subclass :
    ∃ program, Source.program
        "class A \x7b f() \x7b this; \x7d \x7d
        class B < A \x7b f() \x7b super.f(); \x7d \x7d B().f();" = .ok program ∧
      resolve program = .ok (.ofList [(0, 1), (2, 2)]) ∧ Program.WellScoped program ∧
      ∃ use ∈ Program.uses program, use.ref.id = 2 ∧ use.distance? = some 2 := by
  have hresolved : (Source.program
        "class A \x7b f() \x7b this; \x7d \x7d
        class B < A \x7b f() \x7b super.f(); \x7d \x7d B().f();").toOption.any
      (fun program => (resolve program).toOption = some (.ofList [(0, 1), (2, 2)])) = true := by
    decide +kernel
  obtain ⟨program, hprogram, htable⟩ := exists_ok_of_any hresolved
  have hresolve := ok_of_toOption (of_decide_eq_true htable)
  have hdecides := resolve_ok_iff_wellScoped hprogram
  refine ⟨program, hprogram, hresolve, hdecides.1.1 ⟨_, hresolve⟩, ?_⟩
  exact (hdecides.2 _ hresolve 2 2).1 (by decide)

end ClassScript
