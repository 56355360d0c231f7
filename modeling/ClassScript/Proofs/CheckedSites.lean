import ClassScript.Proofs.ClassTables
import ClassScript.Proofs.TypeSafety.Programs

namespace ClassScript

/-!
# What the type checker knows along its walk

In a program that resolution accepts, classes are declared at the top level only. So the checker
knows the same classes all through a top-level statement, and every name and every class that it
knows anywhere it still knows at the end.

* `Typing.After`: what a statement leaves behind;
* `Typing.Within`: one typing knows the classes and the globals of another;
* `Typing.Moves`: all that can change from one place of the walk to the next;
* `Typing.Checked`, `Typing.checked_of_visits`: what holds wherever the checker comes to;
* `Typing.site_induction`: what every move keeps holds at every place.
-/

/-- The statement declares a class. -/
def Stmt.isClass : Stmt → Bool
  | .classDecl _ _ _ => true
  | _ => false

theorem Stmt.isClass_eq_false {s : Stmt} (h : s.declared? = none) : s.isClass = false := by
  cases s <;> first | rfl | cases h

namespace Scopes

variable {α : Type} (s : Scopes α) (x : String) (a : α)

/-- A declaration opens no frame. -/
theorem isGlobal_declare : (s.declare x a).isGlobal = s.isGlobal := by
  obtain ⟨globals, frames⟩ := s
  cases frames <;> rfl

theorem frames_declare_eq_nil : (s.declare x a).frames = [] ↔ s.frames = [] := by
  obtain ⟨globals, frames⟩ := s
  cases frames with
  | nil => exact ⟨fun _ => rfl, fun _ => rfl⟩
  | cons frame outer => exact ⟨nofun, nofun⟩

theorem declare_global {s : Scopes α} (h : s.frames = []) (x : String) (a : α) :
    s.declare x a = s.declareGlobal x a := by
  rw [declare, h]

theorem find?_globals_declare {s : Scopes α} (h : s.frames = []) (x : String) (a : α) :
    (s.declare x a).globals.find? x = some a := by
  rw [declare_global h, declareGlobal, Bindings.find?_insert, if_pos rfl]

/-- A name declared in a local frame is no global. -/
theorem globals_declare {s : Scopes α} (h : s.frames ≠ []) (x : String) (a : α) :
    (s.declare x a).globals = s.globals := by
  obtain ⟨globals, frames⟩ := s
  cases frames with
  | nil => exact absurd rfl h
  | cons frame outer => rfl

end Scopes

/-- After a statement the scopes are as local as before it. -/
theorem Stmt.isGlobal_after (s : Stmt) (scopes : Scopes Readiness) :
    (s.after scopes).isGlobal = scopes.isGlobal := by
  unfold Stmt.after
  split
  · exact Scopes.isGlobal_declare ..
  · rfl

namespace Walk

variable {ρ : Type} (w : Walk ρ) (s : Stmt) (ss : List Stmt) (r : ρ)

/-- A walk over statements goes to the first one. -/
theorem first_mem_enters : ⟨.stmt s, r⟩ ∈ w.enters ⟨.stmts (s :: ss), r⟩ := by
  simp [enters]

theorem rest_mem_enters : ⟨.stmts ss, w.after s r⟩ ∈ w.enters ⟨.stmts (s :: ss), r⟩ := by
  simp [enters]

end Walk

namespace Typing

open TypeSafety (Resolved)

variable {table : Distances}

/-! ### Classes are global -/

mutual

/-- A statement that is no declaration of a class leaves the classes alone: those inside it would be
    local. -/
theorem stmt_classes : ∀ (s : Stmt) {around : Surroundings} {scopes : Scopes Readiness}
    {context : TypeContext} {t t' : Typing}, s.isClass = false → s.WellFormed →
    Resolution.ScopedStmt table around s scopes → stmt context s t = .ok t' →
    t'.classes = t.classes
  | .expression _, _, _, _, _, _, _, _, _, h => by
    obtain ⟨-, rfl⟩ := stmt_expression_ok h
    rfl
  | .val _ _ _, _, _, _, _, _, _, _, _, h => by
    obtain ⟨-, -, rfl⟩ := stmt_val_ok h
    rfl
  | .block body, _, scopes, _, _, _, _, hwf, hscoped, h => by
    obtain ⟨inner, hinner, rfl⟩ := stmt_block_ok h
    have hlocal : scopes.openFrame.isGlobal = false := rfl
    have hclasses := stmts_classes body hlocal hwf hscoped hinner
    exact hclasses
  | .ifThen _ _ yes, _, _, _, _, _, _, hwf, hscoped, h =>
    stmt_classes yes (Stmt.isClass_eq_false hwf.2.2) hwf.2.1 hscoped.2 (stmt_ifThen_ok h).2
  | .ifElse _ _ yes no, _, _, _, _, _, _, hwf, hscoped, h => by
    obtain ⟨-, t₁, hyes, hno⟩ := stmt_ifElse_ok h
    rw [stmt_classes no (Stmt.isClass_eq_false hwf.2.2.2) hwf.2.2.1 hscoped.2.2 hno,
      stmt_classes yes (Stmt.isClass_eq_false hwf.2.1.2) hwf.2.1.1 hscoped.2.1 hyes]
  | .whileLoop _ _ body, _, _, _, _, _, _, hwf, hscoped, h =>
    stmt_classes body (Stmt.isClass_eq_false hwf.2.2) hwf.2.1 hscoped.2 (stmt_whileLoop_ok h).2
  | .funDecl decl, _, _, _, _, _, _, hwf, hscoped, h => by
    obtain ⟨s, -, hfunction⟩ := stmt_funDecl_ok h
    rw [function_eq decl hwf hscoped.2.2 hfunction]
    rfl
  | .ret _ _, _, _, _, _, _, _, _, _, h => by
    obtain ⟨-, -, -, -, -, rfl⟩ := stmt_ret_ok h
    rfl
  | .classDecl _ _ _, _, _, _, _, _, hclass, _, _, _ => nomatch hclass

/-- Statements inside others declare no class. -/
theorem stmts_classes : ∀ (ss : List Stmt) {around : Surroundings} {scopes : Scopes Readiness}
    {context : TypeContext} {t t' : Typing}, scopes.isGlobal = false → Stmt.AllWellFormed ss →
    Resolution.ScopedStmts table around ss scopes → stmts context ss t = .ok t' →
    t'.classes = t.classes
  | [], _, _, _, _, _, _, _, _, h => by
    cases h
    rfl
  | s :: ss, _, scopes, _, _, _, hlocal, hwf, hscoped, h => by
    obtain ⟨t₁, hs, hss⟩ := stmts_cons_ok h
    have hclass : s.isClass = false := by
      cases s with
      | classDecl name superclass decls =>
        obtain ⟨hglobal, -⟩ := hscoped.1
        rw [hlocal] at hglobal
        cases hglobal
      | _ => rfl
    have hlocal' : (s.after scopes).isGlobal = false := by rwa [Stmt.isGlobal_after]
    rw [stmts_classes ss hlocal' hwf.2 hscoped.2 hss, stmt_classes s hclass hwf.1 hscoped.1 hs]

/-- Once its body is checked, a function leaves nothing behind. -/
theorem function_eq : ∀ (decl : FunctionDecl) {around : Surroundings} {scopes : Scopes Readiness}
    {context : TypeContext} {s : Signature} {t t' : Typing}, decl.WellFormed →
    Resolution.ScopedFunction table around decl scopes → function context decl s t = .ok t' →
    t' = t
  | ⟨_, params, _, body⟩, _, scopes, _, _, t, _, hwf, hscoped, h => by
    rw [function] at h
    obtain ⟨inner, hinner, h⟩ := except_bind_eq_ok.mp h
    cases h
    have hlocal : (parameterScopes params scopes).isGlobal = false := by
      rw [parameterScopes_eq]
      rfl
    have hclasses := stmts_classes body hlocal hwf.2.2.2 hscoped.2 hinner
    obtain ⟨typeScopes, classes⟩ := t
    obtain ⟨innerScopes, innerClasses⟩ := inner
    cases hclasses
    rfl

end

theorem methods_eq {decls : List FunctionDecl} {ss : List Signature} {around : Surroundings}
    {scopes : Scopes Readiness} {context : TypeContext} {t t' : Typing}
    (hwf : FunctionDecl.AllWellFormed decls)
    (hscoped : Resolution.ScopedMethods table around decls scopes)
    (h : methods context decls ss t = .ok t') : t' = t := by
  induction decls generalizing ss t with
  | nil =>
    cases h
    rfl
  | cons decl decls ih =>
    cases ss with
    | nil =>
      cases h
      rfl
    | cons s ss =>
      obtain ⟨t₁, hfirst, hrest⟩ := except_bind_eq_ok.mp h
      rw [function_eq decl hwf.1 hscoped.1 hfirst] at hrest
      exact ih hwf.2 hscoped.2 hrest

/-- The checker comes to the body of each method right inside the class. -/
theorem inMethods_eq {decls : List FunctionDecl} {ss : List Signature} {around : Surroundings}
    {scopes : Scopes Readiness} {context : TypeContext} {t t' : Typing}
    (hwf : FunctionDecl.AllWellFormed decls)
    (hscoped : Resolution.ScopedMethods table around decls scopes)
    (h : methods context decls ss t = .ok t') :
    inMethods context decls ss t
      = (decls.zip ss).map fun pair => inBody pair.1 pair.2 ⟨context, t⟩ := by
  induction decls generalizing ss with
  | nil => cases ss <;> rfl
  | cons decl decls ih =>
    cases ss with
    | nil => rfl
    | cons s ss =>
      obtain ⟨t₁, hfirst, hrest⟩ := except_bind_eq_ok.mp h
      obtain rfl := function_eq decl hwf.1 hscoped.1 hfirst
      rw [inMethods, hfirst, List.zip_cons_cons, List.map_cons, ← ih hwf.2 hscoped.2 hrest]
      rfl

/-! ### What a statement leaves behind -/

/-- The checks of a class declaration, but for the bodies of its methods. -/
structure ClassChecked (site : Site) (name : Name) (superclass : Option Reference)
    (decls : List FunctionDecl) (super : Option ClassId) (ss : List Signature) : Prop where
  superclass : superclass.mapM (superclassId site.context site.typing) = .ok super
  signatures : signatures site.context (site.typing.withClass name super .empty) decls = .ok ss
  isGlobal : site.typing.scopes.frames = []
  isNew : site.typing.scopes.declaredHere name.text = false
  plain : name.Plain
  params : ∀ decl ∈ decls, ∀ p ∈ decl.params, p.name.Plain
  fits : List.Forall₂ FitsSignature decls ss

/-- The checks of a function declaration, but for its body. -/
structure FunctionChecked (site : Site) (decl : FunctionDecl) (s : Signature) : Prop where
  signature : signature site.context site.typing decl = .ok s
  isNew : site.typing.scopes.declaredHere decl.name.text = false
  plain : decl.name.Plain
  params : ∀ p ∈ decl.params, p.name.Plain
  fits : FitsSignature decl s

/-- The checks of a variable. -/
structure VariableChecked (site : Site) (name : Name) (written : Option TypeName)
    (initializer : Option Expr) (type : StaticType) : Prop where
  type : declaredType site.context site.typing name written initializer = .ok type
  isNew : site.typing.scopes.declaredHere name.text = false
  plain : name.Plain

/-- What the checker knows after a statement. -/
inductive After (site : Site) : Stmt → Typing → Prop where
  | plain {s : Stmt} (h : s.declared? = none) : After site s site.typing
  | val {name : Name} {written : Option TypeName} {initializer : Option Expr} {type : StaticType}
      (h : VariableChecked site name written initializer type) :
      After site (.val name written initializer) (site.typing.declare name.text type)
  | funDecl {decl : FunctionDecl} {s : Signature} (h : FunctionChecked site decl s) :
      After site (.funDecl decl) (site.typing.declare decl.name.text (.function s))
  | classDecl {name : Name} {superclass : Option Reference} {decls : List FunctionDecl}
      {super : Option ClassId} {ss : List Signature}
      (h : ClassChecked site name superclass decls super ss) :
      After site (.classDecl name superclass decls)
        (site.typing.withClass name super (methodTypes ss))

variable {site : Site} {r : Resolution.Setting} {t t' : Typing}

/-- A function of a resolved program is checked. -/
theorem functionChecked_of_resolved {decl : FunctionDecl} {s : Signature}
    (hr : Resolved table ⟨.stmt (.funDecl decl), site⟩ r) (htable : site.context.table = table)
    (hs : signature site.context site.typing decl = .ok s) : FunctionChecked site decl s := by
  obtain ⟨hname, hparams⟩ := FunctionDecl.plain_of_wellFormed hr.valid.wellFormed
  have hnew := hr.mirrors.declaredHere_eq_false hr.valid.bound.2.1
  obtain ⟨⟨table', returns, current⟩, typing⟩ := site
  subst htable
  exact ⟨hs, hnew, hname, hparams, (tracks_signature hr.mirrors hr.valid.bound.1).post s hs⟩

/-- A class of a resolved program is checked. -/
theorem classChecked_of_resolved {name : Name} {superclass : Option Reference}
    {decls : List FunctionDecl} {super : Option ClassId} {ss : List Signature}
    (hr : Resolved table ⟨.stmt (.classDecl name superclass decls), site⟩ r)
    (htable : site.context.table = table)
    (hsuper : superclass.mapM (superclassId site.context site.typing) = .ok super)
    (hss : signatures site.context (site.typing.withClass name super .empty) decls = .ok ss) :
    ClassChecked site name superclass decls super ss := by
  obtain ⟨hglobal, hnew, -, hsignatures, -⟩ := hr.valid.bound
  obtain ⟨⟨table', returns, current⟩, typing⟩ := site
  subst htable
  have hdeclared := hr.mirrors.declare_plain (.classType (typing.classId name))
    hr.valid.wellFormed.1
  refine ⟨hsuper, hss, ?_, hr.mirrors.declaredHere_eq_false hnew, hr.valid.wellFormed.1, ?_, ?_⟩
  · have hframes := hr.mirrors.frames
    rw [List.isEmpty_iff.mp hglobal] at hframes
    exact List.forall₂_nil_left_iff.mp hframes
  · intro decl hdecl
    exact (FunctionDecl.plain_of_wellFormed
      (Resolution.Valid.wellFormed_of_mem hr.valid.wellFormed.2.2 hdecl)).2
  · exact (tracks_signatures (t := ⟨_, _⟩) hdeclared hsignatures).post ss hss

/-- What a statement of a resolved program leaves behind. -/
theorem after_of_stmt {s : Stmt} (hr : Resolved table ⟨.stmt s, site⟩ r)
    (htable : site.context.table = table) (h : stmt site.context s site.typing = .ok t) :
    After site s t := by
  have hwf : s.WellFormed := hr.valid.wellFormed
  have hscoped : Resolution.ScopedStmt table r.around s r.scopes := hr.valid.bound
  cases hdeclared : s.declared? with
  | none =>
    have hscopes := stmt_scopes s hwf hdeclared h
    have hclasses := stmt_classes s (Stmt.isClass_eq_false hdeclared) hwf hscoped h
    -- Scopes and classes are all that the checker knows.
    have ht : t = site.typing := by
      cases t
      cases hscopes
      cases hclasses
      rfl
    exact ht ▸ .plain hdeclared
  | some x =>
    cases s with
    | val name written initializer =>
      obtain ⟨type, htype, rfl⟩ := stmt_val_ok h
      exact .val ⟨htype, hr.mirrors.declaredHere_eq_false hscoped.2.1, hwf.1⟩
    | funDecl decl =>
      obtain ⟨s, hs, hfunction⟩ := stmt_funDecl_ok h
      rw [function_eq decl hwf hscoped.2.2 hfunction]
      exact .funDecl (functionChecked_of_resolved hr htable hs)
    | classDecl name superclass decls =>
      obtain ⟨super, ss, inner, hsuper, hss, hinner, rfl⟩ := stmt_classDecl_ok h
      have hclass := classChecked_of_resolved hr htable hsuper hss
      rw [methods_eq hwf.2.2 hscoped.2.2.2.2 hinner]
      exact .classDecl hclass
    | _ => cases hdeclared

/-! ### Growth -/

/-- The other typing knows the classes and the globals of this one. -/
structure Within (t T : Typing) : Prop where
  classes : t.classes <:+ T.classes
  globals : ∀ x type, t.scopes.globals.find? x = some type → T.scopes.globals.find? x = some type

namespace Within

variable {T : Typing} {x : String}

theorem refl (t : Typing) : t.Within t := ⟨List.suffix_rfl, fun _ _ h => h⟩

theorem trans (h : t.Within t') (h' : t'.Within T) : t.Within T :=
  ⟨h.classes.trans h'.classes, fun x type hx => h'.globals x type (h.globals x type hx)⟩

/-- What is local does not count. -/
theorem of_eq (h : t.Within T) (hclasses : t'.classes = t.classes)
    (hglobals : t'.scopes.globals = t.scopes.globals) : t'.Within T :=
  ⟨hclasses ▸ h.classes, hglobals ▸ h.globals⟩

/-- A new name leaves those that are there. -/
theorem declare_new (hnew : t.scopes.declaredHere x = false) (type : StaticType) :
    t.Within (t.declare x type) := by
  refine ⟨List.suffix_rfl, fun y other hy => ?_⟩
  obtain ⟨⟨globals, frames⟩, classes⟩ := t
  cases frames with
  | cons frame outer => exact hy
  | nil =>
    show (globals.insert x type).find? y = some other
    rw [Bindings.find?_insert, if_neg]
    · exact hy
    · rintro rfl
      have hfound : globals.contains x = true := by
        rw [Bindings.contains, show globals.find? x = some other from hy]
        rfl
      rw [show globals.contains x = false from hnew] at hfound
      cases hfound

end Within

/-- A class declaration makes one more class. -/
theorem After.length_classes {s : Stmt} (h : After site s t) :
    t.classes.length = site.typing.classes.length + if s.isClass then 1 else 0 := by
  cases h with
  | plain hplain =>
    rw [Stmt.isClass_eq_false hplain]
    rfl
  | val _ => rfl
  | funDecl _ => rfl
  | classDecl _ => rfl

/-- After a statement the checker knows what it knew before. -/
theorem After.within {s : Stmt} (h : After site s t) : site.typing.Within t := by
  cases h with
  | plain => exact .refl _
  | val h => exact .declare_new h.isNew _
  | funDecl h => exact .declare_new h.isNew _
  | classDecl h =>
    exact ⟨List.suffix_cons _ _, (Within.declare_new (t := site.typing) h.isNew _).globals⟩

theorem within_of_stmts {ss : List Stmt} (hr : Resolved table ⟨.stmts ss, site⟩ r)
    (htable : site.context.table = table) (h : stmts site.context ss site.typing = .ok t) :
    site.typing.Within t := by
  induction ss generalizing site r with
  | nil =>
    cases h
    exact .refl _
  | cons s ss ih =>
    obtain ⟨t₁, hs, hss⟩ := stmts_cons_ok h
    obtain ⟨r₁, hr₁⟩ := hr.enters htable ⟨t, h⟩ (Walk.first_mem_enters walk s ss site)
    obtain ⟨r₂, hr₂⟩ := hr.enters htable ⟨t, h⟩ (Walk.rest_mem_enters walk s ss site)
    rw [walk_after hs] at hr₂
    exact (after_of_stmt hr₁ htable hs).within.trans (ih hr₂ htable hss)

/-! ### Moves -/

section Moves

variable (T : Typing)

/-- All that can change from one place of the walk to the next; `T` is what the checker knows at the
    end. -/
inductive Moves (site : Site) : Site → Prop where
  | stay : Moves site site
  | block : Moves site (walk.block site)
  | after {s : Stmt} {t : Typing} (h : After site s t) (hend : t.Within T) :
      Moves site ⟨site.context, t⟩
  | body {decl : FunctionDecl} {s : Signature} (h : FunctionChecked site decl s)
      (hend : (site.typing.declare decl.name.text (.function s)).Within T) :
      Moves site
        (inBody decl s ⟨site.context, site.typing.declare decl.name.text (.function s)⟩)
  | method {name : Name} {superclass : Option Reference} {decls : List FunctionDecl}
      {super : Option ClassId} {ss : List Signature} {decl : FunctionDecl} {s : Signature}
      (h : ClassChecked site name superclass decls super ss)
      (hend : (site.typing.withClass name super (methodTypes ss)).Within T)
      (hmem : (decl, s) ∈ decls.zip ss) :
      Moves site (inBody decl s (insideClass (site.typing.classId name) super
        ⟨site.context, site.typing.withClass name super (methodTypes ss)⟩))

/-- From the top level the rest of the check leads to `T`. -/
def Leads : Visit Site → Prop
  | ⟨.stmt s, site⟩ => site.typing.scopes.frames = [] →
    ∀ t, stmt site.context s site.typing = .ok t → t.Within T
  | ⟨.stmts ss, site⟩ => site.typing.scopes.frames = [] →
    stmts site.context ss site.typing = .ok T
  | _ => True

/-- What holds wherever the checker comes to in a resolved program that it accepts. -/
structure Checked (table : Distances) (v : Visit Site) : Prop where
  accepted : Accepts v
  resolved : ∃ r, Resolved table v r
  table : v.place.context.table = table
  within : v.place.typing.Within T
  leads : Leads T v

end Moves

/-- The parameters of a function are no globals. -/
theorem globals_params {params : List Param} {types : List StaticType} (scopes : Scopes StaticType)
    (h : scopes.frames ≠ []) :
    ((params.zip types).foldl (fun scopes (p, type) => scopes.declare p.name.text type)
        scopes).globals = scopes.globals ∧
      ((params.zip types).foldl (fun scopes (p, type) => scopes.declare p.name.text type)
        scopes).frames ≠ [] := by
  induction params generalizing types scopes with
  | nil => exact ⟨rfl, h⟩
  | cons p ps ih =>
    cases types with
    | nil => exact ⟨rfl, h⟩
    | cons type types =>
      have hlocal : (scopes.declare p.name.text type).frames ≠ [] :=
        fun hnil => h ((Scopes.frames_declare_eq_nil _ _ _).mp hnil)
      obtain ⟨hglobals, hframes⟩ := ih (scopes.declare p.name.text type) hlocal
      exact ⟨hglobals.trans (Scopes.globals_declare h _ _), hframes⟩

theorem inBody_local (decl : FunctionDecl) (s : Signature) (site : Site) :
    (inBody decl s site).typing.scopes.globals = site.typing.scopes.globals ∧
      (inBody decl s site).typing.scopes.frames ≠ [] :=
  globals_params site.typing.scopes.openFrame nofun

theorem insideClass_globals (id : ClassId) (super : Option ClassId) (site : Site) :
    (insideClass id super site).typing.scopes.globals = site.typing.scopes.globals := by
  cases super <;> rfl

variable {T : Typing}

/-- Wherever a move goes to, what is known there is known at the end. -/
theorem Moves.within {site' : Site} (h : Moves T site site') (hsite : site.typing.Within T) :
    site'.typing.Within T := by
  cases h with
  | stay => exact hsite
  | block => exact hsite.of_eq rfl rfl
  | after _ hend => exact hend
  | body _ hend => exact hend.of_eq rfl (inBody_local _ _ _).1
  | method _ hend _ =>
    exact hend.of_eq rfl ((inBody_local _ _ _).1.trans (insideClass_globals _ _ _))

/-- No move changes the table. -/
theorem Moves.table_eq {site' : Site} (h : Moves T site site') :
    site'.context.table = site.context.table := by
  cases h <;> rfl

/-- After a statement that declares nothing the checker knows what it knew. -/
theorem walk_after_eq_self {s : Stmt} (hr : Resolved table ⟨.stmt s, site⟩ r)
    (htable : site.context.table = table) (h : Accepts ⟨.stmt s, site⟩)
    (hplain : s.declared? = none) : walk.after s site = site := by
  obtain ⟨t, ht⟩ := h
  rw [walk_after ht]
  cases after_of_stmt hr htable ht with
  | plain => rfl
  | _ => cases hplain

namespace Checked

variable {s : Stmt} {v v' : Visit Site}

/-- What is checked is well formed. -/
theorem wellFormed (h : Checked T table v) : v.part.WellFormed := by
  obtain ⟨r, hr⟩ := h.resolved
  exact hr.valid.wellFormed

/-- What is known behind a checked statement. -/
theorem after (h : Checked T table ⟨.stmt s, site⟩)
    (hstmt : stmt site.context s site.typing = .ok t) : After site s t := by
  obtain ⟨r, hr⟩ := h.resolved
  exact after_of_stmt hr h.table hstmt

/-- What is known after a statement is known at the end. -/
theorem within_after (h : Checked T table ⟨.stmt s, site⟩)
    (hstmt : stmt site.context s site.typing = .ok t) : t.Within T := by
  by_cases hglobal : site.typing.scopes.frames = []
  · exact h.leads hglobal t hstmt
  · -- Inside a block or a function only local names are declared.
    cases h.after hstmt with
    | plain => exact h.within
    | val _ => exact h.within.of_eq rfl (Scopes.globals_declare hglobal _ _)
    | funDecl _ => exact h.within.of_eq rfl (Scopes.globals_declare hglobal _ _)
    | classDecl hclass => exact absurd hclass.isGlobal hglobal

/-- A branch or a loop body, which declares nothing. -/
theorem leads_branch (h : Checked T table ⟨.stmt s, site⟩) (s' : Stmt)
    (hmem : ⟨.stmt s', site⟩ ∈ walk.entersStmt s site) (hplain : s'.declared? = none) :
    Leads T ⟨.stmt s', site⟩ := by
  obtain ⟨r, hr⟩ := h.resolved
  obtain ⟨r', hr'⟩ := hr.entersStmt h.table h.accepted hmem
  intro _ t ht
  cases after_of_stmt hr' h.table ht with
  | plain => exact h.within
  | _ => cases hplain

theorem step_stmt (h : Checked T table ⟨.stmt s, site⟩) (hv : v ∈ walk.entersStmt s site) :
    Moves T site v.place ∧ Leads T v := by
  obtain ⟨r, hr⟩ := h.resolved
  obtain ⟨t, ht⟩ := h.accepted
  have hwf := h.wellFormed
  cases s with
  | expression e =>
    cases List.mem_singleton.mp hv
    exact ⟨.stay, trivial⟩
  | val name written initializer =>
    cases initializer with
    | none => cases hv
    | some e =>
      cases List.mem_singleton.mp hv
      exact ⟨.stay, trivial⟩
  | block body =>
    cases List.mem_singleton.mp hv
    exact ⟨.block, nofun⟩
  | ifThen keyword e yes =>
    simp only [Walk.entersStmt, List.mem_cons, List.not_mem_nil, or_false] at hv
    rcases hv with rfl | rfl
    · exact ⟨.stay, trivial⟩
    · exact ⟨.stay, h.leads_branch yes (by simp [Walk.entersStmt]) hwf.2.2⟩
  | ifElse keyword e yes no =>
    obtain ⟨-, t₁, hyes, hno⟩ := stmt_ifElse_ok ht
    obtain ⟨r₁, hr₁⟩ := hr.entersStmt (v := ⟨.stmt yes, site⟩) h.table ⟨t, ht⟩
      (by simp [Walk.entersStmt])
    -- The first branch declares nothing, so the second is checked where the first one was.
    have hafter := walk_after_eq_self hr₁ h.table ⟨t₁, hyes⟩ hwf.2.1.2
    simp only [Walk.entersStmt, List.mem_cons, List.not_mem_nil, or_false] at hv
    rcases hv with rfl | rfl | rfl
    · exact ⟨.stay, trivial⟩
    · exact ⟨.stay, h.leads_branch yes (by simp [Walk.entersStmt]) hwf.2.1.2⟩
    · rw [hafter]
      exact ⟨.stay, h.leads_branch no (by simp [Walk.entersStmt, hafter]) hwf.2.2.2⟩
  | whileLoop keyword e body =>
    simp only [Walk.entersStmt, List.mem_cons, List.not_mem_nil, or_false] at hv
    rcases hv with rfl | rfl
    · exact ⟨.stay, trivial⟩
    · exact ⟨.stay, h.leads_branch body (by simp [Walk.entersStmt]) hwf.2.2⟩
  | funDecl decl =>
    obtain ⟨s, hs, -⟩ := stmt_funDecl_ok ht
    have hfunction := functionChecked_of_resolved hr h.table hs
    have hend := h.within_after ht
    have hafter := h.after ht
    cases List.mem_singleton.mp hv
    rw [walk_function hs]
    -- The body is checked with the function declared, which is all that the statement adds.
    refine ⟨.body hfunction ?_, fun hnil => absurd hnil (inBody_local _ _ _).2⟩
    cases hafter with
    | plain hplain => cases hplain
    | funDecl h' =>
      rw [h'.signature] at hs
      cases hs
      exact hend
  | ret keyword value =>
    cases value with
    | none => cases hv
    | some e =>
      cases List.mem_singleton.mp hv
      exact ⟨.stay, trivial⟩
  | classDecl name superclass decls =>
    obtain ⟨super, ss, inner, hsuper, hss, hinner, rfl⟩ := stmt_classDecl_ok ht
    have hclass := classChecked_of_resolved hr h.table hsuper hss
    have hscoped : Resolution.ScopedMethods table _ decls _ := hr.valid.bound.2.2.2.2
    have hend := h.within_after ht
    -- Checking the bodies leaves nothing behind, so the class is all that the statement adds,
    rw [methods_eq hwf.2.2 hscoped hinner] at hend
    -- and every body is checked where the first one is.
    obtain ⟨⟨decl, site'⟩, hmem, rfl⟩ := List.mem_map.mp hv
    rw [walk_methods hsuper hss] at hmem
    obtain ⟨s, t₁, hzip, rfl, rfl⟩ := mem_inMethods hinner
      (fun decl hdecl s t t' ht hfunction => by
        have hdeclScoped := Resolution.Valid.scopedFunction_of_mem hscoped hdecl
        have hdeclWf := Resolution.Valid.wellFormed_of_mem hwf.2.2 hdecl
        exact ht.trans (function_eq decl hdeclWf hdeclScoped hfunction).symm) rfl hmem
    exact ⟨.method hclass hend hzip, fun hnil => absurd hnil (inBody_local _ _ _).2⟩

/-- The body of each method of a class is come to. -/
theorem method_mem {name : Name} {superclass : Option Reference} {decls : List FunctionDecl}
    {super : Option ClassId} {ss : List Signature} {decl : FunctionDecl} {s : Signature}
    (h : Checked T table ⟨.stmt (.classDecl name superclass decls), site⟩)
    (hclass : ClassChecked site name superclass decls super ss) (hmem : (decl, s) ∈ decls.zip ss) :
    ⟨.stmts decl.body, inBody decl s (insideClass (site.typing.classId name) super
        ⟨site.context, site.typing.withClass name super (methodTypes ss)⟩)⟩
      ∈ walk.enters ⟨.stmt (.classDecl name superclass decls), site⟩ := by
  obtain ⟨r, hr⟩ := h.resolved
  obtain ⟨t, ht⟩ := h.accepted
  obtain ⟨super', ss', inner, hsuper, hss, hinner, -⟩ := stmt_classDecl_ok ht
  obtain rfl := Except.ok.inj (hclass.superclass.symm.trans hsuper)
  obtain rfl := Except.ok.inj (hclass.signatures.symm.trans hss)
  refine List.mem_map.mpr ⟨(decl, _), ?_, rfl⟩
  rw [walk_methods hsuper hss, inMethods_eq h.wellFormed.2.2 hr.valid.bound.2.2.2.2 hinner]
  obtain ⟨i, hi, heq⟩ := List.getElem_of_mem hmem
  refine List.mem_iff_getElem.mpr ⟨i, by simpa using hi, ?_⟩
  rw [List.getElem_zip, List.getElem_map, heq]
  rw [List.getElem_zip] at heq
  rw [(Prod.mk.inj heq).1]
  rfl

theorem step (h : Checked T table v) (hv' : v' ∈ walk.enters v) :
    Moves T v.place v'.place ∧ Leads T v' := by
  obtain ⟨part, site⟩ := v
  rcases part with e | ⟨_ | ⟨e, es⟩⟩ | s | ⟨_ | ⟨s, ss⟩⟩
  · obtain ⟨part, hpart, rfl⟩ := List.mem_map.mp hv'
    refine ⟨.stay, ?_⟩
    cases e <;> simp only [Expr.parts, List.mem_cons, List.not_mem_nil, or_false] at hpart
    all_goals rcases hpart with rfl | rfl | rfl <;> trivial
  · cases hv'
  · simp only [Walk.enters, List.mem_cons, List.not_mem_nil, or_false] at hv'
    rcases hv' with rfl | rfl <;> exact ⟨.stay, trivial⟩
  · exact h.step_stmt hv'
  · cases hv'
  · obtain ⟨t, ht⟩ := h.accepted
    obtain ⟨t₁, hs, hss⟩ := stmts_cons_ok ht
    obtain ⟨r, hr⟩ := h.resolved
    obtain ⟨r₁, hr₁⟩ := hr.enters h.table h.accepted (Walk.first_mem_enters walk s ss site)
    obtain ⟨r₂, hr₂⟩ := hr.enters h.table h.accepted (Walk.rest_mem_enters walk s ss site)
    rw [walk_after hs] at hr₂
    have hafter := after_of_stmt hr₁ h.table hs
    -- At the top level the statements after this one lead from `t₁` to `T`.
    have hleads : site.typing.scopes.frames = [] → stmts site.context ss t₁ = .ok T := by
      intro hglobal
      have hT := h.leads hglobal
      rw [ht] at hT
      cases hT
      exact hss
    have hfirst : Checked T table ⟨.stmt s, site⟩ := by
      refine ⟨⟨t₁, hs⟩, ⟨r₁, hr₁⟩, h.table, h.within, fun hglobal t' ht' => ?_⟩
      rw [hs] at ht'
      cases ht'
      exact within_of_stmts hr₂ h.table (hleads hglobal)
    simp only [Walk.enters, List.mem_cons, List.not_mem_nil, or_false] at hv'
    rcases hv' with rfl | rfl
    · exact ⟨.stay, hfirst.leads⟩
    · rw [walk_after hs]
      refine ⟨.after hafter (hfirst.within_after hs), fun hglobal => hleads ?_⟩
      cases hafter with
      | plain => exact hglobal
      | val _ => exact (Scopes.frames_declare_eq_nil _ _ _).mp hglobal
      | funDecl _ => exact (Scopes.frames_declare_eq_nil _ _ _).mp hglobal
      | classDecl _ => exact (Scopes.frames_declare_eq_nil _ _ _).mp hglobal

theorem enters (h : Checked T table v) (hv' : v' ∈ walk.enters v) : Checked T table v' := by
  obtain ⟨hmoves, hleads⟩ := h.step hv'
  obtain ⟨r, hr⟩ := h.resolved
  exact ⟨accepts_enters h.accepted v' hv', hr.enters h.table h.accepted hv',
    hmoves.table_eq.trans h.table, hmoves.within h.within, hleads⟩

end Checked

variable {program : Program} {v : Visit Site}

/-- Wherever the checker comes to in a program that passes the checks. -/
theorem checked_of_visits (hwf : Stmt.AllWellFormed program)
    (hnodup : (Resolution.ids (Stmt.referencesAll program)).Nodup)
    (hresolve : resolve program = .ok table)
    (hcheck : stmts ⟨table, none, none⟩ program .initial = .ok T)
    (h : walk.Visits (start table program) v) : Checked T table v := by
  induction h with
  | refl =>
    have hr : Resolved table (start table program) _ :=
      ⟨Resolution.valid_of_visits hwf hnodup hresolve .refl, .initial,
        fun htop => absurd rfl htop⟩
    exact ⟨⟨T, hcheck⟩, ⟨_, hr⟩, rfl, within_of_stmts hr rfl hcheck, fun _ => hcheck⟩
  | tail _ hstep ih => exact ih.enters hstep

/-- The walk comes to the end of a list of statements, where everything is known. -/
theorem visits_end {ss : List Stmt} (site : Site)
    (h : stmts site.context ss site.typing = .ok T) :
    walk.Visits ⟨.stmts ss, site⟩ ⟨.stmts [], site.context, T⟩ := by
  induction ss generalizing site with
  | nil =>
    cases h
    exact .refl
  | cons s ss ih =>
    obtain ⟨t₁, hs, hss⟩ := stmts_cons_ok h
    have hrest := ih ⟨site.context, t₁⟩ hss
    rw [← walk_after hs] at hrest
    exact .head (Walk.rest_mem_enters walk s ss site) hrest

/-- What holds at the start and is kept by every move holds at every place. -/
theorem site_induction {P : Site → Prop} (hchecked : ∀ v, walk.Visits (start table program) v →
      Checked T table v) (hstart : P (start table program).place)
    (hmoves : ∀ site site', P site → Moves T site site' → P site')
    (h : walk.Visits (start table program) v) : P v.place := by
  induction h with
  | refl => exact hstart
  | tail hvisit hstep ih => exact hmoves _ _ ih ((hchecked _ hvisit).step hstep).1

end Typing

end ClassScript
