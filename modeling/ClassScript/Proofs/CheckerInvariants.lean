import ClassScript.Proofs.Containment

namespace ClassScript

/-!
# Invariants of the type checker

What the type checker knows changes in few ways, whatever program it is given and under whatever
table of distances, also if it fails later on: names are declared, frames are opened and closed, and
classes are added. A property of places that each of these changes keeps holds at every place that
the walk comes to.

* `Typing.Invariant`: what each change keeps;
* `Typing.Invariant.of_visits`: it holds at every place;
* `Typing.contained_of_visits`: so types are contained in every program, not only in accepted ones.
-/

namespace Typing

/-- The places that the walk goes to next: where it is, inside a block, after a statement, in the
    body of a function, or in the methods of a class. -/
theorem enters_cases {v v' : Visit Site} (h : v' ∈ walk.enters v) :
    v'.place = v.place ∨ v'.place = walk.block v.place ∨
      (∃ s, ⟨.stmt s, v.place⟩ ∈ walk.enters v ∧ v'.place = walk.after s v.place) ∨
      (∃ decl, v'.place = walk.function decl v.place) ∨
      ∃ name superclass decls, v.part = .stmt (.classDecl name superclass decls) := by
  obtain ⟨part, site⟩ := v
  rcases part with e | ⟨_ | ⟨e, es⟩⟩ | s | ⟨_ | ⟨s, ss⟩⟩
  · obtain ⟨part, -, rfl⟩ := List.mem_map.mp h
    exact .inl rfl
  · cases h
  · simp only [Walk.enters, List.mem_cons, List.not_mem_nil, or_false] at h
    rcases h with rfl | rfl <;> exact .inl rfl
  · cases s with
    | block body =>
      cases List.mem_singleton.mp h
      exact .inr (.inl rfl)
    | ifElse keyword e yes no =>
      simp only [Walk.enters, Walk.entersStmt, List.mem_cons, List.not_mem_nil, or_false] at h
      rcases h with rfl | rfl | rfl
      · exact .inl rfl
      · exact .inl rfl
      · exact .inr (.inr (.inl ⟨yes, by simp [Walk.enters, Walk.entersStmt], rfl⟩))
    | funDecl decl =>
      cases List.mem_singleton.mp h
      exact .inr (.inr (.inr (.inl ⟨decl, rfl⟩)))
    | classDecl name superclass decls =>
      exact .inr (.inr (.inr (.inr ⟨name, superclass, decls, rfl⟩)))
    | val name written initializer =>
      obtain ⟨e, -, rfl⟩ := List.mem_map.mp h
      exact .inl rfl
    | ret keyword value =>
      obtain ⟨e, -, rfl⟩ := List.mem_map.mp h
      exact .inl rfl
    | _ =>
      simp only [Walk.enters, Walk.entersStmt, List.mem_cons, List.not_mem_nil, or_false] at h
      rcases h with rfl | rfl <;> exact .inl rfl
  · cases h
  · simp only [Walk.enters, List.mem_cons, List.not_mem_nil, or_false] at h
    rcases h with rfl | rfl
    · exact .inl rfl
    · exact .inr (.inr (.inl ⟨s, Walk.first_mem_enters walk s ss site, rfl⟩))

/-- A property `P` of places and a property `Q` of the types of functions that every change of what
    the checker knows keeps, on the walk from `root`. -/
structure Invariant (root : Visit Site) (P : Site → Prop) (Q : Typing → Signature → Prop) :
    Prop where
  block : ∀ {site}, P site → P (walk.block site)
  val : ∀ {site name written initializer type},
    walk.Visits root ⟨.stmt (.val name written initializer), site⟩ → P site →
    declaredType site.context site.typing name written initializer = .ok type →
    P ⟨site.context, site.typing.declare name.text type⟩
  signature : ∀ {site decl s}, P site → signature site.context site.typing decl = .ok s →
    Q site.typing s
  /-- The type of a function stays what it is as classes are added. -/
  grows : ∀ {t t' s}, Q t s → t.names <:+ t'.names → Q t' s
  function : ∀ {site s} x, P site → Q site.typing s →
    P ⟨site.context, site.typing.declare x (.function s)⟩
  body : ∀ {site s} decl, P site → Q site.typing s → P (inBody decl s site)
  cls : ∀ {site : Site} {superclass : Option Reference} {super ss} name, P site →
    superclass.mapM (superclassId site.context site.typing) = .ok super →
    (∀ s ∈ ss, Q (site.typing.withClass name super .empty) s) →
    P ⟨site.context, site.typing.withClass name super (methodTypes ss)⟩ ∧
      P (insideClass (site.typing.classId name) super
        ⟨site.context, site.typing.withClass name super (methodTypes ss)⟩)
  /-- The frames are closed that were opened since, but classes stay. -/
  restore : ∀ {site site' : Site}, P site → P site' → site.typing.names <:+ site'.typing.names →
    P ⟨site.context, site.typing.scopes, site'.typing.classes⟩

namespace Invariant

variable {root : Visit Site} {P : Site → Prop} {Q : Typing → Signature → Prop}

/-! ### Statements -/

/-- A class that is added, with the types of its methods. -/
theorem ofClass (h : Invariant root P Q) {name : Name} {superclass : Option Reference}
    {super : Option ClassId} {decls : List FunctionDecl} {ss : List Signature} {site : Site}
    (hP : P site) (hsuper : superclass.mapM (superclassId site.context site.typing) = .ok super)
    (hss : signatures site.context (site.typing.withClass name super .empty) decls = .ok ss) :
    P ⟨site.context, site.typing.withClass name super (methodTypes ss)⟩ ∧
      P (insideClass (site.typing.classId name) super
        ⟨site.context, site.typing.withClass name super (methodTypes ss)⟩) ∧
      ∀ s ∈ ss, Q (insideClass (site.typing.classId name) super
        ⟨site.context, site.typing.withClass name super (methodTypes ss)⟩).typing s := by
  have hempty : P ⟨site.context, site.typing.withClass name super (methodTypes [])⟩ :=
    (h.cls name hP hsuper (List.forall_mem_nil _)).1
  have hQ : ∀ s ∈ ss, Q (site.typing.withClass name super .empty) s := by
    intro s hs
    obtain ⟨decl, hdecl⟩ := exists_signature_of_mem hss hs
    exact h.signature hempty hdecl
  obtain ⟨hclass, hinside⟩ := h.cls name hP hsuper hQ
  exact ⟨hclass, hinside, fun s hs => h.grows (hQ s hs) List.suffix_rfl⟩

/-- The walk comes to the methods of a class that it comes to. -/
theorem visits_methods {name : Name} {superclass : Option Reference} {super : Option ClassId}
    {decls : List FunctionDecl} {ss : List Signature} {site : Site}
    (hvisit : walk.Visits root ⟨.stmt (.classDecl name superclass decls), site⟩)
    (hsuper : superclass.mapM (superclassId site.context site.typing) = .ok super)
    (hss : signatures site.context (site.typing.withClass name super .empty) decls = .ok ss) :
    ∀ decl site', (decl, site') ∈ decls.zip
        (inMethods { site.context with current := some (site.typing.classId name) } decls ss
          (insideClass (site.typing.classId name) super
            ⟨site.context, site.typing.withClass name super (methodTypes ss)⟩).typing) →
      walk.Visits root ⟨.stmts decl.body, site'⟩ := by
  intro decl site' hmem
  refine .tail hvisit (List.mem_map.mpr ⟨(decl, site'), ?_, rfl⟩)
  rw [walk_methods hsuper hss]
  exact hmem

mutual

/-- A statement keeps the invariant, and the classes that are known. -/
theorem of_stmt (h : Invariant root P Q) : ∀ (s : Stmt) {site : Site} {t : Typing},
    walk.Visits root ⟨.stmt s, site⟩ → P site → Typing.stmt site.context s site.typing = .ok t →
    P ⟨site.context, t⟩ ∧ site.typing.names <:+ t.names
  | .expression _, _, _, _, hP, hs => by
    obtain ⟨-, rfl⟩ := stmt_expression_ok hs
    exact ⟨hP, List.suffix_rfl⟩
  | .val name _ _, _, _, hvisit, hP, hs => by
    obtain ⟨type, htype, rfl⟩ := stmt_val_ok hs
    exact ⟨h.val hvisit hP htype, List.suffix_rfl⟩
  | .block body, site, _, hvisit, hP, hs => by
    obtain ⟨inner, hinner, rfl⟩ := stmt_block_ok hs
    have hbody : walk.Visits root ⟨.stmts body, walk.block site⟩ :=
      .tail hvisit (by simp [Walk.enters, Walk.entersStmt])
    -- The names of the block go, and the classes stay.
    obtain ⟨hP', hnames⟩ := h.of_stmts body hbody (h.block hP) hinner
    exact ⟨h.restore hP hP' hnames, hnames⟩
  | .ifThen _ _ yes, site, _, hvisit, hP, hs =>
    have hyes : walk.Visits root ⟨.stmt yes, site⟩ :=
      .tail hvisit (by simp [Walk.enters, Walk.entersStmt])
    h.of_stmt yes hyes hP (stmt_ifThen_ok hs).2
  | .ifElse _ _ yes no, site, _, hvisit, hP, hs => by
    obtain ⟨-, t₁, hyes, hno⟩ := stmt_ifElse_ok hs
    have hvisitYes : walk.Visits root ⟨.stmt yes, site⟩ :=
      .tail hvisit (by simp [Walk.enters, Walk.entersStmt])
    have hvisitNo : walk.Visits root ⟨.stmt no, walk.after yes site⟩ :=
      .tail hvisit (by simp [Walk.enters, Walk.entersStmt])
    rw [walk_after hyes] at hvisitNo
    -- The second branch is checked with what is known after the first.
    obtain ⟨hP₁, hnames₁⟩ := h.of_stmt yes hvisitYes hP hyes
    obtain ⟨hP₂, hnames₂⟩ := h.of_stmt no hvisitNo hP₁ hno
    exact ⟨hP₂, hnames₁.trans hnames₂⟩
  | .whileLoop _ _ body, site, _, hvisit, hP, hs =>
    have hbody : walk.Visits root ⟨.stmt body, site⟩ :=
      .tail hvisit (by simp [Walk.enters, Walk.entersStmt])
    h.of_stmt body hbody hP (stmt_whileLoop_ok hs).2
  | .funDecl decl, site, _, hvisit, hP, hs => by
    obtain ⟨s, hsignature, hfunction⟩ := stmt_funDecl_ok hs
    have hQ := h.signature hP hsignature
    have hbody : walk.Visits root ⟨.stmts decl.body, walk.function decl site⟩ :=
      .tail hvisit (by simp [Walk.enters, Walk.entersStmt])
    rw [walk_function hsignature] at hbody
    have hdeclared := h.of_function decl hbody (h.function decl.name.text hP hQ)
      (h.grows hQ List.suffix_rfl) hfunction
    exact hdeclared
  | .ret _ _, _, _, _, hP, hs => by
    obtain ⟨-, -, -, -, -, rfl⟩ := stmt_ret_ok hs
    exact ⟨hP, List.suffix_rfl⟩
  | .classDecl name superclass decls, site, _, hvisit, hP, hs => by
    obtain ⟨super, ss, inner, hsuper, hss, hinner, rfl⟩ := stmt_classDecl_ok hs
    obtain ⟨hclass, hinside, hQ⟩ := h.ofClass hP hsuper hss
    obtain ⟨hinner, hnames⟩ :=
      h.of_methods decls (visits_methods hvisit hsuper hss) hinside hQ hinner
    exact ⟨h.restore hclass hinner hnames, (List.suffix_cons _ _).trans hnames⟩

theorem of_stmts (h : Invariant root P Q) : ∀ (ss : List Stmt) {site : Site} {t : Typing},
    walk.Visits root ⟨.stmts ss, site⟩ → P site → Typing.stmts site.context ss site.typing = .ok t →
    P ⟨site.context, t⟩ ∧ site.typing.names <:+ t.names
  | [], _, _, _, hP, hss => by
    cases hss
    exact ⟨hP, List.suffix_rfl⟩
  | s :: ss, site, _, hvisit, hP, hss => by
    obtain ⟨t₁, hs, hss⟩ := stmts_cons_ok hss
    have hrest : walk.Visits root ⟨.stmts ss, walk.after s site⟩ :=
      .tail hvisit (Walk.rest_mem_enters walk s ss site)
    rw [walk_after hs] at hrest
    obtain ⟨hP₁, hnames₁⟩ := h.of_stmt s (.tail hvisit (Walk.first_mem_enters walk s ss site)) hP hs
    obtain ⟨hP₂, hnames₂⟩ := h.of_stmts ss hrest hP₁ hss
    exact ⟨hP₂, hnames₁.trans hnames₂⟩

theorem of_function (h : Invariant root P Q) : ∀ (decl : FunctionDecl) {s : Signature}
    {site : Site} {t : Typing},
    walk.Visits root ⟨.stmts decl.body, inBody decl s site⟩ → P site → Q site.typing s →
    Typing.function site.context decl s site.typing = .ok t →
    P ⟨site.context, t⟩ ∧ site.typing.names <:+ t.names
  | ⟨_, _, _, body⟩, _, _, _, hvisit, hP, hQ, hfunction => by
    rw [Typing.function] at hfunction
    obtain ⟨inner, hinner, hfunction⟩ := except_bind_eq_ok.mp hfunction
    cases hfunction
    obtain ⟨hP', hnames⟩ := h.of_stmts body hvisit (h.body _ hP hQ) hinner
    exact ⟨h.restore hP hP' hnames, hnames⟩

theorem of_methods (h : Invariant root P Q) : ∀ (decls : List FunctionDecl)
    {ss : List Signature} {site : Site} {t : Typing},
    (∀ decl site', (decl, site') ∈ decls.zip (inMethods site.context decls ss site.typing) →
      walk.Visits root ⟨.stmts decl.body, site'⟩) →
    P site → (∀ s ∈ ss, Q site.typing s) →
    Typing.methods site.context decls ss site.typing = .ok t →
    P ⟨site.context, t⟩ ∧ site.typing.names <:+ t.names
  | [], _, _, _, _, hP, _, hmethods => by
    cases hmethods
    exact ⟨hP, List.suffix_rfl⟩
  | _ :: _, [], _, _, _, hP, _, hmethods => by
    cases hmethods
    exact ⟨hP, List.suffix_rfl⟩
  | decl :: decls, s :: ss, site, _, hvisits, hP, hQ, hmethods => by
    rw [Typing.methods] at hmethods
    obtain ⟨t₁, hfirst, hrest⟩ := except_bind_eq_ok.mp hmethods
    obtain ⟨hQs, hQss⟩ := List.forall_mem_cons.mp hQ
    -- Each method is checked with what the ones before it leave behind.
    rw [inMethods, hfirst] at hvisits
    obtain ⟨hP₁, hnames₁⟩ := h.of_function decl (hvisits decl _ List.mem_cons_self) hP hQs hfirst
    have hvisits₁ : ∀ decl' site', (decl', site') ∈ decls.zip (inMethods site.context decls ss t₁) →
        walk.Visits root ⟨.stmts decl'.body, site'⟩ :=
      fun decl' site' hmem => hvisits decl' site' (List.mem_cons_of_mem _ hmem)
    have hrest' :=
      h.of_methods decls hvisits₁ hP₁ (fun s' hs' => h.grows (hQss s' hs') hnames₁) hrest
    exact ⟨hrest'.1, hnames₁.trans hrest'.2⟩

end

/-! ### Places -/

/-- If a statement fails the walk goes on with what is known before it. -/
theorem after (h : Invariant root P Q) {s : Stmt} {site : Site}
    (hvisit : walk.Visits root ⟨.stmt s, site⟩) (hP : P site) : P (walk.after s site) := by
  cases hs : Typing.stmt site.context s site.typing with
  | ok t =>
    rw [walk_after hs]
    exact (h.of_stmt s hvisit hP hs).1
  | error fault =>
    simp only [walk, hs]
    exact hP

theorem inFunction (h : Invariant root P Q) {decl : FunctionDecl} {site : Site} (hP : P site) :
    P (walk.function decl site) := by
  cases hs : Typing.signature site.context site.typing decl with
  | ok s =>
    rw [walk_function hs]
    have hQ := h.signature hP hs
    exact h.body decl (h.function decl.name.text hP hQ) (h.grows hQ List.suffix_rfl)
  | error fault =>
    simp only [walk, hs]
    exact hP

theorem inMethods (h : Invariant root P Q) {decls : List FunctionDecl} {ss : List Signature}
    {site : Site}
    (hvisits : ∀ decl site',
      (decl, site') ∈ decls.zip (Typing.inMethods site.context decls ss site.typing) →
      walk.Visits root ⟨.stmts decl.body, site'⟩)
    (hP : P site) (hQ : ∀ s ∈ ss, Q site.typing s) {decl : FunctionDecl} {site' : Site}
    (hmem : (decl, site') ∈ decls.zip (Typing.inMethods site.context decls ss site.typing)) :
    P site' := by
  induction decls generalizing ss site with
  | nil => cases hmem
  | cons first decls ih =>
    cases ss with
    | nil => cases hmem
    | cons s ss =>
      obtain ⟨hQs, hQss⟩ := List.forall_mem_cons.mp hQ
      rw [Typing.inMethods] at hvisits hmem
      rcases List.mem_cons.mp hmem with heq | hmem
      · cases heq
        exact h.body decl hP hQs
      · -- The methods after one that fails are not come to.
        cases hfirst : Typing.function site.context first s site.typing with
        | error fault =>
          rw [hfirst] at hmem
          exact absurd (List.of_mem_zip hmem).2 List.not_mem_nil
        | ok t₁ =>
          rw [hfirst] at hvisits hmem
          obtain ⟨hP₁, hnames₁⟩ :=
            h.of_function first (hvisits first _ List.mem_cons_self) hP hQs hfirst
          have hvisits₁ : ∀ decl' site₁,
              (decl', site₁) ∈ decls.zip (Typing.inMethods site.context decls ss t₁) →
              walk.Visits root ⟨.stmts decl'.body, site₁⟩ :=
            fun decl' site₁ hmem₁ => hvisits decl' site₁ (List.mem_cons_of_mem _ hmem₁)
          exact ih hvisits₁ hP₁ (fun s' hs' => h.grows (hQss s' hs') hnames₁) hmem

theorem inClass (h : Invariant root P Q) {name : Name} {superclass : Option Reference}
    {decls : List FunctionDecl} {site : Site}
    (hvisit : walk.Visits root ⟨.stmt (.classDecl name superclass decls), site⟩) (hP : P site) :
    ∀ v ∈ walk.entersStmt (.classDecl name superclass decls) site, P v.place := by
  intro v hv
  obtain ⟨⟨decl, site'⟩, hmem, rfl⟩ := List.mem_map.mp hv
  cases hclass : Typing.inClass name superclass decls site with
  | error fault =>
    simp only [walk, hclass] at hmem
    exact absurd (List.of_mem_zip hmem).2 List.not_mem_nil
  | ok sites =>
    obtain ⟨super, hsuper, hclass⟩ := except_bind_eq_ok.mp hclass
    obtain ⟨ss, hss, -⟩ := except_bind_eq_ok.mp hclass
    obtain ⟨-, hinside, hQ⟩ := h.ofClass hP hsuper hss
    rw [walk_methods hsuper hss] at hmem
    exact h.inMethods (visits_methods hvisit hsuper hss) hinside hQ hmem

theorem enters (h : Invariant root P Q) {v v' : Visit Site} (hvisit : walk.Visits root v)
    (hP : P v.place) (hv' : v' ∈ walk.enters v) : P v'.place := by
  rcases enters_cases hv' with heq | heq | ⟨s, hs, heq⟩ | ⟨decl, heq⟩ | ⟨name, super, decls, heq⟩
  · rw [heq]
    exact hP
  · rw [heq]
    exact h.block hP
  · rw [heq]
    exact h.after (.tail hvisit hs) hP
  · rw [heq]
    exact h.inFunction hP
  · obtain ⟨part, site⟩ := v
    cases heq
    exact h.inClass hvisit hP v' hv'

/-- **What every change keeps holds at every place.** -/
theorem of_visits (h : Invariant root P Q) (hroot : P root.place) {v : Visit Site}
    (hvisit : walk.Visits root v) : P v.place := by
  induction hvisit with
  | refl => exact hroot
  | tail hbefore hstep ih => exact h.enters hbefore ih hstep

end Invariant

/-! ### Types inside and outside of classes -/

/-- In every program, under every table, types are contained wherever the checker comes to. -/
theorem Contained.invariant (root : Visit Site) :
    Invariant root Contained fun t s =>
      s.Formed t.names ∧ ∀ type ∈ s.params, type.Written t.names where
  block h := ⟨h.scopes.openFrame, h.methods, h.ordered⟩
  val _ h htype := h.declare (admitted_of_declaredType h htype)
  signature h hs := h.signature hs
  grows h hnames := ⟨h.1.mono hnames, fun type htype => (h.2 type htype).mono hnames⟩
  function _ h hs := h.declare (StaticType.admitted_function hs.1)
  body _ h hs := h.inBody hs.2
  cls := by
    intro site superclass super ss name h hsuper hss
    have hclass : Contained ⟨site.context, site.typing.withClass name super (methodTypes ss)⟩ :=
      h.withMethods hsuper fun s hs => (hss s hs).1
    exact ⟨hclass, hclass.insideClass (classId_known site.typing name) (h.superclass_known hsuper)⟩
  restore h h' hnames :=
    ⟨h.scopes.imp fun _ _ htype => htype.mono hnames, h'.methods, h'.ordered⟩

theorem contained_of_visits {table : Distances} {program : Program} {v : Visit Site}
    (hvisit : walk.Visits (start table program) v) : Contained v.place :=
  (Contained.invariant _).of_visits (.initial table) hvisit

end Typing

end ClassScript
