import ClassScript.Proofs.Computation
import ClassScript.Proofs.Syntax
import ClassScript.Resolution

namespace ClassScript

/-!
# Well-scoped programs

What resolution accepts, said for each part of a program on its own: under given scopes every use of
a name is bound by a frame that is ready for it, at the distance that a given table records, and
every declared name is new in its frame.

* `Resolution.Bound`: a use of a name has a binding at the recorded distance;
* `Resolution.ScopedExpr`, `Resolution.ScopedStmt`: the parts of a program;
* `Resolution.Walks`: a step of the walk only records the uses that it passes;
* `scoped_of_resolve`: programs that are resolved are well scoped under their table.
-/

/-! ### Bindings and scopes -/

/-- The later of two bindings of one name counts. -/
theorem Bindings.insert_insert {α : Type} (b : Bindings α) (x : String) (v w : α) :
    (b.insert x v).insert x w = b.insert x w := by
  have hput : ∀ entries : List (String × α), put x w (put x v entries) = put x w entries := by
    intro entries
    induction entries with
    | nil => simp [put]
    | cons entry rest ih =>
      obtain ⟨key, old⟩ := entry
      by_cases hk : key = x
      · simp [put, hk]
      · simp [put, hk, ih]
  unfold insert
  rw [hput]

namespace Scopes

variable {α : Type}

theorem declare_declare (s : Scopes α) (x : String) (v w : α) :
    (s.declare x v).declare x w = s.declare x w := by
  obtain ⟨globals, frames⟩ := s
  cases frames with
  | nil => simp [declare, declareGlobal, Bindings.insert_insert]
  | cons frame outer => simp [declare, Bindings.insert_insert]

theorem declaredHere_declare (s : Scopes α) (x y : String) (v : α) :
    (s.declare x v).declaredHere y = (decide (x = y) || s.declaredHere y) := by
  obtain ⟨globals, frames⟩ := s
  cases frames with
  | nil =>
    by_cases hxy : x = y <;>
      simp [declare, declareGlobal, declaredHere, current, Bindings.contains, hxy]
  | cons frame outer =>
    by_cases hxy : x = y <;> simp [declare, declaredHere, current, Bindings.contains, hxy]

theorem find?_declare_ne {s : Scopes α} {x y : String} (v : α) (hxy : x ≠ y) :
    (s.declare x v).find? y = s.find? y := by
  obtain ⟨globals, frames⟩ := s
  have hframe : ∀ b : Bindings α, (b.insert x v).contains y = b.contains y := by
    intro b
    simp [Bindings.contains, hxy]
  cases frames with
  | nil =>
    show find? ⟨globals.insert x v, []⟩ y = _
    rw [find?, hframe]
    rfl
  | cons frame outer =>
    show find? ⟨globals, frame.insert x v :: outer⟩ y = _
    rw [find?, List.findIdx?_cons, hframe, find?, List.findIdx?_cons]

theorem get?_declare_ne {s : Scopes α} {x y : String} (v : α) (hxy : x ≠ y) (place : Place) :
    (s.declare x v).get? place y = s.get? place y := by
  obtain ⟨globals, frames⟩ := s
  cases frames with
  | nil => cases place <;> simp [declare, declareGlobal, get?, frame?, hxy]
  | cons frame outer =>
    cases place with
    | global => rfl
    | frame d => cases d <;> simp [declare, get?, frame?, hxy]

/-- A name is found in the innermost frame that binds it. -/
theorem find?_eq_frame_iff {s : Scopes α} {x : String} {d : Nat} :
    s.find? x = some (.frame d) ↔ ∃ b, s.frames[d]? = some b ∧ b.contains x = true ∧
      ∀ e < d, ∀ c, s.frames[e]? = some c → c.contains x = false := by
  unfold find?
  cases hd : s.frames.findIdx? fun frame => frame.contains x with
  | none =>
    simp only [List.findIdx?_eq_none_iff] at hd
    constructor
    · intro h
      simp only at h
      split at h <;> cases h
    · rintro ⟨b, hb, hx, -⟩
      have := hd b (List.mem_of_getElem? hb)
      rw [hx] at this
      cases this
  | some d' =>
    obtain ⟨hlt, hx, hbefore⟩ := List.findIdx?_eq_some_iff_getElem.mp hd
    constructor
    · intro h
      cases h
      refine ⟨s.frames[d], List.getElem?_eq_getElem hlt, hx, ?_⟩
      intro e he c hc
      obtain ⟨hlt', rfl⟩ := List.getElem?_eq_some_iff.mp hc
      simpa using hbefore e he
    · rintro ⟨b, hb, hbx, hfirst⟩
      obtain ⟨hlt', rfl⟩ := List.getElem?_eq_some_iff.mp hb
      rcases Nat.lt_trichotomy d d' with h | h | h
      · have := hbefore d h
        rw [hbx] at this
        exact absurd rfl this
      · rw [h]
      · have := hfirst d' h _ (List.getElem?_eq_getElem hlt)
        rw [hx] at this
        cases this

/-- A name is found among the globals if no open frame binds it. -/
theorem find?_eq_global_iff {s : Scopes α} {x : String} :
    s.find? x = some .global ↔
      (∀ b ∈ s.frames, b.contains x = false) ∧ s.globals.contains x = true := by
  unfold find?
  cases hd : s.frames.findIdx? fun frame => frame.contains x with
  | none =>
    simp only [List.findIdx?_eq_none_iff] at hd
    constructor
    · intro h
      simp only at h
      split at h
      · next hx => exact ⟨hd, hx⟩
      · cases h
    · rintro ⟨-, hx⟩
      simp [hx]
  | some d =>
    obtain ⟨hlt, hx, -⟩ := List.findIdx?_eq_some_iff_getElem.mp hd
    constructor
    · intro h
      cases h
    · rintro ⟨hnone, -⟩
      have := hnone _ (List.getElem_mem hlt)
      rw [hx] at this
      cases this

/-- What is found has a binding. -/
theorem isSome_get?_of_find? {s : Scopes α} {x : String} {place : Place}
    (h : s.find? x = some place) : (s.get? place x).isSome = true := by
  cases place with
  | frame d =>
    obtain ⟨b, hb, hx, -⟩ := find?_eq_frame_iff.mp h
    simpa [get?, frame?, hb, Bindings.contains] using hx
  | global => exact (find?_eq_global_iff.mp h).2

end Scopes

/-- How many frames up a place is, as it is recorded: for the global frame nothing is. -/
def Place.distance? : Place → Option Nat
  | .frame distance => some distance
  | .global => none

/-- The scopes after a statement. -/
def Stmt.after (s : Stmt) (scopes : Scopes Readiness) : Scopes Readiness :=
  match s.declared? with
  | some name => scopes.declare name .defined
  | none => scopes

theorem Stmt.after_eq_self {s : Stmt} (h : s.declared? = none) (scopes : Scopes Readiness) :
    s.after scopes = scopes := by
  rw [after, h]

/-- The scopes inside a function: its parameters in a frame of their own. -/
def parameterScopes (params : List Param) (scopes : Scopes Readiness) : Scopes Readiness :=
  params.foldl (fun scopes p => scopes.declare p.name.text .defined) scopes.openFrame

theorem parameterScopes_eq (params : List Param) (scopes : Scopes Readiness) :
    parameterScopes params scopes =
      { scopes with
        frames := .ofList (params.map fun p => (p.name.text, .defined)) :: scopes.frames } := by
  have hfold : ∀ (params : List Param) (b : Bindings Readiness),
      params.foldl (fun (s : Scopes Readiness) p => s.declare p.name.text .defined)
          ⟨scopes.globals, b :: scopes.frames⟩
        = ⟨scopes.globals, (params.map fun p => (p.name.text, .defined)).foldl
            (fun b pair => b.insert pair.1 pair.2) b :: scopes.frames⟩ := by
    intro params
    induction params with
    | nil => exact fun _ => rfl
    | cons p ps ih => exact fun b => ih (b.insert p.name.text .defined)
  unfold parameterScopes Scopes.openFrame Bindings.ofList
  rw [hfold]

namespace Resolution

/-! ### The judgement -/

/-- A use of a name is bound, ready for use, at the distance that the table records. -/
def Bound (table : Distances) (scopes : Scopes Readiness) (ref : Reference) : Prop :=
  ∃ place, scopes.find? ref.name.text = some place ∧
    scopes.get? place ref.name.text = some .defined ∧ table.get? ref.id = place.distance?

theorem Bound.of_declare {table : Distances} {scopes : Scopes Readiness} {ref : Reference}
    {x : String} {readiness : Readiness} (hx : ref.name.text ≠ x)
    (h : Bound table (scopes.declare x readiness) ref) : Bound table scopes ref := by
  obtain ⟨place, hfind, hready, hrecorded⟩ := h
  rw [Scopes.find?_declare_ne readiness (Ne.symm hx)] at hfind
  rw [Scopes.get?_declare_ne readiness (Ne.symm hx)] at hready
  exact ⟨place, hfind, hready, hrecorded⟩

/-- The class that a type names is bound. -/
def ScopedType (table : Distances) (scopes : Scopes Readiness) (type : TypeName) : Prop :=
  ∀ ref ∈ type.references, Bound table scopes ref

/-- The classes that the types of a function name are bound. -/
def ScopedSignature (table : Distances) (scopes : Scopes Readiness) (decl : FunctionDecl) : Prop :=
  (∀ p ∈ decl.params, ScopedType table scopes p.type) ∧
    ∀ type ∈ decl.returns, ScopedType table scopes type

mutual

/-- The uses of names in an expression are bound. -/
def ScopedExpr (table : Distances) (around : Surroundings) (scopes : Scopes Readiness) :
    Expr → Prop
  | .literal _ => True
  | .grouping inner => ScopedExpr table around scopes inner
  | .unary _ operand => ScopedExpr table around scopes operand
  | .binary left _ right =>
    ScopedExpr table around scopes left ∧ ScopedExpr table around scopes right
  | .logical left _ right =>
    ScopedExpr table around scopes left ∧ ScopedExpr table around scopes right
  | .ternary condition _ yes no =>
    ScopedExpr table around scopes condition ∧ ScopedExpr table around scopes yes ∧
      ScopedExpr table around scopes no
  | .var ref => Bound table scopes ref
  | .assign target value => ScopedExpr table around scopes value ∧ Bound table scopes target
  | .call callee _ arguments =>
    ScopedExpr table around scopes callee ∧ ScopedExprs table around scopes arguments
  | .get object _ => ScopedExpr table around scopes object
  | .set object _ value =>
    ScopedExpr table around scopes object ∧ ScopedExpr table around scopes value
  | .this ref => around.enclosure ≠ .outside ∧ Bound table scopes ref
  | .super keyword _ => around.enclosure = .inSubclass ∧ Bound table scopes keyword

/-- The uses of names in expressions are bound. -/
def ScopedExprs (table : Distances) (around : Surroundings) (scopes : Scopes Readiness) :
    List Expr → Prop
  | [] => True
  | e :: es => ScopedExpr table around scopes e ∧ ScopedExprs table around scopes es

end

/-- The kind of class that a class declaration opens. -/
def enclosureOf (superclass : Option Reference) : Enclosure :=
  if superclass.isSome then .inSubclass else .inClass

mutual

/-- A statement is well scoped. -/
def ScopedStmt (table : Distances) (around : Surroundings) : Stmt → Scopes Readiness → Prop
  | .expression e, scopes => ScopedExpr table around scopes e
  | .val name type initializer, scopes =>
    (∀ t ∈ type, ScopedType table scopes t) ∧ scopes.declaredHere name.text = false ∧
      ∀ e ∈ initializer, ScopedExpr table around (scopes.declare name.text .declared) e
  | .block body, scopes => ScopedStmts table around body scopes.openFrame
  | .ifThen _ condition yes, scopes =>
    ScopedExpr table around scopes condition ∧ ScopedStmt table around yes scopes
  | .ifElse _ condition yes no, scopes =>
    ScopedExpr table around scopes condition ∧ ScopedStmt table around yes scopes ∧
      ScopedStmt table around no scopes
  | .whileLoop _ condition body, scopes =>
    ScopedExpr table around scopes condition ∧ ScopedStmt table around body scopes
  | .funDecl decl, scopes =>
    ScopedSignature table scopes decl ∧ scopes.declaredHere decl.name.text = false ∧
      ScopedFunction table { around with body := .function } decl
        (scopes.declare decl.name.text .defined)
  | .ret _ value, scopes =>
    around.body ≠ .topLevel ∧ (value.isSome → around.body ≠ .initializer) ∧
      ∀ e ∈ value, ScopedExpr table around scopes e
  | .classDecl name superclass decls, scopes =>
    scopes.isGlobal = true ∧ scopes.declaredHere name.text = false ∧
      (∀ ref ∈ superclass, ref.name.text ≠ name.text ∧
        Bound table (scopes.declare name.text .defined) ref) ∧
      (∀ decl ∈ decls, ScopedSignature table (scopes.declare name.text .defined) decl) ∧
      ScopedMethods table { around with enclosure := enclosureOf superclass } decls
        (classScopes (scopes.declare name.text .defined) superclass.isSome)

/-- Statements in order are well scoped. -/
def ScopedStmts (table : Distances) (around : Surroundings) :
    List Stmt → Scopes Readiness → Prop
  | [], _ => True
  | s :: ss, scopes =>
    ScopedStmt table around s scopes ∧ ScopedStmts table around ss (s.after scopes)

/-- The parameters of a function are distinct, and its body is well scoped. -/
def ScopedFunction (table : Distances) (around : Surroundings) :
    FunctionDecl → Scopes Readiness → Prop
  | ⟨_, params, _, body⟩, scopes =>
    (params.map fun p => p.name.text).Nodup ∧
      ScopedStmts table around body (parameterScopes params scopes)

/-- The methods of a class are well scoped. -/
def ScopedMethods (table : Distances) (around : Surroundings) :
    List FunctionDecl → Scopes Readiness → Prop
  | [], _ => True
  | decl :: decls, scopes =>
    ScopedFunction table { around with body := methodBody decl.name } decl scopes ∧
      ScopedMethods table around decls scopes

end

/-! ### Steps of the walk -/

/-- The identities of uses. -/
abbrev ids (refs : List Reference) : List Nat := refs.map Reference.id

/-- A step of the walk passes the uses `refs`: it changes the table for no other use, and under any
    table that agrees with what it records, `good` holds. -/
structure Walks (step : Distances → Result Distances) (refs : List Reference)
    (good : Distances → Prop) : Prop where
  keeps : ∀ {t t' id}, step t = .ok t' → id ∉ ids refs → t'.get? id = t.get? id
  good : ∀ {t t' table}, step t = .ok t' → (ids refs).Nodup → (∀ id ∈ ids refs, t.get? id = none) →
    (∀ id ∈ ids refs, table.get? id = t'.get? id) → good table

namespace Walks

variable {f g : Distances → Result Distances} {r₁ r₂ : List Reference} {P Q : Distances → Prop}

/-- Doing nothing records nothing. -/
theorem nothing : Walks .ok [] fun _ => True :=
  ⟨fun h _ => by cases h; rfl, fun _ _ _ _ => trivial⟩

theorem never (h : ∀ t t', f t ≠ .ok t') : Walks f r₁ P :=
  ⟨fun hf => absurd hf (h _ _), fun hf => absurd hf (h _ _)⟩

/-- What every step that succeeds has tested may be assumed of it. -/
theorem assuming {p : Prop} (htested : ∀ t t', f t = .ok t' → p) (h : p → Walks f r₁ P) :
    Walks f r₁ P := by
  by_cases hp : p
  · exact h hp
  · exact never fun t t' ht => hp (htested t t' ht)

/-- A weaker statement about the table. -/
theorem imp (h : Walks f r₁ P) (hPQ : ∀ table, P table → Q table) : Walks f r₁ Q :=
  ⟨h.keeps, fun hf hn hfresh htable => hPQ _ (h.good hf hn hfresh htable)⟩

/-- A step that does the same as another where it succeeds. -/
theorem congr (h : Walks g r₁ P) (hfg : ∀ t t', f t = .ok t' → g t = .ok t') : Walks f r₁ P :=
  ⟨fun hf => h.keeps (hfg _ _ hf), fun hf => h.good (hfg _ _ hf)⟩

theorem perm (h : Walks f r₁ P) (hr : r₁.Perm r₂) : Walks f r₂ P := by
  have hids : (ids r₁).Perm (ids r₂) := hr.map _
  constructor
  · intro t t' id hf hid
    exact h.keeps hf fun hmem => hid (hids.mem_iff.mp hmem)
  · intro t t' table hf hn hfresh htable
    exact h.good hf (hids.nodup_iff.mpr hn) (fun id hid => hfresh id (hids.mem_iff.mp hid))
      fun id hid => htable id (hids.mem_iff.mp hid)

/-- Two steps one after the other. -/
theorem seq (hf : Walks f r₁ P) (hg : Walks g r₂ Q) :
    Walks (fun t => f t >>= g) (r₁ ++ r₂) fun table => P table ∧ Q table := by
  constructor
  · intro t t'' id h hid
    rw [ids, List.map_append, List.mem_append, not_or] at hid
    obtain ⟨t', ht', ht''⟩ := except_bind_eq_ok.mp h
    rw [hg.keeps ht'' hid.2, hf.keeps ht' hid.1]
  · intro t t'' table h hn hfresh htable
    obtain ⟨t', ht', ht''⟩ := except_bind_eq_ok.mp h
    rw [ids, List.map_append, List.nodup_append] at hn
    obtain ⟨hn₁, hn₂, hdisjoint⟩ := hn
    have hmem₁ : ∀ id ∈ ids r₁, id ∈ ids (r₁ ++ r₂) := fun id hid => by simp [hid]
    have hmem₂ : ∀ id ∈ ids r₂, id ∈ ids (r₁ ++ r₂) := fun id hid => by simp [hid]
    constructor
    · refine hf.good ht' hn₁ (fun id hid => hfresh id (hmem₁ id hid)) ?_
      intro id hid
      rw [htable id (hmem₁ id hid), hg.keeps ht'' fun h => hdisjoint id hid id h rfl]
    · refine hg.good ht'' hn₂ ?_ fun id hid => htable id (hmem₂ id hid)
      intro id hid
      rw [hf.keeps ht' fun h => hdisjoint id h id hid rfl]
      exact hfresh id (hmem₂ id hid)

end Walks

theorem walks_reference (scopes : Scopes Readiness) (ref : Reference) :
    Walks (reference scopes ref) [ref] fun table => Bound table scopes ref := by
  constructor
  · -- Nothing is recorded but this use.
    intro t t' id h hid
    unfold reference at h
    split at h
    · cases h
    · split at h
      · cases h
      · split at h
        · cases h
          have hne : ¬ ref.id = id := fun heq => hid (by simp [heq])
          rw [Distances.get?_note, if_neg hne]
        · cases h
          rfl
  · intro t t' table h _ hfresh htable
    unfold reference at h
    split at h
    · cases h
    · next place hplace =>
      split at h
      · cases h
      · next hready =>
        have hsome := Scopes.isSome_get?_of_find? hplace
        have hdefined : scopes.get? place ref.name.text = some .defined := by
          cases hget : scopes.get? place ref.name.text with
          | none =>
            rw [hget] at hsome
            cases hsome
          | some readiness =>
            cases readiness with
            | declared => exact absurd hget hready
            | defined => rfl
        refine ⟨place, hplace, hdefined, ?_⟩
        -- A use of a global is not recorded, and no other use has its number.
        have hrecord := htable ref.id (by simp)
        split at h
        · cases h
          rw [hrecord, Distances.get?_note, if_pos rfl]
          rfl
        · cases h
          rw [hrecord, hfresh ref.id (by simp)]
          rfl

/-- A type records the class that it names. -/
theorem walks_typeName (scopes : Scopes Readiness) (type : TypeName) :
    Walks (typeName scopes type) type.references fun table => ScopedType table scopes type := by
  cases type with
  | named ref =>
    refine (walks_reference scopes ref).imp ?_
    intro table h r hr
    rw [List.mem_singleton.mp hr]
    exact h
  | _ => exact Walks.nothing.imp fun _ _ _ hr => nomatch hr

theorem walks_params (scopes : Scopes Readiness) (params : List Param) :
    Walks (fun t => params.foldlM (fun t p => typeName scopes p.type t) t)
      (params.flatMap fun p => p.type.references)
      fun table => ∀ p ∈ params, ScopedType table scopes p.type := by
  induction params with
  | nil => exact Walks.nothing.imp fun _ _ _ hp => nomatch hp
  | cons p ps ih =>
    refine (((walks_typeName scopes p.type).seq ih).congr ?_).imp ?_
    · intro t t' h
      simpa only [List.foldlM_cons] using h
    · intro table h
      exact List.forall_mem_cons.mpr h

/-- A step for what may be missing. -/
def optionally {α : Type} (f : α → Distances → Result Distances) :
    Option α → Distances → Result Distances
  | some a, t => f a t
  | none, t => .ok t

theorem walks_optionally {α : Type} {f : α → Distances → Result Distances}
    {r : α → List Reference} {P : α → Distances → Prop} (h : ∀ a, Walks (f a) (r a) (P a))
    (o : Option α) : Walks (optionally f o) (o.elim [] r) fun table => ∀ a ∈ o, P a table := by
  cases o with
  | none => exact Walks.nothing.imp fun _ _ _ ha => nomatch ha
  | some a =>
    refine (h a).imp ?_
    rintro table ha b ⟨rfl⟩
    exact ha

theorem walks_signature (scopes : Scopes Readiness) (decl : FunctionDecl) :
    Walks (signature scopes decl) decl.typeReferences
      fun table => ScopedSignature table scopes decl := by
  refine ((walks_params scopes decl.params).seq
    (walks_optionally (walks_typeName scopes) decl.returns)).congr ?_
  intro t t' h
  unfold signature at h
  cases hr : decl.returns <;> rw [hr] at h <;> exact h

mutual

/-- An expression records its uses. -/
theorem walks_expr (around : Surroundings) (scopes : Scopes Readiness) :
    ∀ e : Expr, Walks (expr around scopes e) e.references
      fun table => ScopedExpr table around scopes e
  | .literal _ => Walks.nothing
  | .grouping inner => walks_expr around scopes inner
  | .unary _ operand => walks_expr around scopes operand
  | .binary left _ right => (walks_expr around scopes left).seq (walks_expr around scopes right)
  | .logical left _ right => (walks_expr around scopes left).seq (walks_expr around scopes right)
  | .ternary condition _ yes no =>
    (walks_expr around scopes condition).seq
      ((walks_expr around scopes yes).seq (walks_expr around scopes no))
  | .var ref => walks_reference scopes ref
  | .assign target value =>
    -- The value is walked before the target.
    ((walks_expr around scopes value).seq (walks_reference scopes target)).perm
      List.perm_append_comm
  | .call callee _ arguments =>
    (walks_expr around scopes callee).seq (walks_exprs around scopes arguments)
  | .get object _ => walks_expr around scopes object
  | .set object _ value => (walks_expr around scopes object).seq (walks_expr around scopes value)
  | .this ref => by
    cases h : around.enclosure with
    | outside =>
      refine Walks.never ?_
      intro t t' ht
      simp only [expr, h] at ht
      cases ht
    | inClass | inSubclass =>
      refine ((walks_reference scopes ref).congr ?_).imp fun table hb => ⟨by simp [h], hb⟩
      intro t t' ht
      simpa only [expr, h] using ht
  | .super keyword _ => by
    cases h : around.enclosure with
    | outside | inClass =>
      refine Walks.never ?_
      intro t t' ht
      simp only [expr, h] at ht
      cases ht
    | inSubclass =>
      refine ((walks_reference scopes keyword).congr ?_).imp fun table hb => ⟨h, hb⟩
      intro t t' ht
      simpa only [expr, h] using ht

theorem walks_exprs (around : Surroundings) (scopes : Scopes Readiness) :
    ∀ es : List Expr, Walks (exprs around scopes es) (Expr.referencesAll es)
      fun table => ScopedExprs table around scopes es
  | [] => Walks.nothing
  | e :: es => (walks_expr around scopes e).seq (walks_exprs around scopes es)

end

/-! ### Statements of the walk -/

theorem declare_eq_ok {scopes scopes' : Scopes Readiness} {name : Name} :
    declare scopes name = .ok scopes' ↔
      scopes.declaredHere name.text = false ∧ scopes' = scopes.declare name.text .declared := by
  unfold declare
  cases h : scopes.declaredHere name.text <;> simp [eq_comm]

theorem introduce_eq_ok {scopes scopes' : Scopes Readiness} {name : Name} :
    introduce scopes name = .ok scopes' ↔
      scopes.declaredHere name.text = false ∧ scopes' = scopes.declare name.text .defined := by
  unfold introduce
  rw [except_bind_eq_ok]
  constructor
  · rintro ⟨s, hs, h⟩
    obtain ⟨hnew, rfl⟩ := declare_eq_ok.mp hs
    cases h
    exact ⟨hnew, Scopes.declare_declare scopes name.text .declared .defined⟩
  · rintro ⟨hnew, rfl⟩
    refine ⟨_, declare_eq_ok.mpr ⟨hnew, rfl⟩, ?_⟩
    rw [define, Scopes.declare_declare]
    rfl

/-- Introducing names one after the other binds all of them, and they are distinct. -/
theorem introduceAll_ok {params : List Param} {scopes scopes' : Scopes Readiness}
    (h : params.foldlM (fun scopes p => introduce scopes p.name) scopes = .ok scopes') :
    scopes' = params.foldl (fun scopes p => scopes.declare p.name.text .defined) scopes ∧
      (params.map fun p => p.name.text).Nodup ∧
      ∀ p ∈ params, scopes.declaredHere p.name.text = false := by
  induction params generalizing scopes with
  | nil =>
    cases h
    exact ⟨rfl, List.nodup_nil, nofun⟩
  | cons p ps ih =>
    rw [List.foldlM_cons, except_bind_eq_ok] at h
    obtain ⟨s, hs, h⟩ := h
    obtain ⟨hnew, rfl⟩ := introduce_eq_ok.mp hs
    obtain ⟨hscopes, hnodup, hrest⟩ := ih h
    -- A later name is neither the first one nor one that was there before.
    have hlater : ∀ q ∈ ps,
        p.name.text ≠ q.name.text ∧ scopes.declaredHere q.name.text = false := by
      intro q hq
      have := hrest q hq
      rw [Scopes.declaredHere_declare, Bool.or_eq_false_iff, decide_eq_false_iff_not] at this
      exact this
    refine ⟨hscopes, ?_, ?_⟩
    · rw [List.map_cons, List.nodup_cons]
      refine ⟨?_, hnodup⟩
      intro hmem
      obtain ⟨q, hq, heq⟩ := List.mem_map.mp hmem
      exact (hlater q hq).1 heq.symm
    · exact List.forall_mem_cons.mpr ⟨hnew, fun q hq => (hlater q hq).2⟩

/-- A statement of the walk passes the uses `refs`, and the scopes after it are `after`. -/
structure Passes (step : Distances → Result Resolution) (after : Scopes Readiness)
    (refs : List Reference) (good : Distances → Prop) : Prop where
  scopes : ∀ {t r}, step t = .ok r → r.scopes = after
  walks : Walks (fun t => (step t).map Resolution.table) refs good

theorem map_table_eq_ok {x : Result Resolution} {t : Distances} :
    x.map Resolution.table = .ok t ↔ ∃ scopes, x = .ok ⟨scopes, t⟩ := by
  cases x with
  | error e => simp [Except.map]
  | ok r =>
    constructor
    · intro h
      cases h
      exact ⟨r.scopes, rfl⟩
    · rintro ⟨scopes, h⟩
      cases h
      rfl

/-- A step that does what a walk does, and after which the scopes are `after`. -/
theorem Passes.of_walks {step : Distances → Result Resolution} {after : Scopes Readiness}
    {refs : List Reference} {good : Distances → Prop} {f : Distances → Result Distances}
    (hf : Walks f refs good)
    (h : ∀ t r, step t = .ok r → r.scopes = after ∧ f t = .ok r.table) :
    Passes step after refs good := by
  refine ⟨fun hstep => (h _ _ hstep).1, hf.congr ?_⟩
  intro t t' ht
  obtain ⟨scopes, hstep⟩ := map_table_eq_ok.mp ht
  exact (h _ _ hstep).2

/-- What every step that succeeds has tested may be assumed of it. -/
theorem Passes.assuming {step : Distances → Result Resolution} {after : Scopes Readiness}
    {refs : List Reference} {good : Distances → Prop} {p : Prop}
    (htested : ∀ t r, step t = .ok r → p) (h : p → Passes step after refs good) :
    Passes step after refs good := by
  refine ⟨fun hstep => (h (htested _ _ hstep)).scopes hstep, ?_⟩
  refine Walks.assuming ?_ fun hp => (h hp).walks
  intro t t' ht
  obtain ⟨scopes, hstep⟩ := map_table_eq_ok.mp ht
  exact htested t _ hstep

theorem Passes.eq_ok {step : Distances → Result Resolution} {after : Scopes Readiness}
    {refs : List Reference} {good : Distances → Prop} (h : Passes step after refs good)
    {t : Distances} {r : Resolution} (hstep : step t = .ok r) :
    r = ⟨after, r.table⟩ ∧ (step t).map Resolution.table = .ok r.table := by
  constructor
  · rw [← h.scopes hstep]
  · rw [hstep]
    rfl

/-- The uses in methods, first those in their types and then those in their bodies. -/
theorem perm_referencesAll (decls : List FunctionDecl) :
    (decls.flatMap FunctionDecl.typeReferences ++
      decls.flatMap fun decl => Stmt.referencesAll decl.body).Perm
      (FunctionDecl.referencesAll decls) := by
  induction decls with
  | nil => exact .refl _
  | cons decl decls ih =>
    obtain ⟨name, params, returns, body⟩ := decl
    simp only [List.flatMap_cons, FunctionDecl.referencesAll, FunctionDecl.references,
      List.append_assoc]
    refine List.Perm.append_left _ ?_
    exact (List.perm_append_comm_assoc _ _ _).trans (ih.append_left _)

theorem walks_signatures (scopes : Scopes Readiness) (decls : List FunctionDecl) :
    Walks (fun t => decls.foldlM (fun t decl => signature scopes decl t) t)
      (decls.flatMap FunctionDecl.typeReferences)
      fun table => ∀ decl ∈ decls, ScopedSignature table scopes decl := by
  induction decls with
  | nil => exact Walks.nothing.imp fun _ _ _ hp => nomatch hp
  | cons decl decls ih =>
    refine (((walks_signature scopes decl).seq ih).congr ?_).imp ?_
    · intro t t' h
      simpa only [List.foldlM_cons] using h
    · intro table h
      exact List.forall_mem_cons.mpr h

theorem stmt_val_ok {around : Surroundings} {scopes : Scopes Readiness} {name : Name}
    {type : Option TypeName} {initializer : Option Expr} {t : Distances} {r : Resolution}
    (h : stmt around (.val name type initializer) ⟨scopes, t⟩ = .ok r) :
    ∃ t₁ t₂, optionally (typeName scopes) type t = .ok t₁ ∧
      scopes.declaredHere name.text = false ∧
      optionally (expr around (scopes.declare name.text .declared)) initializer t₁ = .ok t₂ ∧
      r = ⟨scopes.declare name.text .defined, t₂⟩ := by
  cases type <;> cases initializer
  all_goals
    obtain ⟨t₁, ht₁, h⟩ := except_bind_eq_ok.mp h
    obtain ⟨scopes', hscopes, h⟩ := except_bind_eq_ok.mp h
    obtain ⟨t₂, ht₂, hr⟩ := except_bind_eq_ok.mp h
    obtain ⟨hnew, rfl⟩ := declare_eq_ok.mp hscopes
    cases hr
    exact ⟨t₁, t₂, ht₁, hnew, ht₂, by rw [define, Scopes.declare_declare]⟩

theorem passes_val (around : Surroundings) (scopes : Scopes Readiness) (name : Name)
    (type : Option TypeName) (initializer : Option Expr) :
    Passes (fun t => stmt around (.val name type initializer) ⟨scopes, t⟩)
      (scopes.declare name.text .defined) (Stmt.references (.val name type initializer))
      fun table => ScopedStmt table around (.val name type initializer) scopes := by
  have hwalks := (walks_optionally (walks_typeName scopes) type).seq
    (walks_optionally (walks_expr around (scopes.declare name.text .declared)) initializer)
  refine Passes.assuming (p := scopes.declaredHere name.text = false) ?_ ?_
  · intro t r h
    obtain ⟨-, -, -, hnew, -⟩ := stmt_val_ok h
    exact hnew
  · intro hnew
    refine Passes.of_walks (hwalks.imp fun table h => ⟨h.1, hnew, h.2⟩) ?_
    intro t r h
    obtain ⟨t₁, t₂, ht₁, -, ht₂, rfl⟩ := stmt_val_ok h
    exact ⟨rfl, except_bind_eq_ok.mpr ⟨t₁, ht₁, ht₂⟩⟩

/-- The step for the superclass of the class `name`. -/
def superclassStep (scopes : Scopes Readiness) (name : Name) (ref : Reference) (t : Distances) :
    Result Distances :=
  if ref.name.text = name.text then .error ⟨.selfInheritance, ref.name.pos⟩
  else reference scopes ref t

theorem walks_superclass (scopes : Scopes Readiness) (name : Name) (ref : Reference) :
    Walks (superclassStep scopes name ref) [ref]
      fun table => ref.name.text ≠ name.text ∧ Bound table scopes ref := by
  by_cases h : ref.name.text = name.text
  · refine Walks.never ?_
    intro t t' ht
    rw [superclassStep, if_pos h] at ht
    cases ht
  · refine ((walks_reference scopes ref).congr ?_).imp fun table hb => ⟨h, hb⟩
    intro t t' ht
    rwa [superclassStep, if_neg h] at ht

theorem stmt_classDecl_ok {around : Surroundings} {scopes : Scopes Readiness} {name : Name}
    {superclass : Option Reference} {decls : List FunctionDecl} {t : Distances} {r : Resolution}
    (h : stmt around (.classDecl name superclass decls) ⟨scopes, t⟩ = .ok r) :
    scopes.isGlobal = true ∧ scopes.declaredHere name.text = false ∧ ∃ t₁ t₂ t₃,
      optionally (superclassStep (scopes.declare name.text .defined) name) superclass t = .ok t₁ ∧
      decls.foldlM (fun t decl => signature (scopes.declare name.text .defined) decl t) t₁
        = .ok t₂ ∧
      methods { around with enclosure := enclosureOf superclass } decls
        (classScopes (scopes.declare name.text .defined) superclass.isSome) t₂ = .ok t₃ ∧
      r = ⟨scopes.declare name.text .defined, t₃⟩ := by
  simp only [stmt] at h
  cases hglobal : scopes.isGlobal with
  | false =>
    rw [hglobal] at h
    cases h
  | true =>
    refine ⟨rfl, ?_⟩
    simp only [hglobal, Bool.not_true, Bool.false_eq_true, if_false] at h
    rw [except_bind_eq_ok] at h
    obtain ⟨scopes', hscopes, h⟩ := h
    obtain ⟨hnew, rfl⟩ := introduce_eq_ok.mp hscopes
    refine ⟨hnew, ?_⟩
    cases superclass with
    | none =>
      simp only [except_bind_eq_ok] at h
      obtain ⟨t₁, ht₁, t₂, ht₂, t₃, ht₃, hr⟩ := h
      cases hr
      exact ⟨t₁, t₂, t₃, ht₁, ht₂, ht₃, rfl⟩
    | some ref =>
      simp only at h
      split at h
      · cases h
      · next hne =>
        simp only [except_bind_eq_ok] at h
        obtain ⟨t₁, ht₁, t₂, ht₂, t₃, ht₃, hr⟩ := h
        cases hr
        exact ⟨t₁, t₂, t₃, by rw [optionally, superclassStep, if_neg hne]; exact ht₁, ht₂, ht₃, rfl⟩

theorem stmt_funDecl_ok {around : Surroundings} {scopes : Scopes Readiness} {decl : FunctionDecl}
    {t : Distances} {r : Resolution} (h : stmt around (.funDecl decl) ⟨scopes, t⟩ = .ok r) :
    ∃ t₁ t₂, scopes.declaredHere decl.name.text = false ∧ signature scopes decl t = .ok t₁ ∧
      function { around with body := .function } decl (scopes.declare decl.name.text .defined) t₁
        = .ok t₂ ∧
      r = ⟨scopes.declare decl.name.text .defined, t₂⟩ := by
  obtain ⟨t₁, ht₁, h⟩ := except_bind_eq_ok.mp h
  obtain ⟨scopes', hscopes, h⟩ := except_bind_eq_ok.mp h
  obtain ⟨t₂, ht₂, hr⟩ := except_bind_eq_ok.mp h
  obtain ⟨hnew, rfl⟩ := introduce_eq_ok.mp hscopes
  cases hr
  exact ⟨t₁, t₂, hnew, ht₁, ht₂, rfl⟩

theorem stmt_ret_ok {around : Surroundings} {scopes : Scopes Readiness} {keyword : Position}
    {value : Option Expr} {t : Distances} {r : Resolution}
    (h : stmt around (.ret keyword value) ⟨scopes, t⟩ = .ok r) :
    (around.body ≠ .topLevel ∧ (value.isSome → around.body ≠ .initializer)) ∧
      r.scopes = scopes ∧ optionally (expr around scopes) value t = .ok r.table := by
  simp only [stmt] at h
  generalize hbody : around.body = body at h
  split at h
  · cases h
  · cases h
  · next e hmiddle hlast =>
    rw [except_bind_eq_ok] at h
    obtain ⟨t', ht', hr⟩ := h
    cases hr
    exact ⟨⟨hmiddle, fun _ => hlast⟩, rfl, ht'⟩
  · next hmiddle =>
    cases h
    exact ⟨⟨hmiddle, nofun⟩, rfl, rfl⟩

mutual

theorem passes_stmt (around : Surroundings) : ∀ (s : Stmt), s.WellFormed → ∀ scopes,
    Passes (fun t => stmt around s ⟨scopes, t⟩) (s.after scopes) s.references
      fun table => ScopedStmt table around s scopes
  | .expression e, _, scopes => by
    refine Passes.of_walks (walks_expr around scopes e) ?_
    intro t r h
    obtain ⟨t', ht', hr⟩ := except_bind_eq_ok.mp h
    cases hr
    exact ⟨rfl, ht'⟩
  | .val name type initializer, _, scopes => passes_val around scopes name type initializer
  | .block body, hwf, scopes => by
    refine Passes.of_walks (walks_stmts around body hwf scopes.openFrame) ?_
    intro t r h
    obtain ⟨inner, hinner, hr⟩ := except_bind_eq_ok.mp h
    cases hr
    exact ⟨rfl, map_table_eq_ok.mpr ⟨_, hinner⟩⟩
  | .ifThen _ condition yes, ⟨_, hyes, hplain⟩, scopes => by
    have hwalks := passes_stmt around yes hyes scopes
    refine Passes.of_walks ((walks_expr around scopes condition).seq hwalks.walks) ?_
    intro t r h
    obtain ⟨t', ht', h⟩ := except_bind_eq_ok.mp h
    -- The branch declares nothing, so after it the scopes are as they were.
    have hafter := hwalks.scopes h
    rw [Stmt.after_eq_self hplain] at hafter
    exact ⟨hafter, except_bind_eq_ok.mpr ⟨t', ht', (hwalks.eq_ok h).2⟩⟩
  | .ifElse _ condition yes no, ⟨_, ⟨hyes, hplain⟩, hno, hplain'⟩, scopes => by
    have hwalks := passes_stmt around yes hyes scopes
    have hwalks' := passes_stmt around no hno scopes
    refine Passes.of_walks
      ((walks_expr around scopes condition).seq (hwalks.walks.seq hwalks'.walks)) ?_
    intro t r h
    obtain ⟨t', ht', h⟩ := except_bind_eq_ok.mp h
    obtain ⟨r', hr', h⟩ := except_bind_eq_ok.mp h
    -- The first branch declares nothing, so both branches are walked in the same scopes.
    have hscopes := (hwalks.eq_ok hr').1
    rw [Stmt.after_eq_self hplain] at hscopes
    rw [hscopes] at h
    have hafter := hwalks'.scopes h
    rw [Stmt.after_eq_self hplain'] at hafter
    refine ⟨hafter, except_bind_eq_ok.mpr ⟨t', ht', ?_⟩⟩
    exact except_bind_eq_ok.mpr ⟨r'.table, (hwalks.eq_ok hr').2, (hwalks'.eq_ok h).2⟩
  | .whileLoop _ condition body, ⟨_, hbody, hplain⟩, scopes => by
    have hwalks := passes_stmt around body hbody scopes
    refine Passes.of_walks ((walks_expr around scopes condition).seq hwalks.walks) ?_
    intro t r h
    obtain ⟨t', ht', h⟩ := except_bind_eq_ok.mp h
    have hafter := hwalks.scopes h
    rw [Stmt.after_eq_self hplain] at hafter
    exact ⟨hafter, except_bind_eq_ok.mpr ⟨t', ht', (hwalks.eq_ok h).2⟩⟩
  | .funDecl ⟨name, params, returns, body⟩, ⟨_, _, _, hbody⟩, scopes => by
    have hwalks := (walks_signature scopes ⟨name, params, returns, body⟩).seq
      (walks_function { around with body := .function } ⟨name, params, returns, body⟩ hbody
        (scopes.declare name.text .defined))
    -- A name that its frame has already is refused, whatever the body is.
    refine Passes.assuming (p := scopes.declaredHere name.text = false) ?_ ?_
    · intro t r h
      obtain ⟨-, -, hnew, -⟩ := stmt_funDecl_ok h
      exact hnew
    · intro hnew
      refine Passes.of_walks (hwalks.imp fun table h => ⟨h.1, hnew, h.2⟩) ?_
      intro t r h
      obtain ⟨t₁, t₂, -, ht₁, ht₂, rfl⟩ := stmt_funDecl_ok h
      exact ⟨rfl, except_bind_eq_ok.mpr ⟨t₁, ht₁, ht₂⟩⟩
  | .ret keyword value, _, scopes => by
    refine Passes.assuming
      (p := around.body ≠ .topLevel ∧ (value.isSome → around.body ≠ .initializer)) ?_ ?_
    · intro t r h
      exact (stmt_ret_ok h).1
    · intro hbody
      refine Passes.of_walks ((walks_optionally (walks_expr around scopes) value).imp
        fun table h => ⟨hbody.1, hbody.2, h⟩) ?_
      intro t r h
      obtain ⟨-, hscopes, ht⟩ := stmt_ret_ok h
      exact ⟨hscopes, ht⟩
  | .classDecl name superclass decls, ⟨_, _, hwf⟩, scopes => by
    let inside := scopes.declare name.text .defined
    have hwalks := (walks_optionally (walks_superclass inside name) superclass).seq
      ((walks_signatures inside decls).seq
        (walks_methods { around with enclosure := enclosureOf superclass } decls hwf
          (classScopes inside superclass.isSome)))
    refine Passes.assuming
      (p := scopes.isGlobal = true ∧ scopes.declaredHere name.text = false) ?_ ?_
    · intro t r h
      obtain ⟨hglobal, hnew, -⟩ := stmt_classDecl_ok h
      exact ⟨hglobal, hnew⟩
    · intro hnew
      -- The types of all methods are walked before the first body is, so the uses come in another
      -- order than in the text.
      have hrefs : Stmt.references (.classDecl name superclass decls)
          = superclass.elim [] (fun ref => [ref]) ++ FunctionDecl.referencesAll decls := by
        cases superclass <;> rfl
      rw [hrefs]
      refine Passes.of_walks ((hwalks.imp fun table h => ⟨hnew.1, hnew.2, h.1, h.2.1, h.2.2⟩).perm
        ((perm_referencesAll decls).append_left _)) ?_
      intro t r h
      obtain ⟨-, -, t₁, t₂, t₃, ht₁, ht₂, ht₃, rfl⟩ := stmt_classDecl_ok h
      exact ⟨rfl, except_bind_eq_ok.mpr ⟨t₁, ht₁, except_bind_eq_ok.mpr ⟨t₂, ht₂, ht₃⟩⟩⟩

theorem walks_stmts (around : Surroundings) : ∀ (ss : List Stmt), Stmt.AllWellFormed ss →
    ∀ scopes, Walks (fun t => (stmts around ss ⟨scopes, t⟩).map Resolution.table)
      (Stmt.referencesAll ss) fun table => ScopedStmts table around ss scopes
  | [], _, scopes => Walks.nothing.congr fun t t' h => by
    simpa [stmts, Except.map] using h
  | s :: ss, ⟨hs, hss⟩, scopes => by
    have hwalks := passes_stmt around s hs scopes
    refine (hwalks.walks.seq (walks_stmts around ss hss (s.after scopes))).congr ?_
    intro t t' h
    obtain ⟨scopes', h⟩ := map_table_eq_ok.mp h
    rw [stmts, except_bind_eq_ok] at h
    obtain ⟨r, hr, h⟩ := h
    obtain ⟨heq, htable⟩ := hwalks.eq_ok hr
    refine except_bind_eq_ok.mpr ⟨r.table, htable, map_table_eq_ok.mpr ⟨scopes', ?_⟩⟩
    rw [← heq]
    exact h

/-- A function records the uses in its body. -/
theorem walks_function (around : Surroundings) : ∀ (decl : FunctionDecl),
    Stmt.AllWellFormed decl.body → ∀ scopes,
    Walks (function around decl scopes) (Stmt.referencesAll decl.body)
      fun table => ScopedFunction table around decl scopes
  | ⟨name, params, returns, body⟩, hbody, scopes => by
    have hwalks := walks_stmts around body hbody (parameterScopes params scopes)
    refine Walks.assuming (p := (params.map fun p => p.name.text).Nodup) ?_ ?_
    · intro t t' h
      rw [function, except_bind_eq_ok] at h
      obtain ⟨scopes', hscopes, -⟩ := h
      exact (introduceAll_ok hscopes).2.1
    · intro hnodup
      refine (hwalks.imp fun table h => ⟨hnodup, h⟩).congr ?_
      intro t t' h
      simp only [function, except_bind_eq_ok] at h
      obtain ⟨scopes', hscopes, inner, hinner, hr⟩ := h
      obtain ⟨rfl, -⟩ := introduceAll_ok hscopes
      cases hr
      exact map_table_eq_ok.mpr ⟨_, hinner⟩

/-- Methods record the uses in their bodies. -/
theorem walks_methods (around : Surroundings) : ∀ (decls : List FunctionDecl),
    FunctionDecl.AllWellFormed decls → ∀ scopes,
    Walks (methods around decls scopes) (decls.flatMap fun decl => Stmt.referencesAll decl.body)
      fun table => ScopedMethods table around decls scopes
  | [], _, _ => Walks.nothing
  | ⟨name, params, returns, body⟩ :: decls, ⟨⟨_, _, _, hbody⟩, hdecls⟩, scopes =>
    (walks_function { around with body := methodBody name } ⟨name, params, returns, body⟩ hbody
      scopes).seq (walks_methods around decls hdecls scopes)

end

end Resolution

/-- Programs that are resolved are well scoped under the table that resolution gives. -/
theorem scoped_of_resolve {program : Program} {table : Distances}
    (hwf : Stmt.AllWellFormed program)
    (hnodup : (Resolution.ids (Stmt.referencesAll program)).Nodup)
    (h : resolve program = .ok table) :
    Resolution.ScopedStmts table ⟨.topLevel, .outside⟩ program Resolution.initial.scopes := by
  have hwalks := Resolution.walks_stmts ⟨.topLevel, .outside⟩ program hwf Resolution.initial.scopes
  rw [resolve, except_bind_eq_ok] at h
  obtain ⟨r, hr, htable⟩ := h
  cases htable
  exact hwalks.good (Resolution.map_table_eq_ok.mpr ⟨r.scopes, hr⟩) hnodup (fun _ _ => rfl)
    fun _ _ => rfl

end ClassScript
