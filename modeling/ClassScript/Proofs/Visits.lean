import ClassScript.Proofs.Scoping
import Mathlib.Data.List.Nodup
import Mathlib.Data.List.Pairwise
import Mathlib.Logic.Relation

namespace ClassScript

/-!
# Walks over programs

A walk goes over the parts of a program from the outside in, and passes down what it knows about the
place where a part stands. Resolution is such a walk: what it knows is what surrounds a part and
which frames are open there.

* `Part`: the parts of a program that a walk comes to;
* `Walk`, `Walk.enters`, `Walk.Visits`: walks, and where they come to;
* `Walk.place_unique`: a part that uses a name is visited in one place only;
* `Resolution.walk`: the walk of resolution;
* `Resolution.Valid`: what holds wherever it comes to in a well-scoped program.
-/

/-! ### Parts -/

/-- The parts of a program. -/
inductive Part where
  | expr (e : Expr)
  | exprs (es : List Expr)
  | stmt (s : Stmt)
  | stmts (ss : List Stmt)

namespace Part

/-- The uses of names in a part. -/
def references : Part → List Reference
  | expr e => e.references
  | exprs es => Expr.referencesAll es
  | stmt s => s.references
  | stmts ss => Stmt.referencesAll ss

/-- A part as the grammar gives it. -/
def WellFormed : Part → Prop
  | expr e => e.WellFormed
  | exprs es => Expr.AllWellFormed es
  | stmt s => s.WellFormed
  | stmts ss => Stmt.AllWellFormed ss

end Part

/-- The parts that an expression is made of. -/
def Expr.parts : Expr → List Part
  | .literal _ => []
  | .grouping inner => [.expr inner]
  | .unary _ operand => [.expr operand]
  | .binary left _ right => [.expr left, .expr right]
  | .logical left _ right => [.expr left, .expr right]
  | .ternary condition _ yes no => [.expr condition, .expr yes, .expr no]
  | .var _ => []
  | .assign _ value => [.expr value]
  | .call callee _ arguments => [.expr callee, .exprs arguments]
  | .get object _ => [.expr object]
  | .set object _ value => [.expr object, .expr value]
  | .this _ => []
  | .super _ _ => []

/-! ### Walks -/

/-- What a walk knows at a place, and how that changes from a statement to its parts and to the
    statement after it. -/
structure Walk (ρ : Type) where
  /-- At the initializer of a variable. -/
  initializer : Name → ρ → ρ
  /-- Inside a block. -/
  block : ρ → ρ
  /-- After a statement. -/
  after : Stmt → ρ → ρ
  /-- In the body of a function. -/
  function : FunctionDecl → ρ → ρ
  /-- In the bodies of the methods of a class, in order. -/
  methods : Name → Option Reference → List FunctionDecl → ρ → List ρ

/-- A part and what a walk knows where it stands. -/
structure Visit (ρ : Type) where
  part : Part
  place : ρ

namespace Walk

variable {ρ : Type}

/-- Where a walk goes next from a statement. -/
def entersStmt (w : Walk ρ) : Stmt → ρ → List (Visit ρ)
  | .expression e, r => [⟨.expr e, r⟩]
  | .val name _ initializer, r =>
    initializer.toList.map fun e => ⟨.expr e, w.initializer name r⟩
  | .block body, r => [⟨.stmts body, w.block r⟩]
  | .ifThen _ condition yes, r => [⟨.expr condition, r⟩, ⟨.stmt yes, r⟩]
  | .ifElse _ condition yes no, r =>
    [⟨.expr condition, r⟩, ⟨.stmt yes, r⟩, ⟨.stmt no, w.after yes r⟩]
  | .whileLoop _ condition body, r => [⟨.expr condition, r⟩, ⟨.stmt body, r⟩]
  | .funDecl decl, r => [⟨.stmts decl.body, w.function decl r⟩]
  | .ret _ value, r => value.toList.map fun e => ⟨.expr e, r⟩
  | .classDecl name superclass decls, r =>
    (decls.zip (w.methods name superclass decls r)).map fun (decl, r) => ⟨.stmts decl.body, r⟩

/-- Where a walk goes next from a part. -/
def enters (w : Walk ρ) : Visit ρ → List (Visit ρ)
  | ⟨.expr e, r⟩ => e.parts.map fun part => ⟨part, r⟩
  | ⟨.exprs [], _⟩ => []
  | ⟨.exprs (e :: es), r⟩ => [⟨.expr e, r⟩, ⟨.exprs es, r⟩]
  | ⟨.stmt s, r⟩ => w.entersStmt s r
  | ⟨.stmts [], _⟩ => []
  | ⟨.stmts (s :: ss), r⟩ => [⟨.stmt s, r⟩, ⟨.stmts ss, w.after s r⟩]

/-- Where a walk comes to from a visit. -/
def Visits (w : Walk ρ) : Visit ρ → Visit ρ → Prop :=
  Relation.ReflTransGen fun v v' => v' ∈ w.enters v

variable {w : Walk ρ}

theorem sizeOf_body_lt (decl : FunctionDecl) : sizeOf decl.body < sizeOf decl := by
  obtain ⟨name, params, returns, body⟩ := decl
  simp only [FunctionDecl.mk.sizeOf_spec]
  omega

theorem sizeOf_lt_of_parts (e : Expr) : ∀ part ∈ e.parts, sizeOf part < sizeOf (Part.expr e) := by
  cases e <;> simp [Expr.parts] <;> omega

theorem sizeOf_lt_of_entersStmt (w : Walk ρ) (s : Stmt) (r : ρ) :
    ∀ v ∈ w.entersStmt s r, sizeOf v.part < sizeOf (Part.stmt s) := by
  cases s with
  | funDecl decl =>
    have := sizeOf_body_lt decl
    simp [entersStmt]
    omega
  | classDecl name superclass decls =>
    intro v hv
    obtain ⟨⟨decl, r'⟩, hdecl, rfl⟩ := List.mem_map.mp hv
    have hmem := List.sizeOf_lt_of_mem (List.of_mem_zip hdecl).1
    have := sizeOf_body_lt decl
    simp
    omega
  | val name type initializer =>
    cases initializer with
    | none => simp [entersStmt]
    | some e =>
      simp [entersStmt]
      omega
  | ret keyword value =>
    cases value with
    | none => simp [entersStmt]
    | some e =>
      simp [entersStmt]
      omega
  | _ => simp [entersStmt] <;> omega

/-- The parts that a walk goes to next are smaller. -/
theorem sizeOf_lt_of_enters {v v' : Visit ρ} (h : v' ∈ w.enters v) :
    sizeOf v'.part < sizeOf v.part := by
  obtain ⟨part, r⟩ := v
  rcases part with e | ⟨_ | ⟨e, es⟩⟩ | s | ⟨_ | ⟨s, ss⟩⟩
  · obtain ⟨part, hpart, rfl⟩ := List.mem_map.mp h
    exact sizeOf_lt_of_parts e part hpart
  · cases h
  · simp only [enters, List.mem_cons, List.not_mem_nil, or_false] at h
    rcases h with rfl | rfl <;>
      simp only [Part.expr.sizeOf_spec, Part.exprs.sizeOf_spec, List.cons.sizeOf_spec] <;> omega
  · exact sizeOf_lt_of_entersStmt w s r v' h
  · cases h
  · simp only [enters, List.mem_cons, List.not_mem_nil, or_false] at h
    rcases h with rfl | rfl <;>
      simp only [Part.stmt.sizeOf_spec, Part.stmts.sizeOf_spec, List.cons.sizeOf_spec] <;> omega

/-! ### Places of uses -/

theorem exists_perm_of_parts (e : Expr) :
    ∃ others, (others ++ e.parts.flatMap Part.references).Perm e.references := by
  cases e with
  | var ref => exact ⟨[ref], .refl _⟩
  | this ref => exact ⟨[ref], .refl _⟩
  | super keyword _ => exact ⟨[keyword], .refl _⟩
  | assign target value => exact ⟨[target], by simp [Expr.parts, Part.references, Expr.references]⟩
  | _ => exact ⟨[], by simp [Expr.parts, Part.references, Expr.references]⟩

theorem sublist_of_zip (decls : List FunctionDecl) (places : List ρ) :
    ((decls.zip places).flatMap fun (decl, _) => Stmt.referencesAll decl.body).Sublist
      (decls.flatMap fun decl => Stmt.referencesAll decl.body) := by
  induction decls generalizing places with
  | nil => exact .refl _
  | cons decl decls ih =>
    cases places with
    | nil => exact List.nil_sublist _
    | cons place places => exact (ih places).append_left _

theorem exists_perm_of_entersStmt (w : Walk ρ) (s : Stmt) (r : ρ) :
    ∃ others, (others ++ (w.entersStmt s r).flatMap fun v => v.part.references).Perm
      s.references := by
  cases s with
  | val name type initializer =>
    refine ⟨type.elim [] TypeName.references, ?_⟩
    cases initializer <;> simp [entersStmt, Part.references, Stmt.references]
  | ret keyword value =>
    cases value <;> exact ⟨[], by simp [entersStmt, Part.references, Stmt.references]⟩
  | funDecl decl =>
    obtain ⟨name, params, returns, body⟩ := decl
    refine ⟨FunctionDecl.typeReferences ⟨name, params, returns, body⟩, ?_⟩
    simp [entersStmt, Part.references, Stmt.references, FunctionDecl.references]
  | classDecl name superclass decls =>
    obtain ⟨rest, hrest⟩ :=
      (sublist_of_zip decls (w.methods name superclass decls r)).exists_perm_append
    refine ⟨superclass.toList ++ (decls.flatMap FunctionDecl.typeReferences ++ rest), ?_⟩
    have hall := Resolution.perm_referencesAll decls
    simp only [entersStmt, List.flatMap_map, Part.references, Stmt.references, List.append_assoc]
    refine List.Perm.append_left _ (.trans (.append_left _ ?_) hall)
    exact List.perm_append_comm.trans hrest.symm
  | _ => exact ⟨[], by simp [entersStmt, Part.references, Stmt.references]⟩

/-- What a walk goes to next shares no use of a name, and has no other than where it came from. -/
theorem exists_perm_of_enters (w : Walk ρ) (v : Visit ρ) :
    ∃ others, (others ++ (w.enters v).flatMap fun v' => v'.part.references).Perm
      v.part.references := by
  obtain ⟨part, r⟩ := v
  rcases part with e | ⟨_ | ⟨e, es⟩⟩ | s | ⟨_ | ⟨s, ss⟩⟩
  · obtain ⟨others, hperm⟩ := exists_perm_of_parts e
    exact ⟨others, by rw [enters, List.flatMap_map]; exact hperm⟩
  · exact ⟨[], .refl _⟩
  · exact ⟨[], by simp [enters, Part.references, Expr.referencesAll]⟩
  · exact exists_perm_of_entersStmt w s r
  · exact ⟨[], .refl _⟩
  · exact ⟨[], by simp [enters, Part.references, Stmt.referencesAll]⟩

theorem references_subset_of_enters {v v' : Visit ρ} (h : v' ∈ w.enters v) :
    v'.part.references ⊆ v.part.references := by
  obtain ⟨others, hperm⟩ := w.exists_perm_of_enters v
  intro ref hr
  exact hperm.subset (List.mem_append_right _ (List.mem_flatMap.mpr ⟨v', h, hr⟩))

/-- Of the parts that a walk goes to next, at most one uses a name with the identity `id`. -/
theorem enters_unique {v v₁ v₂ : Visit ρ} {id : Nat}
    (hnodup : (v.part.references.map Reference.id).Nodup) (h₁ : v₁ ∈ w.enters v)
    (h₂ : v₂ ∈ w.enters v) (hid₁ : id ∈ v₁.part.references.map Reference.id)
    (hid₂ : id ∈ v₂.part.references.map Reference.id) : v₁ = v₂ := by
  obtain ⟨others, hperm⟩ := w.exists_perm_of_enters v
  have hnodup' := (hperm.map Reference.id).nodup_iff.mpr hnodup
  rw [List.map_append, List.nodup_append, List.map_flatMap, List.nodup_flatMap] at hnodup'
  obtain ⟨-, ⟨-, hdisjoint⟩, -⟩ := hnodup'
  have : Std.Symm (Function.onFun List.Disjoint fun v : Visit ρ =>
      v.part.references.map Reference.id) := ⟨fun _ _ h _ hb ha => h ha hb⟩
  by_contra hne
  exact hdisjoint.forall h₁ h₂ hne hid₁ hid₂

/-- What a walk comes to uses no other names. -/
theorem references_subset_of_visits {v v' : Visit ρ} (h : w.Visits v v') :
    v'.part.references ⊆ v.part.references := by
  induction h with
  | refl => exact List.Subset.refl _
  | tail _ hstep ih => exact List.Subset.trans (references_subset_of_enters hstep) ih

theorem nodup_of_enters {v v' : Visit ρ} (hnodup : (v.part.references.map Reference.id).Nodup)
    (h : v' ∈ w.enters v) : (v'.part.references.map Reference.id).Nodup := by
  obtain ⟨others, hperm⟩ := w.exists_perm_of_enters v
  have hnodup' := (hperm.map Reference.id).nodup_iff.mpr hnodup
  rw [List.map_append, List.nodup_append, List.map_flatMap, List.nodup_flatMap] at hnodup'
  exact hnodup'.2.1.1 v' h

/-- A step of a walk toward the use with the identity `id`, from a part without repeated uses. -/
def Toward (w : Walk ρ) (id : Nat) (v v' : Visit ρ) : Prop :=
  (v.part.references.map Reference.id).Nodup ∧ v' ∈ w.enters v ∧
    id ∈ v'.part.references.map Reference.id

theorem toward_of_visits {v v' : Visit ρ} {id : Nat} (h : w.Visits v v')
    (hnodup : (v.part.references.map Reference.id).Nodup)
    (hid : id ∈ v'.part.references.map Reference.id) :
    Relation.ReflTransGen (w.Toward id) v v' := by
  revert hnodup
  induction h using Relation.ReflTransGen.head_induction_on with
  | refl => exact fun _ => .refl
  | head hstep hrest ih =>
    intro hnodup
    have hid' := List.map_subset Reference.id (references_subset_of_visits hrest) hid
    exact .head ⟨hnodup, hstep, hid'⟩ (ih (nodup_of_enters hnodup hstep))

theorem eq_or_sizeOf_lt_of_toward {v v' : Visit ρ} {id : Nat}
    (h : Relation.ReflTransGen (w.Toward id) v v') :
    v' = v ∨ sizeOf v'.part < sizeOf v.part := by
  induction h with
  | refl => exact .inl rfl
  | tail _ hstep ih =>
    have hlt := sizeOf_lt_of_enters hstep.2.1
    rcases ih with rfl | hlt'
    · exact .inr hlt
    · exact .inr (Nat.lt_trans hlt hlt')

/-- A part that uses a name is visited in one place only. -/
theorem place_unique {root : Visit ρ} {part : Part} {r r' : ρ}
    (hnodup : (root.part.references.map Reference.id).Nodup) (hpart : part.references ≠ [])
    (h : w.Visits root ⟨part, r⟩) (h' : w.Visits root ⟨part, r'⟩) : r = r' := by
  obtain ⟨ref, href⟩ := List.exists_mem_of_ne_nil _ hpart
  have hid : ref.id ∈ part.references.map Reference.id := List.mem_map_of_mem href
  have hright : Relator.RightUnique (w.Toward ref.id) :=
    fun v v₁ v₂ h₁ h₂ => enters_unique h₁.1 h₁.2.1 h₂.2.1 h₁.2.2 h₂.2.2
  -- Both visits are on the one way from the root to the use, and a walk never comes back to a part.
  have hchain := Relation.ReflTransGen.total_of_right_unique hright
    (toward_of_visits h hnodup hid) (toward_of_visits h' hnodup hid)
  rcases hchain with hchain | hchain
  · rcases eq_or_sizeOf_lt_of_toward hchain with heq | hlt
    · exact (congrArg Visit.place heq).symm
    · exact absurd hlt (Nat.lt_irrefl _)
  · rcases eq_or_sizeOf_lt_of_toward hchain with heq | hlt
    · exact congrArg Visit.place heq
    · exact absurd hlt (Nat.lt_irrefl _)

end Walk

namespace Resolution

/-! ### The walk of resolution -/

/-- A place of a program, as resolution knows it. -/
structure Setting where
  around : Surroundings
  scopes : Scopes Readiness

/-- In the body of a method of the class `name`. -/
def inMethod (name : Name) (superclass : Option Reference) (decl : FunctionDecl) (r : Setting) :
    Setting :=
  ⟨⟨methodBody decl.name, enclosureOf superclass⟩,
    parameterScopes decl.params
      (classScopes (r.scopes.declare name.text .defined) superclass.isSome)⟩

/-- The walk of resolution. -/
def walk : Walk Setting where
  initializer name r := ⟨r.around, r.scopes.declare name.text .declared⟩
  block r := ⟨r.around, r.scopes.openFrame⟩
  after s r := ⟨r.around, s.after r.scopes⟩
  function decl r :=
    ⟨{ r.around with body := .function },
      parameterScopes decl.params (r.scopes.declare decl.name.text .defined)⟩
  methods name superclass decls r := decls.map fun decl => inMethod name superclass decl r

theorem walk_entersStmt_classDecl (name : Name) (superclass : Option Reference)
    (decls : List FunctionDecl) (r : Setting) :
    walk.entersStmt (.classDecl name superclass decls) r
      = decls.map fun decl => ⟨.stmts decl.body, inMethod name superclass decl r⟩ := by
  simp only [Walk.entersStmt, walk]
  induction decls with
  | nil => rfl
  | cons decl decls ih => simpa using ih

/-- Where the walk of resolution over a program starts. -/
def start (program : Program) : Visit Setting :=
  ⟨.stmts program, ⟨.topLevel, .outside⟩, initial.scopes⟩

/-- The uses of names in a part are bound. -/
def ScopedPart (table : Distances) : Visit Setting → Prop
  | ⟨.expr e, r⟩ => ScopedExpr table r.around r.scopes e
  | ⟨.exprs es, r⟩ => ScopedExprs table r.around r.scopes es
  | ⟨.stmt s, r⟩ => ScopedStmt table r.around s r.scopes
  | ⟨.stmts ss, r⟩ => ScopedStmts table r.around ss r.scopes

/-- A frame that binds the superclass stands right outside one that binds the receiver. -/
def SuperOutsideThis (scopes : Scopes Readiness) : Prop :=
  scopes.globals.find? superName = none ∧
    ∀ d b, scopes.frames[d]? = some b → b.contains superName = true →
      ∃ e c, d = e + 1 ∧ scopes.frames[e]? = some c ∧ c.find? thisName = some .defined

/-- What holds of every visit in a well-scoped program. -/
structure Valid (table : Distances) (v : Visit Setting) : Prop where
  bound : ScopedPart table v
  wellFormed : v.part.WellFormed
  super : SuperOutsideThis v.place.scopes

namespace SuperOutsideThis

variable {scopes : Scopes Readiness}

/-- A new frame binds neither word. -/
theorem openFrame (h : SuperOutsideThis scopes) : SuperOutsideThis scopes.openFrame := by
  refine ⟨h.1, ?_⟩
  intro d b hb hsuper
  cases d with
  | zero =>
    cases hb
    simp [Bindings.contains] at hsuper
  | succ d =>
    obtain ⟨e, c, rfl, hc, hthis⟩ := h.2 d b hb hsuper
    exact ⟨e + 1, c, rfl, hc, hthis⟩

/-- A declaration of another name. -/
theorem declare {x : String} {readiness : Readiness} (h : SuperOutsideThis scopes)
    (hthis : x ≠ thisName) (hsuper : x ≠ superName) :
    SuperOutsideThis (scopes.declare x readiness) := by
  obtain ⟨globals, frames⟩ := scopes
  cases frames with
  | nil =>
    refine ⟨?_, nofun⟩
    show (globals.insert x readiness).find? superName = none
    rw [Bindings.find?_insert, if_neg hsuper]
    exact h.1
  | cons frame outer =>
    refine ⟨h.1, ?_⟩
    -- The name goes to the innermost frame, and it is neither of the two.
    intro d b hb hcontains
    cases d with
    | zero =>
      cases hb
      rw [Bindings.contains, Bindings.find?_insert, if_neg hsuper] at hcontains
      obtain ⟨e, c, hd, -⟩ := h.2 0 frame rfl hcontains
      cases hd
    | succ d =>
      obtain ⟨e, c, hd, hc, hready⟩ := h.2 (d + 1) b hb hcontains
      cases e with
      | zero =>
        cases hc
        refine ⟨0, _, hd, rfl, ?_⟩
        rw [Bindings.find?_insert, if_neg hthis]
        exact hready
      | succ e => exact ⟨e + 1, c, hd, hc, hready⟩

/-- A declaration of an ordinary name. -/
theorem declare_plain {name : Name} {readiness : Readiness} (h : SuperOutsideThis scopes)
    (hname : name.Plain) : SuperOutsideThis (scopes.declare name.text readiness) :=
  h.declare hname.1 hname.2

theorem params {params : List Param} (h : SuperOutsideThis scopes)
    (hplain : ∀ p ∈ params, p.name.Plain) : SuperOutsideThis (parameterScopes params scopes) := by
  unfold parameterScopes
  have hopen := h.openFrame
  generalize scopes.openFrame = inside at hopen
  induction params generalizing inside with
  | nil => exact hopen
  | cons p ps ih =>
    obtain ⟨hp, hps⟩ := List.forall_mem_cons.mp hplain
    exact ih hps _ (hopen.declare_plain hp)

theorem classScopes {derived : Bool} (h : SuperOutsideThis scopes) :
    SuperOutsideThis (classScopes scopes derived) := by
  cases derived with
  | false =>
    refine ⟨h.1, ?_⟩
    intro d b hb hcontains
    cases d with
    | zero =>
      cases hb
      cases hcontains
    | succ d =>
      obtain ⟨e, c, rfl, hc, hready⟩ := h.2 d b hb hcontains
      exact ⟨e + 1, c, rfl, hc, hready⟩
  | true =>
    refine ⟨h.1, ?_⟩
    intro d b hb hcontains
    match d with
    | 0 =>
      cases hb
      cases hcontains
    | 1 => exact ⟨0, _, rfl, rfl, rfl⟩
    | d + 2 =>
      obtain ⟨e, c, rfl, hc, hready⟩ := h.2 d b hb hcontains
      exact ⟨e + 2, c, rfl, hc, hready⟩

theorem initial : SuperOutsideThis initial.scopes := ⟨by decide, nofun⟩

end SuperOutsideThis

namespace Valid

variable {table : Distances}

/-- In a valid expression the parts are valid. -/
theorem parts {e : Expr} {r : Setting} (h : Valid table ⟨.expr e, r⟩) :
    ∀ part ∈ e.parts, Valid table ⟨part, r⟩ := by
  obtain ⟨hbound, hwf, hsuper⟩ := h
  cases e with
  | literal => nofun
  | var => nofun
  | this => nofun
  | super => nofun
  | grouping => exact List.forall_mem_singleton.mpr ⟨hbound, hwf, hsuper⟩
  | unary => exact List.forall_mem_singleton.mpr ⟨hbound, hwf.2, hsuper⟩
  | assign => exact List.forall_mem_singleton.mpr ⟨hbound.1, hwf.2, hsuper⟩
  | get => exact List.forall_mem_singleton.mpr ⟨hbound, hwf, hsuper⟩
  | binary =>
    exact List.forall_mem_cons.mpr ⟨⟨hbound.1, hwf.2.1, hsuper⟩,
      List.forall_mem_singleton.mpr ⟨hbound.2, hwf.2.2, hsuper⟩⟩
  | ternary =>
    exact List.forall_mem_cons.mpr ⟨⟨hbound.1, hwf.1, hsuper⟩,
      List.forall_mem_cons.mpr ⟨⟨hbound.2.1, hwf.2.1, hsuper⟩,
        List.forall_mem_singleton.mpr ⟨hbound.2.2, hwf.2.2, hsuper⟩⟩⟩
  | _ =>
    exact List.forall_mem_cons.mpr ⟨⟨hbound.1, hwf.1, hsuper⟩,
      List.forall_mem_singleton.mpr ⟨hbound.2, hwf.2, hsuper⟩⟩

/-- The body of a function is valid inside valid scopes. -/
theorem body {decl : FunctionDecl} {around : Surroundings} {scopes : Scopes Readiness}
    (hbound : ScopedFunction table around decl scopes) (hwf : decl.WellFormed)
    (hsuper : SuperOutsideThis scopes) :
    Valid table ⟨.stmts decl.body, around, parameterScopes decl.params scopes⟩ := by
  obtain ⟨name, params, returns, body⟩ := decl
  exact ⟨hbound.2, hwf.2.2.2, hsuper.params fun p hp => (hwf.2.1 p hp).1⟩

/-- Each of the methods of a class is scoped. -/
theorem scopedFunction_of_mem {around : Surroundings} {decls : List FunctionDecl}
    {scopes : Scopes Readiness} (h : ScopedMethods table around decls scopes)
    {decl : FunctionDecl} (hdecl : decl ∈ decls) :
    ScopedFunction table { around with body := methodBody decl.name } decl scopes := by
  induction decls with
  | nil => cases hdecl
  | cons first decls ih =>
    cases hdecl with
    | head => exact h.1
    | tail _ hdecl => exact ih h.2 hdecl

theorem wellFormed_of_mem {decls : List FunctionDecl} (h : FunctionDecl.AllWellFormed decls)
    {decl : FunctionDecl} (hdecl : decl ∈ decls) : decl.WellFormed := by
  induction decls with
  | nil => cases hdecl
  | cons first decls ih =>
    cases hdecl with
    | head => exact h.1
    | tail _ hdecl => exact ih h.2 hdecl

/-- The scopes after a valid statement. -/
theorem after {s : Stmt} {r : Setting} (hwf : s.WellFormed) (hsuper : SuperOutsideThis r.scopes) :
    SuperOutsideThis (s.after r.scopes) := by
  cases s with
  | val => exact hsuper.declare_plain hwf.1
  | funDecl decl =>
    obtain ⟨name, params, returns, body⟩ := decl
    exact hsuper.declare_plain hwf.1
  | classDecl => exact hsuper.declare_plain hwf.1
  | _ => exact hsuper

theorem entersStmt {s : Stmt} {r : Setting} (h : Valid table ⟨.stmt s, r⟩) :
    ∀ v ∈ walk.entersStmt s r, Valid table v := by
  obtain ⟨hbound, hwf, hsuper⟩ := h
  cases s with
  | expression e => exact List.forall_mem_singleton.mpr ⟨hbound, hwf, hsuper⟩
  | val name type initializer =>
    cases initializer with
    | none => nofun
    | some e =>
      exact List.forall_mem_singleton.mpr
        ⟨hbound.2.2 e rfl, hwf.2.2 e rfl, hsuper.declare_plain hwf.1⟩
  | block body => exact List.forall_mem_singleton.mpr ⟨hbound, hwf, hsuper.openFrame⟩
  | ifThen _ condition yes =>
    exact List.forall_mem_cons.mpr ⟨⟨hbound.1, hwf.1, hsuper⟩,
      List.forall_mem_singleton.mpr ⟨hbound.2, hwf.2.1, hsuper⟩⟩
  | ifElse _ condition yes no =>
    refine List.forall_mem_cons.mpr ⟨⟨hbound.1, hwf.1, hsuper⟩,
      List.forall_mem_cons.mpr ⟨⟨hbound.2.1, hwf.2.1.1, hsuper⟩,
        List.forall_mem_singleton.mpr ⟨?_, hwf.2.2.1, after hwf.2.1.1 hsuper⟩⟩⟩
    -- The first branch declares nothing, so the scopes of the second are those of the first.
    show ScopedStmt table r.around no (yes.after r.scopes)
    rw [Stmt.after_eq_self hwf.2.1.2]
    exact hbound.2.2
  | whileLoop _ condition body =>
    exact List.forall_mem_cons.mpr ⟨⟨hbound.1, hwf.1, hsuper⟩,
      List.forall_mem_singleton.mpr ⟨hbound.2, hwf.2.1, hsuper⟩⟩
  | funDecl decl =>
    have hname : decl.name.Plain := by
      obtain ⟨name, params, returns, body⟩ := decl
      exact hwf.1
    exact List.forall_mem_singleton.mpr (body hbound.2.2 hwf (hsuper.declare_plain hname))
  | ret _ value =>
    cases value with
    | none => nofun
    | some e => exact List.forall_mem_singleton.mpr ⟨hbound.2.2 e rfl, hwf e rfl, hsuper⟩
  | classDecl name superclass decls =>
    rw [walk_entersStmt_classDecl]
    refine List.forall_mem_map.mpr fun decl hdecl => ?_
    exact body (scopedFunction_of_mem hbound.2.2.2.2 hdecl) (wellFormed_of_mem hwf.2.2 hdecl)
      (hsuper.declare_plain hwf.1).classScopes

theorem enters {v : Visit Setting} (h : Valid table v) :
    ∀ v' ∈ walk.enters v, Valid table v' := by
  obtain ⟨part, r⟩ := v
  rcases part with e | ⟨_ | ⟨e, es⟩⟩ | s | ⟨_ | ⟨s, ss⟩⟩
  · exact List.forall_mem_map.mpr h.parts
  · nofun
  · obtain ⟨hbound, hwf, hsuper⟩ := h
    exact List.forall_mem_cons.mpr ⟨⟨hbound.1, hwf.1, hsuper⟩,
      List.forall_mem_singleton.mpr ⟨hbound.2, hwf.2, hsuper⟩⟩
  · exact h.entersStmt
  · nofun
  · obtain ⟨hbound, hwf, hsuper⟩ := h
    exact List.forall_mem_cons.mpr ⟨⟨hbound.1, hwf.1, hsuper⟩,
      List.forall_mem_singleton.mpr ⟨hbound.2, hwf.2, after hwf.1 hsuper⟩⟩

end Valid

/-- Every visit in a program that is resolved is valid. -/
theorem valid_of_visits {program : Program} {table : Distances} {v : Visit Setting}
    (hwf : Stmt.AllWellFormed program) (hnodup : (ids (Stmt.referencesAll program)).Nodup)
    (hresolve : resolve program = .ok table) (h : walk.Visits (start program) v) :
    Valid table v := by
  induction h with
  | refl => exact ⟨scoped_of_resolve hwf hnodup hresolve, hwf, .initial⟩
  | tail _ hstep ih => exact ih.enters _ hstep

end Resolution

end ClassScript
