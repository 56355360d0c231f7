import ClassScript.Proofs.Grammar.Trees
import ClassScript.Proofs.Scoping
import ClassScript.Typing
import Mathlib.Data.List.Forall2

namespace ClassScript

/-!
# Typing finds names where resolution does

Resolution and typing are two walks over a program, each with its own frames. On a well-scoped
program the frames of the second walk bind, one by one, the names that are ready in the frames of
the first, so every use of a name is found at the distance that resolution recorded for it.

* `TypeFault.AboutScopes`: the violations that are about scopes alone;
* `Typing.Mirrors`: the frames of the two walks at one point of a program;
* `Typing.Tracks`: a step of typing succeeds only under tables that agree with a given one;
* `typecheck_ok_iff_agrees`: typing accepts the tables that agree with that of resolution, and no
  others.
-/

/-- The violations that are about scopes alone, not about types. -/
def TypeFault.AboutScopes : TypeFault → Prop
  | .undefined _ => True
  | .scopeMismatch _ _ _ => True
  | .returnOutside => True
  | .superNoClass => True
  | _ => False

namespace Typing

/-! ### The frames of the two walks -/

/-- A frame of typing binds the names that are ready in a frame of resolution, and it binds the name
    of the superclass to a class. -/
structure MirrorsFrame (b : Bindings Readiness) (c : Bindings StaticType) : Prop where
  names : ∀ x, c.contains x = true ↔ b.find? x = some .defined
  super : ∀ type, c.find? superName = some type → ∃ id, type = .classType id

/-- The frames of typing mirror those of resolution, from the innermost to the globals. -/
structure Mirrors (s : Scopes Readiness) (t : Scopes StaticType) : Prop where
  globals : MirrorsFrame s.globals t.globals
  frames : List.Forall₂ MirrorsFrame s.frames t.frames

theorem MirrorsFrame.empty : MirrorsFrame .empty .empty :=
  ⟨fun _ => by simp [Bindings.contains], nofun⟩

theorem MirrorsFrame.insert {b : Bindings Readiness} {c : Bindings StaticType} {x : String}
    {type : StaticType} (h : MirrorsFrame b c)
    (hsuper : x = superName → ∃ id, type = .classType id) :
    MirrorsFrame (b.insert x .defined) (c.insert x type) := by
  refine ⟨fun y => ?_, fun type' htype' => ?_⟩
  · have hy := h.names y
    by_cases hxy : x = y
    · simp [Bindings.contains, hxy]
    · simpa [Bindings.contains, hxy] using hy
  · rw [Bindings.find?_insert] at htype'
    split at htype'
    · next hx =>
      cases htype'
      exact hsuper hx
    · exact h.super type' htype'

theorem MirrorsFrame.contains_eq_false {b : Bindings Readiness} {c : Bindings StaticType}
    {x : String} (h : MirrorsFrame b c) (hx : b.contains x = false) : c.contains x = false := by
  have hnot : ¬ c.contains x = true := by
    rw [h.names, Bindings.contains] at *
    intro hready
    simp [hready] at hx
  simpa using hnot

theorem MirrorsFrame.find? {b : Bindings Readiness} {c : Bindings StaticType} {x : String}
    (h : MirrorsFrame b c) (hx : c.contains x = true) :
    ∃ type, c.find? x = some type ∧ (x = superName → ∃ id, type = .classType id) := by
  obtain ⟨type, htype⟩ := Option.isSome_iff_exists.mp hx
  refine ⟨type, htype, ?_⟩
  rintro rfl
  exact h.super type htype

/-- While its initializer is walked, a new name is not bound for typing. -/
theorem MirrorsFrame.insert_declared {b : Bindings Readiness} {c : Bindings StaticType} {x : String}
    (h : MirrorsFrame b c) (hnew : b.contains x = false) :
    MirrorsFrame (b.insert x .declared) c := by
  refine ⟨fun y => ?_, h.super⟩
  have hy := h.names y
  by_cases hxy : x = y
  · subst hxy
    have hnone : b.find? x = none := by simpa [Bindings.contains] using hnew
    simpa [hnone] using hy
  · simpa [hxy] using hy

namespace Mirrors

variable {s : Scopes Readiness} {t : Scopes StaticType}

/-- A new frame on both sides. -/
theorem openFrame (h : Mirrors s t) : Mirrors s.openFrame t.openFrame :=
  ⟨h.globals, .cons .empty h.frames⟩

/-- A name that is ready for use and has a type. -/
theorem declare {x : String} {type : StaticType} (h : Mirrors s t)
    (hsuper : x = superName → ∃ id, type = .classType id) :
    Mirrors (s.declare x .defined) (t.declare x type) := by
  obtain ⟨globals, frames⟩ := s
  obtain ⟨globals', frames'⟩ := t
  obtain ⟨hglobals, hframes⟩ := h
  cases hframes with
  | nil => exact ⟨hglobals.insert hsuper, .nil⟩
  | cons hframe houter => exact ⟨hglobals, .cons (hframe.insert hsuper) houter⟩

theorem declare_plain {name : Name} (h : Mirrors s t) (type : StaticType) (hname : name.Plain) :
    Mirrors (s.declare name.text .defined) (t.declare name.text type) :=
  h.declare fun hsuper => absurd hsuper hname.2

theorem declare_declared {x : String} (h : Mirrors s t) (hnew : s.declaredHere x = false) :
    Mirrors (s.declare x .declared) t := by
  obtain ⟨globals, frames⟩ := s
  obtain ⟨globals', frames'⟩ := t
  obtain ⟨hglobals, hframes⟩ := h
  cases hframes with
  | nil => exact ⟨hglobals.insert_declared hnew, .nil⟩
  | cons hframe houter => exact ⟨hglobals, .cons (hframe.insert_declared hnew) houter⟩

/-- The parameters of a function on both sides. -/
theorem params {params : List Param} {types : List StaticType} (h : Mirrors s t)
    (hlength : types.length = params.length) (hplain : ∀ p ∈ params, p.name.Plain) :
    Mirrors (params.foldl (fun s p => s.declare p.name.text .defined) s)
      ((params.zip types).foldl (fun t (p, type) => t.declare p.name.text type) t) := by
  induction params generalizing s t types with
  | nil => exact h
  | cons p ps ih =>
    cases types with
    | nil => cases hlength
    | cons type types =>
      obtain ⟨hp, hps⟩ := List.forall_mem_cons.mp hplain
      exact ih (h.declare_plain _ hp) (Nat.succ.inj hlength) hps

/-- The frames of a class on both sides. -/
theorem classScopes {id : ClassId} {superclass : Option ClassId} (h : Mirrors s t) :
    Mirrors (Resolution.classScopes s superclass.isSome) (classScopes t id superclass) := by
  have hthis : thisName = superName → ∃ id', StaticType.instanceType id = .classType id' := nofun
  cases superclass with
  | none => exact h.openFrame.declare hthis
  | some super => exact (h.openFrame.declare fun _ => ⟨super, rfl⟩).openFrame.declare hthis

theorem frame_left {bs : List (Bindings Readiness)} {cs : List (Bindings StaticType)}
    (h : List.Forall₂ MirrorsFrame bs cs) {d : Nat} {b : Bindings Readiness}
    (hb : bs[d]? = some b) : ∃ c, cs[d]? = some c ∧ MirrorsFrame b c := by
  induction h generalizing d with
  | nil => simp at hb
  | cons hframe _ ih =>
    cases d with
    | zero =>
      cases hb
      exact ⟨_, rfl, hframe⟩
    | succ d => exact ih hb

theorem frame_right {bs : List (Bindings Readiness)} {cs : List (Bindings StaticType)}
    (h : List.Forall₂ MirrorsFrame bs cs) {d : Nat} {c : Bindings StaticType}
    (hc : cs[d]? = some c) : ∃ b, bs[d]? = some b ∧ MirrorsFrame b c := by
  induction h generalizing d with
  | nil => simp at hc
  | cons hframe _ ih =>
    cases d with
    | zero =>
      cases hc
      exact ⟨_, rfl, hframe⟩
    | succ d => exact ih hc

/-- A use of a name that resolution finds ready is found by typing in the same place. -/
theorem find? {x : String} {place : Place} (h : Mirrors s t) (hfind : s.find? x = some place)
    (hready : s.get? place x = some .defined) :
    t.find? x = some place ∧ ∃ type, t.get? place x = some type ∧
      (x = superName → ∃ id, type = .classType id) := by
  cases place with
  | global =>
    obtain ⟨hlocal, -⟩ := Scopes.find?_eq_global_iff.mp hfind
    have hbound : t.globals.contains x = true := (h.globals.names x).mpr hready
    -- No open frame binds the name, since each mirrors one of resolution that does not.
    refine ⟨Scopes.find?_eq_global_iff.mpr ⟨?_, hbound⟩, ?_⟩
    · intro c hc
      obtain ⟨d, hd⟩ := List.mem_iff_getElem?.mp hc
      obtain ⟨b, hb, hmirror⟩ := frame_right h.frames hd
      exact hmirror.contains_eq_false (hlocal b (List.mem_of_getElem? hb))
    · exact h.globals.find? hbound
  | frame d =>
    obtain ⟨b, hb, -, hbefore⟩ := Scopes.find?_eq_frame_iff.mp hfind
    obtain ⟨c, hc, hmirror⟩ := frame_left h.frames hb
    have hbound : c.contains x = true := by
      refine (hmirror.names x).mpr ?_
      simpa [Scopes.get?, Scopes.frame?, hb] using hready
    refine ⟨Scopes.find?_eq_frame_iff.mpr ⟨c, hc, hbound, ?_⟩, ?_⟩
    · intro e he c' hc'
      obtain ⟨b', hb', hmirror'⟩ := frame_right h.frames hc'
      exact hmirror'.contains_eq_false (hbefore e he b' hb')
    · obtain ⟨type, htype, hsuper⟩ := hmirror.find? hbound
      exact ⟨type, by simp [Scopes.get?, Scopes.frame?, hc, htype], hsuper⟩

/-- The frames at the start of a program. -/
theorem initial : Mirrors Resolution.initial.scopes Typing.initial.scopes := by
  have hall : ∀ (builtins : List Builtin) {s : Scopes Readiness} {t : Scopes StaticType},
      (∀ b ∈ builtins, b.name ≠ superName) → Mirrors s t →
      Mirrors (builtins.foldl (fun s b => s.declareGlobal b.name .defined) s)
        (builtins.foldl (fun t b => t.declareGlobal b.name (.function b.signature)) t) := by
    intro builtins
    induction builtins with
    | nil => exact fun _ h => h
    | cons b bs ih =>
      intro s t hne h
      obtain ⟨hb, hbs⟩ := List.forall_mem_cons.mp hne
      exact ih hbs ⟨h.globals.insert fun hsuper => absurd hsuper hb, h.frames⟩
  exact hall Builtin.all (by decide) ⟨.empty, .nil⟩

end Mirrors

/-! ### Steps under different tables -/

/-- Two tables agree on the given uses of names. -/
def AgreeOn (table other : Distances) (refs : List Reference) : Prop :=
  ∀ ref ∈ refs, table.get? ref.id = other.get? ref.id

/-- A step of typing, as a function of the table it is given, is right about the uses `refs`: it
    depends on the table only there, succeeds only under tables that agree with `table`, and under
    `table` itself it gives `post` or fails for a reason other than scopes. -/
structure Tracks {α : Type} (table : Distances) (step : Distances → Result α)
    (refs : List Reference) (post : α → Prop) : Prop where
  same : ∀ other, AgreeOn other table refs → step other = step table
  agrees : ∀ other a, step other = .ok a → AgreeOn other table refs
  post : ∀ a, step table = .ok a → post a
  fault : ∀ f, step table = .error f → ¬ f.what.AboutScopes

namespace Tracks

variable {α β : Type} {table : Distances} {step : Distances → Result α}
  {refs refs' : List Reference} {P : α → Prop} {Q : β → Prop}

/-- A step that does not look at the table. -/
theorem of_const {r : Result α} (hpost : ∀ a, r = .ok a → P a)
    (hfault : ∀ f, r = .error f → ¬ f.what.AboutScopes) : Tracks table (fun _ => r) [] P :=
  ⟨fun _ _ => rfl, fun _ _ _ => nofun, hpost, hfault⟩

theorem ok {a : α} (ha : P a) : Tracks table (fun _ => .ok a) [] P :=
  of_const (fun _ h => by cases h; exact ha) nofun

theorem error {f : Located TypeFault} (hf : ¬ f.what.AboutScopes) :
    Tracks table (fun _ => (.error f : Result α)) refs P :=
  ⟨fun _ _ => rfl, nofun, nofun, fun _ h => by cases h; exact hf⟩

/-- A weaker statement about the result. -/
theorem imp {P' : α → Prop} (h : Tracks table step refs P) (hpost : ∀ a, P a → P' a) :
    Tracks table step refs P' :=
  ⟨h.same, h.agrees, fun a ha => hpost a (h.post a ha), h.fault⟩

theorem congr_refs (refs : List Reference) (h : Tracks table step refs P)
    (hrefs : ∀ ref, ref ∈ refs ↔ ref ∈ refs') : Tracks table step refs' P := by
  have hagree : ∀ other, AgreeOn other table refs ↔ AgreeOn other table refs' := by
    intro other
    unfold AgreeOn
    simp only [hrefs]
  exact ⟨fun other ho => h.same other ((hagree other).mpr ho),
    fun other a ho => (hagree other).mp (h.agrees other a ho), h.post, h.fault⟩

/-- Two steps, the second of which uses what the first gives. -/
theorem bind {next : α → Distances → Result β} (h : Tracks table step refs P)
    (hnext : ∀ a, P a → Tracks table (next a) refs' Q) :
    Tracks table (fun other => step other >>= fun a => next a other) (refs ++ refs') Q := by
  constructor
  · intro other ho
    have hfirst : step other = step table :=
      h.same other fun ref hr => ho ref (List.mem_append_left refs' hr)
    simp only [hfirst]
    cases hstep : step table with
    | error f => rfl
    | ok a =>
      have hsecond := hnext a (h.post a hstep)
      exact hsecond.same other fun ref hr => ho ref (List.mem_append_right refs hr)
  · -- The first step alone makes the tables agree on its uses, so that both give the second step
    -- the same result.
    intro other b hb
    obtain ⟨a, ha, hb⟩ := except_bind_eq_ok.mp hb
    have hfirst : AgreeOn other table refs := h.agrees other a ha
    have ha' : step table = .ok a := (h.same other hfirst) ▸ ha
    have hsecond : AgreeOn other table refs' := (hnext a (h.post a ha')).agrees other b hb
    intro ref hr
    exact (List.mem_append.mp hr).elim (hfirst ref) (hsecond ref)
  · intro b hb
    obtain ⟨a, ha, hb⟩ := except_bind_eq_ok.mp hb
    exact (hnext a (h.post a ha)).post b hb
  · intro f hf
    cases hstep : step table with
    | error f' =>
      rw [hstep] at hf
      cases hf
      exact h.fault f hstep
    | ok a =>
      rw [hstep] at hf
      exact (hnext a (h.post a hstep)).fault f hf

/-- A step followed by one that does not look at the table. -/
theorem bind_const {next : α → Result β} (h : Tracks table step refs P)
    (hpost : ∀ a b, P a → next a = .ok b → Q b)
    (hfault : ∀ a f, P a → next a = .error f → ¬ f.what.AboutScopes) :
    Tracks table (fun other => step other >>= next) refs Q := by
  have hboth : Tracks table (fun other => step other >>= next) (refs ++ []) Q :=
    h.bind fun a ha => of_const (hpost a · ha) (hfault a · ha)
  rwa [List.append_nil] at hboth

/-- A step followed by a test that does not look at the table. -/
theorem test {next : α → Result β} (h : Tracks table step refs P)
    (hfault : ∀ a f, P a → next a = .error f → ¬ f.what.AboutScopes) :
    Tracks table (fun other => step other >>= next) refs fun _ => True :=
  h.bind_const (fun _ _ _ _ => trivial) hfault

/-- A step for an optional part, which uses the names of the part. -/
theorem mapM_option {γ : Type} {f : γ → Distances → Result α} {uses : γ → List Reference}
    (x : Option γ) (h : ∀ c ∈ x, Tracks table (f c) (uses c) P) :
    Tracks table (fun other => x.mapM fun c => f c other) (x.elim [] uses) fun y =>
      y.isSome = x.isSome := by
  cases x with
  | none => exact ok rfl
  | some c => exact (h c rfl).bind_const (fun a b _ hb => by cases hb; rfl) nofun

end Tracks

/-! ### Uses of names -/

variable {table : Distances} {returns : Option StaticType} {current : Option ClassId}
  {s : Scopes Readiness} {t : Typing}

/-- A name that is found has its type if the table records the place where it was found. -/
theorem lookUp_eq {context : TypeContext} {ref : Reference} {place : Place} {type : StaticType}
    (hfind : t.scopes.find? ref.name.text = some place)
    (hget : t.scopes.get? place ref.name.text = some type) :
    lookUp context t ref =
      if context.table.get? ref.id = place.distance? then .ok type
      else .error
        ⟨.scopeMismatch ref.name.text (context.table.get? ref.id) place, ref.name.pos⟩ := by
  simp only [lookUp, hfind]
  cases hrecorded : context.table.get? ref.id <;> cases place <;> simp [Place.distance?, hget]

theorem tracks_lookUp {ref : Reference} (h : Mirrors s t.scopes)
    (hbound : Resolution.Bound table s ref) :
    Tracks table (fun other => lookUp ⟨other, returns, current⟩ t ref) [ref] fun type =>
      ref.name.text = superName → ∃ id, type = .classType id := by
  obtain ⟨place, hfind, hready, hrecorded⟩ := hbound
  obtain ⟨hfind', type, hget, hsuper⟩ := h.find? hfind hready
  simp only [lookUp_eq hfind' hget]
  constructor
  · intro other ho
    rw [ho ref (List.mem_singleton.mpr rfl)]
  · intro other a hok ref' hr
    obtain rfl := List.mem_singleton.mp hr
    split at hok
    · next heq => rw [heq, hrecorded]
    · cases hok
  · intro a hok
    rw [if_pos hrecorded] at hok
    cases hok
    exact hsuper
  · intro f hf
    rw [if_pos hrecorded] at hf
    cases hf

theorem tracks_annotated {type : TypeName} (h : Mirrors s t.scopes)
    (hscoped : Resolution.ScopedType table s type) :
    Tracks table (fun other => annotated ⟨other, returns, current⟩ t type) type.references
      fun _ => True := by
  cases type with
  | named ref =>
    refine (tracks_lookUp h (hscoped ref (List.mem_singleton.mpr rfl))).test ?_
    intro found f _ hf
    cases found <;> cases hf <;> exact not_false
  | _ => exact Tracks.ok trivial

theorem tracks_params {params : List Param} (h : Mirrors s t.scopes)
    (hscoped : ∀ p ∈ params, Resolution.ScopedType table s p.type) :
    Tracks table
      (fun other => params.mapM fun p => annotated ⟨other, returns, current⟩ t p.type)
      (params.flatMap fun p => p.type.references) fun types => types.length = params.length := by
  induction params with
  | nil => exact Tracks.ok rfl
  | cons p ps ih =>
    obtain ⟨hp, hps⟩ := List.forall_mem_cons.mp hscoped
    simp only [List.mapM_cons]
    refine (tracks_annotated h hp).bind fun type _ => ?_
    refine (ih hps).bind_const ?_ nofun
    intro types types' hlength hok
    cases hok
    simpa using hlength

/-- The types of a function. -/
theorem tracks_signature {decl : FunctionDecl} (h : Mirrors s t.scopes)
    (hscoped : Resolution.ScopedSignature table s decl) :
    Tracks table (fun other => signature ⟨other, returns, current⟩ t decl) decl.typeReferences
      fun signature => signature.params.length = decl.params.length := by
  refine (tracks_params h hscoped.1).bind fun types hlength => ?_
  cases hreturns : decl.returns with
  | none => exact Tracks.ok hlength
  | some type =>
    refine (tracks_annotated h (hscoped.2 type (by rw [hreturns]; rfl))).bind_const ?_ nofun
    intro _ _ _ hok
    cases hok
    exact hlength

/-! ### Expressions -/

/-- Signs are not refused for the scopes. -/
theorem unary_fault {operator : Token} {operand : StaticType} {f : Located TypeFault}
    (h : unary operator operand = .error f) : ¬ f.what.AboutScopes := by
  unfold unary at h
  split at h <;> split at h <;> cases h <;> exact not_false

/-- Operators are not refused for the scopes. -/
theorem binary_fault {operator : Token} {left right : StaticType} {f : Located TypeFault}
    (h : binary operator left right = .error f) : ¬ f.what.AboutScopes := by
  unfold binary at h
  repeat' split at h
  all_goals cases h
  all_goals exact not_false

/-- Calls are not refused for the scopes. -/
theorem call_fault {paren : Position} {callee : StaticType} {arguments : List StaticType}
    {f : Located TypeFault} (h : call t paren callee arguments = .error f) :
    ¬ f.what.AboutScopes := by
  simp only [call] at h
  repeat' split at h
  all_goals cases h
  all_goals exact not_false

/-- Properties are not refused for the scopes. -/
theorem property_fault {context : TypeContext} {id : ClassId} {name : Name} {f : Located TypeFault}
    (h : property context t id name = .error f) : ¬ f.what.AboutScopes := by
  simp only [property] at h
  repeat' split at h
  all_goals cases h
  all_goals exact not_false

/-- Objects are not refused for the scopes. -/
theorem instanceClass_fault {object : StaticType} {name : Name} {f : Located TypeFault}
    (h : instanceClass object name = .error f) : ¬ f.what.AboutScopes := by
  cases object <;> cases h <;> exact not_false

mutual

theorem tracks_typeOf {around : Surroundings} (h : Mirrors s t.scopes) : ∀ {e : Expr},
    Resolution.ScopedExpr table around s e → e.WellFormed →
    Tracks table (fun other => typeOf ⟨other, returns, current⟩ t e) e.references fun _ => True
  | .literal value, _, _ => by
    cases value <;> exact Tracks.ok trivial
  | .grouping inner, hscoped, hwf => tracks_typeOf h (e := inner) hscoped hwf
  | .unary _ operand, hscoped, hwf =>
    (tracks_typeOf h (e := operand) hscoped hwf.2).test fun _ _ _ => unary_fault
  | .binary _ _ _, hscoped, hwf =>
    (tracks_typeOf h hscoped.1 hwf.2.1).bind fun _ _ =>
      (tracks_typeOf h hscoped.2 hwf.2.2).test fun _ _ _ => binary_fault
  | .logical _ _ _, hscoped, hwf => by
    refine (tracks_typeOf h hscoped.1 hwf.1).bind fun _ _ => ?_
    refine (tracks_typeOf h hscoped.2 hwf.2).test ?_
    intro _ f _ hf
    split at hf
    · cases hf
      exact not_false
    · split at hf <;> cases hf
      exact not_false
  | .ternary _ _ _ _, hscoped, hwf => by
    refine (tracks_typeOf h hscoped.1 hwf.1).bind fun type _ => ?_
    cases type.isBoolean with
    | false => exact Tracks.error not_false
    | true =>
      refine (tracks_typeOf h hscoped.2.1 hwf.2.1).bind fun _ _ => ?_
      refine (tracks_typeOf h hscoped.2.2 hwf.2.2).test ?_
      intro _ f _ hf
      split at hf <;> cases hf
      exact not_false
  | .var _, hscoped, _ => (tracks_lookUp h hscoped).imp fun _ _ => trivial
  | .assign target value, hscoped, hwf => by
    -- The value comes before the target here, and after it among the uses.
    refine Tracks.congr_refs (value.references ++ [target]) ?_ ?_
    · refine (tracks_typeOf h hscoped.1 hwf.2).bind fun _ _ => ?_
      refine (tracks_lookUp h hscoped.2).test ?_
      intro type f _ hf
      cases type <;> simp only at hf
      all_goals try split at hf
      all_goals cases hf
      all_goals exact not_false
    · intro ref
      simp [Expr.references, or_comm]
  | .call _ _ _, hscoped, hwf =>
    (tracks_typeOf h hscoped.1 hwf.1).bind fun _ _ =>
      (tracks_typesOf h hscoped.2 hwf.2).test fun _ _ _ => call_fault
  | .get object name, hscoped, hwf => by
    -- A property does not depend on the table.
    show Tracks table (fun other => typeOf ⟨other, returns, current⟩ t object >>= fun type =>
      instanceClass type name >>= fun id => property ⟨table, returns, current⟩ t id name) _ _
    refine (tracks_typeOf h (e := object) hscoped hwf).test ?_
    intro type f _ hf
    cases hid : instanceClass type name with
    | error f' =>
      rw [hid] at hf
      cases hf
      exact instanceClass_fault hid
    | ok id =>
      rw [hid] at hf
      exact property_fault hf
  | .set object name value, hscoped, hwf => by
    refine (tracks_typeOf h hscoped.1 hwf.1).bind fun type _ => ?_
    cases hid : instanceClass type name with
    | error f => exact Tracks.error (instanceClass_fault hid)
    | ok id =>
      simp only [ok_bind]
      cases ClassTable.findMethod? name.text t.classes id.index with
      | some method => exact Tracks.error not_false
      | none => exact tracks_typeOf h hscoped.2 hwf.2
  | .this _, hscoped, _ => (tracks_lookUp h hscoped.2).imp fun _ _ => trivial
  | .super keyword method, hscoped, hwf => by
    refine (tracks_lookUp h hscoped.2).test ?_
    intro type f hclass hf
    obtain ⟨id, rfl⟩ := hclass hwf
    simp only at hf
    split at hf <;> cases hf
    exact not_false

theorem tracks_typesOf {around : Surroundings} (h : Mirrors s t.scopes) : ∀ {es : List Expr},
    Resolution.ScopedExprs table around s es → Expr.AllWellFormed es →
    Tracks table (fun other => typesOf ⟨other, returns, current⟩ t es) (Expr.referencesAll es)
      fun _ => True
  | [], _, _ => Tracks.ok trivial
  | _ :: _, hscoped, hwf =>
    (tracks_typeOf h hscoped.1 hwf.1).bind fun _ _ => (tracks_typesOf h hscoped.2 hwf.2).test nofun

end

/-! ### Statements -/

theorem tracks_condition {around : Surroundings} {keyword : Position} {e : Expr}
    (h : Mirrors s t.scopes) (hscoped : Resolution.ScopedExpr table around s e)
    (hwf : e.WellFormed) :
    Tracks table (fun other => condition ⟨other, returns, current⟩ t keyword e) e.references
      fun _ => True := by
  refine (tracks_typeOf h hscoped hwf).test ?_
  intro _ f _ hf
  split at hf <;> cases hf
  exact not_false

theorem tracks_declaredType {around : Surroundings} {name : Name} {type : Option TypeName}
    {initializer : Option Expr} (h : Mirrors s t.scopes) (hwf : ∀ e ∈ initializer, e.WellFormed)
    (htype : ∀ type' ∈ type, Resolution.ScopedType table s type')
    (hnew : s.declaredHere name.text = false)
    (hscoped : ∀ e ∈ initializer,
      Resolution.ScopedExpr table around (s.declare name.text .declared) e) :
    Tracks table
      (fun other => declaredType ⟨other, returns, current⟩ t name type initializer)
      (Stmt.references (.val name type initializer)) fun _ => True := by
  refine (Tracks.mapM_option type fun type' ht => tracks_annotated h (htype type' ht)).bind
    fun declared _ => ?_
  refine (Tracks.mapM_option initializer fun e he =>
    tracks_typeOf (h.declare_declared hnew) (hscoped e he) (hwf e he)).test ?_
  intro inferred f _ hf
  cases declared <;> cases inferred <;> simp only at hf
  all_goals try split at hf
  all_goals cases hf
  all_goals exact not_false

/-- The test of a returned value against what the function has to return. -/
def fits (expected actual : StaticType) (keyword : Position) (t : Typing) : Result Typing :=
  if expected.compatible actual then .ok t else .error ⟨.returned actual expected, keyword⟩

/-- Comparing types leaves the state alone. -/
theorem fits_eq_ok {expected actual : StaticType} {keyword : Position} {t t' : Typing}
    (h : fits expected actual keyword t = .ok t') : t' = t := by
  unfold fits at h
  split at h <;> cases h
  rfl

theorem fits_fault {expected actual : StaticType} {keyword : Position} {f : Located TypeFault}
    (h : fits expected actual keyword t = .error f) : ¬ f.what.AboutScopes := by
  unfold fits at h
  split at h <;> cases h
  exact not_false

/-- The superclass of a class. -/
theorem tracks_superclassId {ref : Reference} (h : Mirrors s t.scopes)
    (hbound : Resolution.Bound table s ref) :
    Tracks table (fun other => superclassId ⟨other, returns, current⟩ t ref) [ref]
      fun _ => True := by
  refine (tracks_lookUp h hbound).test ?_
  intro type f _ hf
  cases type <;> cases hf <;> exact not_false

/-- A function has as many parameters as its type. -/
def FitsSignature (decl : FunctionDecl) (signature : Signature) : Prop :=
  signature.params.length = decl.params.length

/-- The types of the methods of a class. -/
theorem tracks_signatures {decls : List FunctionDecl} (h : Mirrors s t.scopes)
    (hscoped : ∀ decl ∈ decls, Resolution.ScopedSignature table s decl) :
    Tracks table (fun other => signatures ⟨other, returns, current⟩ t decls)
      (decls.flatMap FunctionDecl.typeReferences)
      (List.Forall₂ FitsSignature decls) := by
  unfold signatures
  induction decls with
  | nil => exact Tracks.ok .nil
  | cons decl decls ih =>
    obtain ⟨hdecl, hdecls⟩ := List.forall_mem_cons.mp hscoped
    simp only [List.mapM_cons]
    refine (tracks_signature h hdecl).bind fun signature hlength => ?_
    refine (ih hdecls).bind_const ?_ nofun
    intro signatures signatures' hrest hok
    cases hok
    exact .cons hlength hrest

mutual

theorem tracks_stmt : ∀ {s : Stmt} {around : Surroundings} {scopes : Scopes Readiness} {t : Typing}
    {returns : Option StaticType} {current : Option ClassId}, Mirrors scopes t.scopes →
    (around.body ≠ .topLevel → returns.isSome = true) →
    Resolution.ScopedStmt table around s scopes → s.WellFormed →
    Tracks table (fun other => stmt ⟨other, returns, current⟩ s t) s.references
      fun t' => Mirrors (s.after scopes) t'.scopes
  | .expression e, _, _, _, _, _, h, _, hscoped, hwf =>
    (tracks_typeOf h (e := e) hscoped hwf).bind_const (fun _ _ _ hok => by cases hok; exact h) nofun
  | .val name type initializer, _, _, _, _, _, h, _, hscoped, hwf => by
    refine (tracks_declaredType h hwf.2.2 hscoped.1 hscoped.2.1 hscoped.2.2).bind_const ?_ nofun
    intro type t' _ hok
    cases hok
    exact h.declare_plain type hwf.1
  | .block body, _, _, _, _, _, h, hreturns, hscoped, hwf => by
    refine (tracks_stmts body h.openFrame hreturns hscoped hwf).bind_const ?_ nofun
    intro _ _ _ hok
    cases hok
    exact h
  | .ifThen _ condition yes, _, scopes, _, _, _, h, hreturns, hscoped, hwf => by
    refine (tracks_condition h hscoped.1 hwf.1).bind fun _ _ => ?_
    refine (tracks_stmt h hreturns hscoped.2 hwf.2.1).imp fun t' ht' => ?_
    rwa [Stmt.after_eq_self hwf.2.2] at ht'
  | .ifElse _ condition yes no, _, scopes, _, _, _, h, hreturns, hscoped, hwf => by
    refine (tracks_condition h hscoped.1 hwf.1).bind fun _ _ => ?_
    refine (tracks_stmt h hreturns hscoped.2.1 hwf.2.1.1).bind fun t' ht' => ?_
    rw [Stmt.after_eq_self hwf.2.1.2] at ht'
    refine (tracks_stmt ht' hreturns hscoped.2.2 hwf.2.2.1).imp fun t'' ht'' => ?_
    rwa [Stmt.after_eq_self hwf.2.2.2] at ht''
  | .whileLoop _ condition body, _, scopes, _, _, _, h, hreturns, hscoped, hwf => by
    refine (tracks_condition h hscoped.1 hwf.1).bind fun _ _ => ?_
    refine (tracks_stmt h hreturns hscoped.2 hwf.2.1).imp fun t' ht' => ?_
    rwa [Stmt.after_eq_self hwf.2.2] at ht'
  | .funDecl ⟨name, params, types, body⟩, _, _, _, _, _, h, _, hscoped, hwf => by
    refine (tracks_signature h hscoped.1).bind fun signature hlength => ?_
    have hdeclared := h.declare_plain (.function signature) hwf.1
    refine (tracks_function hdeclared hlength hscoped.2.2 hwf).imp fun t' ht' => ?_
    rwa [ht']
  | .ret keyword value, _, _, t, returns, current, h, hreturns, hscoped, hwf => by
    obtain ⟨expected, rfl⟩ := Option.isSome_iff_exists.mp (hreturns hscoped.1)
    cases value with
    | none =>
      show Tracks table (fun _ => fits expected .void keyword t) [] _
      exact Tracks.of_const (fun t' hok => fits_eq_ok hok ▸ h) fun _ => fits_fault
    | some e =>
      show Tracks table (fun other => typeOf ⟨other, some expected, current⟩ t e >>= fun actual =>
        fits expected actual keyword t) _ _
      exact (tracks_typeOf h (hscoped.2.2 e rfl) (hwf e rfl)).bind_const
        (fun _ t' _ hok => fits_eq_ok hok ▸ h) fun _ _ _ => fits_fault
  | .classDecl name superclass decls, around, scopes, t, returns, current, h, _, hscoped, hwf => by
    obtain ⟨-, -, hsuper, hsignatures, hmethods⟩ := hscoped
    refine Tracks.congr_refs (superclass.elim [] (fun ref => [ref]) ++
      (decls.flatMap FunctionDecl.typeReferences ++
        decls.flatMap fun decl => Stmt.referencesAll decl.body)) ?_ ?_
    · -- Typing looks the superclass up before the class has its name, resolution after; the two
      -- names are different.
      refine (Tracks.mapM_option superclass fun ref hr => tracks_superclassId h
        ((hsuper ref hr).2.of_declare (hsuper ref hr).1)).bind fun super hisSome => ?_
      have hdeclared := h.declare_plain (.classType ⟨t.classes.length, name.text⟩) hwf.1
      refine (tracks_signatures (t := ⟨_, _⟩) hdeclared hsignatures).bind fun signatures hfits => ?_
      rw [← hisSome] at hmethods
      refine (tracks_methods (t := ⟨_, _⟩) hdeclared.classScopes hfits hmethods hwf.2.2).bind_const
        ?_ nofun
      intro _ _ _ hok
      cases hok
      exact hdeclared
    · intro ref
      have hperm := (Resolution.perm_referencesAll decls).mem_iff (a := ref)
      cases superclass <;> simp only [Stmt.references, List.mem_append, Option.elim_none,
        Option.elim_some, Option.toList_none, Option.toList_some, ← hperm]

/-- Lists of statements. -/
theorem tracks_stmts : ∀ (ss : List Stmt) {around : Surroundings} {scopes : Scopes Readiness}
    {t : Typing} {returns : Option StaticType} {current : Option ClassId}, Mirrors scopes t.scopes →
    (around.body ≠ .topLevel → returns.isSome = true) →
    Resolution.ScopedStmts table around ss scopes → Stmt.AllWellFormed ss →
    Tracks table (fun other => stmts ⟨other, returns, current⟩ ss t) (Stmt.referencesAll ss)
      fun _ => True
  | [], _, _, _, _, _, _, _, _, _ => Tracks.ok trivial
  | _ :: _, _, _, _, _, _, h, hreturns, hscoped, hwf =>
    (tracks_stmt h hreturns hscoped.1 hwf.1).bind fun _ ht =>
      tracks_stmts _ ht hreturns hscoped.2 hwf.2

theorem tracks_function : ∀ {decl : FunctionDecl} {signature : Signature} {around : Surroundings}
    {scopes : Scopes Readiness} {t : Typing} {returns : Option StaticType}
    {current : Option ClassId}, Mirrors scopes t.scopes → FitsSignature decl signature →
    Resolution.ScopedFunction table around decl scopes → decl.WellFormed →
    Tracks table (fun other => function ⟨other, returns, current⟩ decl signature t)
      (Stmt.referencesAll decl.body) fun t' => t'.scopes = t.scopes
  | ⟨_, params, _, body⟩, signature, _, _, _, _, _, h, hlength, hscoped, hwf => by
    have hparams := h.openFrame.params hlength fun p hp => (hwf.2.1 p hp).1
    refine Tracks.bind_const
      (tracks_stmts body hparams (fun _ => rfl) hscoped.2 hwf.2.2.2) ?_ nofun
    intro _ _ _ hok
    cases hok
    rfl

/-- Bodies of the methods of a class. -/
theorem tracks_methods : ∀ {decls : List FunctionDecl} {signatures : List Signature}
    {around : Surroundings} {scopes : Scopes Readiness} {t : Typing}
    {returns : Option StaticType} {current : Option ClassId}, Mirrors scopes t.scopes →
    List.Forall₂ FitsSignature decls signatures →
    Resolution.ScopedMethods table around decls scopes → FunctionDecl.AllWellFormed decls →
    Tracks table (fun other => methods ⟨other, returns, current⟩ decls signatures t)
      (decls.flatMap fun decl => Stmt.referencesAll decl.body) fun _ => True
  | [], _, _, _, _, _, _, _, _, _, _ => Tracks.ok trivial
  | decl :: _, _, _, _, _, _, _, h, .cons hlength hrest, hscoped, hwf => by
    refine (tracks_function h hlength hscoped.1 hwf.1).bind fun t' ht' => ?_
    exact tracks_methods (ht' ▸ h) hrest hscoped.2 hwf.2

end

end Typing

/-- A program that is resolved passes the type check under the tables that agree with the one of
    resolution about every use of a name, if it passes it under that one; there a violation is never
    about scopes. -/
theorem typecheck_ok_iff_agrees {source : String} {program : Program} {table : Distances}
    (hprogram : Source.program source = .ok program) (hresolve : resolve program = .ok table) :
    (∀ fault, typecheck table program = .error fault → ¬ fault.what.AboutScopes) ∧
      ∀ other, typecheck other program = .ok () ↔
        typecheck table program = .ok () ∧
          ∀ ref ∈ Stmt.referencesAll program, other.get? ref.id = table.get? ref.id := by
  have hwf := Source.program_wellFormed hprogram
  have hscoped := scoped_of_resolve hwf (Source.program_nodup hprogram) hresolve
  have htracks : Typing.Tracks table (fun other => typecheck other program)
      (Stmt.referencesAll program) fun _ => True :=
    (Typing.tracks_stmts program .initial (fun h => absurd rfl h) hscoped hwf).test nofun
  refine ⟨htracks.fault, fun other => ⟨fun hok => ?_, fun ⟨hok, hagree⟩ => ?_⟩⟩
  · have hagree := htracks.agrees other () hok
    exact ⟨(htracks.same other hagree).symm.trans hok, hagree⟩
  · exact (htracks.same other hagree).trans hok

/-- In a method of a subclass `this` is one frame out and `super` two. Under this table the program
    is accepted, and under any table that says otherwise about a use of a name it is refused. -/
theorem typecheck_subclass :
    ∃ program, Source.program
        "class A \x7b f() \x7b this; \x7d \x7d
        class B < A \x7b f() \x7b super.f(); \x7d \x7d B().f();" = .ok program ∧
      resolve program = .ok (.ofList [(0, 1), (2, 2)]) ∧
      typecheck (.ofList [(0, 1), (2, 2)]) program = .ok () ∧
      (∀ fault, typecheck (.ofList [(0, 1), (2, 2)]) program = .error fault →
        ¬ fault.what.AboutScopes) ∧
      ∀ other, typecheck other program = .ok () ↔
        typecheck (.ofList [(0, 1), (2, 2)]) program = .ok () ∧
          ∀ ref ∈ Stmt.referencesAll program,
            other.get? ref.id = (Distances.ofList [(0, 1), (2, 2)]).get? ref.id := by
  have hchecked : (Source.program
        "class A \x7b f() \x7b this; \x7d \x7d
        class B < A \x7b f() \x7b super.f(); \x7d \x7d B().f();").toOption.any
      (fun program => (resolve program).toOption = some (.ofList [(0, 1), (2, 2)]) ∧
        (typecheck (.ofList [(0, 1), (2, 2)]) program).toOption = some ()) = true := by
    decide +kernel
  obtain ⟨program, hprogram, hchecked⟩ := exists_ok_of_any hchecked
  obtain ⟨htable, hok⟩ := of_decide_eq_true hchecked
  have hresolve := ok_of_toOption htable
  exact ⟨program, hprogram, hresolve, ok_of_toOption hok,
    typecheck_ok_iff_agrees hprogram hresolve⟩

end ClassScript
