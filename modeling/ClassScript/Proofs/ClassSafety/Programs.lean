import ClassScript.Proofs.Containment

namespace ClassScript

/-!
# Classes as the type checker knows them

Where the methods of a class are checked, the frames around those of the method itself are known
exactly: the innermost of them binds the receiver, and the one outside of it, if there is one, binds
the superclass. The name of a class is bound to it for the rest of the program.

* `Typing.classFrames`, `Typing.Framed`: the frames around methods;
* `Typing.Known`, `Typing.known_of_visits`: what the checker knows at a place;
* `Typing.Complete`: what it knows at the end;
* `Typing.ClassSite`, `Typing.MethodOf`: class declarations, and where the methods of a class come
  from.
-/

/-- The bindings hold neither a receiver nor a superclass. -/
def Bindings.Plain {α : Type} (b : Bindings α) : Prop :=
  b.find? thisName = none ∧ b.find? superName = none

/-- One more ordinary name among ordinary names. -/
theorem Bindings.Plain.insert {α : Type} {b : Bindings α} {x : String} (h : b.Plain)
    (hx : x ≠ thisName ∧ x ≠ superName) (a : α) : (b.insert x a).Plain := by
  constructor
  · rw [Bindings.find?_insert, if_neg hx.1]
    exact h.1
  · rw [Bindings.find?_insert, if_neg hx.2]
    exact h.2

namespace Typing

/-! ### Frames of classes -/

/-- The frames that the methods of a class have around them. -/
def classFrames (classes : ClassTable) (id : ClassId) : List (Bindings StaticType) :=
  Bindings.empty.insert thisName (.instanceType id) ::
    (classes.superclass? id.index).toList.map fun super =>
      Bindings.empty.insert superName (.classType super)

/-- The innermost frames and the globals hold neither a receiver nor a superclass. -/
structure Framed (rest : List (Bindings StaticType)) (s : Scopes StaticType) : Prop where
  globals : s.globals.Plain
  frames : ∃ inner, s.frames = inner ++ rest ∧ ∀ b ∈ inner, b.Plain

namespace Framed

variable {rest : List (Bindings StaticType)} {s : Scopes StaticType}

/-- A new frame has no names. -/
theorem openFrame (h : Framed rest s) : Framed rest s.openFrame := by
  obtain ⟨inner, hframes, hplain⟩ := h.frames
  refine ⟨h.globals, .empty :: inner, ?_, List.forall_mem_cons.mpr ⟨⟨rfl, rfl⟩, hplain⟩⟩
  rw [Scopes.openFrame, hframes]
  rfl

theorem declare {x : String} (h : Framed rest s) (hx : x ≠ thisName ∧ x ≠ superName)
    (type : StaticType) (hrest : rest = [] ∨ rest.length < s.frames.length) :
    Framed rest (s.declare x type) := by
  obtain ⟨globals, frames⟩ := s
  obtain ⟨inner, hframes, hplain⟩ := h.frames
  simp only at hframes
  cases inner with
  | nil =>
    -- There is no frame but those of the class, and then there is no class.
    have hrest : rest = [] := hrest.resolve_right (by simp [hframes])
    subst hrest
    cases hframes
    exact ⟨h.globals.insert hx type, [], rfl, nofun⟩
  | cons b inner =>
    subst hframes
    obtain ⟨hb, hinner⟩ := List.forall_mem_cons.mp hplain
    exact ⟨h.globals, b.insert x type :: inner, rfl,
      List.forall_mem_cons.mpr ⟨hb.insert hx type, hinner⟩⟩

/-- A declaration opens no frame. -/
theorem length_declare (s : Scopes StaticType) (x : String) (type : StaticType) :
    (s.declare x type).frames.length = s.frames.length := by
  obtain ⟨globals, frames⟩ := s
  cases frames <;> rfl

/-- Parameters have ordinary names. -/
theorem params {params : List Param} {types : List StaticType} (h : Framed rest s)
    (hplain : ∀ p ∈ params, p.name.Plain) (hlt : rest.length < s.frames.length) :
    Framed rest ((params.zip types).foldl
        (fun scopes (p, type) => scopes.declare p.name.text type) s) ∧
      rest.length < ((params.zip types).foldl
        (fun scopes (p, type) => scopes.declare p.name.text type) s).frames.length := by
  induction params generalizing s types with
  | nil => exact ⟨h, hlt⟩
  | cons p ps ih =>
    cases types with
    | nil => exact ⟨h, hlt⟩
    | cons type types =>
      obtain ⟨hp, hps⟩ := List.forall_mem_cons.mp hplain
      refine ih (h.declare hp type (.inr hlt)) hps ?_
      rw [length_declare]
      exact hlt

/-- In the body of a function. -/
theorem inBody {decl : FunctionDecl} {site : Site} (h : Framed rest site.typing.scopes)
    (hplain : ∀ p ∈ decl.params, p.name.Plain) (signature : Signature) :
    Framed rest (inBody decl signature site).typing.scopes ∧
      rest.length < (Typing.inBody decl signature site).typing.scopes.frames.length := by
  refine h.openFrame.params hplain ?_
  obtain ⟨inner, hframes, -⟩ := h.frames
  rw [Scopes.openFrame, hframes, List.length_cons, List.length_append]
  omega

/-- A receiver or a superclass is bound in one of the outer frames. -/
theorem get? {place : Place} {x : String} {type : StaticType} (h : Framed rest s)
    (hx : x = thisName ∨ x = superName) (hget : s.get? place x = some type) :
    ∃ inner i b, place = .frame (inner.length + i) ∧ s.frames = inner ++ rest ∧
      rest[i]? = some b ∧ b.find? x = some type := by
  -- The globals and the frames further inside bind neither of the two names.
  have hnone : ∀ b : Bindings StaticType, b.Plain → b.find? x ≠ some type := by
    intro b hb hfind
    rcases hx with rfl | rfl
    · rw [hb.1] at hfind
      cases hfind
    · rw [hb.2] at hfind
      cases hfind
  obtain ⟨inner, hframes, hplain⟩ := h.frames
  obtain ⟨b, hb, hfind⟩ := Option.bind_eq_some_iff.mp hget
  cases place with
  | global =>
    cases hb
    exact absurd hfind (hnone _ h.globals)
  | frame d =>
    have hb : s.frames[d]? = some b := hb
    rw [hframes] at hb
    by_cases hd : d < inner.length
    · rw [List.getElem?_append_left hd] at hb
      exact absurd hfind (hnone b (hplain b (List.mem_of_getElem? hb)))
    · rw [List.getElem?_append_right (Nat.le_of_not_lt hd)] at hb
      refine ⟨inner, d - inner.length, b, ?_, hframes, hb, hfind⟩
      rw [Nat.add_sub_cancel' (Nat.le_of_not_lt hd)]

variable {classes : ClassTable} {current : Option ClassId} {place : Place} {type : StaticType}

/-- A receiver is an instance of the class at hand. -/
theorem receiver (h : Framed (current.elim [] (classFrames classes)) s)
    (hget : s.get? place thisName = some type) :
    ∃ id d, current = some id ∧ type = .instanceType id ∧ place = .frame d ∧
      s.frames[d]? = some (Bindings.empty.insert thisName (.instanceType id)) := by
  obtain ⟨inner, i, b, rfl, hframes, hb, hfind⟩ := h.get? (.inl rfl) hget
  cases current with
  | none => cases hb
  | some id =>
    simp only [Option.elim_some, classFrames] at hb hframes
    cases i with
    | zero =>
      cases hb
      rw [Bindings.find?_insert, if_pos rfl] at hfind
      cases hfind
      refine ⟨id, inner.length, rfl, rfl, rfl, ?_⟩
      rw [hframes, List.getElem?_append_right (Nat.le_refl _), Nat.sub_self]
      rfl
    | succ i =>
      obtain ⟨super, -, rfl⟩ := List.mem_map.mp (List.mem_of_getElem? hb)
      cases hfind

/-- A superclass is that of the class at hand, and it is bound one frame outside of the receiver. -/
theorem superclass (h : Framed (current.elim [] (classFrames classes)) s)
    (hget : s.get? place superName = some type) :
    ∃ id super d, current = some id ∧ classes.superclass? id.index = some super ∧
      type = .classType super ∧ place = .frame (d + 1) ∧
      s.frames[d]? = some (Bindings.empty.insert thisName (.instanceType id)) ∧
      s.frames[d + 1]? = some (Bindings.empty.insert superName (.classType super)) := by
  obtain ⟨inner, i, b, rfl, hframes, hb, hfind⟩ := h.get? (.inr rfl) hget
  cases current with
  | none => cases hb
  | some id =>
    simp only [Option.elim_some, classFrames] at hb hframes
    -- Around the frame of the receiver there is one for the superclass, if there is a superclass.
    cases hsuper : classes.superclass? id.index with
    | none =>
      rw [hsuper] at hb
      cases i with
      | zero =>
        cases hb
        cases hfind
      | succ i => cases hb
    | some super =>
      rw [hsuper] at hb hframes
      cases i with
      | zero =>
        cases hb
        cases hfind
      | succ i =>
        cases i with
        | succ i => cases hb
        | zero =>
          cases hb
          rw [Bindings.find?_insert, if_pos rfl] at hfind
          cases hfind
          refine ⟨id, super, inner.length, rfl, hsuper, rfl, rfl, ?_, ?_⟩
          · rw [hframes, List.getElem?_append_right (Nat.le_refl _), Nat.sub_self]
            rfl
          · rw [hframes, List.getElem?_append_right (Nat.le_add_right _ _), Nat.add_sub_cancel_left]
            rfl

end Framed

/-! ### What is known at a place -/

/-- What the checker knows at a place; `T` is what it knows at the end. -/
structure Known (T : Typing) (site : Site) : Prop where
  contained : Contained site
  /-- The name of each class is bound to it. -/
  named : ∀ i info, site.typing.classes.info? i = some info →
    site.typing.scopes.globals.find? info.name = some (.classType ⟨i, info.name⟩)
  framed : Framed (site.context.current.elim [] (classFrames T.classes)) site.typing.scopes
  /-- The methods of a class have a frame of their own. -/
  inside : site.context.current.isSome = true →
    (site.context.current.elim [] (classFrames T.classes)).length
      < site.typing.scopes.frames.length

variable {T : Typing}

/-- A class that the end knows about. -/
theorem info?_of_within {t : Typing} {name : Name} {super : Option ClassId}
    {methods : Bindings Signature} (h : (t.withClass name super methods).Within T) :
    T.classes.info? t.classes.length = some ⟨name.text, super, methods⟩ := by
  rw [ClassTable.info?_of_suffix h.classes (by simp [withClass])]
  exact ClassTable.info?_latest _ _

theorem insideClass_frames {site : Site} {id : ClassId} {super : Option ClassId}
    (hglobal : site.typing.scopes.frames = [])
    (hsuper : T.classes.superclass? id.index = super) :
    (insideClass id super site).typing.scopes.frames = classFrames T.classes id := by
  rw [classFrames, hsuper]
  cases super <;> simp [insideClass, classScopes, Scopes.declare, Scopes.openFrame, hglobal]

namespace Known

variable {site site' : Site}

/-- At the top level there is no class at hand. -/
theorem current_eq_none (h : Known T site) (hglobal : site.typing.scopes.frames = []) :
    site.context.current = none := by
  cases hcurrent : site.context.current with
  | none => rfl
  | some id =>
    have hlt := h.inside (by rw [hcurrent]; rfl)
    rw [hglobal] at hlt
    exact absurd hlt (Nat.not_lt_zero _)

theorem declare {x : String} {type : StaticType} (h : Known T site)
    (hx : x ≠ thisName ∧ x ≠ superName) (hnew : site.typing.scopes.declaredHere x = false)
    (htype : type.Admitted site.typing.names site.context.current) :
    Known T ⟨site.context, site.typing.declare x type⟩ := by
  refine ⟨h.contained.declare htype, ?_, ?_, ?_⟩
  · intro i info hinfo
    exact (Within.declare_new hnew type).globals _ _ (h.named i info hinfo)
  · refine h.framed.declare hx type ?_
    cases hcurrent : site.context.current with
    | none => exact .inl rfl
    | some id =>
      have hlt := h.inside (by rw [hcurrent]; rfl)
      rw [hcurrent] at hlt
      exact .inr hlt
  · intro hsome
    show _ < (site.typing.scopes.declare x type).frames.length
    rw [Framed.length_declare]
    exact h.inside hsome

theorem inBody {decl : FunctionDecl} {s : Signature} (h : Known T site)
    (hwritten : ∀ type ∈ s.params, type.Written site.typing.names)
    (hplain : ∀ p ∈ decl.params, p.name.Plain) : Known T (inBody decl s site) := by
  obtain ⟨hframed, hlt⟩ := h.framed.inBody hplain s
  refine ⟨h.contained.inBody hwritten, ?_, hframed, fun _ => hlt⟩
  intro i info hinfo
  rw [(inBody_local decl s site).1]
  exact h.named i info hinfo

variable {name : Name} {superclass : Option Reference} {decls : List FunctionDecl}
  {super : Option ClassId} {ss : List Signature}

/-- A class that the checker accepts. -/
theorem ofClass (h : Known T site) (hclass : ClassChecked site name superclass decls super ss) :
    Known T ⟨site.context, site.typing.withClass name super (methodTypes ss)⟩ := by
  have hcurrent := h.current_eq_none hclass.isGlobal
  refine ⟨h.contained.ofClass hclass, ?_, ?_, fun hsome => ?_⟩
  · intro i info hinfo
    have hold := (Within.declare_new hclass.isNew (.classType (site.typing.classId name))).globals
    simp only [withClass, ClassTable.info?] at hinfo
    split at hinfo
    · next hi =>
      cases hinfo
      subst hi
      exact Scopes.find?_globals_declare hclass.isGlobal _ _
    · exact hold _ _ (h.named i info hinfo)
  · exact h.framed.declare hclass.plain _ (.inl (by rw [hcurrent]; rfl))
  · rw [show site.context.current = none from hcurrent] at hsome
    cases hsome

/-- In the body of a method. -/
theorem ofMethod {decl : FunctionDecl} {s : Signature} (h : Known T site)
    (hclass : ClassChecked site name superclass decls super ss)
    (hend : (site.typing.withClass name super (methodTypes ss)).Within T)
    (hmem : (decl, s) ∈ decls.zip ss) :
    Known T (Typing.inBody decl s (insideClass (site.typing.classId name) super
      ⟨site.context, site.typing.withClass name super (methodTypes ss)⟩)) := by
  have hafter := h.ofClass hclass
  have hsuper : T.classes.superclass? (site.typing.classId name).index = super := by
    rw [ClassTable.superclass?, classId, info?_of_within hend]
    rfl
  have hglobal : (site.typing.withClass name super (methodTypes ss)).scopes.frames = [] :=
    (Scopes.frames_declare_eq_nil _ _ _).mpr hclass.isGlobal
  have hframed : Framed (classFrames T.classes (site.typing.classId name))
      (insideClass (site.typing.classId name) super
        ⟨site.context, site.typing.withClass name super (methodTypes ss)⟩).typing.scopes := by
    refine ⟨?_, [], insideClass_frames hglobal hsuper, List.forall_mem_nil _⟩
    rw [insideClass_globals]
    exact hafter.framed.globals
  obtain ⟨hbody, hlt⟩ := hframed.inBody (hclass.params decl (List.of_mem_zip hmem).1) s
  refine ⟨h.contained.moves (.method hclass hend hmem), ?_, hbody, fun _ => hlt⟩
  intro i info hinfo
  rw [(inBody_local _ _ _).1, insideClass_globals]
  exact hafter.named i info hinfo

/-- Each move of the checker keeps what is known. -/
theorem moves (h : Known T site) (hmoves : Moves T site site') : Known T site' := by
  cases hmoves with
  | stay => exact h
  | block =>
    have hcontained := h.contained.moves (T := T) .block
    refine ⟨hcontained, h.named, h.framed.openFrame, fun hsome => ?_⟩
    exact Nat.lt_succ_of_lt (h.inside hsome)
  | after hafter _ =>
    cases hafter with
    | plain => exact h
    | val hval =>
      exact h.declare hval.plain hval.isNew (admitted_of_declaredType h.contained hval.type)
    | funDecl hfunction =>
      exact h.declare hfunction.plain hfunction.isNew
        (StaticType.admitted_function (h.contained.signature hfunction.signature).1)
    | classDecl hclass => exact h.ofClass hclass
  | body hfunction _ =>
    obtain ⟨hformed, hwritten⟩ := h.contained.signature hfunction.signature
    exact (h.declare hfunction.plain hfunction.isNew
      (StaticType.admitted_function hformed)).inBody hwritten hfunction.params
  | method hclass hend hmem => exact h.ofMethod hclass hend hmem

theorem initial (T : Typing) (table : Distances) : Known T ⟨⟨table, none, none⟩, .initial⟩ :=
  ⟨.initial table, nofun, ⟨⟨rfl, rfl⟩, [], rfl, nofun⟩, nofun⟩

end Known

variable {table : Distances} {program : Program} {v : Visit Site}

theorem known_of_visits (hchecked : ∀ v, walk.Visits (start table program) v → Checked T table v)
    (h : walk.Visits (start table program) v) : Known T v.place :=
  site_induction hchecked (.initial T table) (fun _ _ hsite hmoves => hsite.moves hmoves) h

/-- What is known at the end. -/
theorem known_end (hchecked : ∀ v, walk.Visits (start table program) v → Checked T table v)
    (hcheck : stmts ⟨table, none, none⟩ program .initial = .ok T) :
    Known T ⟨⟨table, none, none⟩, T⟩ :=
  known_of_visits hchecked (visits_end (start table program).place hcheck)

/-- What the checker knows at the end: superclasses are older than their classes, and the name of
    each class is bound to it. -/
structure Complete (T : Typing) : Prop where
  ordered : T.classes.Ordered
  named : ∀ i info, T.classes.info? i = some info →
    T.scopes.globals.find? info.name = some (.classType ⟨i, info.name⟩)

theorem Known.complete {context : TypeContext} (h : Known T ⟨context, T⟩) : T.Complete :=
  ⟨h.contained.ordered, h.named⟩

/-! ### Class declarations -/

/-- A class declaration where the checker comes to it, and the superclass that the checker finds. -/
structure ClassSite (table : Distances) (program : Program) where
  site : Site
  name : Name
  superclass : Option Reference
  decls : List FunctionDecl
  super : Option ClassId
  visited : walk.Visits (start table program) ⟨.stmt (.classDecl name superclass decls), site⟩
  found : superclass.mapM (superclassId site.context site.typing) = .ok super

namespace ClassSite

variable (c : ClassSite table program)

/-- The number of the class. -/
def index : Nat := c.site.typing.classes.length

/-- The declaration of a method; of two with one name the later counts. -/
def method? (x : String) : Option FunctionDecl :=
  c.decls.reverse.find? fun decl => decl.name.text == x

/-- The type that the checker builds from the declaration of a method. -/
def Builds (decl : FunctionDecl) (s : Signature) : Prop :=
  signature c.site.context (c.site.typing.withClass c.name c.super .empty) decl = .ok s

end ClassSite

/-- The method `x` of the class with the given number has this declaration, from which the checker
    builds this type. It is declared by the class itself, or else it is that of the superclass. -/
inductive MethodOf (table : Distances) (program : Program) (x : String) :
    Nat → FunctionDecl → Signature → Prop where
  | own (c : ClassSite table program) {decl : FunctionDecl} {s : Signature}
      (h : c.method? x = some decl) (hs : c.Builds decl s) : MethodOf table program x c.index decl s
  | inherited (c : ClassSite table program) {id : ClassId} {decl : FunctionDecl} {s : Signature}
      (h : c.method? x = none) (hsuper : c.super = some id)
      (hs : MethodOf table program x id.index decl s) : MethodOf table program x c.index decl s

theorem signature_ok {context : TypeContext} {t : Typing} {decl : FunctionDecl} {s : Signature}
    (h : signature context t decl = .ok s) :
    s.name = decl.name.text ∧ s.params.length = decl.params.length := by
  obtain ⟨params, hparams, h⟩ := except_bind_eq_ok.mp h
  have hlength := (forall₂_of_mapM hparams).length_eq.symm
  obtain ⟨name, ps, returns, body⟩ := decl
  cases returns with
  | none =>
    cases h
    exact ⟨rfl, hlength⟩
  | some written =>
    obtain ⟨returned, -, h⟩ := except_bind_eq_ok.mp h
    cases h
    exact ⟨rfl, hlength⟩

/-- A method takes as many arguments as its type says. -/
theorem MethodOf.length_eq {x : String} {index : Nat} {decl : FunctionDecl} {s : Signature}
    (h : MethodOf table program x index decl s) : s.params.length = decl.params.length := by
  induction h with
  | own c _ hs => exact (signature_ok hs).2
  | inherited _ _ _ _ ih => exact ih

end Typing

end ClassScript
