import ClassScript.Proofs.CheckedSites

namespace ClassScript

/-!
# Types inside and outside of classes

What a program writes down as a type is a scalar or stands for the instances of a class that is
declared already, and functions return nothing else. A generic type comes from reading a field,
which only the methods of a class may do, and there is no way for it out of the class.

* `ClassId.KnownIn`: a class of the table under its name;
* `StaticType.Written`, `StaticType.Formed`: types that can be written, and types of expressions;
* `StaticType.Admitted`: types at a place, which are not generic outside of classes;
* `Typing.admitted_of_typeOf`: the type of an expression is admitted;
* `Typing.Contained`, `Typing.Contained.moves`: so is whatever the checker knows.
-/

/-! ### Classes and types -/

/-- The class is among those with the given names, the latest first. -/
def ClassId.KnownIn (names : List String) (id : ClassId) : Prop :=
  names.reverse[id.index]? = some id.name

namespace ClassId.KnownIn

variable {names : List String} {id : ClassId}

/-- A class that is known has one of the numbers. -/
theorem lt_length (h : id.KnownIn names) : id.index < names.length := by
  obtain ⟨hlt, -⟩ := List.getElem?_eq_some_iff.mp h
  simpa using hlt

theorem cons (h : id.KnownIn names) (name : String) : id.KnownIn (name :: names) := by
  have hlt : id.index < names.reverse.length := by simpa using h.lt_length
  rw [KnownIn, List.reverse_cons, List.getElem?_append_left hlt]
  exact h

/-- The class that is declared last is known. -/
theorem latest (name : String) (names : List String) :
    (⟨names.length, name⟩ : ClassId).KnownIn (name :: names) := by
  simp [KnownIn]

end ClassId.KnownIn

/-- A type that can be written down where the classes with these names are known. -/
def StaticType.Written (names : List String) : StaticType → Prop
  | .instanceType id => id.KnownIn names
  | type => type.Scalar

/-- The type of a built-in function that prints. -/
def Signature.Prints (s : Signature) : Prop :=
  s = Builtin.print.signature ∨ s = Builtin.println.signature

/-- A function takes and returns what can be written down; those that print take anything. -/
def Signature.Formed (names : List String) (s : Signature) : Prop :=
  ((∀ p ∈ s.params, p.Written names) ∨ s.Prints) ∧ s.returns.Written names

/-- A type that an expression can have where the classes with these names are known. -/
def StaticType.Formed (names : List String) : StaticType → Prop
  | .function s => s.Formed names
  | .classType id => id.KnownIn names
  | .instanceType id => id.KnownIn names
  | _ => True

/-- A type that a name or an expression can have at a place, given the class at hand. -/
def StaticType.Admitted (names : List String) (current : Option ClassId) (type : StaticType) :
    Prop :=
  type.Formed names ∧ (current = none → ∀ tags, type ≠ .generic tags)

namespace StaticType

variable {names : List String} {current : Option ClassId} {type : StaticType}

/-- A type without parts is admitted anywhere. -/
theorem Scalar.admitted (h : type.Scalar) : type.Admitted names current := by
  cases type with
  | boolean => exact ⟨trivial, nofun⟩
  | number => exact ⟨trivial, nofun⟩
  | string => exact ⟨trivial, nofun⟩
  | void => exact ⟨trivial, nofun⟩
  | _ => cases h

theorem Written.admitted (h : type.Written names) : type.Admitted names current := by
  cases type with
  | instanceType id => exact ⟨h, nofun⟩
  | _ => exact Scalar.admitted h

theorem Written.cons (h : type.Written names) (name : String) : type.Written (name :: names) := by
  cases type with
  | instanceType id => exact ClassId.KnownIn.cons h name
  | _ => exact h

theorem admitted_function {s : Signature} (h : s.Formed names) :
    (StaticType.function s).Admitted names current :=
  ⟨h, nofun⟩

/-- Inside a class anything may be generic. -/
theorem admitted_any (id : ClassId) : StaticType.any.Admitted names (some id) :=
  ⟨trivial, nofun⟩

end StaticType

theorem Signature.Formed.cons {names : List String} {s : Signature} (h : s.Formed names)
    (name : String) : s.Formed (name :: names) :=
  ⟨h.1.imp_left fun hparams p hp => (hparams p hp).cons name, h.2.cons name⟩

theorem StaticType.Admitted.cons {names : List String} {current : Option ClassId}
    {type : StaticType} (h : type.Admitted names current) (name : String) :
    type.Admitted (name :: names) current := by
  refine ⟨?_, h.2⟩
  cases type with
  | function s => exact Signature.Formed.cons h.1 name
  | classType id => exact ClassId.KnownIn.cons h.1 name
  | instanceType id => exact ClassId.KnownIn.cons h.1 name
  | _ => trivial

/-- What holds as one class is added holds as any classes are. -/
theorem forall_suffix {P : List String → Prop} (hcons : ∀ name {names}, P names → P (name :: names))
    {names names' : List String} (hsuffix : names <:+ names') (h : P names) : P names' := by
  obtain ⟨added, rfl⟩ := hsuffix
  induction added with
  | nil => exact h
  | cons name added ih => exact hcons name ih

theorem StaticType.Written.mono {names names' : List String} {type : StaticType}
    (h : type.Written names) (hnames : names <:+ names') : type.Written names' :=
  forall_suffix (P := fun names => type.Written names) (fun name _ h => h.cons name) hnames h

theorem Signature.Formed.mono {names names' : List String} {s : Signature} (h : s.Formed names)
    (hnames : names <:+ names') : s.Formed names' :=
  forall_suffix (P := fun names => s.Formed names) (fun name _ h => h.cons name) hnames h

theorem StaticType.Admitted.mono {names names' : List String} {current : Option ClassId}
    {type : StaticType} (h : type.Admitted names current) (hnames : names <:+ names') :
    type.Admitted names' current :=
  forall_suffix (P := fun names => type.Admitted names current) (fun name _ h => h.cons name) hnames
    h

/-- What is admitted anywhere is admitted inside a class. -/
theorem StaticType.Admitted.inside {names : List String} {current : Option ClassId}
    {type : StaticType} (h : type.Admitted names current) (id : ClassId) :
    type.Admitted names (some id) :=
  ⟨h.1, nofun⟩

theorem Builtin.formed_signature (b : Builtin) (names : List String) :
    b.signature.Formed names := by
  cases b with
  | print => exact ⟨.inr (.inl rfl), trivial⟩
  | println => exact ⟨.inr (.inr rfl), trivial⟩
  | _ => simp [signature, Signature.Formed, StaticType.Written, StaticType.Scalar]

/-! ### Scopes -/

/-- Every name in the scopes and what it is bound to satisfy `P`. -/
def Scopes.Every {α : Type} (P : String → α → Prop) (s : Scopes α) : Prop :=
  ∀ b ∈ s.globals :: s.frames, ∀ x a, b.find? x = some a → P x a

namespace Scopes.Every

variable {α : Type} {P Q : String → α → Prop} {s : Scopes α}

theorem imp (h : s.Every P) (hPQ : ∀ x a, P x a → Q x a) : s.Every Q :=
  fun b hb x a ha => hPQ x a (h b hb x a ha)

/-- A new frame holds no name. -/
theorem openFrame (h : s.Every P) : s.openFrame.Every P := by
  intro b hb
  simp only [Scopes.openFrame, List.mem_cons] at hb
  rcases hb with rfl | rfl | hb
  · exact h _ List.mem_cons_self
  · nofun
  · exact h b (List.mem_cons_of_mem _ hb)

theorem declare {x : String} {a : α} (h : s.Every P) (ha : P x a) : (s.declare x a).Every P := by
  -- One frame of the scopes has one more name.
  have hinsert : ∀ b ∈ s.globals :: s.frames, ∀ y a', (b.insert x a).find? y = some a' →
      P y a' := by
    intro b hb y a' ha'
    rw [Bindings.find?_insert] at ha'
    split at ha'
    · next hy =>
      cases ha'
      exact hy ▸ ha
    · exact h b hb y a' ha'
  obtain ⟨globals, frames⟩ := s
  cases frames with
  | nil =>
    intro b hb
    cases List.mem_singleton.mp hb
    exact hinsert globals List.mem_cons_self
  | cons frame outer =>
    intro b hb
    simp only [Scopes.declare, List.mem_cons] at hb
    rcases hb with rfl | rfl | hb
    · exact h _ List.mem_cons_self
    · exact hinsert frame (by simp)
    · exact h b (by simp [hb])

theorem get? (h : s.Every P) {place : Place} {x : String} {a : α}
    (ha : s.get? place x = some a) : P x a := by
  obtain ⟨b, hb, hfind⟩ := Option.bind_eq_some_iff.mp ha
  cases place with
  | global =>
    cases hb
    exact h _ List.mem_cons_self x a hfind
  | frame d => exact h b (List.mem_cons_of_mem _ (List.mem_of_getElem? hb)) x a hfind

theorem params {P : String → StaticType → Prop} {s : Scopes StaticType} {params : List Param}
    {types : List StaticType} (h : s.Every P) (htypes : ∀ type ∈ types, ∀ x, P x type) :
    ((params.zip types).foldl (fun scopes (p, type) => scopes.declare p.name.text type) s).Every
      P := by
  induction params generalizing s types with
  | nil => exact h
  | cons p ps ih =>
    cases types with
    | nil => exact h
    | cons type types =>
      obtain ⟨htype, htypes⟩ := List.forall_mem_cons.mp htypes
      exact ih (h.declare (htype p.name.text)) htypes

end Scopes.Every

namespace Typing

/-! ### Types of expressions -/

/-- The names of the classes that are known, the latest first. -/
def names (t : Typing) : List String := t.classes.map ClassInfo.name

theorem lt_length_classes {t : Typing} {id : ClassId} (h : id.KnownIn t.names) :
    id.index < t.classes.length := by
  simpa [names] using h.lt_length

/-- Outside of classes no type is generic, all types are formed, and superclasses are older than
    their classes. -/
structure Contained (site : Site) : Prop where
  scopes : site.typing.scopes.Every fun _ =>
    StaticType.Admitted site.typing.names site.context.current
  methods : ∀ info ∈ site.typing.classes, ∀ x s, info.methods.find? x = some s →
    s.Formed site.typing.names
  ordered : site.typing.classes.Ordered

theorem findMethod?_mem {name : String} {classes : ClassTable} {index : Nat} {s : Signature}
    (h : classes.findMethod? name index = some s) :
    ∃ info ∈ classes, info.methods.find? name = some s := by
  induction classes generalizing index with
  | nil => cases h
  | cons first rest ih =>
    have hrest : ∀ {i}, ClassTable.findMethod? name rest i = some s →
        ∃ info ∈ first :: rest, info.methods.find? name = some s := by
      intro i hi
      obtain ⟨info, hmem, hfind⟩ := ih hi
      exact ⟨info, List.mem_cons_of_mem _ hmem, hfind⟩
    rw [ClassTable.findMethod?] at h
    split at h
    · split at h
      · next method hmethod =>
        cases h
        exact ⟨first, List.mem_cons_self, hmethod⟩
      · split at h
        · exact hrest h
        · cases h
    · exact hrest h

namespace Contained

variable {context : TypeContext} {t : Typing} {type : StaticType}

theorem lookUp {ref : Reference} (h : Contained ⟨context, t⟩)
    (htype : lookUp context t ref = .ok type) : type.Admitted t.names context.current := by
  obtain ⟨place, -, hget, -⟩ := lookUp_ok htype
  exact h.scopes.get? hget

theorem findMethod? {name : String} {index : Nat} {s : Signature} (h : Contained ⟨context, t⟩)
    (hs : t.classes.findMethod? name index = some s) : s.Formed t.names := by
  obtain ⟨info, hinfo, hfind⟩ := findMethod?_mem hs
  exact h.methods info hinfo name s hfind

/-- What is written down as a type. -/
theorem annotated {written : TypeName} (h : Contained ⟨context, t⟩)
    (htype : annotated context t written = .ok type) : type.Written t.names := by
  cases written with
  | named ref =>
    obtain ⟨found, hfound, htype⟩ := except_bind_eq_ok.mp htype
    cases found with
    | classType id =>
      cases htype
      exact (h.lookUp hfound).1
    | _ => cases htype
  | _ =>
    cases htype
    trivial

/-- The types of parameters are written ones. -/
theorem mapM_annotated {params : List Param} {types : List StaticType}
    (h : Contained ⟨context, t⟩)
    (htypes : params.mapM (fun p => Typing.annotated context t p.type) = .ok types) :
    ∀ type ∈ types, type.Written t.names := by
  have hall := forall₂_of_mapM htypes
  clear htypes
  induction hall with
  | nil => nofun
  | cons hp _ ih => exact List.forall_mem_cons.mpr ⟨h.annotated hp, ih⟩

/-- A function takes and returns what is written down. -/
theorem signature {decl : FunctionDecl} {s : Signature} (h : Contained ⟨context, t⟩)
    (hs : signature context t decl = .ok s) :
    s.Formed t.names ∧ ∀ type ∈ s.params, type.Written t.names := by
  obtain ⟨params, hparams, hs⟩ := except_bind_eq_ok.mp hs
  have hwritten := h.mapM_annotated hparams
  obtain ⟨name, ps, returns, body⟩ := decl
  cases returns with
  | none =>
    cases hs
    exact ⟨⟨.inl hwritten, trivial⟩, hwritten⟩
  | some written =>
    obtain ⟨returned, hreturned, hs⟩ := except_bind_eq_ok.mp hs
    cases hs
    exact ⟨⟨.inl hwritten, h.annotated hreturned⟩, hwritten⟩

/-- What a call gives. -/
theorem call {paren : Position} {callee : StaticType} {types : List StaticType}
    (hcallee : callee.Admitted t.names context.current)
    (htype : call t paren callee types = .ok type) : type.Admitted t.names context.current := by
  cases callee with
  | function s =>
    obtain ⟨-, rfl⟩ := call_function_ok htype
    exact hcallee.1.2.admitted
  | classType id =>
    obtain ⟨-, rfl⟩ := call_class_ok htype
    exact ⟨hcallee.1, nofun⟩
  | generic tags =>
    -- What is generic can be called, but only inside a class.
    rw [call_generic_ok htype]
    exact ⟨trivial, fun hnone => absurd rfl (hcallee.2 hnone tags)⟩
  | _ => cases htype

/-- What is read from an object. -/
theorem property {id : ClassId} {name : Name} (h : Contained ⟨context, t⟩)
    (htype : property context t id name = .ok type) : type.Admitted t.names context.current := by
  rcases property_ok htype with ⟨s, hs, rfl⟩ | ⟨current, hcurrent, -, -, rfl⟩
  · exact StaticType.admitted_function (h.findMethod? hs)
  · rw [hcurrent]
    exact StaticType.admitted_any current

end Contained

variable {context : TypeContext} {t : Typing}

/-- The type of an expression is admitted where it stands. -/
theorem admitted_of_typeOf (h : Contained ⟨context, t⟩) : ∀ (e : Expr) {type : StaticType},
    typeOf context t e = .ok type → type.Admitted t.names context.current
  | .literal value, _, htype => by
    cases value <;> cases htype <;> exact ⟨trivial, nofun⟩
  | .grouping inner, _, htype => by
    rw [typeOf] at htype
    exact admitted_of_typeOf h inner htype
  | .unary _ _, _, htype => by
    obtain ⟨_, -, htype⟩ := typeOf_unary_ok htype
    exact (unary_scalar htype).admitted
  | .binary _ _ _, _, htype => by
    obtain ⟨_, _, -, -, htype⟩ := typeOf_binary_ok htype
    exact (binary_scalar htype).admitted
  | .logical _ _ _, _, htype => by
    obtain ⟨-, -, -, -, -, -, rfl⟩ := typeOf_logical_ok htype
    exact ⟨trivial, nofun⟩
  | .ternary _ _ yes _, _, htype => by
    obtain ⟨-, -, -, -, hyes, -, -⟩ := typeOf_ternary_ok htype
    exact admitted_of_typeOf h yes hyes
  | .var _, _, htype => by
    rw [typeOf] at htype
    exact h.lookUp htype
  | .assign _ value, _, htype => by
    obtain ⟨-, hvalue, -⟩ := typeOf_assign_ok htype
    exact admitted_of_typeOf h value hvalue
  | .call callee _ _, _, htype => by
    obtain ⟨calleeType, _, hcallee, -, htype⟩ := typeOf_call_ok htype
    exact Contained.call (admitted_of_typeOf h callee hcallee) htype
  | .get _ _, _, htype => by
    obtain ⟨id, -, htype⟩ := typeOf_get_ok htype
    exact h.property htype
  | .set _ _ value, _, htype => by
    obtain ⟨-, -, hvalue⟩ := typeOf_set_ok htype
    exact admitted_of_typeOf h value hvalue
  | .this _, _, htype => by
    rw [typeOf] at htype
    exact h.lookUp htype
  | .super _ _, _, htype => by
    obtain ⟨id, s, -, hs, rfl⟩ := typeOf_super_ok htype
    exact StaticType.admitted_function (h.findMethod? hs)

/-- The type of a variable is admitted. -/
theorem admitted_of_declaredType {name : Name} {written : Option TypeName}
    {initializer : Option Expr} {type : StaticType} (h : Contained ⟨context, t⟩)
    (htype : declaredType context t name written initializer = .ok type) :
    type.Admitted t.names context.current := by
  cases initializer with
  | some e =>
    obtain ⟨inferred, hinferred, ⟨rfl, rfl⟩ | ⟨⟨written, hwritten⟩, -⟩⟩ := declaredType_ok htype
    · exact admitted_of_typeOf h e hinferred
    · exact (h.annotated hwritten).admitted
  | none =>
    rcases declaredType_none_ok htype with rfl | ⟨written, hwritten⟩
    · exact ⟨trivial, nofun⟩
    · exact (h.annotated hwritten).admitted

/-! ### Along the walk -/

/-- A class is known once its name is declared. -/
theorem classId_known (t : Typing) (name : Name) :
    (t.classId name).KnownIn (name.text :: t.names) := by
  have hlength : t.classes.length = t.names.length := by simp [names]
  rw [classId, hlength]
  exact .latest _ _

/-- The superclass is the class that its name has as a type. -/
theorem superclass_ok {superclass : Option Reference} {super : Option ClassId}
    (h : superclass.mapM (superclassId context t) = .ok super) :
    Option.Rel (fun ref id => lookUp context t ref = .ok (.classType id)) superclass super := by
  cases superclass with
  | none =>
    cases h
    exact .none
  | some ref =>
    obtain ⟨id, hid, hsome⟩ := except_bind_eq_ok.mp h
    cases hsome
    obtain ⟨found, hfound, hid⟩ := except_bind_eq_ok.mp hid
    cases found with
    | classType id =>
      cases hid
      exact .some hfound
    | _ => cases hid

theorem signatures_ok {decls : List FunctionDecl} {ss : List Signature}
    (h : signatures context t decls = .ok ss) :
    List.Forall₂ (fun decl s => signature context t decl = .ok s) decls ss :=
  forall₂_of_mapM h

theorem exists_signature_of_mem {decls : List FunctionDecl} {ss : List Signature} {s : Signature}
    (h : signatures context t decls = .ok ss) (hs : s ∈ ss) :
    ∃ decl, signature context t decl = .ok s := by
  have hall := signatures_ok h
  clear h
  induction hall with
  | nil => cases hs
  | cons hfirst _ ih =>
    rcases List.mem_cons.mp hs with rfl | hs
    · exact ⟨_, hfirst⟩
    · exact ih hs

namespace Contained

variable {site site' : Site} {name : Name} {superclass : Option Reference}
  {decls : List FunctionDecl} {super : Option ClassId} {ss : List Signature}

/-- A name with an admitted type. -/
theorem declare {x : String} {type : StaticType} (h : Contained site)
    (htype : type.Admitted site.typing.names site.context.current) :
    Contained ⟨site.context, site.typing.declare x type⟩ :=
  ⟨h.scopes.declare htype, h.methods, h.ordered⟩

theorem inBody {decl : FunctionDecl} {s : Signature} (h : Contained site)
    (hs : ∀ type ∈ s.params, type.Written site.typing.names) : Contained (inBody decl s site) :=
  ⟨h.scopes.openFrame.params fun type htype _ => (hs type htype).admitted, h.methods, h.ordered⟩

/-- One more class, whose methods are of formed types. -/
theorem withClass {methods : Bindings Signature} (h : Contained site)
    (hsuper : superclass.mapM (superclassId site.context site.typing) = .ok super)
    (hmethods : ∀ x s, methods.find? x = some s →
      s.Formed (site.typing.withClass name super methods).names) :
    Contained ⟨site.context, site.typing.withClass name super methods⟩ := by
  have hscopes := h.scopes.imp fun _ type htype => htype.cons name.text
  refine ⟨hscopes.declare ⟨classId_known site.typing name, nofun⟩, ?_, ?_, ?_⟩
  · intro info hinfo x s hs
    rcases List.mem_cons.mp hinfo with rfl | hinfo
    · exact hmethods x s hs
    · exact (h.methods info hinfo x s hs).cons name.text
  · rintro id ⟨⟩
    cases superclass_ok hsuper with
    | some hlookUp =>
      exact lt_length_classes (h.lookUp hlookUp).1
  · exact h.ordered

/-- The types of the methods of a class, which may use the class itself. -/
theorem signatures (h : Contained site)
    (hsuper : superclass.mapM (superclassId site.context site.typing) = .ok super)
    (hss : signatures site.context (site.typing.withClass name super .empty) decls = .ok ss)
    {s : Signature} (hs : s ∈ ss) :
    s.Formed (site.typing.withClass name super .empty).names ∧
      ∀ type ∈ s.params, type.Written (site.typing.withClass name super .empty).names := by
  have hnone : ∀ x s, (Bindings.empty : Bindings Signature).find? x = some s →
      s.Formed (site.typing.withClass name super .empty).names := nofun
  have hempty : Contained ⟨site.context, site.typing.withClass name super .empty⟩ :=
    h.withClass hsuper hnone
  obtain ⟨decl, hdecl⟩ := exists_signature_of_mem hss hs
  exact hempty.signature hdecl

/-- A class with its methods. -/
theorem withMethods (h : Contained site)
    (hsuper : superclass.mapM (superclassId site.context site.typing) = .ok super)
    (hss : ∀ s ∈ ss, s.Formed (site.typing.withClass name super .empty).names) :
    Contained ⟨site.context, site.typing.withClass name super (methodTypes ss)⟩ := by
  refine h.withClass hsuper fun x s hs => ?_
  obtain ⟨s', hs', heq⟩ := List.mem_map.mp (Bindings.find?_ofList hs)
  cases heq
  exact hss _ hs'

/-- A class that the checker accepts. -/
theorem ofClass (h : Contained site)
    (hclass : ClassChecked site name superclass decls super ss) :
    Contained ⟨site.context, site.typing.withClass name super (methodTypes ss)⟩ :=
  h.withMethods hclass.superclass fun _ hs =>
    (h.signatures hclass.superclass hclass.signatures hs).1

theorem insideClass {id : ClassId} (h : Contained site) (hid : id.KnownIn site.typing.names)
    (hsuper : ∀ id' ∈ super, id'.KnownIn site.typing.names) :
    Contained (insideClass id super site) := by
  have hscopes := h.scopes.imp fun _ type htype => htype.inside id
  have hthis : (StaticType.instanceType id).Admitted site.typing.names (some id) := ⟨hid, nofun⟩
  refine ⟨?_, h.methods, h.ordered⟩
  cases super with
  | none => exact hscopes.openFrame.declare hthis
  | some id' =>
    have hclass : (StaticType.classType id').Admitted site.typing.names (some id) :=
      ⟨hsuper id' rfl, nofun⟩
    exact (hscopes.openFrame.declare hclass).openFrame.declare hthis

/-- A superclass is known where its class is declared, and inside the class. -/
theorem superclass_known {methods : Bindings Signature} (h : Contained site)
    (hsuper : superclass.mapM (superclassId site.context site.typing) = .ok super) :
    ∀ id ∈ super, id.KnownIn (site.typing.withClass name super methods).names := by
  rintro id ⟨⟩
  cases superclass_ok hsuper with
  | some hlookUp => exact ClassId.KnownIn.cons (h.lookUp hlookUp).1 name.text

theorem moves {T : Typing} (h : Contained site) (hmoves : Moves T site site') :
    Contained site' := by
  cases hmoves with
  | stay => exact h
  | block => exact ⟨h.scopes.openFrame, h.methods, h.ordered⟩
  | after hafter _ =>
    cases hafter with
    | plain => exact h
    | val hval => exact h.declare (admitted_of_declaredType h hval.type)
    | funDecl hfunction =>
      exact h.declare (StaticType.admitted_function (h.signature hfunction.signature).1)
    | classDecl hclass => exact h.ofClass hclass
  | body hfunction _ =>
    obtain ⟨hformed, hwritten⟩ := h.signature hfunction.signature
    exact (h.declare (StaticType.admitted_function hformed)).inBody hwritten
  | @method name superclass decls super ss decl s hclass _ hmem =>
    have hinside := (h.ofClass hclass).insideClass (classId_known site.typing name)
      (h.superclass_known hclass.superclass)
    have hs : s ∈ ss := (List.of_mem_zip hmem).2
    exact hinside.inBody (h.signatures hclass.superclass hclass.signatures hs).2

theorem initial (table : Distances) : Contained ⟨⟨table, none, none⟩, .initial⟩ := by
  refine ⟨?_, nofun, trivial⟩
  intro b hb x type htype
  cases List.mem_singleton.mp hb
  obtain ⟨b, rfl, rfl⟩ := builtin_of_initial htype
  exact StaticType.admitted_function (b.formed_signature _)

end Contained

end Typing

end ClassScript
