import ClassScript.Proofs.TypeSafety.Programs

namespace ClassScript

/-!
# Values and frames of their types

What a value is of which type does not depend on the frames: a function is of the type that it
declares. A frame fits the types that the checker knows for its names if it binds each of them to a
value of its type. No step of a run changes the type of what a name is bound to, so that frames go
on fitting.

* `Value.Fits`: values of a type;
* `TypeSafety.Matches`: a frame fits the scopes of the checker;
* `TypeSafety.ClosureFits`, `TypeSafety.ValueFits`: what functions carry with them;
* `TypeSafety.Sound`, `TypeSafety.Later`: machines whose values fit, and what changes on them;
* `TypeSafety.Stands`: a machine in the frame of a place.
-/

/-! ### Values -/

theorem Tag.mem_all (tag : Tag) : tag ∈ all := by
  cases tag <;> decide

/-- The value is of the type. -/
def Value.Fits : Value → StaticType → Prop
  | .boolean _, .boolean => True
  | .number _, .number => True
  | .string _, .string => True
  | .void, .void => True
  | .builtin b, .function s => b.signature.Alike s
  | .function _ closure, .function s => closure.decl.Declares s
  | v, .generic tags => v.tag ∈ tags
  | _, _ => False

namespace Value.Fits

variable {v w : Value} {type other : StaticType}

theorem boolean (h : v.Fits .boolean) : ∃ b, v = .boolean b := by
  cases v with
  | boolean b => exact ⟨b, rfl⟩
  | _ => cases h

/-- A value that fits the type of numbers is one. -/
theorem number (h : v.Fits .number) : ∃ x, v = .number x := by
  cases v with
  | number x => exact ⟨x, rfl⟩
  | _ => cases h

/-- A value that fits the type of strings is one. -/
theorem string (h : v.Fits .string) : ∃ text, v = .string text := by
  cases v with
  | string text => exact ⟨text, rfl⟩
  | _ => cases h

/-- The kind of a value is the tag of its type. -/
theorem tag? (h : v.Fits type) (htype : type.OfName) : type.tag? = some v.tag := by
  rcases htype with hfirst | ⟨b, -, rfl⟩
  · cases type with
    | generic tags => cases hfirst
    | _ => cases v <;> first | rfl | cases h
  · cases v <;> first | rfl | cases h

/-- A value is a function of one type, but for names. -/
theorem alike {s s' : Signature} (h : v.Fits (.function s)) (h' : v.Fits (.function s')) :
    s.Alike s' := by
  cases v with
  | builtin b => exact ⟨h'.1.trans h.1.symm, h'.2.trans h.2.symm⟩
  | function identity closure => exact FunctionDecl.Declares.alike h h'
  | _ => cases h

/-- Types of first order that are compatible have the same values. -/
theorem of_compatible (h : v.Fits other) (htype : type.FirstOrder) (hother : other.FirstOrder)
    (hcompatible : type.compatible other = true) : v.Fits type := by
  rcases htype.alike hother hcompatible with rfl | ⟨s, s', rfl, rfl, halike⟩
  · exact h
  · cases v with
    | builtin b => exact ⟨halike.1.symm.trans h.1, halike.2.symm.trans h.2⟩
    | function identity closure =>
      refine ⟨h.params.trans ?_, h.returns.trans ?_⟩
      · rw [halike.1]
      · rw [halike.2]
    | _ => cases h

/-- Two values of one scalar type are of the same types. -/
theorem of_scalar (htype : type.Scalar) (hv : v.Fits type) (hw : w.Fits type)
    (h : v.Fits other) : w.Fits other := by
  cases type <;> cases htype <;> cases v <;> cases hv <;> cases w <;> cases hw
  all_goals cases other <;> exact h

/-- Every value fits the type of all values. -/
theorem any (v : Value) : v.Fits .any := by
  cases v <;> exact Tag.mem_all _

end Value.Fits

/-- Arguments that a function accepts are of the types of its parameters. -/
theorem Value.fits_of_accepts {s : Signature} {values : List Value} {types : List StaticType}
    (hs : (StaticType.function s).OfName) (htypes : ∀ type ∈ types, type.FirstOrder)
    (haccepts : s.accepts types = true) (h : List.Forall₂ Value.Fits values types) :
    List.Forall₂ Value.Fits values s.params := by
  rcases hs with ⟨hparams, -⟩ | ⟨b, hb, hsignature⟩
  · rw [← StaticType.eq_of_compatibleAll hparams htypes haccepts]
    exact h
  · -- What is printed may be anything.
    cases hsignature
    have hany : b.signature.params = [.any] := by
      simp only [Builtin.printers, List.mem_cons, List.not_mem_nil, or_false] at hb
      rcases hb with rfl | rfl <;> rfl
    rw [Signature.accepts, hany] at haccepts
    rw [hany]
    cases h with
    | nil => cases haccepts
    | cons hv hrest =>
      cases hrest with
      | nil => exact .cons (.any _) .nil
      | cons _ _ =>
        rw [StaticType.compatibleAll, Bool.and_eq_true] at haccepts
        cases haccepts.2

namespace TypeSafety

open Typing (Site)

/-! ### Frames -/

/-- The frame binds each of the names to a value of its type. -/
def HoldsTypes (h : Heap Value) (b : Bindings StaticType) (f : FrameId) : Prop :=
  ∀ x type, b.find? x = some type → ∃ v, h.lookup? f x = some v ∧ v.Fits type

/-- The frames outward from `f` are those of the scopes and hold values of their types. -/
abbrev Matches (h : Heap Value) (globals : FrameId) (s : Scopes StaticType) (f : FrameId) : Prop :=
  h.Models globals (HoldsTypes h) s f

/-- As frames come about and change, what a name is bound to stays of its types. -/
structure Keeps (h h' : Heap Value) : Prop where
  grows : h.Grows h'
  types : ∀ f x v, h.lookup? f x = some v →
    ∃ v', h'.lookup? f x = some v' ∧ ∀ type, v.Fits type → v'.Fits type

namespace Keeps

variable {h h' h'' : Heap Value}

theorem refl (h : Heap Value) : Keeps h h :=
  ⟨.refl h, fun _ _ v hv => ⟨v, hv, fun _ hfits => hfits⟩⟩

/-- What is kept twice is kept. -/
theorem trans (hk : Keeps h h') (hk' : Keeps h' h'') : Keeps h h'' := by
  refine ⟨hk.grows.trans hk'.grows, fun f x v hv => ?_⟩
  obtain ⟨v', hv', hfits⟩ := hk.types f x v hv
  obtain ⟨v'', hv'', hfits'⟩ := hk'.types f x v' hv'
  exact ⟨v'', hv'', fun type htype => hfits' type (hfits type htype)⟩

/-- A new frame changes no binding. -/
theorem alloc (h : Heap Value) (enclosing : Option FrameId) (bindings : Bindings Value) :
    Keeps h (h.alloc enclosing bindings) := by
  refine ⟨.alloc h enclosing bindings, fun f x v hv => ⟨v, ?_, fun _ hfits => hfits⟩⟩
  have hf : (h.frame? f).isSome = true := Heap.isSome_frame?_of_lookup? (by rw [hv]; rfl)
  rw [Heap.lookup?_alloc_of_ne (Heap.ne_next_of_isSome hf)]
  exact hv

/-- A binding of a name to a value of the types of what it was bound to before. -/
theorem define {g : FrameId} {x : String} {w : Value}
    (hw : ∀ v, h.lookup? g x = some v → ∀ type, v.Fits type → w.Fits type) :
    Keeps h (h.define g x w) := by
  refine ⟨.define h g x w, fun f y v hv => ?_⟩
  rw [Heap.lookup?_define]
  split
  · next heq =>
    obtain ⟨rfl, rfl, -⟩ := heq
    exact ⟨w, rfl, hw v hv⟩
  · exact ⟨v, hv, fun _ hfits => hfits⟩

end Keeps

/-- A frame still holds values of its types. -/
theorem HoldsTypes.mono {h h' : Heap Value} (hk : Keeps h h') {b : Bindings StaticType}
    {f : FrameId} (hb : HoldsTypes h b f) : HoldsTypes h' b f := by
  intro x type htype
  obtain ⟨v, hv, hfits⟩ := hb x type htype
  obtain ⟨v', hv', hfits'⟩ := hk.types f x v hv
  exact ⟨v', hv', hfits' type hfits⟩

/-- A name with a value that fits its type. -/
theorem HoldsTypes.insert {h : Heap Value} {b : Bindings StaticType} {f : FrameId} {x : String}
    {v : Value} {type : StaticType} (hb : HoldsTypes h b f) (hv : h.lookup? f x = some v)
    (hfits : v.Fits type) : HoldsTypes h (b.insert x type) f := by
  intro y other hother
  rw [Bindings.find?_insert] at hother
  split at hother
  · next hxy =>
    cases hother
    exact ⟨v, hxy ▸ hv, hfits⟩
  · exact hb y other hother

namespace Matches

variable {h h' : Heap Value} {globals f : FrameId} {s : Scopes StaticType}

theorem mono (hm : Matches h globals s f) (hk : Keeps h h') : Matches h' globals s f :=
  Heap.Models.mono hm hk.grows fun _ _ hb => hb.mono hk

theorem declare {x : String} {v : Value} {type : StaticType} (hm : Matches h globals s f)
    (hv : h.lookup? f x = some v) (hfits : v.Fits type) :
    Matches h globals (s.declare x type) f :=
  Heap.Models.declare hm fun _ hb => hb.insert hv hfits

theorem openFrame (hm : Matches h globals s f) (bindings : Bindings Value) :
    Matches (h.alloc (some f) bindings) globals s.openFrame h.next :=
  Heap.Models.alloc hm (fun _ _ hb => hb.mono (.alloc h (some f) bindings)) nofun

/-- A use of a name finds a value of its type, in a frame that binds it. -/
theorem lookUp? {m : Machine} {context : TypeContext} {t : Typing} {ref : Reference}
    {type : StaticType} (hm : Matches m.heap m.globals t.scopes m.current)
    (htable : context.table = m.table) (htype : Typing.lookUp context t ref = .ok type) :
    ∃ g v, m.holder? ref = some g ∧ m.heap.lookup? g ref.name.text = some v ∧
      m.lookUp? ref = some v ∧ v.Fits type := by
  obtain ⟨place, hfind, hget, hrecorded⟩ := Typing.lookUp_ok htype
  rw [htable] at hrecorded
  have hbinds : ∀ b g, HoldsTypes m.heap b g → b.find? ref.name.text = some type →
      (m.heap.lookup? g ref.name.text).isSome = true := by
    intro b g hb hx
    obtain ⟨v, hv, -⟩ := hb _ _ hx
    rw [hv]
    rfl
  obtain ⟨g, b, v, hb, hx, hholder, hv, hlookUp⟩ :=
    Machine.found_of_models hm hbinds hfind hget hrecorded
  obtain ⟨v', hv', hfits⟩ := hb _ _ hx
  rw [hv] at hv'
  cases hv'
  exact ⟨g, v, hholder, hv, hlookUp, hfits⟩

/-- The names of the parameters of a function, whose arguments the frame binds. -/
theorem declareAll {pairs : List (Param × StaticType)} (hm : Matches h globals s f)
    (hpairs : ∀ pair ∈ pairs,
      ∃ v, h.lookup? f pair.1.name.text = some v ∧ v.Fits pair.2) :
    Matches h globals
      (pairs.foldl (fun scopes pair => scopes.declare pair.1.name.text pair.2) s) f := by
  induction pairs generalizing s with
  | nil => exact hm
  | cons pair pairs ih =>
    obtain ⟨⟨v, hv, hfits⟩, hpairs⟩ := List.forall_mem_cons.mp hpairs
    exact ih (hm.declare hv hfits) hpairs

end Matches

/-! ### Functions -/

section Functions

variable (program : Program) (table : Distances) (h : Heap Value) (globals : FrameId)

/-- The frame that a function keeps fits the types of the names around its declaration. -/
def ClosureFits (c : Closure) : Prop :=
  c.isInitializer = false ∧
    ∃ site s, Typing.walk.Visits (Typing.start table program) ⟨.stmt (.funDecl c.decl), site⟩ ∧
      Typing.signature site.context site.typing c.decl = .ok s ∧
      Matches h globals (site.typing.scopes.declare c.decl.name.text (.function s)) c.frame

/-- The value is no class and no instance, and a function fits. -/
def ValueFits : Value → Prop
  | .function _ c => ClosureFits program table h globals c
  | .classValue _ => False
  | .instanceValue _ => False
  | _ => True

end Functions

variable {program : Program} {table : Distances}

theorem ClosureFits.mono {h h' : Heap Value} {globals : FrameId} {c : Closure}
    (hc : ClosureFits program table h globals c) (hk : Keeps h h') :
    ClosureFits program table h' globals c := by
  obtain ⟨hplain, site, s, hvisit, hs, hmatch⟩ := hc
  exact ⟨hplain, site, s, hvisit, hs, hmatch.mono hk⟩

theorem ValueFits.mono {h h' : Heap Value} {globals : FrameId} {v : Value}
    (hv : ValueFits program table h globals v) (hk : Keeps h h') :
    ValueFits program table h' globals v := by
  cases v with
  | function identity c => exact ClosureFits.mono hv hk
  | _ => exact hv

/-- A value of a scalar type is no function. -/
theorem valueFits_of_scalar {h : Heap Value} {globals : FrameId} {v : Value} {type : StaticType}
    (hv : v.Fits type) (htype : type.Scalar) : ValueFits program table h globals v := by
  cases type <;> cases htype <;> cases v <;> cases hv <;> trivial

/-! ### Machines -/

/-- The machine runs under the table, and what its frames bind fits. -/
structure Sound (program : Program) (table : Distances) (m : Machine) : Prop where
  values : ∀ f x v, m.heap.lookup? f x = some v → ValueFits program table m.heap m.globals v
  table : m.table = table

/-- One machine comes after another within a frame: what a name is bound to stays of its types, and
    of the frames that there were only the current one may bind new names, which are among the
    given ones. -/
structure Later (program : Program) (table : Distances) (names : List String)
    (m m' : Machine) : Prop where
  sound : Sound program table m'
  keeps : Keeps m.heap m'.heap
  bound : ∀ f x, (m.heap.frame? f).isSome = true → (m'.heap.lookup? f x).isSome = true →
    (m.heap.lookup? f x).isSome = true ∨ f = m.current ∧ x ∈ names
  globals : m'.globals = m.globals
  current : m'.current = m.current

namespace Later

variable {m m' m'' : Machine} {names names' : List String}

theorem refl (hm : Sound program table m) : Later program table names m m :=
  ⟨hm, .refl _, fun _ _ _ hx => .inl hx, rfl, rfl⟩

/-- Later than later is later. -/
theorem trans (h : Later program table names m m') (h' : Later program table names m' m'') :
    Later program table names m m'' := by
  refine ⟨h'.sound, h.keeps.trans h'.keeps, ?_, h'.globals.trans h.globals,
    h'.current.trans h.current⟩
  intro f x hf hx
  rcases h'.bound f x (h.keeps.grows.frame f hf) hx with hx' | ⟨rfl, hmem⟩
  · exact h.bound f x hf hx'
  · exact .inr ⟨h.current, hmem⟩

theorem mono (h : Later program table names m m') (hnames : names ⊆ names') :
    Later program table names' m m' := by
  refine ⟨h.sound, h.keeps, ?_, h.globals, h.current⟩
  intro f x hf hx
  exact (h.bound f x hf hx).imp_right fun hnew => ⟨hnew.1, hnames hnew.2⟩

/-- A value that fits still does later. -/
theorem valueFits {v : Value} (h : Later program table names m m')
    (hv : ValueFits program table m.heap m.globals v) :
    ValueFits program table m'.heap m'.globals v := by
  rw [h.globals]
  exact hv.mono h.keeps

/-- A binding in a frame: of a new name in the current one, or of a name that is bound to a value of
    no other types. -/
theorem define {g : FrameId} {x : String} {v : Value} (hm : Sound program table m)
    (hv : ValueFits program table (m.heap.define g x v) m.globals v)
    (htypes : ∀ w, m.heap.lookup? g x = some w → ∀ type, w.Fits type → v.Fits type)
    (hx : (m.heap.lookup? g x).isSome = true ∨ g = m.current ∧ x ∈ names) :
    Later program table names m { m with heap := m.heap.define g x v } := by
  have hkeeps : Keeps m.heap (m.heap.define g x v) := .define htypes
  refine ⟨⟨?_, hm.table⟩, hkeeps, ?_, rfl, rfl⟩
  · intro f y w hw
    rw [Heap.lookup?_define] at hw
    split at hw
    · cases hw
      exact hv
    · exact (hm.values f y w hw).mono hkeeps
  · intro f y _ hy
    rw [Heap.lookup?_define] at hy
    split at hy
    · next heq =>
      obtain ⟨rfl, rfl, -⟩ := heq
      exact hx
    · exact .inl hy

/-- A new frame. -/
theorem alloc {bindings : Bindings Value} (hm : Sound program table m) (enclosing : FrameId)
    (hb : ∀ x v, bindings.find? x = some v → ValueFits program table m.heap m.globals v) :
    Later program table names m { m with heap := m.heap.alloc (some enclosing) bindings } := by
  have hkeeps := Keeps.alloc m.heap (some enclosing) bindings
  refine ⟨⟨?_, hm.table⟩, hkeeps, ?_, rfl, rfl⟩
  · intro f x v hv
    by_cases hf : f = m.heap.next
    · subst hf
      rw [Heap.lookup?_alloc_next] at hv
      exact (hb x v hv).mono hkeeps
    · rw [Heap.lookup?_alloc_of_ne hf] at hv
      exact (hm.values f x v hv).mono hkeeps
  · intro f x hf hx
    rw [Heap.lookup?_alloc_of_ne (Heap.ne_next_of_isSome hf)] at hx
    exact .inl hx

/-- A change that leaves the frames alone. -/
theorem of_eq (hm : Sound program table m) (hheap : m'.heap = m.heap)
    (htable : m'.table = m.table) (hglobals : m'.globals = m.globals)
    (hcurrent : m'.current = m.current) : Later program table names m m' := by
  refine ⟨⟨?_, htable.trans hm.table⟩, hheap ▸ .refl _, ?_, hglobals, hcurrent⟩
  · rw [hheap, hglobals]
    exact hm.values
  · rw [hheap]
    exact fun _ _ _ hx => .inl hx

/-- What runs in a new frame and comes back binds no name in the frames that there were. -/
theorem back {frame : FrameId} (h : Later program table [] m m')
    (hframe : m.heap.frame? frame = none)
    (h' : Later program table names { m' with current := frame } m'') :
    Later program table [] m { m'' with current := m.current } := by
  refine ⟨⟨h'.sound.values, h'.sound.table⟩, h.keeps.trans h'.keeps, ?_,
    h'.globals.trans h.globals, rfl⟩
  intro f x hf hx
  rcases h'.bound f x (h.keeps.grows.frame f hf) hx with hx' | ⟨rfl, -⟩
  · exact h.bound f x hf hx'
  · -- The frame that bound new names was not among those of `m`.
    rw [hframe] at hf
    cases hf

end Later

/-! ### Places -/

/-- The machine is in a frame that fits the names in scope, and the frame binds no other names than
    those declared in it. -/
structure Stands (m : Machine) (s : Scopes StaticType) : Prop where
  fits : Matches m.heap m.globals s m.current
  names : ∀ x, (m.heap.lookup? m.current x).isSome = true → s.declaredHere x = true

namespace Stands

variable {m m' : Machine} {s : Scopes StaticType} {x : String}

theorem fits_later {names : List String} (hs : Stands m s) (h : Later program table names m m') :
    Matches m'.heap m'.globals s m'.current := by
  rw [h.globals, h.current]
  exact hs.fits.mono h.keeps

theorem names_later {names : List String} (hs : Stands m s) (h : Later program table names m m')
    (hx : (m'.heap.lookup? m'.current x).isSome = true) :
    s.declaredHere x = true ∨ x ∈ names := by
  rw [h.current] at hx
  rcases h.bound _ x hs.fits.isSome_frame? hx with hx | ⟨-, hx⟩
  · exact .inl (hs.names x hx)
  · exact .inr hx

/-- Where nothing is declared the names in scope stay the same. -/
theorem later (hs : Stands m s) (h : Later program table [] m m') : Stands m' s :=
  ⟨hs.fits_later h, fun _ hx => (hs.names_later h hx).resolve_right List.not_mem_nil⟩

/-- A declared name is in scope once it is bound. -/
theorem declare {v : Value} {type : StaticType} (hs : Stands m s)
    (h : Later program table [x] m m') (hv : m'.heap.lookup? m'.current x = some v)
    (hfits : v.Fits type) : Stands m' (s.declare x type) := by
  refine ⟨(hs.fits_later h).declare hv hfits, ?_⟩
  intro y hy
  rw [Scopes.declaredHere_declare, Bool.or_eq_true, decide_eq_true_eq]
  rcases hs.names_later h hy with hdeclared | hmem
  · exact .inr hdeclared
  · exact .inl (List.mem_singleton.mp hmem).symm

/-- A name that is not declared in a frame is not bound there. -/
theorem lookup?_eq_none (hs : Stands m s) (hx : s.declaredHere x = false) :
    m.heap.lookup? m.current x = none := by
  rw [← Option.not_isSome_iff_eq_none]
  intro hbound
  rw [hs.names x hbound] at hx
  cases hx

/-- The frame of a block. -/
theorem openFrame (hs : Stands m s) :
    Stands { m with
      heap := m.heap.alloc (some m.current) .empty, current := m.heap.next } s.openFrame := by
  refine ⟨hs.fits.openFrame .empty, ?_⟩
  intro x hx
  rw [Heap.lookup?_alloc_next] at hx
  cases hx

end Stands

/-- The argument for a parameter is of the type of the parameter. -/
theorem exists_argument {params : List Param} {arguments : List Value} {types : List StaticType}
    (hfits : List.Forall₂ Value.Fits arguments types) :
    ∀ pair ∈ params.zip types,
      ∃ v, (pair.1.name.text, v) ∈ (params.map fun p => p.name.text).zip arguments ∧
        v.Fits pair.2 := by
  induction hfits generalizing params with
  | nil => simp
  | @cons v type vs types hv _ ih =>
    cases params with
    | nil => nofun
    | cons p ps =>
      refine List.forall_mem_cons.mpr ⟨⟨v, List.mem_cons_self, hv⟩, ?_⟩
      intro pair hpair
      obtain ⟨w, hmem, hw⟩ := ih pair hpair
      exact ⟨w, List.mem_cons_of_mem _ hmem, hw⟩

theorem declaredHere_declareAll {pairs : List (Param × StaticType)} {s : Scopes StaticType}
    {x : String} (hx : s.declaredHere x = true ∨ ∃ pair ∈ pairs, pair.1.name.text = x) :
    (pairs.foldl (fun scopes pair => scopes.declare pair.1.name.text pair.2) s).declaredHere x
      = true := by
  induction pairs generalizing s with
  | nil => simpa using hx
  | cons pair pairs ih =>
    refine ih ?_
    rw [Scopes.declaredHere_declare, Bool.or_eq_true, decide_eq_true_eq]
    rcases hx with hx | ⟨other, hmem, hx⟩
    · exact .inl (.inr hx)
    · rcases List.mem_cons.mp hmem with rfl | hmem
      · exact .inl (.inl hx)
      · exact .inr ⟨other, hmem, hx⟩

/-- The frame of a call. -/
theorem Stands.params {m : Machine} {s : Scopes StaticType} {f : FrameId} {params : List Param}
    {arguments : List Value} {types : List StaticType} (hm : Matches m.heap m.globals s f)
    (hnodup : (params.map fun p => p.name.text).Nodup) (hlength : types.length = params.length)
    (hfits : List.Forall₂ Value.Fits arguments types) :
    Stands
      { m with
        heap := m.heap.alloc (some f)
          (Bindings.ofList ((params.map fun p => p.name.text).zip arguments)),
        current := m.heap.next }
      ((params.zip types).foldl (fun scopes pair => scopes.declare pair.1.name.text pair.2)
        s.openFrame) := by
  have harguments : arguments.length = params.length := hfits.length_eq.trans hlength
  -- No parameter hides another, so each name is bound to the argument at its own place.
  have hnodup' : (((params.map fun p => p.name.text).zip arguments).map Prod.fst).Nodup := by
    rw [List.map_fst_zip (by simp [harguments])]
    exact hnodup
  constructor
  · refine (hm.openFrame _).declareAll ?_
    intro pair hpair
    obtain ⟨v, hmem, hv⟩ := exists_argument hfits pair hpair
    refine ⟨v, ?_, hv⟩
    rw [Heap.lookup?_alloc_next]
    exact Bindings.find?_ofList_of_nodup hnodup' hmem
  · intro x hx
    rw [Heap.lookup?_alloc_next] at hx
    obtain ⟨v, hv⟩ := Option.isSome_iff_exists.mp hx
    obtain ⟨hname, -⟩ := List.of_mem_zip (Bindings.find?_ofList hv)
    obtain ⟨p, hp, rfl⟩ := List.mem_map.mp hname
    have hzip : p ∈ (params.zip types).map Prod.fst := by
      rw [List.map_fst_zip (by simp [hlength])]
      exact hp
    obtain ⟨pair, hpair, rfl⟩ := List.mem_map.mp hzip
    exact declaredHere_declareAll (.inr ⟨pair, hpair, rfl⟩)

end TypeSafety

end ClassScript
