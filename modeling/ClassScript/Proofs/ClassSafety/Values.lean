import ClassScript.Proofs.ClassSafety.Programs

namespace ClassScript

/-!
# Classes on the heap

A class of the type checker is on the heap what its name is bound to among the globals. No step of a
run binds that name again, nor any other name that the checker takes for a class at the top level,
nor a receiver or a superclass. So what such a name is bound to can be relied on, although the types
of other names can not.

* `ClassTable.classAt?`: the classes of the checker on a heap;
* `ClassSafety.Fixed`, `ClassSafety.Keeps`: bindings that never change;
* `ClassSafety.Respects`, `ClassSafety.Matches`: classes and receivers are bound to what their types
  say;
* `ClassSafety.ClassFits`: a class on the heap is the one that the checker knows;
* `ClassSafety.Good`, `ClassSafety.Later`: machines, and what changes on them.
-/

/-- The class that a value is. -/
def Value.class? : Value → Option Class
  | .classValue cls => some cls
  | _ => none

/-- Only a class has a class in it. -/
theorem Value.class?_eq_some {v : Value} {cls : Class} (h : v.class? = some cls) :
    v = .classValue cls := by
  cases v <;> cases h
  rfl

/-- The class that the one with the given number is on a heap: what its name is bound to among the
    globals. -/
def ClassTable.classAt? (classes : ClassTable) (h : Heap Value) (globals : FrameId)
    (index : Nat) : Option Class :=
  (classes.info? index).bind fun info => (h.lookup? globals info.name).bind Value.class?

theorem ClassTable.classAt?_eq_some {classes : ClassTable} {h : Heap Value} {globals : FrameId}
    {index : Nat} {cls : Class} (hcls : classes.classAt? h globals index = some cls) :
    ∃ info, classes.info? index = some info ∧
      h.lookup? globals info.name = some (.classValue cls) := by
  obtain ⟨info, hinfo, hcls⟩ := Option.bind_eq_some_iff.mp hcls
  obtain ⟨v, hv, hcls⟩ := Option.bind_eq_some_iff.mp hcls
  exact ⟨info, hinfo, Value.class?_eq_some hcls ▸ hv⟩

theorem ClassTable.classAt?_of_lookup? {classes : ClassTable} {h : Heap Value} {globals : FrameId}
    {index : Nat} {info : ClassInfo} {cls : Class} (hinfo : classes.info? index = some info)
    (hcls : h.lookup? globals info.name = some (.classValue cls)) :
    classes.classAt? h globals index = some cls := by
  rw [classAt?, hinfo, Option.bind_some, hcls]
  rfl

/-- A weaker relation between what may be absent. -/
theorem optionRel_imp {α β : Type} {P Q : α → β → Prop} {x : Option α} {y : Option β}
    (h : Option.Rel P x y) (hPQ : ∀ a b, P a b → Q a b) : Option.Rel Q x y := by
  cases h with
  | some hab => exact .some (hPQ _ _ hab)
  | none => exact .none

namespace ClassSafety

open Typing (ClassSite MethodOf start walk inBody)

/-! ### Bindings that never change -/

section Frames

variable (T : Typing) (globals : FrameId)

/-- What the name is bound to in the frame never changes: it stands for a receiver, for a
    superclass, or for what the checker takes for a class at the top level. -/
def Fixed (f : FrameId) (x : String) : Prop :=
  x = thisName ∨ x = superName ∨ f = globals ∧ ∃ id, T.scopes.globals.find? x = some (.classType id)

/-- As frames come about and change, what is fixed stays. -/
structure Keeps (h h' : Heap Value) : Prop where
  grows : h.Grows h'
  fixed : ∀ f x v, Fixed T globals f x → h.lookup? f x = some v → h'.lookup? f x = some v
  classes : ∀ i cls, T.classes.classAt? h globals i = some cls →
    T.classes.classAt? h' globals i = some cls

/-- The class inherits from the one with the given number. -/
def Descends (h : Heap Value) (index : Nat) (cls : Class) : Prop :=
  ∃ i, T.classes.classAt? h globals i = some cls ∧ T.classes.inherits index i = true

/-- The value is the class that the type says, or an instance of such a class. -/
def Respects (h : Heap Value) : StaticType → Value → Prop
  | .classType id, v =>
    ∃ cls, v = .classValue cls ∧ T.classes.classAt? h globals id.index = some cls
  | .instanceType id, v =>
    ∃ object, v = .instanceValue object ∧ Descends T globals h id.index object.cls
  | _, _ => True

/-- The frame binds each of the names, and those that are fixed to what their types say. A global
    has its type to the end. -/
def HoldsFixed (h : Heap Value) (b : Bindings StaticType) (f : FrameId) : Prop :=
  ∀ x type, b.find? x = some type → (f = globals → T.scopes.globals.find? x = some type) ∧
    ∃ v, h.lookup? f x = some v ∧ (Fixed T globals f x → Respects T globals h type v)

/-- The frames outward from `f` are those of the scopes and hold what is fixed. -/
abbrev Matches (h : Heap Value) (s : Scopes StaticType) (f : FrameId) : Prop :=
  h.Models globals (HoldsFixed T globals h) s f

end Frames

variable {T : Typing} {globals : FrameId} {h h' h'' : Heap Value}

namespace Keeps

theorem refl (h : Heap Value) : Keeps T globals h h :=
  ⟨.refl h, fun _ _ _ _ hv => hv, fun _ _ hcls => hcls⟩

/-- What is kept twice is kept. -/
theorem trans (hk : Keeps T globals h h') (hk' : Keeps T globals h' h'') :
    Keeps T globals h h'' :=
  ⟨hk.grows.trans hk'.grows, fun f x v hx hv => hk'.fixed f x v hx (hk.fixed f x v hx hv),
    fun i cls hcls => hk'.classes i cls (hk.classes i cls hcls)⟩

/-- The name of a class is fixed. -/
theorem of_fixed (hT : T.Complete) (hgrows : h.Grows h')
    (hfixed : ∀ f x v, Fixed T globals f x → h.lookup? f x = some v → h'.lookup? f x = some v) :
    Keeps T globals h h' := by
  refine ⟨hgrows, hfixed, fun i cls hcls => ?_⟩
  obtain ⟨info, hinfo, hlookup⟩ := ClassTable.classAt?_eq_some hcls
  refine ClassTable.classAt?_of_lookup? hinfo (hfixed _ _ _ ?_ hlookup)
  exact .inr (.inr ⟨rfl, _, hT.named i info hinfo⟩)

/-- A new frame changes no binding. -/
theorem alloc (hT : T.Complete) (h : Heap Value) (enclosing : Option FrameId)
    (bindings : Bindings Value) : Keeps T globals h (h.alloc enclosing bindings) := by
  refine of_fixed hT (.alloc h enclosing bindings) fun f x v _ hv => ?_
  have hf : (h.frame? f).isSome = true := Heap.isSome_frame?_of_lookup? (by rw [hv]; rfl)
  rw [Heap.lookup?_alloc_of_ne (Heap.ne_next_of_isSome hf)]
  exact hv

/-- A binding of a name that is new in its frame, or not fixed. -/
theorem define (hT : T.Complete) {g : FrameId} {x : String}
    (hx : (h.lookup? g x).isSome = true → ¬ Fixed T globals g x) (w : Value) :
    Keeps T globals h (h.define g x w) := by
  refine of_fixed hT (.define h g x w) fun f y v hfixed hv => ?_
  rw [Heap.lookup?_define]
  split
  · next heq =>
    obtain ⟨rfl, rfl, -⟩ := heq
    exact absurd hfixed (hx (by rw [hv]; rfl))
  · exact hv

end Keeps

theorem Descends.mono {index : Nat} {cls : Class} (hd : Descends T globals h index cls)
    (hk : Keeps T globals h h') : Descends T globals h' index cls := by
  obtain ⟨i, hcls, hinherits⟩ := hd
  exact ⟨i, hk.classes i cls hcls, hinherits⟩

theorem Respects.mono {type : StaticType} {v : Value} (hv : Respects T globals h type v)
    (hk : Keeps T globals h h') : Respects T globals h' type v := by
  cases type with
  | classType id =>
    obtain ⟨cls, rfl, hcls⟩ := hv
    exact ⟨cls, rfl, hk.classes _ cls hcls⟩
  | instanceType id =>
    obtain ⟨object, rfl, hdescends⟩ := hv
    exact ⟨object, rfl, hdescends.mono hk⟩
  | _ => trivial

/-- A frame still holds its fixed names. -/
theorem HoldsFixed.mono {b : Bindings StaticType} {f : FrameId} (hb : HoldsFixed T globals h b f)
    (hk : Keeps T globals h h') : HoldsFixed T globals h' b f := by
  intro x type htype
  obtain ⟨hglobal, v, hv, hrespects⟩ := hb x type htype
  refine ⟨hglobal, ?_⟩
  by_cases hfixed : Fixed T globals f x
  · exact ⟨v, hk.fixed f x v hfixed hv, fun _ => (hrespects hfixed).mono hk⟩
  · have hbound := hk.grows.names f x (by rw [hv]; rfl)
    obtain ⟨v', hv'⟩ := Option.isSome_iff_exists.mp hbound
    exact ⟨v', hv', fun hx => absurd hx hfixed⟩

theorem HoldsFixed.insert {b : Bindings StaticType} {f : FrameId} {x : String} {v : Value}
    {type : StaticType} (hb : HoldsFixed T globals h b f)
    (hglobal : f = globals → T.scopes.globals.find? x = some type)
    (hv : h.lookup? f x = some v) (hrespects : Fixed T globals f x → Respects T globals h type v) :
    HoldsFixed T globals h (b.insert x type) f := by
  intro y other hother
  rw [Bindings.find?_insert] at hother
  split at hother
  · next hxy =>
    cases hother
    subst hxy
    exact ⟨hglobal, v, hv, hrespects⟩
  · exact hb y other hother

/-- A name of a local frame is fixed only if it stands for a receiver or a superclass. -/
theorem not_fixed {f : FrameId} {x : String} (hf : f ≠ globals)
    (hx : x ≠ thisName ∧ x ≠ superName) : ¬ Fixed T globals f x := by
  rintro (hthis | hsuper | ⟨heq, -⟩)
  · exact hx.1 hthis
  · exact hx.2 hsuper
  · exact hf heq

namespace Matches

variable {s : Scopes StaticType} {f : FrameId}

theorem mono (hm : Matches T globals h s f) (hk : Keeps T globals h h') :
    Matches T globals h' s f :=
  Heap.Models.mono hm hk.grows fun _ _ hb => hb.mono hk

/-- Outside of the top level the current frame is not that of the globals. -/
theorem ne_globals (hm : Matches T globals h s f) (hlocal : s.frames ≠ []) : f ≠ globals := by
  rintro rfl
  obtain ⟨globals', frames⟩ := s
  cases frames with
  | nil => exact hlocal rfl
  | cons b frames =>
    obtain ⟨-, outer, houter, -⟩ := hm.frames
    rw [hm.outermost] at houter
    cases houter

/-- Scopes without frames match the globals. -/
theorem eq_globals (hm : Matches T globals h s f) (hglobal : s.frames = []) : f = globals := by
  have hframes := hm.frames
  rw [hglobal] at hframes
  exact hframes

/-- A use of a name finds a binding in a frame that holds it. -/
theorem lookUp? {m : Machine} {context : TypeContext} {t : Typing} {ref : Reference}
    {type : StaticType} (hm : Matches T m.globals m.heap t.scopes m.current)
    (htable : context.table = m.table) (htype : Typing.lookUp context t ref = .ok type) :
    ∃ g v, m.holder? ref = some g ∧ m.heap.lookup? g ref.name.text = some v ∧
      m.lookUp? ref = some v ∧
      (g = m.globals → T.scopes.globals.find? ref.name.text = some type) ∧
      (Fixed T m.globals g ref.name.text → Respects T m.globals m.heap type v) := by
  obtain ⟨place, hfind, hget, hrecorded⟩ := Typing.lookUp_ok htype
  rw [htable] at hrecorded
  have hbinds : ∀ b g, HoldsFixed T m.globals m.heap b g → b.find? ref.name.text = some type →
      (m.heap.lookup? g ref.name.text).isSome = true := by
    intro b g hb hx
    obtain ⟨-, v, hv, -⟩ := hb _ _ hx
    rw [hv]
    rfl
  obtain ⟨g, b, v, hb, hx, hholder, hv, hlookUp⟩ :=
    Machine.found_of_models hm hbinds hfind hget hrecorded
  obtain ⟨hglobal, v', hv', hrespects⟩ := hb _ _ hx
  rw [hv] at hv'
  cases hv'
  exact ⟨g, v, hholder, hv, hlookUp, hglobal, hrespects⟩

/-- At the top level a use of a name finds a global. -/
theorem lookUp?_global {m : Machine} {context : TypeContext} {t : Typing} {ref : Reference}
    {id : ClassId} (hm : Matches T m.globals m.heap t.scopes m.current)
    (htable : context.table = m.table) (hglobal : t.scopes.frames = [])
    (htype : Typing.lookUp context t ref = .ok (.classType id)) :
    ∃ v, m.lookUp? ref = some v ∧ Respects T m.globals m.heap (.classType id) v := by
  obtain ⟨place, hfind, hget, hrecorded⟩ := Typing.lookUp_ok htype
  have hplace : place = .global := by
    cases place with
    | global => rfl
    | frame d =>
      obtain ⟨b, hb, -⟩ := Scopes.find?_eq_frame_iff.mp hfind
      rw [hglobal] at hb
      cases hb
  subst hplace
  obtain ⟨htype', v, hv, hrespects⟩ := hm.global _ _ hget
  refine ⟨v, ?_, hrespects (.inr (.inr ⟨rfl, id, htype' rfl⟩))⟩
  rw [htable] at hrecorded
  rw [Machine.lookUp?, hrecorded]
  show (m.heap.holder? m.globals _).bind _ = _
  rw [Heap.holder?_of_lookup? (by rw [hv]; rfl)]
  exact hv

theorem openFrame (hT : T.Complete) (hm : Matches T globals h s f) (bindings : Bindings Value) :
    Matches T globals (h.alloc (some f) bindings) s.openFrame h.next :=
  Heap.Models.alloc hm (fun _ _ hb => hb.mono (.alloc hT h (some f) bindings)) nofun

/-- The names of the parameters of a function, which a local frame binds. -/
theorem declareAll {pairs : List (Param × StaticType)} (hm : Matches T globals h s f)
    (hf : f ≠ globals) (hpairs : ∀ pair ∈ pairs, pair.1.name.Plain ∧
      (h.lookup? f pair.1.name.text).isSome = true) :
    Matches T globals h
      (pairs.foldl (fun scopes pair => scopes.declare pair.1.name.text pair.2) s) f := by
  induction pairs generalizing s with
  | nil => exact hm
  | cons pair pairs ih =>
    obtain ⟨⟨hplain, hbound⟩, hpairs⟩ := List.forall_mem_cons.mp hpairs
    obtain ⟨v, hv⟩ := Option.isSome_iff_exists.mp hbound
    refine ih (Heap.Models.declare hm fun b hb => ?_) hpairs
    exact hb.insert (fun heq => absurd heq hf) hv fun hx => absurd hx (not_fixed hf hplain)

end Matches

/-! ### Functions and classes -/

section Functions

variable (T : Typing) (program : Program) (table : Distances) (globals : FrameId)
  (h : Heap Value)

/-- The frame that a function keeps fits the names around its declaration. -/
def ClosureFits (c : Closure) : Prop :=
  (∀ p ∈ c.decl.params, p.name.Plain) ∧
    ∃ site s, walk.Visits (start table program) ⟨.stmts c.decl.body, inBody c.decl s site⟩ ∧
      Matches T globals h site.typing.scopes c.frame

/-- The frame that a method of the class with the given number keeps fits the names around its
    declaration but for the innermost, which is the receiver. -/
def MethodFits (index : Nat) (c : Closure) : Prop :=
  (∀ p ∈ c.decl.params, p.name.Plain) ∧
    ∃ site s id outer,
      walk.Visits (start table program) ⟨.stmts c.decl.body, inBody c.decl s site⟩ ∧
      site.typing.scopes.frames = Bindings.empty.insert thisName (.instanceType id) :: outer ∧
      id.index = index ∧ Matches T globals h { site.typing.scopes with frames := outer } c.frame

/-- The class on the heap has the methods that its declaration says, and the checker has their
    types under the number of the class. -/
structure Declared (c : ClassSite table program) (index : Nat) (cls : Class) : Prop where
  index_eq : c.index = index
  super_eq : c.super = T.classes.superclass? index
  method?_eq : ∀ x, c.method? x = (cls.methods.find? x).map Closure.decl
  methods : ∀ x, Option.Rel
    (fun s f => c.Builds f.decl s ∧ MethodFits T program table globals h index f)
    ((T.classes.info? index).bind fun info => info.methods.find? x) (cls.methods.find? x)

/-- The class on the heap is the one that the checker has under the number: its superclass is the
    one that the checker knows, and it has the methods whose types the checker knows. -/
structure ClassFits (index : Nat) (cls : Class) : Prop where
  superclass : Option.Rel (fun id super => T.classes.classAt? h globals id.index = some super)
    (T.classes.superclass? index) cls.superclass
  declared : ∃ c, Declared T program table globals h c index cls

/-- Functions fit, and there are no classes but those of the program. -/
def ValueFits : Value → Prop
  | .function _ c => ClosureFits T program table globals h c
  | .classValue cls => ∃ index, T.classes.classAt? h globals index = some cls
  | .instanceValue object => ∃ index, T.classes.classAt? h globals index = some object.cls
  | _ => True

end Functions

variable {program : Program} {table : Distances}

/-- A function value still fits. -/
theorem ClosureFits.mono {c : Closure} (hc : ClosureFits T program table globals h c)
    (hk : Keeps T globals h h') : ClosureFits T program table globals h' c := by
  obtain ⟨hplain, site, s, hvisit, hmatch⟩ := hc
  exact ⟨hplain, site, s, hvisit, hmatch.mono hk⟩

/-- A method still fits. -/
theorem MethodFits.mono {index : Nat} {c : Closure}
    (hc : MethodFits T program table globals h index c) (hk : Keeps T globals h h') :
    MethodFits T program table globals h' index c := by
  obtain ⟨hplain, site, s, id, outer, hvisit, hframes, hindex, hmatch⟩ := hc
  exact ⟨hplain, site, s, id, outer, hvisit, hframes, hindex, hmatch.mono hk⟩

/-- A class still fits. -/
theorem ClassFits.mono {index : Nat} {cls : Class}
    (hc : ClassFits T program table globals h index cls) (hk : Keeps T globals h h') :
    ClassFits T program table globals h' index cls := by
  obtain ⟨hsuper, c, hindex, hid, hdecls, hmethods⟩ := hc
  refine ⟨optionRel_imp hsuper fun id super hcls => hk.classes _ super hcls, c, hindex, hid, hdecls,
    fun x => ?_⟩
  exact optionRel_imp (hmethods x) fun s f ⟨hbuilds, hmethod⟩ => ⟨hbuilds, hmethod.mono hk⟩

/-- Any value still fits. -/
theorem ValueFits.mono {v : Value} (hv : ValueFits T program table globals h v)
    (hk : Keeps T globals h h') : ValueFits T program table globals h' v := by
  cases v with
  | function identity c => exact ClosureFits.mono hv hk
  | classValue cls =>
    obtain ⟨index, hcls⟩ := hv
    exact ⟨index, hk.classes index cls hcls⟩
  | instanceValue object =>
    obtain ⟨index, hcls⟩ := hv
    exact ⟨index, hk.classes index _ hcls⟩
  | _ => trivial

/-- A method with its receiver, which inherits from the class of the method, fits as a function. -/
theorem MethodFits.bind (hT : T.Complete) {index : Nat} {c : Closure} {object : Instance}
    (hc : MethodFits T program table globals h index c)
    (hobject : Descends T globals h index object.cls)
    (hroot : (h.frame? globals).isSome = true) :
    ClosureFits T program table globals
      (h.alloc (some c.frame) (Bindings.empty.insert thisName (.instanceValue object)))
      { c with frame := h.next } := by
  obtain ⟨hplain, site, s, id, outer, hvisit, hframes, rfl, hmatch⟩ := hc
  refine ⟨hplain, site, s, hvisit, ?_⟩
  have hkeeps : Keeps T globals h (h.alloc (some c.frame)
      (Bindings.empty.insert thisName (.instanceValue object))) := .alloc hT _ _ _
  -- The new frame binds the receiver and nothing else, as the innermost frame of the method does.
  have hnew : Matches T globals
      (h.alloc (some c.frame) (Bindings.empty.insert thisName (.instanceValue object)))
      { site.typing.scopes with
        frames := Bindings.empty.insert thisName (.instanceType id) :: outer } h.next := by
    refine Heap.Models.alloc hmatch (fun _ _ hb => hb.mono hkeeps) ?_
    intro x type htype
    obtain ⟨rfl, rfl⟩ := Bindings.eq_of_find?_single htype
    refine ⟨fun heq => absurd heq.symm (Heap.ne_next_of_isSome hroot), .instanceValue object, ?_,
      fun _ => ⟨object, rfl, hobject.mono hkeeps⟩⟩
    rw [Heap.lookup?_alloc_next, Bindings.find?_insert, if_pos rfl]
  have hscopes : site.typing.scopes = { site.typing.scopes with
      frames := Bindings.empty.insert thisName (.instanceType id) :: outer } := by
    rw [← hframes]
  rw [hscopes]
  exact hnew

/-- If all classes on the heap are those of the checker, then so are the methods that they
    inherit. -/
theorem rel_findMethod? (hT : T.Complete)
    (hclasses : ∀ i cls, T.classes.classAt? h globals i = some cls →
      ClassFits T program table globals h i cls) {index : Nat} {cls : Class}
    (hcls : T.classes.classAt? h globals index = some cls) (x : String) :
    Option.Rel (fun s f => MethodOf table program x index f.decl s ∧ ∃ owner,
        T.classes.inherits owner index = true ∧ MethodFits T program table globals h owner f)
      (T.classes.findMethod? x index) (cls.findMethod? x) := by
  -- Along the superclasses, which are older than their classes.
  induction index using Nat.strongRecOn generalizing cls with
  | ind index ih =>
    obtain ⟨hsuper, c, rfl, hid, hdecls, hmethods⟩ := hclasses index cls hcls
    obtain ⟨info, hinfo, -⟩ := ClassTable.classAt?_eq_some hcls
    have hown := hmethods x
    have hdecl := hdecls x
    rw [hinfo, Option.bind_some] at hown
    rw [ClassTable.findMethod?_eq hT.ordered, hinfo, Option.bind_some, Class.findMethod?_eq]
    have hsuperclass : T.classes.superclass? c.index = info.superclass := by
      rw [ClassTable.superclass?, hinfo, Option.bind_some]
    rw [hsuperclass] at hsuper hid
    generalize info.methods.find? x = found at hown ⊢
    generalize cls.methods.find? x = found' at hown hdecl ⊢
    generalize cls.superclass = parent at hsuper ⊢
    cases hown with
    | some hmethod =>
      exact .some ⟨.own c hdecl hmethod.1, c.index, ClassTable.inherits_self c.index T.classes,
        hmethod.2⟩
    | none =>
      -- Neither side has a method of its own, so both go on with the superclass.
      rw [Option.none_or, Option.none_or]
      cases hinfoSuper : info.superclass with
      | none =>
        rw [hinfoSuper] at hsuper
        cases hsuper
        exact .none
      | some id =>
        rw [hinfoSuper] at hsuper hid hsuperclass
        cases hsuper with
        | some hclass =>
          refine optionRel_imp (ih id.index (hT.ordered.superclass_lt hinfo hinfoSuper) hclass) ?_
          rintro s f ⟨hof, owner, hinherits, hmethod⟩
          exact ⟨.inherited c hdecl hid hof, owner,
            ClassTable.inherits_of_superclass hT.ordered hsuperclass hinherits, hmethod⟩

/-! ### Machines -/

section Machines

variable (T : Typing) (program : Program) (table : Distances) (m₀ : Machine)

/-- The machine runs under the table, keeps what was fixed on the machine `m₀`, and holds nothing
    but what fits. -/
structure Good (m : Machine) : Prop where
  table_eq : m.table = table
  globals_eq : m.globals = m₀.globals
  root : (m.heap.frame? m.globals).isSome = true
  since : Keeps T m.globals m₀.heap m.heap
  values : ∀ f x v, m.heap.lookup? f x = some v → ValueFits T program table m.globals m.heap v
  fields : ∀ b ∈ m.fields, ∀ x v, b.find? x = some v →
    ValueFits T program table m.globals m.heap v
  classes : ∀ i cls, T.classes.classAt? m.heap m.globals i = some cls →
    ClassFits T program table m.globals m.heap i cls

/-- No global has come about. -/
def NoNames (m m' : Machine) : Prop :=
  ∀ x, (m'.heap.lookup? m.globals x).isSome = true → (m.heap.lookup? m.globals x).isSome = true

/-- One machine comes after another within a frame. Globals come about only at the top level. -/
structure Since (m m' : Machine) : Prop where
  good : Good T program table m₀ m'
  keeps : Keeps T m.globals m.heap m'.heap
  globals : m'.globals = m.globals
  current : m'.current = m.current
  names : m.current ≠ m.globals → NoNames m m'

/-- One machine comes after another, and no global has come about. -/
structure Later (m m' : Machine) : Prop where
  since : Since T program table m₀ m m'
  names : NoNames m m'

end Machines

variable {m₀ m m' m'' : Machine}

namespace Good

/-- What has changed on a good machine fits. -/
theorem step (hm : Good T program table m₀ m) (htable : m'.table = m.table)
    (hglobals : m'.globals = m.globals) (hkeeps : Keeps T m.globals m.heap m'.heap)
    (hvalues : ∀ f x v, m'.heap.lookup? f x = some v → m.heap.lookup? f x = some v ∨
      ValueFits T program table m.globals m'.heap v)
    (hfields : ∀ b ∈ m'.fields, ∀ x v, b.find? x = some v →
      ValueFits T program table m.globals m.heap v)
    (hclasses : ∀ i cls, T.classes.classAt? m'.heap m.globals i = some cls →
      T.classes.classAt? m.heap m.globals i = some cls ∨
        ClassFits T program table m.globals m'.heap i cls) :
    Good T program table m₀ m' := by
  refine ⟨htable.trans hm.table_eq, hglobals.trans hm.globals_eq, ?_, ?_, ?_, ?_, ?_⟩ <;>
    rw [hglobals]
  · exact hkeeps.grows.frame _ hm.root
  · exact hm.since.trans hkeeps
  · intro f x v hv
    rcases hvalues f x v hv with hold | hnew
    · exact (hm.values f x v hold).mono hkeeps
    · exact hnew
  · intro b hb x v hv
    exact (hfields b hb x v hv).mono hkeeps
  · intro i cls hcls
    rcases hclasses i cls hcls with hold | hnew
    · exact (hm.classes i cls hold).mono hkeeps
    · exact hnew

/-- A machine is as good in another frame. -/
theorem within (hm : Good T program table m₀ m) (frame : FrameId) :
    Good T program table m₀ { m with current := frame } :=
  ⟨hm.table_eq, hm.globals_eq, hm.root, hm.since, hm.values, hm.fields, hm.classes⟩

/-- What is kept from now on. -/
theorem restart (hm : Good T program table m₀ m) : Good T program table m m :=
  ⟨hm.table_eq, rfl, hm.root, .refl _, hm.values, hm.fields, hm.classes⟩

theorem ne_next (hm : Good T program table m₀ m) : m.globals ≠ m.heap.next :=
  Heap.ne_next_of_isSome hm.root

/-- A field holds a value that fits. -/
theorem field? {object : Instance} {x : String} {v : Value} (hm : Good T program table m₀ m)
    (hv : m.field? object x = some v) : ValueFits T program table m.globals m.heap v := by
  obtain ⟨b, hb, hfind⟩ := Option.bind_eq_some_iff.mp hv
  exact hm.fields b (Array.mem_of_getElem? hb) x v hfind

/-- A binding of a name that is new in its frame or not fixed, to something that fits. -/
theorem define (hT : T.Complete) (hm : Good T program table m₀ m) {g : FrameId} {x : String}
    {v : Value} (hx : (m.heap.lookup? g x).isSome = true → ¬ Fixed T m.globals g x)
    (hv : ValueFits T program table m.globals (m.heap.define g x v) v)
    (hclasses : ∀ i cls, T.classes.classAt? (m.heap.define g x v) m.globals i = some cls →
      T.classes.classAt? m.heap m.globals i = some cls ∨
        ClassFits T program table m.globals (m.heap.define g x v) i cls) :
    Good T program table m₀ { m with heap := m.heap.define g x v } := by
  refine hm.step rfl rfl (.define hT hx v) ?_ hm.fields hclasses
  intro f y w hw
  rw [Heap.lookup?_define] at hw
  split at hw
  · cases hw
    exact .inr hv
  · exact .inl hw

end Good

/-- A binding that is not one of a class among the globals leaves the classes alone. -/
theorem classAt?_define {g : FrameId} {x : String} (v : Value)
    (hx : g = globals → ∀ i info, T.classes.info? i = some info → info.name ≠ x) (i : Nat) :
    T.classes.classAt? (h.define g x v) globals i = T.classes.classAt? h globals i := by
  unfold ClassTable.classAt?
  cases hinfo : T.classes.info? i with
  | none => rfl
  | some info =>
    rw [Option.bind_some, Option.bind_some, Heap.lookup?_define, if_neg]
    rintro ⟨rfl, hname, -⟩
    exact hx rfl i info hinfo hname.symm

/-- A binding of the name of a class leaves the other classes alone, as they have other names. -/
theorem classAt?_define_class (hT : T.Complete) {g : FrameId} {x : String} {id : ClassId}
    {v : Value} {i : Nat} {cls : Class} (hfind : T.scopes.globals.find? x = some (.classType id))
    (hcls : T.classes.classAt? (h.define g x v) globals i = some cls) :
    T.classes.classAt? h globals i = some cls ∨ i = id.index := by
  obtain ⟨info, hinfo, hlookup⟩ := ClassTable.classAt?_eq_some hcls
  by_cases hname : info.name = x
  · have hnamed := hT.named i info hinfo
    rw [hname, hfind] at hnamed
    cases hnamed
    exact .inr rfl
  · refine .inl (ClassTable.classAt?_of_lookup? hinfo ?_)
    rwa [Heap.lookup?_define, if_neg (fun h => hname h.2.1.symm)] at hlookup

namespace Later

theorem refl (hm : Good T program table m₀ m) : Later T program table m₀ m m :=
  ⟨⟨hm, .refl _, rfl, rfl, fun _ _ hx => hx⟩, fun _ hx => hx⟩

theorem noNames_trans (hglobals : m'.globals = m.globals) (h : NoNames m m')
    (h' : NoNames m' m'') : NoNames m m'' := by
  intro x hx
  refine h x (hglobals ▸ h' x ?_)
  rw [hglobals]
  exact hx

/-- What is kept since a machine, twice. -/
theorem since_trans (h : Since T program table m₀ m m') (h' : Since T program table m₀ m' m'') :
    Since T program table m₀ m m'' := by
  refine ⟨h'.good, h.keeps.trans (h.globals ▸ h'.keeps), h'.globals.trans h.globals,
    h'.current.trans h.current, fun hlocal => ?_⟩
  exact noNames_trans h.globals (h.names hlocal)
    (h'.names (by rw [h.current, h.globals]; exact hlocal))

/-- Later than later is later. -/
theorem trans (h : Later T program table m₀ m m') (h' : Later T program table m₀ m' m'') :
    Later T program table m₀ m m'' :=
  ⟨since_trans h.since h'.since, noNames_trans h.since.globals h.names h'.names⟩

/-- A value that fits still does later. -/
theorem valueFits {v : Value} (h : Later T program table m₀ m m')
    (hv : ValueFits T program table m.globals m.heap v) :
    ValueFits T program table m'.globals m'.heap v := by
  rw [h.since.globals]
  exact hv.mono h.since.keeps

/-- A value respects its type later as well. -/
theorem respects {type : StaticType} {v : Value} (h : Later T program table m₀ m m')
    (hv : Respects T m.globals m.heap type v) : Respects T m'.globals m'.heap type v := by
  rw [h.since.globals]
  exact hv.mono h.since.keeps

/-- A new frame. -/
theorem alloc (hT : T.Complete) {bindings : Bindings Value} (hm : Good T program table m₀ m)
    (enclosing : FrameId) (hb : ∀ x v, bindings.find? x = some v →
      ValueFits T program table m.globals m.heap v) :
    Later T program table m₀ m { m with heap := m.heap.alloc (some enclosing) bindings } := by
  have hkeeps : Keeps T m.globals m.heap (m.heap.alloc (some enclosing) bindings) := .alloc hT _ _ _
  -- The new frame is not that of the globals.
  have hglobals : ∀ x, (m.heap.alloc (some enclosing) bindings).lookup? m.globals x
      = m.heap.lookup? m.globals x := Heap.lookup?_alloc_of_ne hm.ne_next _ _
  have hgood : Good T program table m₀
      { m with heap := m.heap.alloc (some enclosing) bindings } := by
    refine hm.step rfl rfl hkeeps ?_ hm.fields ?_
    · intro f x v hv
      by_cases hf : f = m.heap.next
      · subst hf
        rw [Heap.lookup?_alloc_next] at hv
        exact .inr ((hb x v hv).mono hkeeps)
      · rw [Heap.lookup?_alloc_of_ne hf] at hv
        exact .inl hv
    · intro i cls hcls
      simp only [ClassTable.classAt?, hglobals] at hcls
      exact .inl hcls
  have hnames : NoNames m { m with heap := m.heap.alloc (some enclosing) bindings } := by
    intro x hx
    rw [← hglobals]
    exact hx
  exact ⟨⟨hgood, hkeeps, rfl, rfl, fun _ => hnames⟩, hnames⟩

/-- A change that leaves the frames alone, after which the fields hold what fits. -/
theorem of_heap_eq (hm : Good T program table m₀ m) (hheap : m'.heap = m.heap)
    (htable : m'.table = m.table) (hglobals : m'.globals = m.globals)
    (hcurrent : m'.current = m.current)
    (hfields : ∀ b ∈ m'.fields, ∀ x v, b.find? x = some v →
      ValueFits T program table m.globals m.heap v) :
    Later T program table m₀ m m' := by
  have hkeeps : Keeps T m.globals m.heap m'.heap := hheap ▸ .refl _
  have hgood : Good T program table m₀ m' := by
    refine hm.step htable hglobals hkeeps ?_ hfields ?_ <;> rw [hheap]
    · exact fun f x v hv => .inl hv
    · exact fun i cls hcls => .inl hcls
  have hnames : NoNames m m' := by
    intro x hx
    rwa [hheap] at hx
  exact ⟨⟨hgood, hkeeps, hglobals, hcurrent, fun _ => hnames⟩, hnames⟩

theorem newInstance (hm : Good T program table m₀ m) :
    Later T program table m₀ m { m with fields := m.fields.push .empty } := by
  refine of_heap_eq hm rfl rfl rfl rfl fun b hb x v hv => ?_
  rcases Array.mem_push.mp hb with hb | rfl
  · exact hm.fields b hb x v hv
  · cases hv

/-- A field is set to a value that fits. -/
theorem setField {value : Value} (hm : Good T program table m₀ m) (object : Instance)
    (name : String) (hvalue : ValueFits T program table m.globals m.heap value) :
    Later T program table m₀ m
      { m with fields := m.fields.modify object.index fun fields => fields.insert name value } := by
  refine of_heap_eq hm rfl rfl rfl rfl fun b hb x v hv => ?_
  obtain ⟨i, hi⟩ := Array.mem_iff_getElem?.mp hb
  rcases Bindings.find?_modify_insert hi hv with rfl | ⟨old, hold, hv⟩
  · exact hvalue
  · exact hm.fields old (Array.mem_of_getElem? hold) x v hv

/-- What runs in a new frame and comes back binds no global. -/
theorem back (hT : T.Complete) {enclosing : FrameId} {bindings : Bindings Value}
    (hm : Good T program table m₀ m)
    (h : Since T program table m₀ { m with
      heap := m.heap.alloc (some enclosing) bindings
      current := m.heap.next } m') :
    Later T program table m₀ m { m' with current := m.current } := by
  have hkeeps : Keeps T m.globals m.heap (m.heap.alloc (some enclosing) bindings) := .alloc hT _ _ _
  have hnames : NoNames m { m' with current := m.current } := by
    intro x hx
    have hx' := h.names (fun heq => hm.ne_next heq.symm) x hx
    rwa [Heap.lookup?_alloc_of_ne hm.ne_next] at hx'
  exact ⟨⟨h.good.within _, hkeeps.trans h.keeps, h.globals, rfl, fun _ => hnames⟩, hnames⟩

end Later

/-! ### Places -/

/-- The machine is in a frame that fits the names in scope, and at the top level there are no
    globals but those that are declared. -/
structure Stands (T : Typing) (m : Machine) (s : Scopes StaticType) : Prop where
  fits : Matches T m.globals m.heap s m.current
  names : s.frames = [] → ∀ x, (m.heap.lookup? m.globals x).isSome = true →
    s.globals.contains x = true

theorem Stands.later {s : Scopes StaticType} (hs : Stands T m s)
    (h : Later T program table m₀ m m') : Stands T m' s := by
  constructor
  · rw [h.since.globals, h.since.current]
    exact hs.fits.mono h.since.keeps
  · intro hglobal x hx
    rw [h.since.globals] at hx
    exact hs.names hglobal x (h.names x hx)

/-- A receiver that is in scope is an instance of the class at hand, or of one that inherits from
    it. -/
theorem Stands.receiver {s : Scopes StaticType} {id : ClassId} {d : Nat} {v : Value}
    (hs : Stands T m s)
    (hframe : s.frames[d]? = some (Bindings.empty.insert thisName (.instanceType id)))
    (hv : m.heap.getAt? m.current d thisName = some v) :
    Respects T m.globals m.heap (.instanceType id) v := by
  obtain ⟨g, hg, hholds⟩ := hs.fits.frames.ancestor hframe
  obtain ⟨-, w, hw, hrespects⟩ := hholds thisName (.instanceType id)
    (by rw [Bindings.find?_insert, if_pos rfl])
  rw [Heap.getAt?, hg, Option.bind_some, hw] at hv
  cases hv
  exact hrespects (.inl rfl)

/-- A name that is new to the checker at the top level is not bound. -/
theorem Stands.lookup?_eq_none {s : Scopes StaticType} {x : String} (hs : Stands T m s)
    (hglobal : s.frames = []) (hnew : s.declaredHere x = false) :
    m.heap.lookup? m.globals x = none := by
  cases hx : m.heap.lookup? m.globals x with
  | none => rfl
  | some v =>
    have hcontains := hs.names hglobal x (by rw [hx]; rfl)
    rw [Scopes.declaredHere, Scopes.current, hglobal] at hnew
    rw [show s.globals.contains x = false from hnew] at hcontains
    cases hcontains

end ClassSafety

end ClassScript
