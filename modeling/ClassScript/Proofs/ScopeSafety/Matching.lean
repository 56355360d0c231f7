import ClassScript.Machine
import ClassScript.Proofs.Frames
import ClassScript.Proofs.Visits

namespace ClassScript

/-!
# Frames that fit the scopes of resolution

A frame fits the scopes of a place in a program if the frames outward from it are, one by one, those
that resolution had open there, and bind the names that were ready. Functions carry this with them:
the frame that a function keeps fits the scopes of its declaration, and the frame that a method
keeps fits them up to the innermost one, which holds the receiver.

* `Matches`: a frame fits scopes;
* `ClosureFits`, `ClassFits`, `ValueFits`: what functions, classes and instances carry with them;
* `Sound`, `Later`: machines whose values fit, and what changes on them.
-/

namespace ScopeSafety

open Resolution (Setting start walk)

/-! ### Frames and scopes -/

/-- The frame binds the names that are ready. -/
def BindsReady (h : Heap Value) (b : Bindings Readiness) (f : FrameId) : Prop :=
  ∀ x, b.find? x = some .defined → (h.lookup? f x).isSome = true

/-- The frames outward from `f` are those of the scopes, up to the globals. -/
abbrev Matches (h : Heap Value) (globals : FrameId) (s : Scopes Readiness) (f : FrameId) : Prop :=
  h.Models globals (BindsReady h) s f

theorem BindsReady.mono {h h' : Heap Value} (hgrows : h.Grows h') {b : Bindings Readiness}
    {f : FrameId} (hb : BindsReady h b f) : BindsReady h' b f :=
  fun x hx => hgrows.names f x (hb x hx)

/-- A name that the frame binds is ready. -/
theorem BindsReady.insert {h : Heap Value} {b : Bindings Readiness} {f : FrameId} {x : String}
    (hb : BindsReady h b f) (hx : (h.lookup? f x).isSome = true) :
    BindsReady h (b.insert x .defined) f := by
  intro y hy
  rw [Bindings.find?_insert] at hy
  split at hy
  · next hxy => exact hxy ▸ hx
  · exact hb y hy

/-- A name that is not ready need not be bound. -/
theorem BindsReady.insert_declared {h : Heap Value} {b : Bindings Readiness} {f : FrameId}
    {x : String} (hb : BindsReady h b f) : BindsReady h (b.insert x .declared) f := by
  intro y hy
  rw [Bindings.find?_insert] at hy
  split at hy
  · cases hy
  · exact hb y hy

namespace Matches

variable {h h' : Heap Value} {globals f : FrameId} {s : Scopes Readiness}

theorem mono (hm : Matches h globals s f) (hgrows : h.Grows h') : Matches h' globals s f :=
  Heap.Models.mono hm hgrows fun _ _ hb => hb.mono hgrows

/-- A name that the frame binds is ready. -/
theorem declare {x : String} (hm : Matches h globals s f) (hx : (h.lookup? f x).isSome = true) :
    Matches h globals (s.declare x .defined) f :=
  Heap.Models.declare hm fun _ hb => hb.insert hx

/-- The initializer of a variable runs before the name is bound. -/
theorem declare_declared {x : String} (hm : Matches h globals s f) :
    Matches h globals (s.declare x .declared) f :=
  Heap.Models.declare hm fun _ hb => hb.insert_declared

/-- A new frame inside the first one. -/
theorem alloc {bindings : Bindings Value} {b : Bindings Readiness} (hm : Matches h globals s f)
    (hb : ∀ x, b.find? x = some .defined → (bindings.find? x).isSome = true) :
    Matches (h.alloc (some f) bindings) globals { s with frames := b :: s.frames } h.next := by
  refine Heap.Models.alloc hm (fun _ _ hb => hb.mono (.alloc h (some f) bindings)) ?_
  intro x hx
  rw [Heap.lookup?_alloc_next]
  exact hb x hx

theorem openFrame (hm : Matches h globals s f) (bindings : Bindings Value) :
    Matches (h.alloc (some f) bindings) globals s.openFrame h.next :=
  hm.alloc nofun

/-- The scopes after a statement whose name is bound. -/
theorem after {st : Stmt} (hm : Matches h globals s f)
    (hbound : ∀ x ∈ st.declared?, (h.lookup? f x).isSome = true) :
    Matches h globals (st.after s) f := by
  unfold Stmt.after
  cases hdeclared : st.declared? with
  | none => exact hm
  | some x => exact hm.declare (hbound x hdeclared)

/-- A frame with the arguments of a call. -/
theorem params {params : List Param} {arguments : List Value} (hm : Matches h globals s f)
    (hlength : arguments.length = params.length) :
    Matches (h.alloc (some f)
        (Bindings.ofList ((params.map fun p => p.name.text).zip arguments))) globals
      (parameterScopes params s) h.next := by
  rw [parameterScopes_eq]
  refine hm.alloc fun x hx => Bindings.isSome_find?_ofList ?_
  have hmem := Bindings.find?_ofList hx
  rw [List.map_fst_zip (by simp [hlength])]
  simpa using hmem

/-- A name that is ready is found, from the frame that it is used in, where the table says. -/
theorem lookUp? {m : Machine} {ref : Reference} (hm : Matches m.heap m.globals s m.current)
    (hbound : Resolution.Bound m.table s ref) :
    ∃ g v, m.holder? ref = some g ∧ m.heap.lookup? g ref.name.text = some v ∧
      m.lookUp? ref = some v := by
  obtain ⟨place, hfind, hready, hrecorded⟩ := hbound
  obtain ⟨g, -, v, -, -, hholder, hv, hlookUp⟩ :=
    Machine.found_of_models hm (fun _ _ hb hx => hb _ hx) hfind hready hrecorded
  exact ⟨g, v, hholder, hv, hlookUp⟩

end Matches

/-! ### Values -/

section Values

variable (program : Program) (h : Heap Value) (globals : FrameId)

/-- The frame that a function keeps fits the scopes of its declaration. -/
def ClosureFits (c : Closure) : Prop :=
  (∀ p ∈ c.decl.params, p.name.Plain) ∧
    ∃ around s, walk.Visits (start program)
        ⟨.stmts c.decl.body, ⟨around, parameterScopes c.decl.params s⟩⟩ ∧
      Matches h globals s c.frame

/-- The frame that a method keeps fits the scopes of its declaration but for the innermost, which
    holds the receiver. -/
def MethodFits (c : Closure) : Prop :=
  (∀ p ∈ c.decl.params, p.name.Plain) ∧
    ∃ around s this outer, walk.Visits (start program)
        ⟨.stmts c.decl.body, ⟨around, parameterScopes c.decl.params s⟩⟩ ∧
      s.frames = this :: outer ∧ (∀ x, this.find? x = some .defined → x = thisName) ∧
      Matches h globals { s with frames := outer } c.frame

/-- The methods of a class fit. -/
def ClassFits (cls : Class) : Prop :=
  ∀ name c, cls.findMethod? name = some c → MethodFits program h globals c

/-- The functions that a value gives access to fit. -/
def ValueFits : Value → Prop
  | .function _ c => ClosureFits program h globals c
  | .classValue cls => ClassFits program h globals cls
  | .instanceValue object => ClassFits program h globals object.cls
  | _ => True

/-- A value may be bound to a name: the words for the superclass and for the receiver are bound to a
    class and to an instance. -/
structure Storable (x : String) (v : Value) : Prop where
  fits : ValueFits program h globals v
  super : x = superName → ∃ cls, v = .classValue cls
  this : x = thisName → ∃ object, v = .instanceValue object

end Values

variable {program : Program} {table : Distances}

theorem ClosureFits.mono {h h' : Heap Value} {globals : FrameId} {c : Closure}
    (hc : ClosureFits program h globals c) (hgrows : h.Grows h') :
    ClosureFits program h' globals c := by
  obtain ⟨hplain, around, s, hvisit, hmatch⟩ := hc
  exact ⟨hplain, around, s, hvisit, hmatch.mono hgrows⟩

/-- A class still fits as the heap grows. -/
theorem ClassFits.mono {h h' : Heap Value} {globals : FrameId} {cls : Class}
    (hc : ClassFits program h globals cls) (hgrows : h.Grows h') :
    ClassFits program h' globals cls := by
  intro name c hfind
  obtain ⟨hplain, around, s, this, outer, hvisit, hframes, hthis, hmatch⟩ := hc name c hfind
  exact ⟨hplain, around, s, this, outer, hvisit, hframes, hthis, hmatch.mono hgrows⟩

/-- Any value still fits as the heap grows. -/
theorem ValueFits.mono {h h' : Heap Value} {globals : FrameId} {v : Value}
    (hv : ValueFits program h globals v) (hgrows : h.Grows h') :
    ValueFits program h' globals v := by
  cases v with
  | function identity c => exact ClosureFits.mono hv hgrows
  | classValue cls => exact ClassFits.mono hv hgrows
  | instanceValue object => exact ClassFits.mono hv hgrows
  | _ => trivial

/-- A method with its receiver, whose frame is a new one, fits as a function. -/
theorem MethodFits.bind {h : Heap Value} {globals : FrameId} {c : Closure}
    (hc : MethodFits program h globals c) (object : Instance) :
    ClosureFits program
      (h.alloc (some c.frame) (Bindings.empty.insert thisName (.instanceValue object))) globals
      { c with frame := h.next } := by
  obtain ⟨hplain, around, s, this, outer, hvisit, hframes, hthis, hmatch⟩ := hc
  refine ⟨hplain, around, s, hvisit, ?_⟩
  have hnew : Matches
      (h.alloc (some c.frame) (Bindings.empty.insert thisName (.instanceValue object))) globals
      { s with frames := this :: outer } h.next := by
    refine hmatch.alloc fun x hx => ?_
    rw [hthis x hx, Bindings.find?_insert, if_pos rfl]
    rfl
  have hs : s = { s with frames := this :: outer } := by rw [← hframes]
  rw [hs]
  exact hnew

/-! ### Machines -/

/-- The machine runs under the table, and what it stores fits. -/
structure Sound (program : Program) (table : Distances) (m : Machine) : Prop where
  table : m.table = table
  values : ∀ f x v, m.heap.lookup? f x = some v → Storable program m.heap m.globals x v
  fields : ∀ b ∈ m.fields, ∀ x v, b.find? x = some v → ValueFits program m.heap m.globals v

/-- One machine comes after another within a frame. -/
structure Later (program : Program) (table : Distances) (m m' : Machine) : Prop where
  sound : Sound program table m'
  grows : m.heap.Grows m'.heap
  globals : m'.globals = m.globals
  current : m'.current = m.current

namespace Later

variable {m m' m'' : Machine}

theorem refl (hm : Sound program table m) : Later program table m m :=
  ⟨hm, .refl _, rfl, rfl⟩

/-- Later than later is later. -/
theorem trans (h : Later program table m m') (h' : Later program table m' m'') :
    Later program table m m'' :=
  ⟨h'.sound, h.grows.trans h'.grows, h'.globals.trans h.globals, h'.current.trans h.current⟩

/-- A value that fits still does later. -/
theorem valueFits {v : Value} (h : Later program table m m')
    (hv : ValueFits program m.heap m.globals v) : ValueFits program m'.heap m'.globals v := by
  rw [h.globals]
  exact hv.mono h.grows

theorem keeps {s : Scopes Readiness} (h : Later program table m m')
    (hs : Matches m.heap m.globals s m.current) : Matches m'.heap m'.globals s m'.current := by
  rw [h.globals, h.current]
  exact hs.mono h.grows

/-- A binding in a frame. -/
theorem define {g : FrameId} {x : String} {v : Value} (hm : Sound program table m)
    (hv : Storable program (m.heap.define g x v) m.globals x v) :
    Later program table m { m with heap := m.heap.define g x v } := by
  have hgrows := Heap.Grows.define m.heap g x v
  refine ⟨⟨hm.table, ?_, fun b hb y w hw => (hm.fields b hb y w hw).mono hgrows⟩, hgrows, rfl, rfl⟩
  intro f y w hw
  rw [Heap.lookup?_define] at hw
  split at hw
  · next heq =>
    cases hw
    exact heq.2.1 ▸ hv
  · obtain ⟨hfits, hsuper, hthis⟩ := hm.values f y w hw
    exact ⟨hfits.mono hgrows, hsuper, hthis⟩

/-- A new frame. -/
theorem alloc {bindings : Bindings Value} (hm : Sound program table m) (enclosing : FrameId)
    (hb : ∀ x v, bindings.find? x = some v → Storable program m.heap m.globals x v) :
    Later program table m { m with heap := m.heap.alloc (some enclosing) bindings } := by
  have hgrows := Heap.Grows.alloc m.heap (some enclosing) bindings
  have hstorable : ∀ x v, Storable program m.heap m.globals x v →
      Storable program (m.heap.alloc (some enclosing) bindings) m.globals x v :=
    fun x v ⟨hfits, hsuper, hthis⟩ => ⟨hfits.mono hgrows, hsuper, hthis⟩
  refine ⟨⟨hm.table, ?_, fun b hb y w hw => (hm.fields b hb y w hw).mono hgrows⟩, hgrows, rfl, rfl⟩
  intro f x v hv
  refine hstorable x v ?_
  by_cases hf : f = m.heap.next
  · subst hf
    rw [Heap.lookup?_alloc_next] at hv
    exact hb x v hv
  · rw [Heap.lookup?_alloc_of_ne hf] at hv
    exact hm.values f x v hv

/-- A change that leaves frames and fields alone. -/
theorem of_eq (hm : Sound program table m) (hheap : m'.heap = m.heap)
    (hfields : m'.fields = m.fields) (htable : m'.table = m.table)
    (hglobals : m'.globals = m.globals) (hcurrent : m'.current = m.current) :
    Later program table m m' := by
  refine ⟨⟨htable.trans hm.table, ?_, ?_⟩, hheap ▸ .refl _, hglobals, hcurrent⟩
  · intro f x v hv
    rw [hheap] at hv ⊢
    rw [hglobals]
    exact hm.values f x v hv
  · rw [hfields, hheap, hglobals]
    exact hm.fields

/-- A new instance has no fields. -/
theorem newInstance (hm : Sound program table m) :
    Later program table m { m with fields := m.fields.push .empty } := by
  refine ⟨⟨hm.table, hm.values, fun b hb x v hv => ?_⟩, .refl _, rfl, rfl⟩
  rcases Array.mem_push.mp hb with hb | rfl
  · exact hm.fields b hb x v hv
  · cases hv

/-- A field is set to a value that fits. -/
theorem setField {value : Value} (hm : Sound program table m) (object : Instance) (name : String)
    (hvalue : ValueFits program m.heap m.globals value) :
    Later program table m
      { m with fields := m.fields.modify object.index fun fields => fields.insert name value } := by
  refine ⟨⟨hm.table, hm.values, fun b hb x v hv => ?_⟩, .refl _, rfl, rfl⟩
  obtain ⟨i, hi⟩ := Array.mem_iff_getElem?.mp hb
  rcases Bindings.find?_modify_insert hi hv with rfl | ⟨old, hold, hv⟩
  · exact hvalue
  · exact hm.fields old (Array.mem_of_getElem? hold) x v hv

end Later

/-- A field holds a value that fits. -/
theorem Sound.field? {m : Machine} {object : Instance} {x : String} {v : Value}
    (hm : Sound program table m) (hv : m.field? object x = some v) :
    ValueFits program m.heap m.globals v := by
  obtain ⟨b, hb, hfind⟩ := Option.bind_eq_some_iff.mp hv
  exact hm.fields b (Array.mem_of_getElem? hb) x v hfind

end ScopeSafety

end ClassScript
