import ClassScript.Proofs.Effects

namespace ClassScript

/-!
# What calls can change

A call changes the frames and the fields that it makes itself, and of those that were there before
only what it can get hold of: from the frame that the function keeps, from the arguments and from
the globals, through the frames around a frame, through functions, through the methods of classes
and through the fields of instances. All else is as it was, however the call ends, and so are the
names that the caller has bound where none of these lead.

What can be reached changes all the time as names are bound and fields are set, but it never gets
beyond what could be reached at first and what is new. So a region is fixed in advance, and a run
stays inside: it knows no value that leads out of the region, and changes nothing outside.

* `Cell`, `Value.Refers`: what can change, and what a value leads to;
* `Machine.Reachable`: what values lead to on a machine;
* `Machine.Confined`: no way leads out of a region, and outside of it nothing has changed;
* `Discipline.confining`: the discipline of runs that stay inside a region;
* `calls_spare_unreachable`: calls.
-/

/-! ### Reachability -/

/-- What can change while a program runs: the bindings of a frame, and the fields of an instance. -/
inductive Cell where
  | frame (f : FrameId)
  | object (index : Nat)
deriving DecidableEq

/-- A class leads to the frames that the methods keep which are found on it. -/
def Class.Refers (cls : Class) (cell : Cell) : Prop :=
  ∃ x c, cls.findMethod? x = some c ∧ cell = .frame c.frame

/-- What a value leads to: a function to the frame that it keeps, and an instance to its fields and
    to where its class leads. -/
def Value.Refers : Value → Cell → Prop
  | .function _ c, cell => cell = .frame c.frame
  | .classValue cls, cell => cls.Refers cell
  | .instanceValue object, cell => cell = .object object.index ∨ object.cls.Refers cell
  | _, _ => False

namespace Machine

/-- The frame or instance is there. -/
def Has (m : Machine) : Cell → Prop
  | .frame f => f.index < m.heap.frames.size
  | .object index => index < m.fields.size

instance (m : Machine) : DecidablePred m.Has
  | .frame f => inferInstanceAs (Decidable (f.index < m.heap.frames.size))
  | .object index => inferInstanceAs (Decidable (index < m.fields.size))

theorem has_of_frame? {m : Machine} {f : FrameId} (h : (m.heap.frame? f).isSome = true) :
    m.Has (.frame f) := by
  obtain ⟨frame, hframe⟩ := Option.isSome_iff_exists.mp h
  exact (Array.getElem?_eq_some_iff.mp hframe).1

/-- What the globals and the values lead to on a machine. -/
inductive Reachable (m : Machine) (values : List Value) : Cell → Prop where
  | globals : m.Reachable values (.frame m.globals)
  | value {v : Value} {cell : Cell} : v ∈ values → v.Refers cell → m.Reachable values cell
  | enclosing {f outer : FrameId} : m.Reachable values (.frame f) →
    m.heap.enclosing? f = some outer → m.Reachable values (.frame outer)
  | binding {f : FrameId} {x : String} {v : Value} {cell : Cell} : m.Reachable values (.frame f) →
    m.heap.lookup? f x = some v → v.Refers cell → m.Reachable values cell
  | field {index : Nat} {fields : Bindings Value} {x : String} {v : Value} {cell : Cell} :
    m.Reachable values (.object index) → m.fields[index]? = some fields →
    fields.find? x = some v → v.Refers cell → m.Reachable values cell

end Machine

/-! ### Where names are bound -/

namespace Heap

variable {α : Type} {h h' : Heap α} {f g : FrameId} {x : String}

theorem holderAt?_eq_some {distance : Nat} (hg : h.holderAt? f distance x = some g) :
    h.ancestor? f distance = some g ∧ (h.lookup? g x).isSome = true := by
  unfold holderAt? at hg
  split at hg
  · next found hfound =>
    split at hg
    · next hbound =>
      cases hg
      exact ⟨hfound, hbound⟩
    · cases hg
  · cases hg

theorem isSome_lookup?_of_holderWithin? {fuel : Nat} (hg : h.holderWithin? x fuel f = some g) :
    (h.lookup? g x).isSome = true := by
  induction fuel generalizing f with
  | zero => cases hg
  | succ fuel ih =>
    rw [holderWithin?] at hg
    split at hg
    · next hbound =>
      cases hg
      exact hbound
    · split at hg
      · exact ih hg
      · cases hg

/-- Steps outward lead to the same frame as long as frames stand where they stood. -/
theorem ancestor?_of_enclosing {distance : Nat}
    (hkeeps : ∀ f, (h.frame? f).isSome = true → h'.enclosing? f = h.enclosing? f)
    (hg : h.ancestor? f distance = some g) : h'.ancestor? f distance = some g := by
  induction distance generalizing f with
  | zero => exact hg
  | succ distance ih =>
    rw [ancestor?] at hg ⊢
    split at hg
    · next outer houter =>
      rw [hkeeps f (isSome_frame?_of_enclosing? houter), houter]
      exact ih hg
    · cases hg

end Heap

/-! ### Regions -/

/-- The value does not lead out of the region. -/
def Value.Inside (region : Cell → Prop) (v : Value) : Prop := ∀ cell, v.Refers cell → region cell

theorem Value.IsPlain.inside {region : Cell → Prop} {v : Value} (h : v.IsPlain) :
    v.Inside region := by
  intro cell hcell
  cases v with
  | function identity c => exact h.elim
  | classValue cls => exact h.elim
  | instanceValue object => exact h.elim
  | _ => exact hcell.elim

theorem Value.Inside.of_single {region : Cell → Prop} {v w : Value} {x y : String}
    (h : v.Inside region) (hw : (Bindings.empty.insert x v).find? y = some w) :
    w.Inside region := by
  obtain ⟨-, rfl⟩ := Bindings.eq_of_find?_single hw
  exact h

/-- No frame of the region leads out of it, new frames belong to it, and outside of it the frames
    are those of `base`. -/
structure Heap.Confined (h : Heap Value) (region : Cell → Prop) (base : Heap Value) : Prop where
  new : ∀ f : FrameId, h.frames.size ≤ f.index → region (.frame f)
  enclosing : ∀ f outer, region (.frame f) → h.enclosing? f = some outer → region (.frame outer)
  binding : ∀ f x v, region (.frame f) → h.lookup? f x = some v → v.Inside region
  spared : ∀ f, ¬ region (.frame f) → h.frame? f = base.frame? f

/-- Nothing in the region leads out of it, what is new belongs to it, and outside of it the machine
    is as `base` is. -/
structure Machine.Confined (m : Machine) (region : Cell → Prop) (base : Machine) : Prop where
  heap : m.heap.Confined region base.heap
  globals : region (.frame m.globals)
  new : ∀ index, m.fields.size ≤ index → region (.object index)
  field : ∀ index fields x v, region (.object index) → m.fields[index]? = some fields →
    fields.find? x = some v → v.Inside region
  spared : ∀ index, ¬ region (.object index) → m.fields[index]? = base.fields[index]?

namespace Heap.Confined

variable {h base : Heap Value} {region : Cell → Prop} {f g : FrameId} {x : String}

/-- New frames are inside the region. -/
theorem next (hc : h.Confined region base) : region (.frame h.next) :=
  hc.new h.next (Nat.le_refl _)

theorem alloc {bindings : Bindings Value} (hc : h.Confined region base) (hf : region (.frame f))
    (hbindings : ∀ x v, bindings.find? x = some v → v.Inside region) :
    (h.alloc (some f) bindings).Confined region base where
  new g hg := by
    refine hc.new g (Nat.le_trans ?_ hg)
    simp [Heap.alloc]
  enclosing g outer hg houter := by
    by_cases hnext : g = h.next
    · subst hnext
      rw [enclosing?_alloc_next] at houter
      cases houter
      exact hf
    · simp only [enclosing?, frame?_alloc, if_neg hnext] at houter
      exact hc.enclosing g outer hg houter
  binding g x v hg hv := by
    by_cases hnext : g = h.next
    · subst hnext
      rw [lookup?_alloc_next] at hv
      exact hbindings x v hv
    · rw [lookup?_alloc_of_ne hnext] at hv
      exact hc.binding g x v hg hv
  spared g hg := by
    have hnext : g ≠ h.next := by
      -- The new frame is in the region.
      rintro rfl
      exact hg hc.next
    rw [frame?_alloc, if_neg hnext]
    exact hc.spared g hg

theorem define {v : Value} (hc : h.Confined region base) (hf : region (.frame f))
    (hv : v.Inside region) : (h.define f x v).Confined region base where
  new g hg := by
    refine hc.new g (Nat.le_trans ?_ hg)
    simp [Heap.define]
  enclosing g outer hg houter := by
    rw [enclosing?_define] at houter
    exact hc.enclosing g outer hg houter
  binding g y w hg hw := by
    rw [lookup?_define] at hw
    split at hw
    · cases hw
      exact hv
    · exact hc.binding g y w hg hw
  spared g hg := by
    have hne : g ≠ f := by
      rintro rfl
      exact hg hf
    rw [frame?_define, if_neg hne]
    exact hc.spared g hg

/-- Steps outward do not leave the region. -/
theorem ancestor? {distance : Nat} (hc : h.Confined region base) (hf : region (.frame f))
    (hg : h.ancestor? f distance = some g) : region (.frame g) := by
  induction distance generalizing f with
  | zero =>
    cases hg
    exact hf
  | succ distance ih =>
    rw [Heap.ancestor?] at hg
    split at hg
    · next outer houter => exact ih (hc.enclosing f outer hf houter) hg
    · cases hg

theorem getAt? {distance : Nat} {v : Value} (hc : h.Confined region base)
    (hf : region (.frame f)) (hv : h.getAt? f distance x = some v) : v.Inside region := by
  obtain ⟨g, hg, hv⟩ := Option.bind_eq_some_iff.mp hv
  exact hc.binding g x v (hc.ancestor? hf hg) hv

theorem holderWithin? {fuel : Nat} (hc : h.Confined region base) (hf : region (.frame f))
    (hg : h.holderWithin? x fuel f = some g) : region (.frame g) := by
  induction fuel generalizing f with
  | zero => cases hg
  | succ fuel ih =>
    rw [Heap.holderWithin?] at hg
    split at hg
    · cases hg
      exact hf
    · split at hg
      · next outer houter => exact ih (hc.enclosing f outer hf houter) hg
      · cases hg

theorem get? {v : Value} (hc : h.Confined region base) (hf : region (.frame f))
    (hv : h.get? f x = some v) : v.Inside region := by
  obtain ⟨g, hg, hv⟩ := Option.bind_eq_some_iff.mp hv
  exact hc.binding g x v (hc.holderWithin? hf hg) hv

end Heap.Confined

namespace Machine.Confined

variable {m base : Machine} {region : Cell → Prop}

/-- A machine with a new frame inside the region. -/
theorem alloc {f : FrameId} {bindings : Bindings Value} (hm : m.Confined region base)
    (hf : region (.frame f)) (hbindings : ∀ x v, bindings.find? x = some v → v.Inside region) :
    { m with heap := m.heap.alloc (some f) bindings }.Confined region base :=
  { hm with heap := hm.heap.alloc hf hbindings }

theorem inside {f : FrameId} {bindings : Bindings Value} (hm : m.Confined region base)
    (hf : region (.frame f)) (hbindings : ∀ x v, bindings.find? x = some v → v.Inside region) :
    (m.inside f bindings).Confined region base :=
  { hm.alloc hf hbindings with }

theorem define {f : FrameId} {x : String} {v : Value} (hm : m.Confined region base)
    (hf : region (.frame f)) (hv : v.Inside region) :
    { m with heap := m.heap.define f x v }.Confined region base :=
  { hm with heap := hm.heap.define hf hv }

/-- New instances are inside the region. -/
theorem newInstance (hm : m.Confined region base) :
    { m with fields := m.fields.push .empty }.Confined region base where
  heap := hm.heap
  globals := hm.globals
  new index hindex := by
    refine hm.new index (Nat.le_trans ?_ hindex)
    simp
  field index fields x v hindex hfields hv := by
    rw [Array.getElem?_push] at hfields
    split at hfields
    · cases hfields
      cases hv
    · exact hm.field index fields x v hindex hfields hv
  spared index hindex := by
    have hne : index ≠ m.fields.size := by
      rintro rfl
      exact hindex (hm.new _ (Nat.le_refl _))
    rw [Array.getElem?_push, if_neg hne]
    exact hm.spared index hindex

theorem setField {index : Nat} {x : String} {v : Value} (hm : m.Confined region base)
    (hindex : region (.object index)) (hv : v.Inside region) :
    { m with fields := m.fields.modify index fun fields => fields.insert x v }.Confined
      region base where
  heap := hm.heap
  globals := hm.globals
  new i hi := by
    refine hm.new i (Nat.le_trans ?_ hi)
    simp
  field i fields y w hi hfields hw := by
    rcases Bindings.find?_modify_insert hfields hw with rfl | ⟨before, hbefore, hw⟩
    · exact hv
    · exact hm.field i before y w hi hbefore hw
  spared i hi := by
    have hne : index ≠ i := by
      rintro rfl
      exact hi hindex
    rw [Array.getElem?_modify, if_neg hne]
    exact hm.spared i hi

/-- What a name is bound to does not lead out of the region. -/
theorem lookUp? {ref : Reference} {v : Value} (hm : m.Confined region base)
    (hcurrent : region (.frame m.current)) (hv : m.lookUp? ref = some v) : v.Inside region := by
  unfold Machine.lookUp? at hv
  split at hv
  · exact hm.heap.getAt? hcurrent hv
  · exact hm.heap.get? hm.globals hv

/-- Assignments stay inside the region. -/
theorem holder? {ref : Reference} {f : FrameId} (hm : m.Confined region base)
    (hcurrent : region (.frame m.current)) (hf : m.holder? ref = some f) : region (.frame f) := by
  unfold Machine.holder? at hf
  split at hf
  · exact hm.heap.ancestor? hcurrent (Heap.holderAt?_eq_some hf).1
  · exact hm.heap.holderWithin? hm.globals hf

theorem withClass {name : Name} {superclass : Option Class} {frame : FrameId}
    {decls : List FunctionDecl} (hm : m.Confined region base)
    (hcurrent : region (.frame m.current)) (hframe : region (.frame frame))
    (hsuper : ∀ cls ∈ superclass, (Value.classValue cls).Inside region) :
    (m.withClass name superclass frame decls).Confined region base := by
  refine { hm with heap := hm.heap.define hcurrent ?_ }
  rintro cell ⟨x, c, hc, rfl⟩
  rcases Class.findMethod?_ofDecls hc with ⟨decl, -, rfl⟩ | ⟨cls, hcls, hinherited⟩
  · exact hframe
  · exact hsuper cls hcls _ ⟨x, c, hinherited, rfl⟩

end Machine.Confined

/-! ### Runs inside a region -/

namespace Discipline

open Eval

/-- Runs that stay inside the region. The caller of a function need not be in it. -/
def confining (region : Cell → Prop) (base : Machine) : Discipline where
  Good m := m.Confined region base
  Later m m' := m'.Confined region base ∧ m'.current = m.current
  Since _ m' := m'.Confined region base
  Executed m _ m' := m'.Confined region base ∧ m'.current = m.current
  Allows _ := True
  Holds _ v := v.Inside region
  Gives _ _ v := v.Inside region
  Runs m _ := m.Confined region base ∧ region (.frame m.current)
  Calls m callee arguments _ :=
    m.Confined region base ∧ ∀ v ∈ callee :: arguments, v.Inside region
  Enters m c arguments :=
    m.Confined region base ∧ region (.frame c.frame) ∧ ∀ v ∈ arguments, v.Inside region

namespace confining

variable {region : Cell → Prop} {base m : Machine}

/-- A method with its receiver keeps a frame that is new. -/
theorem ensures_bindReceiver {c : Closure} {object : Instance} (hm : m.Confined region base)
    (hc : region (.frame c.frame)) (hobject : (Value.instanceValue object).Inside region) :
    Ensures (bindReceiver c object) m
      (fun bound m' => (m'.Confined region base ∧ m'.current = m.current) ∧
        region (.frame bound.frame)) fun _ _ => False :=
  ⟨⟨hm.alloc hc fun _ _ => hobject.of_single, rfl⟩, hm.heap.next⟩

theorem ensures_boundMethod {c : Closure} {object : Instance} (hm : m.Confined region base)
    (hc : region (.frame c.frame)) (hobject : (Value.instanceValue object).Inside region) :
    Ensures (boundMethod c object) m ((confining region base).Yields m) fun _ _ => False := by
  refine (ensures_bindReceiver hm hc hobject).bind fun bound m₁ _ h => ?_
  obtain ⟨⟨hm₁, hcurrent⟩, hframe⟩ := h
  refine ⟨⟨{ hm₁ with }, hcurrent⟩, ?_⟩
  rintro cell rfl
  exact hframe

theorem ensures_declareClass {name : Name} {superclass : Option Reference}
    {decls : List FunctionDecl} (hm : m.Confined region base)
    (hcurrent : region (.frame m.current)) :
    Ensures (declareClass name superclass decls) m
      (fun _ m' => m'.Confined region base ∧ m'.current = m.current)
      fun _ m' => m'.Confined region base := by
  refine .declareClass (fun _ _ _ _ => hm) (fun _ => ?_) fun ref _ cls hcls => ?_
  · exact ⟨hm.withClass hcurrent hcurrent nofun, rfl⟩
  · have hinside : (Value.classValue cls).Inside region := hm.lookUp? hcurrent hcls
    have hsuper : (m.withSuper cls).Confined region base :=
      hm.alloc hcurrent fun _ _ => hinside.of_single
    refine ⟨hsuper.withClass hcurrent hm.heap.next ?_, rfl⟩
    rintro cls' ⟨⟩
    exact hinside

/-- Nothing of this is about the current frame, so a call may come back to any. -/
theorem machineLaws : (confining region base).MachineLaws where
  refl h := ⟨h, rfl⟩
  trans h h' := ⟨h'.1, h'.2.trans h.2⟩
  since_of_later h := h.1
  since_trans _ h := h
  good := id
  back _ h := ⟨{ h with }, rfl⟩
  outOfFuel := trivial

theorem valueLaws : (confining region base).ValueLaws where
  later h _ := h
  current := id
  plain _ h := h.inside
  field := by
    intro m object x v hm hobject hv
    obtain ⟨fields, hfields, hv⟩ := Option.bind_eq_some_iff.mp hv
    exact hm.field _ fields x v (hobject _ (.inl rfl)) hfields hv
  method hm hobject hc := ensures_boundMethod hm (hobject _ (.inr ⟨_, _, hc, rfl⟩)) hobject

/-- Expressions stay inside the region. -/
theorem exprLaws : (confining region base).ExprLaws where
  good h := h.1
  later h hlater := ⟨hlater.1, hlater.2 ▸ h.2⟩
  parts h _ := h
  list h := ⟨h, h⟩
  raises _ _ _ := trivial
  holds := id
  gives_later h _ := h
  read h _ _ hv := h.1.lookUp? h.2 hv
  result _ _ _ hv := hv
  computed _ _ _ hv := hv
  assign h hv hf := ⟨h.1.define (h.1.holder? h.2 hf) hv, rfl⟩
  setField h hobject hv := ⟨h.1.setField (hobject _ (.inl rfl)) hv, rfl⟩
  superMethod := by
    intro m keyword method inner superclass object c h _ hclass hobject hc
    have hsuper : (Value.classValue superclass).Inside region := h.1.heap.getAt? h.2 hclass
    exact ensures_boundMethod h.1 (hsuper _ ⟨_, c, hc, rfl⟩) (h.1.heap.getAt? h.2 hobject)

/-- Calls stay inside the region. -/
theorem callLaws : (confining region base).CallLaws where
  calls h hf hvalues := ⟨h.1, List.forall_mem_cons.mpr ⟨hf, exprLaws.holds_all hvalues⟩⟩
  good h := h.1
  raises _ _ := trivial
  write _ h := ⟨{ h.1 with }, rfl⟩
  function := by
    intro m identity c values paren h _
    obtain ⟨hc, hvalues⟩ := List.forall_mem_cons.mp h.2
    exact ⟨h.1, hc _ rfl, hvalues⟩
  construct := by
    intro m cls values paren h _
    obtain ⟨hcls, hvalues⟩ := List.forall_mem_cons.mp h.2
    have hobject : (Value.instanceValue ⟨m.fields.size, cls⟩).Inside region := by
      rintro cell (rfl | hmethod)
      · exact h.1.new _ (Nat.le_refl _)
      · exact hcls cell hmethod
    refine ⟨⟨h.1.newInstance, rfl⟩, hobject, fun method hmethod => ?_⟩
    have hframe : region (.frame method.frame) := hcls _ ⟨_, method, hmethod, rfl⟩
    refine (ensures_bindReceiver h.1.newInstance hframe hobject).mono ?_ fun _ _ h => h
    exact fun bound m₂ hbound => ⟨hbound.1, hbound.1.1, hbound.2, hvalues⟩
  entered h := h.1
  invoke := by
    intro m c values h
    obtain ⟨hm, hframe, hvalues⟩ := h
    -- The caller may be outside, but the frame of the body is new.
    refine ⟨hm.inside hframe fun x v hv => ?_, hm.heap.next⟩
    exact hvalues v (List.of_mem_zip (Bindings.find?_ofList hv)).2
  receiver h hlater hv := hlater.1.heap.binding _ _ _ h.2.1 hv
  unbound _ _ _ _ := trivial

/-- Statements stay inside the region. -/
theorem stmtLaws : (confining region base).StmtLaws where
  parts h _ := h
  first := id
  rest h hexecuted := ⟨hexecuted.1, hexecuted.2 ▸ h.2⟩
  raises _ _ _ := trivial
  since h := h.1
  later h h' := ⟨h'.1, h'.2.trans h.2⟩
  plain _ _ := Iff.rfl
  branch _ _ h := h
  block h := ⟨h.1.inside h.2 nofun, h.1.heap.next⟩
  val := by
    intro m name type initializer v h hv hvoid
    refine ⟨h.1.define h.2 ?_, rfl⟩
    cases initializer with
    | none =>
      rw [hvoid rfl]
      exact Value.IsPlain.inside trivial
    | some e => exact hv e rfl
  funDecl := by
    intro m decl h
    have hfunction : (Value.function m.nextIdentity ⟨decl, m.current, false⟩).Inside region := by
      rintro cell rfl
      exact h.2
    exact ⟨{ h.1.define h.2 hfunction with }, rfl⟩
  classDecl h := (ensures_declareClass h.1 h.2).mono (fun _ _ h => h) fun _ _ h => ⟨trivial, h⟩

/-- **Runs stay inside a region that leads nowhere else.** -/
theorem lawful : (confining region base).Lawful :=
  ⟨machineLaws, valueLaws, exprLaws, callLaws, stmtLaws⟩

end confining

end Discipline

/-! ### Calls -/

namespace Machine

variable {m m' : Machine} {values : List Value}

/-- What is not there yet, and what the globals and the values lead to. -/
def Range (m : Machine) (values : List Value) (cell : Cell) : Prop :=
  ¬ m.Has cell ∨ m.Reachable values cell

theorem not_range_iff {cell : Cell} :
    ¬ m.Range values cell ↔ m.Has cell ∧ ¬ m.Reachable values cell := by
  rw [Range, not_or, not_not]

/-- What can be reached leads to nothing that cannot. -/
theorem confined_range (m : Machine) (values : List Value) : m.Confined (m.Range values) m where
  heap :=
    { new := fun _ hf => .inl (Nat.not_lt.mpr hf)
      enclosing := by
        intro f outer hf houter
        have hsome := Heap.isSome_frame?_of_enclosing? houter
        exact .inr (.enclosing (hf.resolve_left fun hnot => hnot (has_of_frame? hsome)) houter)
      binding := by
        intro f x v hf hv cell hcell
        have hsome := Heap.isSome_frame?_of_lookup? (Option.isSome_iff_exists.mpr ⟨v, hv⟩)
        exact .inr (.binding (hf.resolve_left fun hnot => hnot (has_of_frame? hsome)) hv hcell)
      spared := fun _ _ => rfl }
  globals := .inr .globals
  new _ hindex := .inl (Nat.not_lt.mpr hindex)
  field index fields x v hindex hfields hv cell hcell := by
    have hlt : m.Has (.object index) := (Array.getElem?_eq_some_iff.mp hfields).1
    exact .inr (.field (hindex.resolve_left fun hnot => hnot hlt) hfields hv hcell)
  spared _ _ := rfl

/-- What is there on the first machine, and neither the globals nor the values lead to, is the
    same on the second. -/
structure Spares (m : Machine) (values : List Value) (m' : Machine) : Prop where
  frames : ∀ f, m.Has (.frame f) → ¬ m.Reachable values (.frame f) →
    m'.heap.frame? f = m.heap.frame? f
  fields : ∀ index, m.Has (.object index) → ¬ m.Reachable values (.object index) →
    m'.fields[index]? = m.fields[index]?
  /-- The current frame is the same one, and binds what it did. -/
  caller : m.Has (.frame m.current) → ¬ m.Reachable values (.frame m.current) →
    m'.current = m.current ∧ ∀ x, m'.heap.lookup? m'.current x = m.heap.lookup? m.current x
  /-- Names that are bound in any such frame stand for what they did. -/
  names : ∀ ref f, m.holder? ref = some f → ¬ m.Reachable values (.frame f) →
    m'.lookUp? ref = m.lookUp? ref

theorem frame?_of_confined {f : FrameId} (hc : m'.Confined (m.Range values) m)
    (hf : m.Has (.frame f)) (hnot : ¬ m.Reachable values (.frame f)) :
    m'.heap.frame? f = m.heap.frame? f :=
  hc.heap.spared f (not_range_iff.mpr ⟨hf, hnot⟩)

theorem lookup?_of_confined {f : FrameId} (hc : m'.Confined (m.Range values) m)
    (hf : m.Has (.frame f)) (hnot : ¬ m.Reachable values (.frame f)) (x : String) :
    m'.heap.lookup? f x = m.heap.lookup? f x := by
  rw [Heap.lookup?, Heap.lookup?, frame?_of_confined hc hf hnot]

/-- A name that is bound where nothing leads is bound to the same value. -/
theorem lookUp?_of_confined {ref : Reference} {f : FrameId}
    (hc : m'.Confined (m.Range values) m) (hkeeps : m.KeepsFrames m')
    (hholder : m.holder? ref = some f) (hnot : ¬ m.Reachable values (.frame f)) :
    m'.lookUp? ref = m.lookUp? ref := by
  unfold holder? at hholder
  unfold lookUp?
  rw [hkeeps.table, hkeeps.current]
  cases hdistance : m.table.get? ref.id with
  | some distance =>
    simp only [hdistance] at hholder ⊢
    obtain ⟨hancestor, hbound⟩ := Heap.holderAt?_eq_some hholder
    have hancestor' : m'.heap.ancestor? m.current distance = some f :=
      Heap.ancestor?_of_enclosing (fun f hf => (hkeeps.enclosing f hf).2) hancestor
    rw [Heap.getAt?, Heap.getAt?, hancestor, hancestor']
    exact lookup?_of_confined hc (has_of_frame? (Heap.isSome_frame?_of_lookup? hbound)) hnot _
  | none =>
    -- A global is bound in a frame that the globals lead to.
    simp only [hdistance] at hholder
    have hbound := Heap.isSome_lookup?_of_holderWithin? hholder
    rcases (confined_range m values).heap.holderWithin? (.inr .globals) hholder with hhas | hreach
    · exact absurd (has_of_frame? (Heap.isSome_frame?_of_lookup? hbound)) hhas
    · exact absurd hreach hnot

theorem Spares.of_confined (hc : m'.Confined (m.Range values) m) (hkeeps : m.KeepsFrames m') :
    m.Spares values m' where
  frames _ hf hnot := frame?_of_confined hc hf hnot
  fields index hi hnot := hc.spared index (not_range_iff.mpr ⟨hi, hnot⟩)
  caller hf hnot := by
    rw [hkeeps.current]
    exact ⟨rfl, lookup?_of_confined hc hf hnot⟩
  names _ _ hholder hnot := lookUp?_of_confined hc hkeeps hholder hnot

end Machine

/-- However the computation ends, it leaves alone what neither the globals nor the values lead
    to. -/
def Eval.Spares {α : Type} (x : Eval α) (m : Machine) (values : List Value) : Prop :=
  Eval.Ensures x m (fun _ m' => m.Spares values m') fun _ m' => m.Spares values m'

theorem Eval.Spares.of_confined {x : Eval Value} {m : Machine} {values : List Value}
    (hdone : Ensures x m ((Discipline.confining (m.Range values) m).Yields m)
      ((Discipline.confining (m.Range values) m).Stopped m))
    (hkeeps : x.Keeps Machine.KeepsFrames) : x.Spares m values :=
  (hdone.and (hkeeps m)).mono (fun _ _ h => .of_confined h.1.1.1 h.2)
    fun _ _ h => .of_confined h.1.2 h.2

/-- **Calls leave alone what they cannot reach.** On whatever machine, under whatever table of
    distances and however the call ends, the frames and the fields that were there are as they were,
    unless the globals, the function or the arguments lead to them; so are the bindings of the
    caller. This holds of the body of a function as of calls of functions and classes. -/
theorem calls_spare_unreachable (n : Nat) (m : Machine) :
    (∀ identity closure arguments,
      (Eval.invoke n closure arguments).Spares m (.function identity closure :: arguments)) ∧
      ∀ callee arguments paren,
        (Eval.call n callee arguments paren).Spares m (callee :: arguments) := by
  have hkeeps := Machine.KeepsFrames.effect.runs n
  have hinside : ∀ {values : List Value}, ∀ v ∈ values, v.Inside (m.Range values) :=
    fun v hv cell hcell => .inr (.value hv hcell)
  constructor
  · intro identity closure arguments
    have hready : (Discipline.confining (m.Range (.function identity closure :: arguments)) m).Ready
        ⟨.invoke closure arguments, m⟩ :=
      ⟨m.confined_range _, hinside _ List.mem_cons_self _ rfl,
        fun v hv => hinside v (List.mem_cons_of_mem _ hv)⟩
    exact .of_confined (Discipline.confining.lawful.done n hready) (hkeeps.invoke _ _)
  · intro callee arguments paren
    have hready : (Discipline.confining (m.Range (callee :: arguments)) m).Ready
        ⟨.call callee arguments paren, m⟩ := ⟨m.confined_range _, hinside⟩
    exact .of_confined (Discipline.confining.lawful.done n hready) (hkeeps.call _ _ _)

/-- A caller that has two instances of a class without methods. -/
def Machine.twoInstances : Machine :=
  let m := fresh .unbounded
  { m with
    heap := m.heap.alloc (some m.globals) (Bindings.ofList
      [("a", .instanceValue ⟨0, 0, "A", none, .empty⟩),
        ("b", .instanceValue ⟨1, 0, "A", none, .empty⟩)])
    fields := #[.empty, .empty]
    current := m.heap.next
    table := Distances.empty.note 0 0 }

/-- A function that sets a field of its argument. -/
def Closure.marks : Closure where
  decl :=
    { name := ⟨"mark", .start⟩
      params := [⟨⟨"o", .start⟩, .named ⟨1, "A", .start⟩⟩]
      returns := none
      body := [.expression (.set (.var ⟨0, "o", .start⟩) ⟨"marked", .start⟩
        (.literal (.boolean true)))] }
  frame := Machine.twoInstances.globals
  isInitializer := false

theorem Machine.reachable_twoInstances {cell : Cell}
    (h : twoInstances.Reachable
      [.function 0 .marks, .instanceValue ⟨0, 0, "A", none, .empty⟩] cell) :
    cell = .frame twoInstances.globals ∨ cell = .object 0 := by
  induction h with
  | globals => exact .inl rfl
  | value hv hcell =>
    rcases List.mem_pair.mp hv with rfl | rfl
    · exact .inl hcell
    · rcases hcell with rfl | ⟨x, c, hc, -⟩
      · exact .inr rfl
      · cases hc
  | enclosing _ houter ih =>
    rcases ih with heq | heq <;> cases heq
    cases houter
  | binding _ hv hcell ih =>
    rcases ih with heq | heq <;> cases heq
    rw [twoInstances, Heap.lookup?_alloc_of_ne (by decide)] at hv
    obtain ⟨b, rfl, -⟩ := lookup?_fresh _ hv
    exact hcell.elim
  | field _ hfields hv _ ih =>
    rcases ih with heq | heq <;> cases heq
    cases hfields
    cases hv

/-- One of the instances of the caller is marked by a function that is called with it. The other
    one, and the names of the caller, are as they were. -/
theorem calls_spare_unreachable_caller :
    let m := Machine.twoInstances
    let object : Value := .instanceValue ⟨0, 0, "A", none, .empty⟩
    (m.Has (.object 1) ∧ ¬ m.Reachable [.function 0 .marks, object] (.object 1)) ∧
      (m.Has (.frame m.current) ∧
        ¬ m.Reachable [.function 0 .marks, object] (.frame m.current)) ∧
      ∃ v m', Eval.invoke 5 .marks [object] m = .ok v m' ∧
        (m'.fields[0]?.any fun fields => (fields.find? "marked").isSome) = true ∧
        m'.fields[1]? = m.fields[1]? ∧ m'.current = m.current ∧
        ∀ x, m'.heap.lookup? m'.current x = m.heap.lookup? m.current x := by
  intro m object
  have hobject : m.Has (.object 1) ∧ ¬ m.Reachable [.function 0 .marks, object] (.object 1) :=
    ⟨by decide, fun h => absurd (Machine.reachable_twoInstances h) (by decide)⟩
  have hcaller : m.Has (.frame m.current) ∧
      ¬ m.Reachable [.function 0 .marks, object] (.frame m.current) :=
    ⟨by decide, fun h => absurd (Machine.reachable_twoInstances h) (by decide)⟩
  obtain ⟨v, m', hrun, hmarked⟩ : ∃ v m', Eval.invoke 5 .marks [object] m = .ok v m' ∧
      (m'.fields[0]?.any fun fields => (fields.find? "marked").isSome) = true :=
    ⟨_, _, rfl, by decide⟩
  have hspares := ((calls_spare_unreachable 5 m).1 0 .marks [object]).of_ok hrun
  exact ⟨hobject, hcaller, v, m', hrun, hmarked, hspares.fields 1 hobject.1 hobject.2,
    hspares.caller hcaller.1 hcaller.2⟩

end ClassScript
