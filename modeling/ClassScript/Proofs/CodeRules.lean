import ClassScript.Proofs.Discipline
import ClassScript.Proofs.Frames
import ClassScript.Proofs.ScopeSafety.Steps

namespace ClassScript

/-!
# Code and the frames that it runs in

Frames are made in four ways only: for a block, for a call, for the receiver of a method and for the
superclass of a class. No run binds the word for the receiver or for the superclass in any other
way, whatever table it runs under. So a rule that says which code may run in which frames need only
be looked at where frames are made; that every run keeps to it is shown here once, for every rule.

* `Heap.Retains`: frames keep their receivers and superclasses;
* `CodeRule`, `CodeRule.Lawful`: rules for code, and what is asked of them;
* `CodeRule.Holds`, `CodeRule.Good`: values and machines on which all code keeps to the rule, and
  every initializer that is a value has its receiver;
* `CodeRule.Lawful.lawful`: every run keeps to the rule.
-/

/-! ### Receivers and superclasses -/

/-- Frames stay where they are, and bind the receiver and the superclass to what they did, if they
    did. -/
structure Heap.Retains (h h' : Heap Value) : Prop where
  grows : h.Grows h'
  words : ∀ f x, (h.frame? f).isSome = true → x = thisName ∨ x = superName →
    h'.lookup? f x = h.lookup? f x

namespace Heap.Retains

variable {h h' h'' : Heap Value}

theorem refl (h : Heap Value) : h.Retains h := ⟨.refl h, fun _ _ _ _ => rfl⟩

/-- What is retained twice is retained. -/
theorem trans (hr : h.Retains h') (hr' : h'.Retains h'') : h.Retains h'' :=
  ⟨hr.grows.trans hr'.grows, fun f x hf hx =>
    (hr'.words f x (hr.grows.frame f hf) hx).trans (hr.words f x hf hx)⟩

/-- A new frame leaves what the others bind. -/
theorem alloc (h : Heap Value) (enclosing : Option FrameId) (bindings : Bindings Value) :
    h.Retains (h.alloc enclosing bindings) :=
  ⟨.alloc h enclosing bindings, fun _ x hf _ =>
    lookup?_alloc_of_ne (ne_next_of_isSome hf) enclosing bindings x⟩

theorem define {x : String} (hx : x ≠ thisName ∧ x ≠ superName) (h : Heap Value) (g : FrameId)
    (v : Value) : h.Retains (h.define g x v) := by
  refine ⟨.define h g x v, fun f y _ hy => ?_⟩
  have hne : x ≠ y := by
    rcases hy with rfl | rfl
    · exact hx.1
    · exact hx.2
  rw [lookup?_define, if_neg fun heq => hne heq.2.1]

/-- A frame that binds the receiver binds it to the same value ever after. -/
theorem this (hr : h.Retains h') {f : FrameId} {v : Value}
    (hv : h.lookup? f thisName = some v) : h'.lookup? f thisName = some v := by
  have hf : (h.frame? f).isSome = true := isSome_frame?_of_lookup? (by rw [hv]; rfl)
  rw [hr.words f thisName hf (.inl rfl)]
  exact hv

end Heap.Retains

/-! ### Failures of initializers -/

theorem Expr.Raises.ne_unbound {e : Expr} {fault : Located RuntimeFault} (h : e.Raises fault) :
    fault.what ≠ .unboundInitializer := by
  obtain ⟨what, pos⟩ := fault
  rintro ⟨⟩
  cases e <;> simp [Expr.Raises] at h

theorem Stmt.Raises.ne_unbound {s : Stmt} {fault : Located RuntimeFault} (h : s.Raises fault) :
    fault.what ≠ .unboundInitializer := by
  obtain ⟨what, pos⟩ := fault
  rintro ⟨⟩
  cases s <;> simp [Stmt.Raises] at h

theorem RuntimeFault.OfCall.ne_unbound {fault : RuntimeFault} (h : fault.OfCall) :
    fault ≠ .unboundInitializer := by
  rintro ⟨⟩
  exact h

/-! ### Rules -/

/-- Which code may come to run, and in which frames. -/
structure CodeRule where
  /-- The part may run in the frame. -/
  Runs : Heap Value → FrameId → Part → Prop
  /-- A function with the declaration may keep the frame. -/
  Closes : Heap Value → FrameId → FunctionDecl → Prop
  /-- A method with the declaration may keep the frame until it gets its receiver. -/
  Awaits : Heap Value → FrameId → FunctionDecl → Prop
  /-- A failure may be reported at the position. -/
  Reports : Position → Prop

/-- What is asked of a rule, for each way in which frames are made. -/
structure CodeRule.Lawful (rule : CodeRule) : Prop where
  runs_retains : ∀ {h h' f part}, rule.Runs h f part → h.Retains h' → rule.Runs h' f part
  closes_retains : ∀ {h h' f decl}, rule.Closes h f decl → h.Retains h' → rule.Closes h' f decl
  awaits_retains : ∀ {h h' f decl}, rule.Awaits h f decl → h.Retains h' → rule.Awaits h' f decl
  wellFormed : ∀ {h f part}, rule.Runs h f part → part.WellFormed
  expr : ∀ {h f e part}, rule.Runs h f (.expr e) → part ∈ e.parts → rule.Runs h f part
  exprs : ∀ {h f e es}, rule.Runs h f (.exprs (e :: es)) →
    rule.Runs h f (.expr e) ∧ rule.Runs h f (.exprs es)
  stmt : ∀ {h f s part}, rule.Runs h f (.stmt s) → part ∈ s.parts → rule.Runs h f part
  stmts : ∀ {h f s ss}, rule.Runs h f (.stmts (s :: ss)) →
    rule.Runs h f (.stmt s) ∧ rule.Runs h f (.stmts ss)
  block : ∀ {h f body}, rule.Runs h f (.stmt (.block body)) →
    rule.Runs (h.alloc (some f) .empty) h.next (.stmts body)
  function : ∀ {h f decl}, rule.Runs h f (.stmt (.funDecl decl)) → rule.Closes h f decl
  params : ∀ {h f decl}, rule.Closes h f decl → ∀ p ∈ decl.params, p.name.Plain
  /-- A call makes a frame that binds ordinary names. -/
  body : ∀ {h f decl bindings}, rule.Closes h f decl →
    (∀ x v, bindings.find? x = some v → x ≠ thisName ∧ x ≠ superName) →
    rule.Runs (h.alloc (some f) bindings) h.next (.stmts decl.body)
  receiver : ∀ {h f decl object}, rule.Awaits h f decl →
    rule.Closes (h.alloc (some f) (Bindings.empty.insert thisName (.instanceValue object))) h.next
      decl
  base : ∀ {h f name decls}, rule.Runs h f (.stmt (.classDecl name none decls)) →
    ∀ decl ∈ decls, rule.Awaits h f decl
  derived : ∀ {h f name ref decls cls}, rule.Runs h f (.stmt (.classDecl name (some ref) decls)) →
    ∀ decl ∈ decls,
      rule.Awaits (h.alloc (some f) (Bindings.empty.insert superName (.classValue cls))) h.next decl
  raises_expr : ∀ {h f e fault}, rule.Runs h f (.expr e) → e.Raises fault → rule.Reports fault.pos
  raises_stmt : ∀ {h f s fault}, rule.Runs h f (.stmt s) → s.Raises fault → rule.Reports fault.pos
  paren : ∀ {h f callee paren arguments}, rule.Runs h f (.expr (.call callee paren arguments)) →
    rule.Reports paren
  superclass : ∀ {h f name ref decls}, rule.Runs h f (.stmt (.classDecl name (some ref) decls)) →
    rule.Reports ref.name.pos

namespace CodeRule

/-! ### Values and machines -/

section Machines

variable (rule : CodeRule)

/-- A function keeps to the rule, and has its receiver if it sets up instances. -/
def ClosureHolds (h : Heap Value) (c : Closure) : Prop :=
  rule.Closes h c.frame c.decl ∧
    (c.isInitializer = true → ∃ object, h.lookup? c.frame thisName = some (.instanceValue object))

/-- The methods of the class and of its ancestors keep to the rule. -/
def ClassHolds (h : Heap Value) (cls : Class) : Prop :=
  ∀ x c, cls.findMethod? x = some c → rule.Awaits h c.frame c.decl

/-- The value may be around on the machine. -/
def Holds (m : Machine) : Value → Prop
  | .function _ c => rule.ClosureHolds m.heap c
  | .classValue cls => rule.ClassHolds m.heap cls
  | .instanceValue object => object.index < m.fields.size ∧ rule.ClassHolds m.heap object.cls
  | _ => True

/-- All values that the machine keeps may be around, and every receiver is an instance. -/
structure Good (m : Machine) : Prop where
  values : ∀ f x v, m.heap.lookup? f x = some v → rule.Holds m v
  receivers : ∀ f v, m.heap.lookup? f thisName = some v → ∃ object, v = .instanceValue object
  fields : ∀ (i : Nat) (b : Bindings Value) (x : String) (v : Value), m.fields[i]? = some b →
    b.find? x = some v → rule.Holds m v

/-- What a run may make of a machine. -/
structure Since (m m' : Machine) : Prop where
  good : rule.Good m'
  retains : m.heap.Retains m'.heap
  instances : m.fields.size ≤ m'.fields.size

/-- A run comes back to the frame that it started in. -/
structure Later (m m' : Machine) : Prop extends rule.Since m m' where
  current : m'.current = m.current

/-- The rule as a discipline of runs. -/
def discipline : Discipline where
  Good := rule.Good
  Later := rule.Later
  Since := rule.Since
  Executed m _ m' := rule.Later m m'
  Allows
    | .failure fault => rule.Reports fault.pos ∧ fault.what ≠ .unboundInitializer
    | .outOfFuel => True
  Holds := rule.Holds
  Gives m _ v := rule.Holds m v
  Runs m part := rule.Good m ∧ rule.Runs m.heap m.current part
  Calls m callee values paren :=
    rule.Good m ∧ rule.Holds m callee ∧ (∀ v ∈ values, rule.Holds m v) ∧ rule.Reports paren
  Enters m c values := rule.Good m ∧ rule.ClosureHolds m.heap c ∧ ∀ v ∈ values, rule.Holds m v

end Machines

variable {rule : CodeRule} (laws : rule.Lawful) {m m' : Machine}

section Values

include laws

theorem Lawful.closureHolds {h h' : Heap Value} {c : Closure} (hc : rule.ClosureHolds h c)
    (hr : h.Retains h') : rule.ClosureHolds h' c := by
  refine ⟨laws.closes_retains hc.1 hr, fun hinitializer => ?_⟩
  obtain ⟨object, hobject⟩ := hc.2 hinitializer
  exact ⟨object, hr.this hobject⟩

/-- A class still holds as frames are retained. -/
theorem Lawful.classHolds {h h' : Heap Value} {cls : Class} (hcls : rule.ClassHolds h cls)
    (hr : h.Retains h') : rule.ClassHolds h' cls :=
  fun x c hc => laws.awaits_retains (hcls x c hc) hr

theorem Lawful.holds {v : Value} (hv : rule.Holds m v) (hr : m.heap.Retains m'.heap)
    (hinstances : m.fields.size ≤ m'.fields.size) : rule.Holds m' v := by
  cases v with
  | function identity c => exact laws.closureHolds hv hr
  | classValue cls => exact laws.classHolds hv hr
  | instanceValue object => exact ⟨Nat.lt_of_lt_of_le hv.1 hinstances, laws.classHolds hv.2 hr⟩
  | _ => trivial

end Values

/-! ### Single changes -/

/-- What is kept since a machine, twice. -/
theorem Since.trans {m'' : Machine} (h : rule.Since m m') (h' : rule.Since m' m'') :
    rule.Since m m'' :=
  ⟨h'.good, h.retains.trans h'.retains, Nat.le_trans h.instances h'.instances⟩

/-- Later than later is later. -/
theorem Later.trans {m'' : Machine} (h : rule.Later m m') (h' : rule.Later m' m'') :
    rule.Later m m'' :=
  ⟨h.toSince.trans h'.toSince, h'.current.trans h.current⟩

/-- The frames and the fields are all that counts. -/
theorem Since.of_eq (hm : rule.Good m) (hheap : m'.heap = m.heap) (hfields : m'.fields = m.fields) :
    rule.Since m m' := by
  -- Whether a value may be around depends on the frames and on how many objects there are.
  have hholds : ∀ v, rule.Holds m v → rule.Holds m' v := by
    intro v hv
    cases v with
    | instanceValue object =>
      refine ⟨?_, ?_⟩
      · rw [hfields]
        exact hv.1
      · rw [hheap]
        exact hv.2
    | function identity c =>
      show rule.ClosureHolds m'.heap c
      rw [hheap]
      exact hv
    | classValue cls =>
      show rule.ClassHolds m'.heap cls
      rw [hheap]
      exact hv
    | _ => trivial
  refine ⟨⟨?_, ?_, ?_⟩, ?_, ?_⟩
  · rw [hheap]
    exact fun f x v hv => hholds v (hm.values f x v hv)
  · rw [hheap]
    exact hm.receivers
  · rw [hfields]
    exact fun i b x v hb hv => hholds v (hm.fields i b x v hb hv)
  · rw [hheap]
    exact .refl _
  · exact Nat.le_of_eq (by rw [hfields])

theorem Later.refl (hm : rule.Good m) : rule.Later m m := ⟨.of_eq hm rfl rfl, rfl⟩

namespace Lawful

include laws

/-- A new frame, which binds what may be around; the receiver, if at all, to an instance. -/
theorem alloc (hm : rule.Good m) (enclosing : Option FrameId) {bindings : Bindings Value}
    (hvalues : ∀ x v, bindings.find? x = some v → rule.Holds m v)
    (hreceiver : ∀ v, bindings.find? thisName = some v → ∃ object, v = .instanceValue object) :
    rule.Since m { m with heap := m.heap.alloc enclosing bindings } := by
  have hretains := Heap.Retains.alloc m.heap enclosing bindings
  have hholds : ∀ v, rule.Holds m v →
      rule.Holds { m with heap := m.heap.alloc enclosing bindings } v :=
    fun v hv => laws.holds hv hretains (Nat.le_refl _)
  refine ⟨⟨?_, ?_, ?_⟩, hretains, Nat.le_refl _⟩
  · intro f x v hv
    refine hholds v ?_
    by_cases hf : f = m.heap.next
    · subst hf
      rw [Heap.lookup?_alloc_next] at hv
      exact hvalues x v hv
    · rw [Heap.lookup?_alloc_of_ne hf] at hv
      exact hm.values f x v hv
  · intro f v hv
    by_cases hf : f = m.heap.next
    · subst hf
      rw [Heap.lookup?_alloc_next] at hv
      exact hreceiver v hv
    · rw [Heap.lookup?_alloc_of_ne hf] at hv
      exact hm.receivers f v hv
  · exact fun i b x v hb hv => hholds v (hm.fields i b x v hb hv)

/-- An ordinary name that is bound to what may be around. -/
theorem define (hm : rule.Good m) (f : FrameId) {x : String} {v : Value}
    (hx : x ≠ thisName ∧ x ≠ superName) (hv : rule.Holds m v) :
    rule.Later m { m with heap := m.heap.define f x v } := by
  have hretains := Heap.Retains.define hx m.heap f v
  have hholds : ∀ w, rule.Holds m w → rule.Holds { m with heap := m.heap.define f x v } w :=
    fun w hw => laws.holds hw hretains (Nat.le_refl _)
  refine ⟨⟨⟨?_, ?_, ?_⟩, hretains, Nat.le_refl _⟩, rfl⟩
  · intro g y w hw
    refine hholds w ?_
    rw [Heap.lookup?_define] at hw
    split at hw
    · cases hw
      exact hv
    · exact hm.values g y w hw
  · intro g w hw
    rw [Heap.lookup?_define, if_neg fun heq => hx.1 heq.2.1] at hw
    exact hm.receivers g w hw
  · exact fun i b y w hb hw => hholds w (hm.fields i b y w hb hw)

/-- A new instance has no fields. -/
theorem newInstance (hm : rule.Good m) :
    rule.Later m { m with fields := m.fields.push .empty } := by
  have hsize : m.fields.size ≤ (m.fields.push Bindings.empty).size := by simp
  have hholds : ∀ v, rule.Holds m v → rule.Holds { m with fields := m.fields.push .empty } v :=
    fun v hv => laws.holds hv (.refl _) hsize
  refine ⟨⟨⟨?_, hm.receivers, ?_⟩, .refl _, hsize⟩, rfl⟩
  · exact fun f x v hv => hholds v (hm.values f x v hv)
  · intro i b x v hb hv
    refine hholds v ?_
    rw [Array.getElem?_push] at hb
    split at hb
    · cases hb
      cases hv
    · exact hm.fields i b x v hb hv

/-- A field is set to a value that holds. -/
theorem setField (hm : rule.Good m) (object : Instance) (name : String) {v : Value}
    (hv : rule.Holds m v) :
    rule.Later m { m with
      fields := m.fields.modify object.index fun fields => fields.insert name v } := by
  have hsize : (m.fields.modify object.index fun fields => fields.insert name v).size
      = m.fields.size := Array.size_modify
  have hholds : ∀ w, rule.Holds m w → rule.Holds { m with
      fields := m.fields.modify object.index fun fields => fields.insert name v } w :=
    fun w hw => laws.holds hw (.refl _) (Nat.le_of_eq hsize.symm)
  refine ⟨⟨⟨?_, hm.receivers, ?_⟩, .refl _, Nat.le_of_eq hsize.symm⟩, rfl⟩
  · exact fun f x w hw => hholds w (hm.values f x w hw)
  · intro i b x w hb hw
    refine hholds w ?_
    rcases Bindings.find?_modify_insert hb hw with rfl | ⟨b', hb', hw⟩
    · exact hv
    · exact hm.fields i b' x w hb' hw

end Lawful

/-! ### Steps -/

open Eval

namespace Lawful

include laws

/-- A method gets its receiver, in a frame of its own. -/
theorem ensures_bindReceiver {c : Closure} {object : Instance} (hm : rule.Good m)
    (hc : rule.Awaits m.heap c.frame c.decl) (hobject : rule.Holds m (.instanceValue object)) :
    Ensures (bindReceiver c object) m
      (fun bound m' => rule.Later m m' ∧ rule.ClosureHolds m'.heap bound) fun _ _ => False := by
  have hvalues : ∀ (x : String) (v : Value),
      (Bindings.empty.insert thisName (.instanceValue object)).find? x = some v →
      v = .instanceValue object := fun x v hv => (Bindings.eq_of_find?_single hv).2
  have hsince := laws.alloc hm (some c.frame) (fun x v hv => hvalues x v hv ▸ hobject)
    fun v hv => ⟨object, hvalues _ v hv⟩
  refine ⟨⟨hsince, rfl⟩, laws.receiver hc, fun _ => ⟨object, ?_⟩⟩
  show (m.heap.alloc _ _).lookup? m.heap.next thisName = _
  rw [Heap.lookup?_alloc_next, Bindings.find?_insert, if_pos rfl]

/-- A method that awaits its receiver gets one. -/
theorem ensures_boundMethod {c : Closure} {object : Instance} (hm : rule.Good m)
    (hc : rule.Awaits m.heap c.frame c.decl) (hobject : rule.Holds m (.instanceValue object)) :
    Ensures (boundMethod c object) m (rule.discipline.Yields m) fun _ _ => False := by
  refine (laws.ensures_bindReceiver hm hc hobject).bind fun bound m₁ _ ⟨hlater, hbound⟩ => ?_
  have hidentity : rule.Later m₁ { m₁ with nextIdentity := m₁.nextIdentity + 1 } :=
    ⟨.of_eq hlater.good rfl rfl, rfl⟩
  exact ⟨hlater.trans hidentity, hbound⟩

/-- A class whose methods keep to the rule is declared, inside a frame for its superclass if it has
    one. -/
theorem ensures_declareClass {name : Name} {superclass : Option Reference}
    {decls : List FunctionDecl} (hm : rule.Good m) (hname : name.Plain)
    (hbase : superclass = none → ∀ decl ∈ decls, rule.Awaits m.heap m.current decl)
    (hderived : ∀ ref ∈ superclass, ∀ cls, m.lookUp? ref = some (.classValue cls) →
      ∀ decl ∈ decls, rule.Awaits (m.heap.alloc (some m.current)
        (Bindings.empty.insert superName (.classValue cls))) m.heap.next decl)
    (hreports : ∀ ref ∈ superclass, rule.Reports ref.name.pos) :
    Ensures (declareClass name superclass decls) m (fun _ m' => rule.Later m m')
      (rule.discipline.Stopped m) := by
  -- What is left once the frame of the methods is there.
  have hclass : ∀ (m₁ : Machine) (frame : FrameId) (found : Option Class), rule.Later m m₁ →
      (∀ cls ∈ found, rule.ClassHolds m₁.heap cls) →
      (∀ decl ∈ decls, rule.Awaits m₁.heap frame decl) →
      rule.Later m (m₁.withClass name found frame decls) := by
    intro m₁ frame found hlater hfound hdecls
    have hidentity : rule.Later m₁ { m₁ with nextIdentity := m₁.nextIdentity + 1 } :=
      ⟨.of_eq hlater.good rfl rfl, rfl⟩
    refine hlater.trans (hidentity.trans (laws.define hidentity.good m₁.current hname ?_))
    intro x c hc
    rcases Class.findMethod?_ofDecls hc with ⟨decl, hdecl, rfl⟩ | ⟨cls, hcls, hinherited⟩
    · exact hdecls decl hdecl
    · exact hfound cls hcls x c hinherited
  refine .declareClass ?_ (fun hnone => ?_) fun ref href cls hcls => ?_
  · intro ref href fault hfault
    refine ⟨⟨hreports ref href, ?_⟩, (Later.refl hm).toSince⟩
    unfold Machine.RefusesSuper at hfault
    split at hfault
    · simp [hfault]
    · exact hfault.elim
    · simp [hfault]
  · exact hclass m m.current none (.refl hm) nofun (hbase hnone)
  · obtain ⟨g, hg⟩ := Machine.lookup?_of_lookUp? hcls
    have hholds : rule.ClassHolds m.heap cls := hm.values g _ _ hg
    have hvalues : ∀ (x : String) (v : Value),
        (Bindings.empty.insert superName (.classValue cls)).find? x = some v →
        x = superName ∧ v = .classValue cls := fun x v hv => Bindings.eq_of_find?_single hv
    have hsince := laws.alloc hm (some m.current) (fun x v hv => (hvalues x v hv).2 ▸ hholds)
      fun v hv => absurd (hvalues _ v hv).1 (by decide)
    refine hclass (m.withSuper cls) m.heap.next (some cls) ⟨hsince, rfl⟩ ?_
      (hderived ref href cls hcls)
    rintro cls' ⟨⟩
    exact laws.classHolds hholds hsince.retains

/-! ### Runs -/

omit laws in
theorem machineLaws : rule.discipline.MachineLaws where
  refl := Later.refl
  trans := Later.trans
  since_of_later := Later.toSince
  since_trans := Since.trans
  good := Since.good
  back := by
    intro m m' enclosing bindings _ h
    -- Frames and fields are those of the machine inside, and only these count.
    have hback : rule.Since m' { m' with current := m.current } := .of_eq h.good rfl rfl
    refine ⟨⟨hback.good, ?_, h.instances⟩, rfl⟩
    exact (Heap.Retains.alloc m.heap (some enclosing) bindings).trans h.retains
  outOfFuel := trivial

theorem valueLaws : rule.discipline.ValueLaws where
  later hv h := laws.holds hv h.retains h.instances
  current hv := laws.holds hv (.refl _) (Nat.le_refl _)
  plain := by
    intro m v _ hv
    cases v <;> first | exact hv.elim | exact trivial
  field := by
    intro m object x v hm _ hv
    obtain ⟨b, hb, hv⟩ := Option.bind_eq_some_iff.mp hv
    exact hm.fields _ b x v hb hv
  method hm hobject hc := laws.ensures_boundMethod hm (hobject.2 _ _ hc) hobject

/-- Expressions keep the rule. -/
theorem exprLaws : rule.discipline.ExprLaws where
  good h := h.1
  later := by
    intro m m' part h hlater
    refine ⟨hlater.good, ?_⟩
    rw [hlater.current]
    exact laws.runs_retains h.2 hlater.retains
  parts h hmem := ⟨h.1, laws.expr h.2 hmem⟩
  list h := ⟨⟨h.1, (laws.exprs h.2).1⟩, ⟨h.1, (laws.exprs h.2).2⟩⟩
  raises h hfault _ := ⟨laws.raises_expr h.2 hfault, hfault.ne_unbound⟩
  holds hv := hv
  gives_later hv h := laws.holds hv h.retains h.instances
  read := by
    intro m e v h ref _ hv
    obtain ⟨g, hg⟩ := Machine.lookup?_of_lookUp? hv
    exact h.1.values g _ v hg
  result _ _ _ hv := hv
  computed _ _ _ hv := hv
  assign := by
    intro m target value v f h hv _
    exact laws.define h.1 f (laws.wellFormed h.2).1 hv
  setField h _ hv := laws.setField h.1 _ _ hv
  superMethod := by
    intro m keyword method inner superclass object c h _ hclass hobject hc
    obtain ⟨g, hg⟩ := Heap.lookup?_of_getAt? hclass
    obtain ⟨g', hg'⟩ := Heap.lookup?_of_getAt? hobject
    -- The superclass and the receiver are bound in frames, so both may be around.
    have hsuper : rule.ClassHolds m.heap superclass := h.1.values g _ _ hg
    exact laws.ensures_boundMethod h.1 (hsuper _ c hc) (h.1.values g' _ _ hg')

/-- Calls keep the rule. -/
theorem callLaws : rule.discipline.CallLaws where
  calls := by
    intro m callee paren arguments f values h hf hvalues
    exact ⟨h.1, hf, laws.exprLaws.holds_all hvalues, laws.paren h.2⟩
  good h := h.1
  raises h hfault := ⟨h.2.2.2, hfault.ne_unbound⟩
  write _ h := ⟨.of_eq h.1 rfl rfl, rfl⟩
  function h _ := ⟨h.1, h.2.1, h.2.2.1⟩
  construct := by
    intro m cls values paren h _
    obtain ⟨hm, hcls, hvalues, -⟩ := h
    have hlater := laws.newInstance hm
    have hobject : rule.Holds { m with fields := m.fields.push .empty }
        (.instanceValue ⟨m.fields.size, cls⟩) := by
      refine ⟨?_, hcls⟩
      show m.fields.size < (m.fields.push Bindings.empty).size
      simp
    refine ⟨hlater, hobject, fun method hmethod => ?_⟩
    refine (laws.ensures_bindReceiver hlater.good (hcls _ _ hmethod) hobject).mono ?_ fun _ _ h => h
    intro bound m₂ ⟨hlater₂, hbound⟩
    refine ⟨hlater₂, hlater₂.good, hbound, fun v hv => ?_⟩
    have hv₁ := laws.valueLaws.later (hvalues v hv) hlater
    exact laws.holds hv₁ hlater₂.retains hlater₂.instances
  entered h := h.1
  invoke := by
    intro m c values ⟨hm, hc, hvalues⟩
    have hpairs : ∀ x v, (Bindings.ofList ((c.decl.params.map fun p => p.name.text).zip
        values)).find? x = some v → (x ≠ thisName ∧ x ≠ superName) ∧ v ∈ values := by
      intro x v hv
      obtain ⟨hx, hmem⟩ := List.of_mem_zip (Bindings.find?_ofList hv)
      obtain ⟨p, hp, rfl⟩ := List.mem_map.mp hx
      exact ⟨laws.params hc.1 p hp, hmem⟩
    have hsince := laws.alloc hm (some c.frame)
      (fun x v hv => hvalues v (hpairs x v hv).2)
      fun v hv => absurd rfl (hpairs _ v hv).1.1
    refine ⟨?_, laws.body hc.1 fun x v hv => (hpairs x v hv).1⟩
    exact Since.good (.of_eq hsince.good rfl rfl)
  receiver _ hlater hv := hlater.good.values _ _ _ hv
  unbound := by
    intro m m' c values h hinitializer hlater hnone
    -- The receiver is still there.
    obtain ⟨object, hobject⟩ := h.2.1.2 hinitializer
    rw [hlater.retains.this hobject] at hnone
    cases hnone

/-- Statements keep the rule. -/
theorem stmtLaws : rule.discipline.StmtLaws where
  parts h hmem := ⟨h.1, laws.stmt h.2 hmem⟩
  first h := ⟨h.1, (laws.stmts h.2).1⟩
  rest h hexecuted := laws.exprLaws.later ⟨h.1, (laws.stmts h.2).2⟩ hexecuted
  raises h _ hfault := ⟨laws.raises_stmt h.2 hfault, hfault.ne_unbound⟩
  since h := h.toSince
  later := Later.trans
  plain _ _ := Iff.rfl
  branch _ _ h := h
  block := by
    intro m body h
    have hsince : rule.Since m { m with heap := m.heap.alloc (some m.current) .empty } :=
      laws.alloc h.1 (some m.current) nofun nofun
    exact ⟨Since.good (.of_eq hsince.good rfl rfl), laws.block h.2⟩
  val := by
    intro m name type initializer v h hv hvoid
    refine laws.define h.1 m.current (laws.wellFormed h.2).1 ?_
    cases initializer with
    | none =>
      rw [hvoid rfl]
      trivial
    | some e => exact hv e rfl
  funDecl := by
    intro m decl h
    have hidentity : rule.Later m { m with nextIdentity := m.nextIdentity + 1 } :=
      ⟨.of_eq h.1 rfl rfl, rfl⟩
    have hplain := (FunctionDecl.plain_of_wellFormed (laws.wellFormed h.2)).1
    exact hidentity.trans (laws.define hidentity.good m.current hplain
      ⟨laws.function h.2, fun hfalse => Bool.noConfusion hfalse⟩)
  classDecl := by
    intro m name superclass decls h
    have hwf := laws.wellFormed h.2
    refine laws.ensures_declareClass h.1 hwf.1 ?_ ?_ ?_
    · rintro rfl
      exact laws.base h.2
    · rintro ref ⟨⟩ cls -
      exact laws.derived h.2
    · rintro ref ⟨⟩
      exact laws.superclass h.2

/-- **Every run keeps to the rule.** -/
theorem lawful : rule.discipline.Lawful :=
  ⟨machineLaws, laws.valueLaws, laws.exprLaws, laws.callLaws, laws.stmtLaws⟩

end Lawful

/-- Before anything has run only the built-in functions are around. -/
theorem good_fresh (rule : CodeRule) (sink : Sink) : rule.Good (.fresh sink) := by
  refine ⟨?_, ?_, ?_⟩
  · intro f x v hv
    obtain ⟨b, rfl, -⟩ := Machine.lookup?_fresh sink hv
    trivial
  · intro f v hv
    obtain ⟨b, -, hname⟩ := Machine.lookup?_fresh sink hv
    exact absurd hname.symm b.name_plain.1
  · intro i b x v hb
    cases hb

end CodeRule

end ClassScript
