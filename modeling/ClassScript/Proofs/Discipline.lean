import ClassScript.Proofs.Execution
import ClassScript.Proofs.Visits

namespace ClassScript

/-!
# Disciplines of runs

An invariant of runs speaks about machines, about the values that are around on them, and about the
parts of a program that may run there. The functions that run a program go through the same steps
whatever the invariant is, so the induction over runs is done here once: a discipline says what is
to be kept, its laws say that each single step keeps it, and then every run does.

* `Expr.Raises`, `Stmt.Raises`, `RuntimeFault.OfCall`: the failures that a task raises itself;
* `Discipline`: what is to be kept;
* `Discipline.Lawful`: single steps keep it;
* `Discipline.Lawful.of_reaches`: whatever a run comes to is ready for it and ends well.
-/

/-! ### Where failures come from -/

/-- The failures that evaluating an expression raises itself, apart from those of its parts. -/
def Expr.Raises (fault : Located RuntimeFault) : Expr → Prop
  | .literal _ => False
  | .grouping _ => False
  | .unary operator _ =>
    fault.pos = operator.pos ∧ ∃ tag, fault.what = .unaryOperand operator.lexeme tag
  | .binary _ operator _ =>
    fault.pos = operator.pos ∧ (fault.what = .unknownOperator operator.lexeme ∨
      ∃ left right, fault.what = .operands operator.lexeme left right)
  | .logical _ operator _ =>
    fault.pos = operator.pos ∧ ∃ tag, fault.what = .logicalOperand operator.lexeme tag
  | .ternary _ question _ _ => fault.pos = question ∧ ∃ tag, fault.what = .condition tag
  | .var ref => fault = ⟨.undefinedVariable ref.name.text, ref.name.pos⟩
  | .assign target _ => fault = ⟨.undefinedVariable target.name.text, target.name.pos⟩
  | .call _ _ _ => False
  | .get _ name => fault.pos = name.pos ∧
    (fault.what = .undefinedProperty name.text ∨ ∃ tag, fault.what = .noProperties tag)
  | .set _ name _ => fault.pos = name.pos ∧ ∃ tag, fault.what = .noFields tag
  | .this ref => fault = ⟨.undefinedVariable ref.name.text, ref.name.pos⟩
  | .super keyword method => fault = ⟨.unresolvedSuper, keyword.name.pos⟩ ∨
    fault = ⟨.undefinedVariable keyword.name.text, keyword.name.pos⟩ ∨
    fault = ⟨.undefinedProperty method.text, method.pos⟩

/-- The failures that executing a statement raises itself, apart from that a superclass is none. -/
def Stmt.Raises (fault : Located RuntimeFault) : Stmt → Prop
  | .ifThen keyword _ _ => fault.pos = keyword ∧ ∃ tag, fault.what = .condition tag
  | .ifElse keyword _ _ _ => fault.pos = keyword ∧ ∃ tag, fault.what = .condition tag
  | .whileLoop keyword _ _ => fault.pos = keyword ∧ ∃ tag, fault.what = .condition tag
  | .classDecl _ superclass _ =>
    ∃ ref ∈ superclass, fault = ⟨.undefinedVariable ref.name.text, ref.name.pos⟩
  | _ => False

/-- The failures to find a name. -/
def RuntimeFault.OfNames : RuntimeFault → Prop
  | .undefinedVariable _ => True
  | .unresolvedSuper => True
  | _ => False

/-- Where the expression fails to find a name, the name is not there to be found. -/
def Expr.Misses (m : Machine) (fault : RuntimeFault) : Expr → Prop
  | .var ref => m.lookUp? ref = none
  | .this ref => m.lookUp? ref = none
  | .assign target _ => m.holder? target = none
  | .super keyword _ => fault.OfNames → ∀ inner superclass object,
    m.table.get? keyword.id = some (inner + 1) →
    m.heap.getAt? m.current (inner + 1) keyword.name.text = some (.classValue superclass) →
    m.heap.getAt? m.current inner thisName ≠ some (.instanceValue object)
  | _ => True

/-- The failures of calls, which are reported at the closing parenthesis. -/
def RuntimeFault.OfCall : RuntimeFault → Prop
  | .notCallable _ => True
  | .argumentCount _ _ => True
  | .absArgument => True
  | .lenArgument => True
  | .charAtArguments => True
  | .indexRange _ _ => True
  | .refused _ => True
  | _ => False

/-- The value has no parts: it is neither a function, a class nor an instance. -/
def Value.IsPlain : Value → Prop
  | .function _ _ => False
  | .classValue _ => False
  | .instanceValue _ => False
  | _ => True

/-- A sign gives a value without references. -/
theorem Operator.isPlain_unary {operator : Token} {v w : Value}
    (h : Operator.unary operator v = .ok w) : w.IsPlain := by
  unfold Operator.unary at h
  split at h <;> cases h <;> trivial

/-- A sign fails for its operand only. -/
theorem Operator.unary_raises {operator : Token} {v : Value} {fault : RuntimeFault}
    (h : Operator.unary operator v = .error fault) :
    ∃ tag, fault = .unaryOperand operator.lexeme tag := by
  unfold Operator.unary at h
  split at h <;> cases h
  exact ⟨_, rfl⟩

/-- An operator gives a value without references. -/
theorem Operator.isPlain_binary {operator : Token} {v w result : Value}
    (h : Operator.binary operator v w = .ok result) : result.IsPlain := by
  unfold Operator.binary Operator.numeric at h
  repeat' split at h
  all_goals cases h
  all_goals trivial

theorem Operator.binary_raises {operator : Token} {v w : Value} {fault : RuntimeFault}
    (h : Operator.binary operator v w = .error fault) :
    fault = .unknownOperator operator.lexeme ∨
      ∃ left right, fault = .operands operator.lexeme left right := by
  unfold Operator.binary Operator.numeric at h
  repeat' split at h
  all_goals cases h
  · exact .inl rfl
  · exact .inr ⟨_, _, rfl⟩

theorem Builtin.characterAt_cases (text : String) (index : Float) :
    (∃ c, characterAt text index = .ok (.string c)) ∨
      ∃ i n, characterAt text index = .error (.indexRange i n) := by
  unfold characterAt
  simp only
  split
  · exact .inl ⟨_, rfl⟩
  · exact .inr ⟨_, _, rfl⟩

theorem Machine.lookup?_of_lookUp? {m : Machine} {ref : Reference} {v : Value}
    (hv : m.lookUp? ref = some v) : ∃ g, m.heap.lookup? g ref.name.text = some v := by
  unfold Machine.lookUp? at hv
  cases hdistance : m.table.get? ref.id with
  | some distance =>
    simp only [hdistance] at hv
    exact Heap.lookup?_of_getAt? hv
  | none =>
    simp only [hdistance] at hv
    obtain ⟨g, -, hg⟩ := Option.bind_eq_some_iff.mp hv
    exact ⟨g, hg⟩

/-! ### Disciplines -/

/-- The parts of a statement that run in the frame that it runs in. -/
def Stmt.parts : Stmt → List Part
  | .expression e => [.expr e]
  | .val _ _ initializer => initializer.toList.map .expr
  | .ifThen _ condition yes => [.expr condition, .stmt yes]
  | .ifElse _ condition yes no => [.expr condition, .stmt yes, .stmt no]
  | .whileLoop _ condition body => [.expr condition, .stmt body]
  | .ret _ value => value.toList.map .expr
  | _ => []

/-- The use of a name that an expression consists of. -/
def Expr.read? : Expr → Option Reference
  | .var ref => some ref
  | .this ref => some ref
  | _ => none

/-- The parts of an expression whose value may be its own. -/
def Expr.results : Expr → List Expr
  | .grouping inner => [inner]
  | .ternary _ _ yes no => [yes, no]
  | .assign _ value => [value]
  | .set _ _ value => [value]
  | _ => []

/-- The machine in a new frame. -/
def Machine.inside (m : Machine) (enclosing : FrameId) (bindings : Bindings Value) : Machine :=
  { m with heap := m.heap.alloc (some enclosing) bindings, current := m.heap.next }

/-- What is to be kept by a run. -/
structure Discipline where
  /-- The machine is one that a run may come to. -/
  Good : Machine → Prop
  /-- What evaluating an expression may make of a machine. -/
  Later : Machine → Machine → Prop
  /-- What executing statements may make of a machine. -/
  Since : Machine → Machine → Prop
  /-- What a statement that ends without a `return` makes of a machine. -/
  Executed : Machine → Stmt → Machine → Prop
  /-- A run may stop for this reason. -/
  Allows : Stop → Prop
  /-- The value may be around on the machine. -/
  Holds : Machine → Value → Prop
  /-- The value is one that the expression may give on the machine. -/
  Gives : Machine → Expr → Value → Prop
  /-- The part may run on the machine. -/
  Runs : Machine → Part → Prop
  /-- The value may be called on the machine, with these arguments. -/
  Calls : Machine → Value → List Value → Position → Prop
  /-- The function may be entered on the machine, with these arguments. -/
  Enters : Machine → Closure → List Value → Prop

namespace Discipline

open Eval

/-- The computation gives a value that may be around. -/
def Yields (D : Discipline) (m : Machine) (v : Value) (m' : Machine) : Prop :=
  D.Later m m' ∧ D.Holds m' v

/-! ### Laws -/

variable (D : Discipline)

/-- Machines one after the other. -/
structure MachineLaws : Prop where
  refl : ∀ {m}, D.Good m → D.Later m m
  trans : ∀ {m₁ m₂ m₃}, D.Later m₁ m₂ → D.Later m₂ m₃ → D.Later m₁ m₃
  since_of_later : ∀ {m m'}, D.Later m m' → D.Since m m'
  since_trans : ∀ {m₁ m₂ m₃}, D.Since m₁ m₂ → D.Since m₂ m₃ → D.Since m₁ m₃
  good : ∀ {m m'}, D.Since m m' → D.Good m'
  /-- What runs in a new frame and comes back. -/
  back : ∀ {m m' enclosing bindings}, D.Good m → D.Since (m.inside enclosing bindings) m' →
    D.Later m { m' with current := m.current }
  outOfFuel : D.Allows .outOfFuel

/-- Values that are around. -/
structure ValueLaws : Prop where
  later : ∀ {m m' v}, D.Holds m v → D.Later m m' → D.Holds m' v
  current : ∀ {m v frame}, D.Holds m v → D.Holds { m with current := frame } v
  plain : ∀ {m v}, D.Good m → v.IsPlain → D.Holds m v
  field : ∀ {m object x v}, D.Good m → D.Holds m (.instanceValue object) →
    m.field? object x = some v → D.Holds m v
  method : ∀ {m object x c}, D.Good m → D.Holds m (.instanceValue object) →
    object.cls.findMethod? x = some c →
    Ensures (boundMethod c object) m (D.Yields m) fun _ _ => False

/-- Expressions. -/
structure ExprLaws : Prop where
  good : ∀ {m part}, D.Runs m part → D.Good m
  later : ∀ {m m' part}, D.Runs m part → D.Later m m' → D.Runs m' part
  parts : ∀ {m e part}, D.Runs m (.expr e) → part ∈ e.parts → D.Runs m part
  list : ∀ {m e es}, D.Runs m (.exprs (e :: es)) → D.Runs m (.expr e) ∧ D.Runs m (.exprs es)
  raises : ∀ {m e fault}, D.Runs m (.expr e) → e.Raises fault → e.Misses m fault.what →
    D.Allows (.failure fault)
  holds : ∀ {m e v}, D.Gives m e v → D.Holds m v
  gives_later : ∀ {m m' e v}, D.Gives m e v → D.Later m m' → D.Gives m' e v
  read : ∀ {m e v}, D.Runs m (.expr e) → ∀ ref ∈ e.read?, m.lookUp? ref = some v → D.Gives m e v
  result : ∀ {m e v}, D.Runs m (.expr e) → ∀ e' ∈ e.results, D.Gives m e' v → D.Gives m e v
  computed : ∀ {m e v}, D.Runs m (.expr e) → e.read? = none → e.results = [] → D.Holds m v →
    D.Gives m e v
  assign : ∀ {m target value v f}, D.Runs m (.expr (.assign target value)) → D.Gives m value v →
    m.holder? target = some f →
    D.Later m { m with heap := m.heap.define f target.name.text v }
  setField : ∀ {m object name value o v}, D.Runs m (.expr (.set object name value)) →
    D.Holds m (.instanceValue o) → D.Holds m v →
    Ensures (setField o name.text v) m (fun _ m' => D.Later m m') fun _ _ => False
  superMethod : ∀ {m keyword method inner superclass object c},
    D.Runs m (.expr (.super keyword method)) → m.table.get? keyword.id = some (inner + 1) →
    m.heap.getAt? m.current (inner + 1) keyword.name.text = some (.classValue superclass) →
    m.heap.getAt? m.current inner thisName = some (.instanceValue object) →
    superclass.findMethod? method.text = some c →
    Ensures (boundMethod c object) m (D.Yields m) fun _ _ => False

/-- Calls. -/
structure CallLaws : Prop where
  calls : ∀ {m callee paren arguments f values}, D.Runs m (.expr (.call callee paren arguments)) →
    D.Gives m callee f → List.Forall₂ (D.Gives m) arguments values → D.Calls m f values paren
  good : ∀ {m f values paren}, D.Calls m f values paren → D.Good m
  raises : ∀ {m f values paren fault}, D.Calls m f values paren → fault.OfCall →
    D.Allows (.failure ⟨fault, paren⟩)
  write : ∀ {m f values paren} text, D.Calls m f values paren →
    D.Later m { m with sink := (m.sink.write text).2 }
  function : ∀ {m identity c values paren}, D.Calls m (.function identity c) values paren →
    values.length = c.arity → D.Enters m c values
  construct : ∀ {m cls values paren}, D.Calls m (.classValue cls) values paren →
    values.length = cls.arity →
    Ensures (newInstance cls) m
      (fun object m₁ => D.Later m m₁ ∧ D.Holds m₁ (.instanceValue object) ∧
        ∀ method ∈ cls.initializer?, Ensures (bindReceiver method object) m₁
          (fun bound m₂ => D.Later m₁ m₂ ∧ D.Enters m₂ bound values) fun _ _ => False)
      fun _ _ => False
  entered : ∀ {m c values}, D.Enters m c values → D.Good m
  invoke : ∀ {m c values}, D.Enters m c values →
    D.Runs (m.inside c.frame
      (Bindings.ofList ((c.decl.params.map fun p => p.name.text).zip values))) (.stmts c.decl.body)
  /-- An initializer gives its receiver. -/
  receiver : ∀ {m m' c values v}, D.Enters m c values → D.Later m m' →
    m'.heap.lookup? c.frame thisName = some v → D.Holds m' v
  unbound : ∀ {m m' c values}, D.Enters m c values → c.isInitializer = true → D.Later m m' →
    m'.heap.lookup? c.frame thisName = none →
    D.Allows (.failure ⟨.unboundInitializer, c.decl.name.pos⟩)

/-- Statements. -/
structure StmtLaws : Prop where
  parts : ∀ {m s part}, D.Runs m (.stmt s) → part ∈ s.parts → D.Runs m part
  first : ∀ {m s ss}, D.Runs m (.stmts (s :: ss)) → D.Runs m (.stmt s)
  rest : ∀ {m m' s ss}, D.Runs m (.stmts (s :: ss)) → D.Executed m s m' → D.Runs m' (.stmts ss)
  raises : ∀ {m s fault}, D.Runs m (.stmt s) → s.declared? = none → s.Raises fault →
    D.Allows (.failure fault)
  since : ∀ {m s m'}, D.Executed m s m' → D.Since m m'
  later : ∀ {m m₁ s m'}, D.Later m m₁ → D.Executed m₁ s m' → D.Executed m s m'
  /-- A statement that declares nothing has no more effect than an expression. -/
  plain : ∀ {m s m'}, D.Runs m (.stmt s) → s.declared? = none →
    (D.Executed m s m' ↔ D.Later m m')
  /-- Neither has one that stands inside another. -/
  branch : ∀ {m s s' m'}, D.Runs m (.stmt s) → .stmt s' ∈ s.parts → D.Executed m s' m' →
    D.Later m m'
  block : ∀ {m body}, D.Runs m (.stmt (.block body)) →
    D.Runs (m.inside m.current .empty) (.stmts body)
  val : ∀ {m name type initializer v}, D.Runs m (.stmt (.val name type initializer)) →
    (∀ e ∈ initializer, D.Gives m e v) → (initializer = none → v = .void) →
    Ensures (define name.text v) m
      (fun _ m' => D.Executed m (.val name type initializer) m') fun _ _ => False
  funDecl : ∀ {m decl}, D.Runs m (.stmt (.funDecl decl)) →
    Ensures (newIdentity >>= fun identity =>
        define decl.name.text (.function identity ⟨decl, m.current, false⟩)) m
      (fun _ m' => D.Executed m (.funDecl decl) m') fun _ _ => False
  classDecl : ∀ {m name superclass decls}, D.Runs m (.stmt (.classDecl name superclass decls)) →
    Ensures (declareClass name superclass decls) m
      (fun _ m' => D.Executed m (.classDecl name superclass decls) m')
      fun reason m' => D.Allows reason ∧ D.Since m m'

/-- Every single step keeps the discipline. -/
structure Lawful : Prop where
  machine : D.MachineLaws
  value : D.ValueLaws
  expr : D.ExprLaws
  call : D.CallLaws
  stmt : D.StmtLaws

variable {D} in
/-- What arguments give are values that hold. -/
theorem ExprLaws.holds_all (laws : D.ExprLaws) {m : Machine} {es : List Expr} {vs : List Value}
    (h : List.Forall₂ (D.Gives m) es vs) : ∀ v ∈ vs, D.Holds m v := by
  induction h with
  | nil => exact List.forall_mem_nil _
  | cons hv _ ih => exact List.forall_mem_cons.mpr ⟨laws.holds hv, ih⟩

/-! ### Jobs -/

/-- The task may start on the machine. -/
def Ready (j : Job) : Prop :=
  match j.task with
  | .evaluate e => D.Runs j.machine (.expr e)
  | .evaluateAll es => D.Runs j.machine (.exprs es)
  | .call callee arguments paren => D.Calls j.machine callee arguments paren
  | .invoke closure arguments => D.Enters j.machine closure arguments
  | .execute s => D.Runs j.machine (.stmt s)
  | .executeAll ss => D.Runs j.machine (.stmts ss)

/-- The run stopped for a reason that it may stop for. -/
def Stopped (m : Machine) (reason : Stop) (m' : Machine) : Prop := D.Allows reason ∧ D.Since m m'

/-- What is returned, if anything, may be around. -/
def FlowHolds (m : Machine) : Flow → Prop
  | .normal => True
  | .returned v => D.Holds m v

/-- What a statement ends with. -/
structure Leaves (m : Machine) (s : Stmt) (flow : Flow) (m' : Machine) : Prop where
  since : D.Since m m'
  holds : D.FlowHolds m' flow
  executed : flow = .normal → D.Executed m s m'

/-- The job ends as it should. -/
def Done (n : Nat) (j : Job) : Prop :=
  match j.task with
  | .evaluate e =>
    Ensures (evaluate n e) j.machine (fun v m' => D.Later j.machine m' ∧ D.Gives m' e v)
      (D.Stopped j.machine)
  | .evaluateAll es =>
    Ensures (evaluateAll n es) j.machine
      (fun vs m' => D.Later j.machine m' ∧ List.Forall₂ (D.Gives m') es vs) (D.Stopped j.machine)
  | .call callee arguments paren =>
    Ensures (call n callee arguments paren) j.machine (D.Yields j.machine) (D.Stopped j.machine)
  | .invoke closure arguments =>
    Ensures (invoke n closure arguments) j.machine (D.Yields j.machine) (D.Stopped j.machine)
  | .execute s => Ensures (execute n s) j.machine (D.Leaves j.machine s) (D.Stopped j.machine)
  | .executeAll ss =>
    Ensures (executeAll n ss) j.machine
      (fun flow m' => D.Since j.machine m' ∧ D.FlowHolds m' flow) (D.Stopped j.machine)

variable {D} {m m₁ : Machine}

section Machines

variable (laws : D.MachineLaws)

include laws

theorem MachineLaws.stopped (hm : D.Good m) {reason : Stop} (h : D.Allows reason) :
    D.Stopped m reason m :=
  ⟨h, laws.since_of_later (laws.refl hm)⟩

/-- What stops later is kept since the start. -/
theorem MachineLaws.stopped_since {reason : Stop} {m' : Machine} (h : D.Since m m₁)
    (hstop : D.Stopped m₁ reason m') : D.Stopped m reason m' :=
  ⟨hstop.1, laws.since_trans h hstop.2⟩

/-- Where a computation stops that starts later. -/
theorem MachineLaws.stops_later {α : Type} {x : Eval α} {P : α → Machine → Prop}
    (hlater : D.Later m m₁) (h : Ensures x m₁ P (D.Stopped m₁)) :
    Ensures x m₁ P (D.Stopped m) :=
  h.mono (fun _ _ ha => ha) fun _ _ hs => laws.stopped_since (laws.since_of_later hlater) hs

/-- A computation that starts later. -/
theorem MachineLaws.ensures_later {α : Type} {x : Eval α} {P : α → Machine → Prop}
    (hlater : D.Later m m₁)
    (h : Ensures x m₁ (fun a m' => D.Later m₁ m' ∧ P a m') (D.Stopped m₁)) :
    Ensures x m₁ (fun a m' => D.Later m m' ∧ P a m') (D.Stopped m) :=
  (laws.stops_later hlater h).mono (fun _ _ ha => ⟨laws.trans hlater ha.1, ha.2⟩) fun _ _ hs => hs

end Machines

section Steps

variable (laws : D.Lawful)

include laws

/-- A later machine is a good one. -/
theorem Lawful.later_good {m' : Machine} (h : D.Later m m') : D.Good m' :=
  laws.machine.good (laws.machine.since_of_later h)

/-- A failure that an expression raises, as late as it may be. -/
theorem Lawful.ensures_raise {α : Type} {P : α → Machine → Prop} {e : Expr} {pos : Position}
    {fault : RuntimeFault} (hruns : D.Runs m (.expr e)) (hlater : D.Later m m₁)
    (h : e.Raises ⟨fault, pos⟩) (hmisses : e.Misses m₁ fault) :
    Ensures (fail pos fault) m₁ P (D.Stopped m) :=
  Ensures.fail ⟨laws.expr.raises (laws.expr.later hruns hlater) h hmisses,
    laws.machine.since_of_later hlater⟩

theorem Lawful.ensures_lookUp {e : Expr} {ref : Reference} (hruns : D.Runs m (.expr e))
    (hread : e.read? = some ref)
    (hraises : e.Raises ⟨.undefinedVariable ref.name.text, ref.name.pos⟩)
    (hmisses : m.lookUp? ref = none → ∀ fault, e.Misses m fault) :
    Ensures (lookUp ref) m (fun v m' => D.Later m m' ∧ D.Gives m' e v) (D.Stopped m) := by
  have hrefl := laws.machine.refl (laws.expr.good hruns)
  unfold Ensures lookUp
  cases hfound : m.lookUp? ref with
  | some v => exact ⟨hrefl, laws.expr.read hruns ref hread hfound⟩
  | none =>
    exact ⟨laws.expr.raises hruns hraises (hmisses hfound _), laws.machine.since_of_later hrefl⟩

theorem Lawful.ensures_property {object : Expr} {name : Name} {o : Instance}
    (hruns : D.Runs m (.expr (.get object name))) (ho : D.Holds m (.instanceValue o)) :
    Ensures (property o name) m (D.Yields m) (D.Stopped m) := by
  have hm := laws.expr.good hruns
  refine Ensures.bind_get ?_
  cases hfield : m.field? o name.text with
  | some v => exact Ensures.pure ⟨laws.machine.refl hm, laws.value.field hm ho hfield⟩
  | none =>
    cases hmethod : o.cls.findMethod? name.text with
    | some c => exact (laws.value.method hm ho hmethod).mono (fun _ _ h => h) fun _ _ h => h.elim
    | none => exact laws.ensures_raise hruns (laws.machine.refl hm) ⟨rfl, .inl rfl⟩ trivial

theorem Lawful.ensures_superMethod {keyword : Reference} {method : Name}
    (hruns : D.Runs m (.expr (.super keyword method))) :
    Ensures (superMethod keyword method) m (D.Yields m) (D.Stopped m) := by
  have hrefl := laws.machine.refl (laws.expr.good hruns)
  have hunresolved (hmisses : Expr.Misses m .unresolvedSuper (.super keyword method)) :
      Ensures (fail keyword.name.pos .unresolvedSuper) m (D.Yields m) (D.Stopped m) :=
    laws.ensures_raise hruns hrefl (.inl rfl) hmisses
  refine Ensures.bind_get ?_
  -- Down the tests of the rule: each passes, or raises a fault that the expression may raise.
  cases hdistance : m.table.get? keyword.id with
  | none => exact hunresolved (by simp [Expr.Misses, hdistance])
  | some distance =>
    cases hvalue : m.heap.getAt? m.current distance keyword.name.text with
    | none =>
      simp only [hvalue]
      exact laws.ensures_raise hruns hrefl (.inr (.inl rfl)) (by grind [Expr.Misses])
    | some v =>
      cases v with
      | classValue superclass =>
        cases distance with
        | zero => simpa only [hvalue] using hunresolved (by simp [Expr.Misses, hdistance])
        | succ inner =>
          cases hreceiver : m.heap.getAt? m.current inner thisName with
          | none => simpa only [hvalue, hreceiver] using hunresolved (by grind [Expr.Misses])
          | some receiver =>
            cases receiver with
            | instanceValue object =>
              simp only [hvalue, hreceiver]
              cases hmethod : superclass.findMethod? method.text with
              | some c =>
                exact (laws.expr.superMethod hruns hdistance hvalue hreceiver hmethod).mono
                  (fun _ _ h => h) fun _ _ h => h.elim
              | none => exact laws.ensures_raise hruns hrefl (.inr (.inr rfl)) nofun
            | _ => simpa only [hvalue, hreceiver] using hunresolved (by grind [Expr.Misses])
      | _ => simpa only [hvalue] using hunresolved (by grind [Expr.Misses])

/-- A step whose result may be around is one that a computed expression may give. -/
theorem Lawful.ensures_computed {e : Expr} {x : Eval Value} (hruns : D.Runs m (.expr e))
    (hread : e.read? = none) (hresults : e.results = []) (hlater : D.Later m m₁)
    (h : Ensures x m₁ (D.Yields m₁) (D.Stopped m₁)) :
    Ensures x m₁ (fun v m' => D.Later m m' ∧ D.Gives m' e v) (D.Stopped m) := by
  refine laws.machine.ensures_later hlater (h.mono (fun v m' hv => ⟨hv.1, ?_⟩) fun _ _ hs => hs)
  exact laws.expr.computed (laws.expr.later (laws.expr.later hruns hlater) hv.1) hread hresults hv.2

/-- The result of an operator. -/
theorem Lawful.ensures_lift {e : Expr} {pos : Position} {result : Except RuntimeFault Value}
    (hruns : D.Runs m (.expr e)) (hlater : D.Later m m₁) (hread : e.read? = none)
    (hresults : e.results = []) (hok : ∀ v, result = .ok v → v.IsPlain)
    (herror : ∀ fault, result = .error fault → e.Raises ⟨fault, pos⟩)
    (hmisses : ∀ fault, e.Misses m₁ fault) :
    Ensures (lift pos result) m₁ (fun v m' => D.Later m m' ∧ D.Gives m' e v) (D.Stopped m) := by
  refine Ensures.lift (fun v hv => ⟨hlater, ?_⟩) fun fault hfault => ?_
  · exact laws.expr.computed (laws.expr.later hruns hlater) hread hresults
      (laws.value.plain (laws.later_good hlater) (hok v hv))
  · exact laws.ensures_raise (P := fun v m' => D.Later m m' ∧ D.Gives m' e v) hruns hlater
      (herror fault hfault) (hmisses fault)

/-! ### Plans -/

open Job

theorem Lawful.plan_evaluate {n : Nat} {e : Expr} (hruns : D.Runs m (.expr e)) :
    Plan D.Ready (D.Done n) (ofExpr n m e) (evaluate (n + 1) e) m
      (fun v m' => D.Later m m' ∧ D.Gives m' e v) (D.Stopped m) := by
  have hm := laws.expr.good hruns
  have hrefl := laws.machine.refl hm
  -- A part of the expression may run on every later machine, and ends there as it should.
  have hpart : ∀ {part m'}, part ∈ e.parts → D.Later m m' → D.Runs m' part :=
    fun hmem hlater => laws.expr.later (laws.expr.parts hruns hmem) hlater
  have hdone : ∀ {e' m'}, D.Later m m' → D.Done n ⟨.evaluate e', m'⟩ →
      Ensures (evaluate n e') m' (fun v m'' => D.Later m m'' ∧ D.Gives m'' e' v) (D.Stopped m) :=
    fun hlater h => laws.machine.ensures_later hlater h
  -- What a part gives may be what the whole gives.
  have hresult : ∀ {e' m'}, e' ∈ e.results → D.Later m m' → D.Done n ⟨.evaluate e', m'⟩ →
      Ensures (evaluate n e') m' (fun v m'' => D.Later m m'' ∧ D.Gives m'' e v) (D.Stopped m) :=
    fun hmem hlater h => (hdone hlater h).mono
      (fun _ _ hv => ⟨hv.1, laws.expr.result (laws.expr.later hruns hv.1) _ hmem hv.2⟩)
      fun _ _ hs => hs
  cases e with
  | literal value =>
    refine .nil ⟨hrefl, laws.expr.computed hruns rfl rfl (laws.value.plain hm ?_)⟩
    cases value <;> trivial
  | grouping inner =>
    exact .single (hpart (by simp [Expr.parts]) hrefl) (hresult (by simp [Expr.results]) hrefl)
  | unary operator operand =>
    refine .last (hpart (by simp [Expr.parts]) hrefl) (hdone hrefl) fun v m₁ _ h => ?_
    exact laws.ensures_lift hruns h.1 rfl rfl (fun _ hv => Operator.isPlain_unary hv)
      (fun _ hfault => ⟨rfl, Operator.unary_raises hfault⟩) fun _ => trivial
  | binary left operator right =>
    refine .cons (hpart (by simp [Expr.parts]) hrefl) (hdone hrefl) fun v m₁ _ h => ?_
    refine .last (hpart (by simp [Expr.parts]) h.1) (hdone h.1) fun w m₂ _ h' => ?_
    exact laws.ensures_lift hruns h'.1 rfl rfl (fun _ hv => Operator.isPlain_binary hv)
      (fun _ hfault => ⟨rfl, Operator.binary_raises hfault⟩) fun _ => trivial
  | logical left operator right =>
    refine .cons (hpart (by simp [Expr.parts]) hrefl) (hdone hrefl) fun v m₁ _ h => ?_
    have hruns₁ := laws.expr.later hruns h.1
    cases v with
    | boolean b =>
      simp only
      split
      · exact .nil (Ensures.pure ⟨h.1, laws.expr.computed hruns₁ rfl rfl (laws.expr.holds h.2)⟩)
      · refine .single (hpart (by simp [Expr.parts]) h.1) fun hright => ?_
        refine laws.ensures_computed hruns rfl rfl h.1 (Ensures.mono hright ?_ fun _ _ hs => hs)
        exact fun _ _ hv => ⟨hv.1, laws.expr.holds hv.2⟩
    | _ => exact .nil (laws.ensures_raise hruns h.1 ⟨rfl, _, rfl⟩ trivial)
  | ternary condition question yes no =>
    refine .cons (hpart (by simp [Expr.parts]) hrefl) (hdone hrefl) fun v m₁ _ h => ?_
    cases v with
    | boolean b =>
      cases b
      · exact .single (hpart (by simp [Expr.parts]) h.1) (hresult (by simp [Expr.results]) h.1)
      · exact .single (hpart (by simp [Expr.parts]) h.1) (hresult (by simp [Expr.results]) h.1)
    | _ => exact .nil (laws.ensures_raise hruns h.1 ⟨rfl, _, rfl⟩ trivial)
  | var ref => exact .nil (laws.ensures_lookUp hruns rfl rfl fun h _ => h)
  | this ref => exact .nil (laws.ensures_lookUp hruns rfl rfl fun h _ => h)
  | super keyword method =>
    exact .nil (laws.ensures_computed hruns rfl rfl hrefl (laws.ensures_superMethod hruns))
  | assign target value =>
    refine .last (hpart (by simp [Expr.parts]) hrefl) (hdone hrefl) fun v m₁ _ h => ?_
    have hruns₁ := laws.expr.later hruns h.1
    have hassign : Ensures (assign target v) m₁ (fun _ m₂ => D.Later m₁ m₂) (D.Stopped m) := by
      unfold Ensures assign
      cases hholder : m₁.holder? target with
      | some f => exact laws.expr.assign hruns₁ h.2 hholder
      | none => exact ⟨laws.expr.raises hruns₁ rfl hholder, laws.machine.since_of_later h.1⟩
    refine hassign.bind fun _ m₂ _ hlater => Ensures.pure ⟨laws.machine.trans h.1 hlater, ?_⟩
    exact laws.expr.result (laws.expr.later hruns₁ hlater) value (by simp [Expr.results])
      (laws.expr.gives_later h.2 hlater)
  | call callee paren arguments =>
    refine .cons (hpart (by simp [Expr.parts]) hrefl) (hdone hrefl) fun f m₁ _ h => ?_
    have harguments : D.Runs m₁ (.exprs arguments) := hpart (by simp [Expr.parts]) h.1
    refine .cons harguments (laws.machine.stops_later h.1) fun values m₂ _ h' => ?_
    have hall := laws.machine.trans h.1 h'.1
    have hcalls := laws.call.calls (laws.expr.later hruns hall)
      (laws.expr.gives_later h.2 h'.1) h'.2
    exact .single hcalls (laws.ensures_computed hruns rfl rfl hall)
  | get object name =>
    refine .last (hpart (by simp [Expr.parts]) hrefl) (hdone hrefl) fun v m₁ _ h => ?_
    have hruns₁ := laws.expr.later hruns h.1
    cases v with
    | instanceValue o =>
      exact laws.ensures_computed hruns rfl rfl h.1
        (laws.ensures_property hruns₁ (laws.expr.holds h.2))
    | _ => exact laws.ensures_raise hruns h.1 ⟨rfl, .inr ⟨_, rfl⟩⟩ trivial
  | set object name value =>
    refine .cons (hpart (by simp [Expr.parts]) hrefl) (hdone hrefl) fun v m₁ _ h => ?_
    cases v with
    | instanceValue o =>
      refine .last (hpart (by simp [Expr.parts]) h.1) (laws.machine.stops_later h.1)
        fun w m₂ _ h' => ?_
      have hall := laws.machine.trans h.1 h'.1
      have hruns₂ := laws.expr.later hruns hall
      have hset := laws.expr.setField hruns₂ (laws.value.later (laws.expr.holds h.2) h'.1)
        (laws.expr.holds h'.2)
      refine Ensures.bind (hset.mono (fun _ _ h => h) fun _ _ h => h.elim) fun _ m₃ _ hlater => ?_
      refine Ensures.pure ⟨laws.machine.trans hall hlater, ?_⟩
      exact laws.expr.result (laws.expr.later hruns₂ hlater) value (by simp [Expr.results])
        (laws.expr.gives_later h'.2 hlater)
    | _ => exact .nil (laws.ensures_raise hruns h.1 ⟨rfl, _, rfl⟩ trivial)

theorem Lawful.plan_evaluateAll {n : Nat} {es : List Expr} (hruns : D.Runs m (.exprs es)) :
    Plan D.Ready (D.Done n) (Job.next n ⟨.evaluateAll es, m⟩) (evaluateAll (n + 1) es) m
      (fun vs m' => D.Later m m' ∧ List.Forall₂ (D.Gives m') es vs) (D.Stopped m) := by
  cases es with
  | nil => exact .nil ⟨laws.machine.refl (laws.expr.good hruns), .nil⟩
  | cons e es =>
    obtain ⟨hfirst, hrest⟩ := laws.expr.list hruns
    refine .cons hfirst id fun v m₁ _ h => ?_
    refine .last (laws.expr.later hrest h.1) (laws.machine.stops_later h.1) fun vs m₂ _ h' => ?_
    exact Ensures.pure ⟨laws.machine.trans h.1 h'.1, .cons (laws.expr.gives_later h.2 h'.1) h'.2⟩

theorem Lawful.ensures_builtin {b : Builtin} {values : List Value} {paren : Position}
    (hcalls : D.Calls m (.builtin b) values paren) :
    Ensures (b.apply values paren) m (D.Yields m) (D.Stopped m) := by
  have hm := laws.call.good hcalls
  have hrefl := laws.machine.refl hm
  have hfail : ∀ {fault}, fault.OfCall → Ensures (fail paren fault) m (D.Yields m) (D.Stopped m) :=
    fun hfault => Ensures.fail (laws.machine.stopped hm (laws.call.raises hcalls hfault))
  have hpure : ∀ {v : Value}, v.IsPlain → Ensures (pure v) m (D.Yields m) (D.Stopped m) :=
    fun hv => Ensures.pure ⟨hrefl, laws.value.plain hm hv⟩
  -- What the sink took stays in it also if it refuses the rest.
  have hwrite : ∀ text, Ensures (write paren text) m (fun _ m' => D.Later m m') (D.Stopped m) := by
    intro text
    have hlater := laws.call.write text hcalls
    unfold Ensures write
    rcases hw : m.sink.write text with ⟨_ | _, sink⟩ <;> rw [hw] at hlater
    · exact ⟨laws.call.raises hcalls trivial, laws.machine.since_of_later hlater⟩
    · exact hlater
  cases b with
  | print =>
    exact (hwrite _).bind fun _ _ _ hlater =>
      Ensures.pure ⟨hlater, laws.value.plain (laws.later_good hlater) trivial⟩
  | println =>
    exact (hwrite _).bind fun _ _ _ hlater =>
      Ensures.pure ⟨hlater, laws.value.plain (laws.later_good hlater) trivial⟩
  | charAt =>
    simp only [Builtin.apply]
    split
    · next text index =>
      rcases Builtin.characterAt_cases text index with ⟨c, hc⟩ | ⟨i, n, hi⟩
      · rw [hc]
        exact hpure trivial
      · rw [hi]
        exact hfail trivial
    · exact hfail trivial
  | _ =>
    simp only [Builtin.apply]
    split
    · exact hpure trivial
    · exact hfail trivial

theorem Lawful.plan_call {n : Nat} {callee : Value} {values : List Value} {paren : Position}
    (hcalls : D.Calls m callee values paren) :
    Plan D.Ready (D.Done n) (ofCallee m values callee) (Eval.call (n + 1) callee values paren) m
      (D.Yields m) (D.Stopped m) := by
  have hm := laws.call.good hcalls
  -- The wrong number of arguments is a fault whatever is called.
  have hcount : ∀ {expected : Nat} {f : Unit → Eval Value}, ¬ values.length = expected →
      Ensures (checkCount expected values paren >>= f) m (D.Yields m) (D.Stopped m) := by
    intro expected f hne
    rw [checkCount, if_neg hne]
    exact Ensures.bind (P := fun _ _ => False)
      (Ensures.fail (laws.machine.stopped hm (laws.call.raises hcalls trivial)))
      fun _ _ _ h => h.elim
  cases callee with
  | builtin b =>
    by_cases hlength : values.length = b.arity
    · exact .skip (checkCount_eq_ok hlength) (.nil (laws.ensures_builtin hcalls))
    · exact .nil (hcount hlength)
  | function identity closure =>
    by_cases hlength : values.length = closure.arity
    · rw [ofCallee, if_pos hlength]
      exact .skip (checkCount_eq_ok hlength) (.single (laws.call.function hcalls hlength) id)
    · rw [ofCallee, if_neg hlength]
      exact .nil (hcount hlength)
  | classValue cls =>
    by_cases hlength : values.length = cls.arity
    · rw [ofCallee, if_pos hlength]
      refine .skip (checkCount_eq_ok hlength) ?_
      -- First there is an object, on which the constructor runs; what that returns is dropped.
      refine .bind ((laws.call.construct hcalls hlength).mono (fun _ _ h => h) fun _ _ h => h.elim)
        fun object m₁ _ h => ?_
      obtain ⟨hlater, hobject, hinitializer⟩ := h
      cases hmethod : cls.initializer? with
      | none => exact .nil (Ensures.pure ⟨hlater, hobject⟩)
      | some method =>
        refine .bind ((hinitializer method hmethod).mono (fun _ _ h => h) fun _ _ h => h.elim)
          fun bound m₂ _ h => ?_
        have hall := laws.machine.trans hlater h.1
        refine .last h.2 (laws.machine.stops_later hall) fun _ m₃ _ h' => ?_
        exact Ensures.pure ⟨laws.machine.trans hall h'.1,
          laws.value.later hobject (laws.machine.trans h.1 h'.1)⟩
    · rw [ofCallee, if_neg hlength]
      exact .nil (hcount hlength)
  | _ => exact .nil (Ensures.fail (laws.machine.stopped hm (laws.call.raises hcalls trivial)))

/-- Statements in a new frame. -/
theorem Lawful.plan_within {n : Nat} {body : List Stmt} {enclosing : FrameId}
    {bindings : Bindings Value} (hm : D.Good m)
    (hruns : D.Runs (m.inside enclosing bindings) (.stmts body)) :
    Plan D.Ready (D.Done n) [⟨.executeAll body, m.inside enclosing bindings⟩]
      (within m.heap.next (executeAll n body))
      { m with heap := m.heap.alloc (some enclosing) bindings }
      (fun flow m' => D.Later m m' ∧ D.FlowHolds m' flow) (D.Stopped m) := by
  refine .single hruns fun hdone => Ensures.within (hdone.mono (fun flow m' h => ?_) ?_)
  · refine ⟨laws.machine.back hm h.1, ?_⟩
    cases flow with
    | normal => trivial
    | returned v => exact laws.value.current h.2
  · exact fun reason m' h => ⟨h.1, laws.machine.since_of_later (laws.machine.back hm h.2)⟩

theorem Lawful.plan_invoke {n : Nat} {closure : Closure} {values : List Value}
    (henters : D.Enters m closure values) :
    Plan D.Ready (D.Done n) (Job.next n ⟨.invoke closure values, m⟩) (invoke (n + 1) closure values)
      m (D.Yields m) (D.Stopped m) := by
  have hm := laws.call.entered henters
  rw [invoke, Job.next]
  refine .bind (P := fun frame m' => frame = m.heap.next ∧ m' = _) (Ensures.newFrame ⟨rfl, rfl⟩)
    fun frame m₁ _ h => ?_
  obtain ⟨rfl, rfl⟩ := h
  refine (laws.plan_within hm (laws.call.invoke henters)).andThen fun flow m₂ _ h => ?_
  obtain ⟨hlater, hflow⟩ := h
  have hm₂ := laws.later_good hlater
  split
  · next hinitializer =>
    refine Ensures.bind_get ?_
    cases hthis : m₂.heap.lookup? closure.frame thisName with
    | some object => exact Ensures.pure ⟨hlater, laws.call.receiver henters hlater hthis⟩
    | none =>
      exact Ensures.fail ⟨laws.call.unbound henters hinitializer hlater hthis,
        laws.machine.since_of_later hlater⟩
  · cases flow with
    | returned v => exact Ensures.pure ⟨hlater, hflow⟩
    | normal => exact Ensures.pure ⟨hlater, laws.value.plain hm₂ trivial⟩

/-- A statement that declares nothing ends as late as it may. -/
theorem Lawful.leaves_plain {s : Stmt} {flow : Flow} {m' : Machine} (hruns : D.Runs m (.stmt s))
    (hs : s.declared? = none) (hlater : D.Later m m') (hflow : D.FlowHolds m' flow) :
    D.Leaves m s flow m' :=
  ⟨laws.machine.since_of_later hlater, hflow, fun _ => (laws.stmt.plain hruns hs).mpr hlater⟩

/-- A statement that ends by binding the name that it declares. -/
theorem Lawful.leaves_declared {s : Stmt} {act : Eval Unit} {stop : Stop → Machine → Prop}
    (hlater : D.Later m m₁) (hstop : ∀ reason m', stop reason m' → D.Stopped m₁ reason m')
    (h : Ensures act m₁ (fun _ m' => D.Executed m₁ s m') stop) :
    Ensures (act >>= fun _ => pure Flow.normal) m₁ (D.Leaves m s) (D.Stopped m) := by
  have hact : Ensures act m₁ (fun _ m' => D.Executed m₁ s m') (D.Stopped m) :=
    laws.machine.stops_later hlater (h.mono (fun _ _ h => h) hstop)
  refine hact.bind fun _ m' _ h => Ensures.pure ?_
  have hexecuted := laws.stmt.later hlater h
  exact ⟨laws.stmt.since hexecuted, trivial, fun _ => hexecuted⟩

theorem Lawful.plan_execute {n : Nat} {s : Stmt} (hruns : D.Runs m (.stmt s)) :
    Plan D.Ready (D.Done n) (ofStmt n m s) (execute (n + 1) s) m (D.Leaves m s) (D.Stopped m) := by
  have hm := laws.expr.good hruns
  have hrefl := laws.machine.refl hm
  have hpart : ∀ {part m'}, part ∈ s.parts → D.Later m m' → D.Runs m' part :=
    fun hmem hlater => laws.expr.later (laws.stmt.parts hruns hmem) hlater
  -- A statement inside this one that runs in its place.
  have hinside : ∀ {s' m'}, s.declared? = none → .stmt s' ∈ s.parts → D.Later m m' →
      D.Done n ⟨.execute s', m'⟩ →
      Ensures (execute n s') m' (D.Leaves m s) (D.Stopped m) := by
    intro s' m' hs hmem hlater hdone
    refine laws.machine.stops_later hlater
      (Ensures.mono hdone (fun flow m'' h => ?_) fun _ _ h => h)
    refine ⟨laws.machine.since_trans (laws.machine.since_of_later hlater) h.since, h.holds, ?_⟩
    intro hnormal
    have hbranch := laws.stmt.branch (laws.expr.later hruns hlater) hmem (h.executed hnormal)
    exact (laws.stmt.plain hruns hs).mpr (laws.machine.trans hlater hbranch)
  cases s with
  | expression e =>
    refine .last (hpart (by simp [Stmt.parts]) hrefl) id fun _ m₁ _ h => ?_
    exact Ensures.pure (laws.leaves_plain hruns rfl h.1 trivial)
  | val name type initializer =>
    cases initializer with
    | none =>
      exact .nil (laws.leaves_declared hrefl (fun _ _ h => h.elim)
        (laws.stmt.val hruns nofun fun _ => rfl))
    | some e =>
      refine .last (hpart (by simp [Stmt.parts]) hrefl) id fun v m₁ _ h => ?_
      refine laws.leaves_declared h.1 (fun _ _ h => h.elim)
        (laws.stmt.val (laws.expr.later hruns h.1) ?_ nofun)
      rintro _ ⟨⟩
      exact h.2
  | block body =>
    rw [ofStmt]
    refine .skip (x := currentFrame) rfl (.bind (P := fun frame m' => frame = m.heap.next ∧ m' = _)
      (Ensures.newFrame ⟨rfl, rfl⟩) fun frame m₁ _ h => ?_)
    obtain ⟨rfl, rfl⟩ := h
    exact (laws.plan_within hm (laws.stmt.block hruns)).imp fun flow m' h =>
      laws.leaves_plain hruns rfl h.1 h.2
  | ifThen keyword condition yes =>
    refine .cons (hpart (by simp [Stmt.parts]) hrefl) id fun v m₁ _ h => ?_
    cases v with
    | boolean b =>
      cases b with
      | false => exact .nil (Ensures.pure (laws.leaves_plain hruns rfl h.1 trivial))
      | true =>
        exact .single (hpart (by simp [Stmt.parts]) h.1) (hinside rfl (by simp [Stmt.parts]) h.1)
    | _ => exact .nil (Ensures.fail ⟨laws.stmt.raises hruns rfl ⟨rfl, _, rfl⟩,
        laws.machine.since_of_later h.1⟩)
  | ifElse keyword condition yes no =>
    refine .cons (hpart (by simp [Stmt.parts]) hrefl) id fun v m₁ _ h => ?_
    cases v with
    | boolean b =>
      cases b
      · exact .single (hpart (by simp [Stmt.parts]) h.1) (hinside rfl (by simp [Stmt.parts]) h.1)
      · exact .single (hpart (by simp [Stmt.parts]) h.1) (hinside rfl (by simp [Stmt.parts]) h.1)
    | _ => exact .nil (Ensures.fail ⟨laws.stmt.raises hruns rfl ⟨rfl, _, rfl⟩,
        laws.machine.since_of_later h.1⟩)
  | whileLoop keyword condition body =>
    refine .cons (hpart (by simp [Stmt.parts]) hrefl) id fun v m₁ _ h => ?_
    cases v with
    | boolean b =>
      cases b with
      | false => exact .nil (Ensures.pure (laws.leaves_plain hruns rfl h.1 trivial))
      | true =>
        refine .cons (hpart (by simp [Stmt.parts]) h.1) (hinside rfl (by simp [Stmt.parts]) h.1)
          fun flow m₂ _ h' => ?_
        cases flow with
        | returned v => exact .nil (Ensures.pure ⟨h'.since, h'.holds, Flow.noConfusion⟩)
        | normal =>
          -- The loop goes on where it stands.
          have hlater := (laws.stmt.plain hruns rfl).mp (h'.executed rfl)
          have hruns₂ := laws.expr.later hruns hlater
          refine .single hruns₂ fun hdone => ?_
          refine laws.machine.stops_later hlater (Ensures.mono hdone (fun flow m₃ h => ?_)
            fun _ _ h => h)
          refine ⟨laws.machine.since_trans h'.since h.since, h.holds, fun hnormal => ?_⟩
          have hrest := (laws.stmt.plain hruns₂ rfl).mp (h.executed hnormal)
          exact (laws.stmt.plain hruns rfl).mpr (laws.machine.trans hlater hrest)
    | _ => exact .nil (Ensures.fail ⟨laws.stmt.raises hruns rfl ⟨rfl, _, rfl⟩,
        laws.machine.since_of_later h.1⟩)
  | funDecl decl =>
    exact .nil (laws.leaves_declared hrefl (fun _ _ h => h.elim) (laws.stmt.funDecl hruns))
  | ret keyword value =>
    cases value with
    | none =>
      exact .nil (Ensures.pure ⟨laws.machine.since_of_later hrefl, laws.value.plain hm trivial,
        Flow.noConfusion⟩)
    | some e =>
      refine .last (hpart (by simp [Stmt.parts]) hrefl) id fun v m₁ _ h => ?_
      exact Ensures.pure ⟨laws.machine.since_of_later h.1, laws.expr.holds h.2, Flow.noConfusion⟩
  | classDecl name superclass decls =>
    exact .nil (laws.leaves_declared hrefl (fun _ _ h => h) (laws.stmt.classDecl hruns))

theorem Lawful.plan_executeAll {n : Nat} {ss : List Stmt} (hruns : D.Runs m (.stmts ss)) :
    Plan D.Ready (D.Done n) (Job.next n ⟨.executeAll ss, m⟩) (executeAll (n + 1) ss) m
      (fun flow m' => D.Since m m' ∧ D.FlowHolds m' flow) (D.Stopped m) := by
  cases ss with
  | nil =>
    exact .nil ⟨laws.machine.since_of_later (laws.machine.refl (laws.expr.good hruns)), trivial⟩
  | cons s ss =>
    refine .cons (laws.stmt.first hruns) id fun flow m₁ _ h => ?_
    cases flow with
    | returned v => exact .nil (Ensures.pure ⟨h.since, h.holds⟩)
    | normal =>
      refine .single (laws.stmt.rest hruns (h.executed rfl)) fun hdone => Ensures.mono hdone ?_ ?_
      · exact fun _ _ h' => ⟨laws.machine.since_trans h.since h'.1, h'.2⟩
      · exact fun _ _ h' => laws.machine.stopped_since h.since h'

/-! ### Runs -/

theorem Lawful.ready_step (n : Nat) (j : Job) (hj : D.Ready j) :
    (∀ j' ∈ j.next n, D.Ready j' → D.Done n j') →
      (∀ j' ∈ j.next n, D.Ready j') ∧ D.Done (n + 1) j := by
  obtain ⟨task, m⟩ := j
  cases task with
  | evaluate e => exact laws.plan_evaluate hj
  | evaluateAll es => exact laws.plan_evaluateAll hj
  | call callee arguments paren => exact laws.plan_call hj
  | invoke closure arguments => exact laws.plan_invoke hj
  | execute s => exact laws.plan_execute hj
  | executeAll ss => exact laws.plan_executeAll hj

/-- Without fuel nothing happens. -/
theorem Lawful.done_zero (j : Job) (hj : D.Ready j) : D.Done 0 j := by
  obtain ⟨task, m⟩ := j
  have hstop : D.Good m → D.Stopped m .outOfFuel m :=
    fun hm => laws.machine.stopped hm laws.machine.outOfFuel
  cases task with
  | call callee arguments paren => exact hstop (laws.call.good hj)
  | invoke closure arguments => exact hstop (laws.call.entered hj)
  | _ => exact hstop (laws.expr.good hj)

/-- What may start ends as it should. -/
theorem Lawful.done (n : Nat) {j : Job} (hj : D.Ready j) : D.Done n j :=
  Job.done_of_ready laws.done_zero laws.ready_step n j hj

/-- Whatever a run comes to may start there and ends as it should. -/
theorem Lawful.of_reaches {n k : Nat} {j j' : Job} (hj : D.Ready j) (h : Job.Reaches n j k j') :
    D.Ready j' ∧ D.Done k j' :=
  Job.of_reaches laws.done_zero laws.ready_step hj h

end Steps

end Discipline

end ClassScript
