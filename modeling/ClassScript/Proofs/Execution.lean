import ClassScript.Evaluation
import ClassScript.Proofs.Computation
import ClassScript.Proofs.Frames

namespace ClassScript

/-!
# Runs and what they come to

The functions that run a program call each other with less and less fuel. A job is one of these
functions with its arguments and the machine that it starts on; which jobs it starts itself follows
from how the earlier ones among them ended. So there is a set of jobs that a run comes to, and what
holds of all of them is shown by one induction.

* `Eval.Ensures`: what a computation ends with;
* `Class.ofDecls`, `Eval.Ensures.declareClass`: declared classes;
* `Task`, `Job`, `Job.next`: jobs, and the jobs that a job starts;
* `Job.Reaches`, `Job.reached`: the jobs that a run comes to, and their list;
* `Job.Plan`: a computation together with the jobs that it starts;
* `Job.done_of_ready`, `Job.of_reaches`: the induction.
-/

/-! ### What a computation ends with -/

namespace Eval

variable {α β : Type}

/-- From `m` on, the computation ends with a result and a machine that satisfy `post`, or it stops
    for a reason and on a machine that satisfy `stop`. -/
def Ensures (x : Eval α) (m : Machine) (post : α → Machine → Prop)
    (stop : Stop → Machine → Prop) : Prop :=
  match x m with
  | .ok a m' => post a m'
  | .error reason m' => stop reason m'

namespace Ensures

variable {x : Eval α} {m : Machine} {P P' : α → Machine → Prop} {Q : β → Machine → Prop}
  {S S' : Stop → Machine → Prop}

theorem pure {a : α} (h : P a m) : Ensures (pure a) m P S := h

theorem fail {pos : Position} {fault : RuntimeFault} (h : S (.failure ⟨fault, pos⟩) m) :
    Ensures (Eval.fail pos fault) m P S := h

/-- A result that is taken over, or a fault. -/
theorem lift {pos : Position} {result : Except RuntimeFault α} (hok : ∀ a, result = .ok a → P a m)
    (herror : ∀ fault, result = .error fault → S (.failure ⟨fault, pos⟩) m) :
    Ensures (Eval.lift pos result) m P S := by
  cases result with
  | ok a => exact hok a rfl
  | error fault => exact herror fault rfl

theorem newFrame {enclosing : FrameId} {bindings : Bindings Value}
    {P : FrameId → Machine → Prop}
    (h : P m.heap.next { m with heap := m.heap.alloc (some enclosing) bindings }) :
    Ensures (Eval.newFrame enclosing bindings) m P S := h

/-- Two steps, the second of which starts as the first ended. -/
theorem bind {f : α → Eval β} (hx : Ensures x m P S)
    (hf : ∀ a m', x m = .ok a m' → P a m' → Ensures (f a) m' Q S) : Ensures (x >>= f) m Q S := by
  show match EStateM.bind x f m with
    | .ok b m' => Q b m'
    | .error reason m' => S reason m'
  unfold Ensures at hx
  rw [EStateM.bind]
  cases hm : x m with
  | ok a m' =>
    rw [hm] at hx
    exact hf a m' hm hx
  | error reason m' =>
    rw [hm] at hx
    exact hx

/-- A step that looks at the machine. -/
theorem bind_get {f : Machine → Eval β} (h : Ensures (f m) m Q S) : Ensures (get >>= f) m Q S := h

/-- A weaker statement about the end. -/
theorem mono (h : Ensures x m P S) (hpost : ∀ a m', P a m' → P' a m')
    (hstop : ∀ reason m', S reason m' → S' reason m') : Ensures x m P' S' := by
  unfold Ensures at *
  cases hm : x m with
  | ok a m' =>
    rw [hm] at h
    exact hpost a m' h
  | error reason m' =>
    rw [hm] at h
    exact hstop reason m' h

/-- Two statements about one computation. -/
theorem and (h : Ensures x m P S) (h' : Ensures x m P' S') :
    Ensures x m (fun a m' => P a m' ∧ P' a m') fun reason m' => S reason m' ∧ S' reason m' := by
  unfold Ensures at *
  cases hm : x m with
  | ok a m' =>
    rw [hm] at h h'
    exact ⟨h, h'⟩
  | error reason m' =>
    rw [hm] at h h'
    exact ⟨h, h'⟩

/-- What is ensured holds of a result. -/
theorem of_ok (h : Ensures x m P S) {a : α} {m' : Machine} (hm : x m = .ok a m') : P a m' := by
  unfold Ensures at h
  rwa [hm] at h

/-- What is ensured holds of a reason to stop. -/
theorem of_error (h : Ensures x m P S) {reason : Stop} {m' : Machine}
    (hm : x m = .error reason m') : S reason m' := by
  unfold Ensures at h
  rwa [hm] at h

/-- A computation in another frame ends on the machine that it would end on, with the current frame
    put back. -/
theorem within {frame : FrameId}
    (h : Ensures x { m with current := frame }
      (fun a m' => P a { m' with current := m.current })
      fun reason m' => S reason { m' with current := m.current }) :
    Ensures (Eval.within frame x) m P S := by
  unfold Ensures Eval.within at *
  cases hm : x { m with current := frame } with
  | ok a m' =>
    rw [hm] at h
    exact h
  | error reason m' =>
    rw [hm] at h
    exact h

end Ensures

/-- The right number of arguments passes. -/
theorem checkCount_eq_ok {m : Machine} {expected : Nat} {arguments : List Value} {paren : Position}
    (h : arguments.length = expected) : checkCount expected arguments paren m = .ok () m := by
  rw [checkCount, if_pos h]
  rfl

end Eval

/-! ### Declarations of classes -/

/-- A method that is found is one of the class itself or is found in its superclass. -/
theorem Class.findMethod?_cases {cls : Class} {name : String} {c : Closure}
    (h : cls.findMethod? name = some c) :
    cls.methods.find? name = some c ∨
      ∃ superclass ∈ cls.superclass, superclass.findMethod? name = some c := by
  obtain ⟨identity, className, superclass, methods⟩ := cls
  unfold findMethod? at h
  cases hfind : methods.find? name with
  | some method =>
    rw [hfind] at h
    exact .inl h
  | none =>
    rw [hfind] at h
    cases superclass with
    | some superclass => exact .inr ⟨superclass, rfl, h⟩
    | none => cases h

/-- The class that a declaration makes, whose methods keep the frame `frame`. -/
def Class.ofDecls (identity : Nat) (name : String) (superclass : Option Class) (frame : FrameId)
    (decls : List FunctionDecl) : Class :=
  ⟨identity, name, superclass, Bindings.ofList <| decls.map fun decl =>
    (decl.name.text, ⟨decl, frame, decl.name.text == constructorName⟩)⟩

/-- A method of a declared class is one of the declared ones or comes from the superclass. -/
theorem Class.findMethod?_ofDecls {identity : Nat} {name x : String} {superclass : Option Class}
    {frame : FrameId} {decls : List FunctionDecl} {c : Closure}
    (h : (ofDecls identity name superclass frame decls).findMethod? x = some c) :
    (∃ decl ∈ decls, c = ⟨decl, frame, decl.name.text == constructorName⟩) ∨
      ∃ cls ∈ superclass, cls.findMethod? x = some c := by
  refine (findMethod?_cases h).imp_left fun hown => ?_
  obtain ⟨decl, hdecl, heq⟩ := List.mem_map.mp (Bindings.find?_ofList hown)
  cases heq
  exact ⟨decl, hdecl, rfl⟩

/-- The machine after a class is bound to its name. -/
def Machine.withClass (m : Machine) (name : Name) (superclass : Option Class) (frame : FrameId)
    (decls : List FunctionDecl) : Machine :=
  { m with
    heap := m.heap.define m.current name.text
      (.classValue (.ofDecls m.nextIdentity name.text superclass frame decls))
    nextIdentity := m.nextIdentity + 1 }

/-- The machine with a new frame in the current one that binds the superclass. -/
def Machine.withSuper (m : Machine) (cls : Class) : Machine :=
  { m with
    heap := m.heap.alloc (some m.current) (Bindings.empty.insert superName (.classValue cls)) }

/-- Why a superclass is refused: it is not bound, or is no class. -/
def Machine.RefusesSuper (m : Machine) (ref : Reference) (fault : RuntimeFault) : Prop :=
  match m.lookUp? ref with
  | none => fault = .undefinedVariable ref.name.text
  | some (.classValue _) => False
  | some v => fault = .superclass v.tag

namespace Eval.Ensures

variable {m : Machine} {P : Unit → Machine → Prop} {S : Stop → Machine → Prop}

/-- A superclass is looked up, and has to be a class. -/
theorem superclassValue {ref : Reference}
    (hstop : ∀ fault, m.RefusesSuper ref fault → S (.failure ⟨fault, ref.name.pos⟩) m) :
    Ensures (superclassValue ref) m
      (fun cls m' => m' = m ∧ m.lookUp? ref = some (.classValue cls)) S := by
  have hlookUp : Ensures (lookUp ref) m (fun v m' => m' = m ∧ m.lookUp? ref = some v) S := by
    unfold Ensures lookUp
    unfold Machine.RefusesSuper at hstop
    cases hfound : m.lookUp? ref with
    | some v => exact ⟨rfl, rfl⟩
    | none =>
      simp only [hfound] at hstop
      exact hstop _ rfl
  refine hlookUp.bind fun v m' _ h => ?_
  obtain ⟨rfl, hv⟩ := h
  unfold Machine.RefusesSuper at hstop
  rw [hv] at hstop
  cases v with
  | classValue cls => exact Ensures.pure ⟨rfl, hv⟩
  | _ => exact Ensures.fail (hstop _ rfl)

/-- A class is bound to its name. Its methods keep the current frame, or one in it that binds the
    superclass. -/
theorem declareClass {name : Name} {superclass : Option Reference} {decls : List FunctionDecl}
    (hstop : ∀ ref ∈ superclass, ∀ fault, m.RefusesSuper ref fault →
      S (.failure ⟨fault, ref.name.pos⟩) m)
    (hbase : superclass = none → P () (m.withClass name none m.current decls))
    (hderived : ∀ ref ∈ superclass, ∀ cls, m.lookUp? ref = some (.classValue cls) →
      P () ((m.withSuper cls).withClass name (some cls) m.heap.next decls)) :
    Ensures (declareClass name superclass decls) m P S := by
  cases superclass with
  | none => exact hbase rfl
  | some ref =>
    have hfirst : Ensures ((some ref).mapM Eval.superclassValue) m
        (fun found m' => m' = m ∧ ∃ cls, found = some cls ∧ m.lookUp? ref = some (.classValue cls))
        S :=
      (superclassValue (hstop ref rfl)).bind fun cls _ _ h => Ensures.pure ⟨h.1, cls, rfl, h.2⟩
    refine hfirst.bind fun found m' _ h => ?_
    obtain ⟨rfl, cls, rfl, hcls⟩ := h
    exact hderived ref rfl cls hcls

end Eval.Ensures

/-- A run that fails stopped for that failure. -/
theorem Machine.executeAll_of_interpret {fuel : Nat} {program : Program} {table : Distances}
    {m m' : Machine} {fault : Located RuntimeFault}
    (h : m.interpret fuel program table = (.failed fault, m')) :
    Eval.executeAll fuel program { m with table } = .error (.failure fault) m' := by
  unfold interpret at h
  cases hrun : Eval.executeAll fuel program { m with table } with
  | ok flow m₁ =>
    simp only [hrun] at h
    split at h <;> cases h
  | error reason m₁ =>
    cases reason with
    | failure fault' =>
      simp only [hrun] at h
      split at h <;> cases h
      rfl
    | outOfFuel =>
      simp only [hrun] at h
      cases h

/-! ### Jobs -/

/-- The functions that run a program, with their arguments. -/
inductive Task where
  | evaluate (e : Expr)
  | evaluateAll (es : List Expr)
  | call (callee : Value) (arguments : List Value) (paren : Position)
  | invoke (closure : Closure) (arguments : List Value)
  | execute (s : Stmt)
  | executeAll (ss : List Stmt)

/-- A task and the machine that it starts on. -/
structure Job where
  task : Task
  machine : Machine

namespace Job

open Eval

/-- The jobs that follow a computation if it ends with a result. -/
def after {α : Type} (x : Eval α) (m : Machine) (next : α → Machine → List Job) : List Job :=
  match x m with
  | .ok a m' => next a m'
  | .error _ _ => []

theorem mem_after {α : Type} {x : Eval α} {m : Machine} {next : α → Machine → List Job}
    {j : Job} : j ∈ after x m next ↔ ∃ a m', x m = .ok a m' ∧ j ∈ next a m' := by
  unfold after
  cases x m with
  | ok a m' =>
    constructor
    · intro h
      exact ⟨a, m', rfl, h⟩
    · rintro ⟨_, _, heq, h⟩
      cases heq
      exact h
  | error reason m' =>
    constructor
    · nofun
    · rintro ⟨_, _, heq, _⟩
      cases heq

theorem forall_mem_after {α : Type} {x : Eval α} {m : Machine} {next : α → Machine → List Job}
    {P : Job → Prop} :
    (∀ j ∈ after x m next, P j) ↔ ∀ a m', x m = .ok a m' → ∀ j ∈ next a m', P j := by
  simp only [mem_after]
  exact ⟨fun h a m' ha j hj => h j ⟨a, m', ha, hj⟩, fun h j ⟨a, m', ha, hj⟩ => h a m' ha j hj⟩

/-- What holds of a job and of those that follow it holds of the latter. -/
theorem forall_mem_next {α : Type} {x : Eval α} {m m' : Machine} {next : α → Machine → List Job}
    {P : Job → Prop} {j : Job} {a : α} (h : ∀ j' ∈ j :: after x m next, P j')
    (ha : x m = .ok a m') : ∀ j' ∈ next a m', P j' :=
  forall_mem_after.mp (List.forall_mem_cons.mp h).2 a m' ha

/-- The jobs that evaluating an expression starts. -/
def ofExpr (n : Nat) (m : Machine) : Expr → List Job
  | .literal _ => []
  | .grouping inner => [⟨.evaluate inner, m⟩]
  | .unary _ operand => [⟨.evaluate operand, m⟩]
  | .binary left _ right =>
    ⟨.evaluate left, m⟩ :: after (evaluate n left) m fun _ m => [⟨.evaluate right, m⟩]
  | .logical left operator right =>
    ⟨.evaluate left, m⟩ :: after (evaluate n left) m fun
      | .boolean b, m => if Operator.decides operator b then [] else [⟨.evaluate right, m⟩]
      | _, _ => []
  | .ternary condition _ yes no =>
    ⟨.evaluate condition, m⟩ :: after (evaluate n condition) m fun
      | .boolean b, m => [⟨.evaluate (if b then yes else no), m⟩]
      | _, _ => []
  | .var _ => []
  | .assign _ value => [⟨.evaluate value, m⟩]
  | .call callee paren arguments =>
    ⟨.evaluate callee, m⟩ :: after (evaluate n callee) m fun f m =>
      ⟨.evaluateAll arguments, m⟩ :: after (evaluateAll n arguments) m fun values m =>
        [⟨.call f values paren, m⟩]
  | .get object _ => [⟨.evaluate object, m⟩]
  | .set object _ value =>
    ⟨.evaluate object, m⟩ :: after (evaluate n object) m fun
      | .instanceValue _, m => [⟨.evaluate value, m⟩]
      | _, _ => []
  | .this _ => []
  | .super _ _ => []

/-- The jobs that a call of a value starts. -/
def ofCallee (m : Machine) (arguments : List Value) : Value → List Job
  | .function _ closure =>
    if arguments.length = closure.arity then [⟨.invoke closure arguments, m⟩] else []
  | .classValue cls =>
    if arguments.length = cls.arity then
      after (newInstance cls) m fun object m =>
        match cls.initializer? with
        | some method =>
          after (bindReceiver method object) m fun bound m => [⟨.invoke bound arguments, m⟩]
        | none => []
    else []
  | _ => []

/-- The jobs that executing a statement starts. -/
def ofStmt (n : Nat) (m : Machine) : Stmt → List Job
  | .expression e => [⟨.evaluate e, m⟩]
  | .val _ _ initializer => initializer.toList.map fun e => ⟨.evaluate e, m⟩
  | .block body =>
    after (newFrame m.current .empty) m fun frame m =>
      [⟨.executeAll body, { m with current := frame }⟩]
  | .ifThen _ condition yes =>
    ⟨.evaluate condition, m⟩ :: after (evaluate n condition) m fun
      | .boolean true, m => [⟨.execute yes, m⟩]
      | _, _ => []
  | .ifElse _ condition yes no =>
    ⟨.evaluate condition, m⟩ :: after (evaluate n condition) m fun
      | .boolean b, m => [⟨.execute (if b then yes else no), m⟩]
      | _, _ => []
  | .whileLoop keyword condition body =>
    ⟨.evaluate condition, m⟩ :: after (evaluate n condition) m fun
      | .boolean true, m =>
        ⟨.execute body, m⟩ :: after (execute n body) m fun
          | .normal, m => [⟨.execute (.whileLoop keyword condition body), m⟩]
          | .returned _, _ => []
      | _, _ => []
  | .funDecl _ => []
  | .ret _ value => value.toList.map fun e => ⟨.evaluate e, m⟩
  | .classDecl _ _ _ => []

/-- The jobs that a job with fuel `n + 1` starts itself; they have the fuel `n`. That these are the
    calls that the evaluator makes, all of them and no others, is shown by `Job.Course.ofExpr` and
    its companions, and by `Job.alike_succ` and `Job.runsOut_succ_iff`. -/
def next (n : Nat) : Job → List Job
  | ⟨.evaluate e, m⟩ => ofExpr n m e
  | ⟨.evaluateAll [], _⟩ => []
  | ⟨.evaluateAll (e :: es), m⟩ =>
    ⟨.evaluate e, m⟩ :: after (evaluate n e) m fun _ m => [⟨.evaluateAll es, m⟩]
  | ⟨.call callee arguments _, m⟩ => ofCallee m arguments callee
  | ⟨.invoke closure arguments, m⟩ =>
    after (newFrame closure.frame
        (Bindings.ofList ((closure.decl.params.map fun p => p.name.text).zip arguments))) m
      fun frame m => [⟨.executeAll closure.decl.body, { m with current := frame }⟩]
  | ⟨.execute s, m⟩ => ofStmt n m s
  | ⟨.executeAll [], _⟩ => []
  | ⟨.executeAll (s :: ss), m⟩ =>
    ⟨.execute s, m⟩ :: after (execute n s) m fun
      | .normal, m => [⟨.executeAll ss, m⟩]
      | .returned _, _ => []

/-- Statements start the first of them, and the others if the first ends normally. -/
theorem mem_next_executeAll {n : Nat} {s : Stmt} {ss : List Stmt} {m : Machine} {j : Job} :
    j ∈ next n ⟨.executeAll (s :: ss), m⟩ ↔
      j = ⟨.execute s, m⟩ ∨ ∃ m', execute n s m = .ok .normal m' ∧ j = ⟨.executeAll ss, m'⟩ := by
  rw [next, List.mem_cons, mem_after]
  refine or_congr_right ⟨?_, ?_⟩
  · rintro ⟨flow, m', hrun, hmem⟩
    cases flow with
    | returned v => cases hmem
    | normal => exact ⟨m', hrun, List.mem_singleton.mp hmem⟩
  · rintro ⟨m', hrun, rfl⟩
    exact ⟨.normal, m', hrun, List.mem_singleton.mpr rfl⟩

/-- The jobs that a job with some fuel comes to, each with the fuel that it has then. -/
inductive Reaches : Nat → Job → Nat → Job → Prop where
  | refl (n : Nat) (j : Job) : Reaches n j n j
  | step {n k : Nat} {j j' j'' : Job} : j' ∈ j.next n → Reaches n j' k j'' →
      Reaches (n + 1) j k j''

/-- A job that one of these jobs starts is come to as well. -/
theorem Reaches.tail {n k : Nat} {j j' j'' : Job} (h : Reaches n j (k + 1) j')
    (hmem : j'' ∈ j'.next k) : Reaches n j k j'' := by
  generalize hfuel : k + 1 = fuel at h
  induction h with
  | refl n j =>
    cases hfuel
    exact .step hmem (.refl k j'')
  | step hfirst _ ih => exact .step hfirst (ih hmem hfuel)

/-- The jobs that a job with some fuel comes to, each with the fuel that it has then, in the order
    in which they start. -/
def reached : Nat → Job → List (Nat × Job)
  | 0, j => [(0, j)]
  | n + 1, j => (n + 1, j) :: (j.next n).flatMap (reached n)

theorem mem_reached {n k : Nat} {j j' : Job} : (k, j') ∈ j.reached n ↔ Reaches n j k j' := by
  constructor
  · intro h
    induction n generalizing j with
    | zero =>
      cases List.mem_singleton.mp h
      exact .refl 0 j'
    | succ n ih =>
      rcases List.mem_cons.mp h with heq | h
      · cases heq
        exact .refl (n + 1) j'
      · obtain ⟨j₁, hmem, hrest⟩ := List.mem_flatMap.mp h
        exact .step hmem (ih hrest)
  · intro h
    induction h with
    | refl n j => cases n <;> exact List.mem_cons_self
    | step hmem _ ih => exact List.mem_cons_of_mem _ (List.mem_flatMap.mpr ⟨_, hmem, ih⟩)

/-- A job that a run comes to, found by a test. -/
theorem exists_reaches_of_any {n : Nat} {j : Job} {test : Nat × Job → Bool}
    (h : (j.reached n).any test = true) : ∃ k j', Reaches n j k j' ∧ test (k, j') = true := by
  obtain ⟨⟨k, j'⟩, hmem, htest⟩ := List.any_eq_true.mp h
  exact ⟨k, j', mem_reached.mp hmem, htest⟩

/-! ### Plans -/

/-- A computation and the jobs that it starts go together: if each of the jobs that is ready ends as
    it should, then all of them are ready and the computation ends with `post` or `stop`. -/
def Plan {α : Type} (Ready Done : Job → Prop) (jobs : List Job) (x : Eval α) (m : Machine)
    (post : α → Machine → Prop) (stop : Stop → Machine → Prop) : Prop :=
  (∀ j ∈ jobs, Ready j → Done j) → (∀ j ∈ jobs, Ready j) ∧ Ensures x m post stop

namespace Plan

variable {α β : Type} {Ready Done : Job → Prop} {x : Eval α} {m : Machine}
  {P P' : α → Machine → Prop} {Q : β → Machine → Prop} {S : Stop → Machine → Prop}

/-- A computation that starts nothing. -/
theorem nil (h : Ensures x m P S) : Plan Ready Done [] x m P S :=
  fun _ => ⟨nofun, h⟩

/-- A computation that is a job itself. -/
theorem single {j : Job} (hj : Ready j) (hdone : Done j → Ensures x m P S) :
    Plan Ready Done [j] x m P S :=
  fun h => ⟨List.forall_mem_singleton.mpr hj, hdone (h j List.mem_cons_self hj)⟩

/-- A weaker statement about the result. -/
theorem imp {jobs : List Job} (h : Plan Ready Done jobs x m P S)
    (hpost : ∀ a m', P a m' → P' a m') : Plan Ready Done jobs x m P' S :=
  fun hjobs => ⟨(h hjobs).1, (h hjobs).2.mono hpost fun _ _ hs => hs⟩

/-- What starts jobs, and then a step that starts none. -/
theorem andThen {jobs : List Job} {f : α → Eval β} (h : Plan Ready Done jobs x m P S)
    (hf : ∀ a m', x m = .ok a m' → P a m' → Ensures (f a) m' Q S) :
    Plan Ready Done jobs (x >>= f) m Q S :=
  fun hjobs => ⟨(h hjobs).1, (h hjobs).2.bind hf⟩

/-- A step that starts nothing, and then what follows it. -/
theorem bind {f : α → Eval β} {next : α → Machine → List Job} (hx : Ensures x m P S)
    (hf : ∀ a m', x m = .ok a m' → P a m' → Plan Ready Done (next a m') (f a) m' Q S) :
    Plan Ready Done (after x m next) (x >>= f) m Q S := by
  intro hjobs
  have hrest : ∀ a m', x m = .ok a m' → (∀ j ∈ next a m', Ready j) ∧ Ensures (f a) m' Q S :=
    fun a m' ha => hf a m' ha (hx.of_ok ha) fun j hj => hjobs j (mem_after.mpr ⟨a, m', ha, hj⟩)
  exact ⟨forall_mem_after.mpr fun a m' ha => (hrest a m' ha).1,
    hx.bind fun a m' ha _ => (hrest a m' ha).2⟩

/-- A step that leaves the machine alone, and then what follows it. -/
theorem skip {jobs : List Job} {f : α → Eval β} {a : α} (hx : x m = .ok a m)
    (h : Plan Ready Done jobs (f a) m Q S) : Plan Ready Done jobs (x >>= f) m Q S := by
  intro hjobs
  refine ⟨(h hjobs).1, ?_⟩
  unfold Ensures
  rw [bind_of_ok hx]
  exact (h hjobs).2

/-- A step that is a job, and then what follows it. -/
theorem cons {j : Job} {f : α → Eval β} {next : α → Machine → List Job} (hj : Ready j)
    (hdone : Done j → Ensures x m P S)
    (hf : ∀ a m', x m = .ok a m' → P a m' → Plan Ready Done (next a m') (f a) m' Q S) :
    Plan Ready Done (j :: after x m next) (x >>= f) m Q S := by
  intro hjobs
  have hx := hdone (hjobs j List.mem_cons_self hj)
  obtain ⟨hready, hends⟩ := bind hx hf fun j' hj' => hjobs j' (List.mem_cons_of_mem _ hj')
  exact ⟨List.forall_mem_cons.mpr ⟨hj, hready⟩, hends⟩

/-- A step that is a job, and then one that starts nothing. -/
theorem last {j : Job} {f : α → Eval β} (hj : Ready j) (hdone : Done j → Ensures x m P S)
    (hf : ∀ a m', x m = .ok a m' → P a m' → Ensures (f a) m' Q S) :
    Plan Ready Done [j] (x >>= f) m Q S :=
  (single hj hdone).andThen hf

end Plan

/-! ### Induction over runs -/

section Induction

variable {Ready : Job → Prop} {Done : Nat → Job → Prop}

/-- Every job that is ready ends as it should, if what it starts is ready and it ends as it should
    as long as what it starts does. -/
theorem done_of_ready (hzero : ∀ j, Ready j → Done 0 j)
    (hstep : ∀ n j, Ready j → (∀ j' ∈ j.next n, Ready j' → Done n j') →
      (∀ j' ∈ j.next n, Ready j') ∧ Done (n + 1) j) :
    ∀ n j, Ready j → Done n j := by
  intro n
  induction n with
  | zero => exact hzero
  | succ n ih =>
    intro j hj
    exact (hstep n j hj fun j' _ => ih j').2

/-- What is ready stays so along a run, and ends as it should. -/
theorem of_reaches (hzero : ∀ j, Ready j → Done 0 j)
    (hstep : ∀ n j, Ready j → (∀ j' ∈ j.next n, Ready j' → Done n j') →
      (∀ j' ∈ j.next n, Ready j') ∧ Done (n + 1) j)
    {n k : Nat} {j j' : Job} (hj : Ready j) (h : Reaches n j k j') : Ready j' ∧ Done k j' := by
  have hdone := done_of_ready hzero hstep
  induction h with
  | refl n j => exact ⟨hj, hdone n j hj⟩
  | @step n _ j j' _ hmem _ ih => exact ih ((hstep n j hj fun j' _ => hdone n j').1 j' hmem)

end Induction

end Job

end ClassScript
