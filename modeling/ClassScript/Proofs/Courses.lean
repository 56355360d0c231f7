import ClassScript.Proofs.Erasure.Trees
import ClassScript.Proofs.Execution

namespace ClassScript

/-!
# The courses of jobs

A job consists of the jobs that it starts and of steps of its own in between. Those steps neither
write to the sink nor look at it, and they never stop for want of fuel. So what becomes of fuel and
of the sink in a job is known from the jobs that it starts. Built-in functions start no jobs; they
are the only ones that write.

* `Eval.Simple`: computations to which neither the sink nor fuel matters;
* `Job.Course`: computations that consist of jobs and of simple steps;
* `Job.Course.ofExpr`, `Job.Course.ofStmt`, …: the functions that run a program, by the jobs of
  `Job.next`.
-/

/-- The machine with another sink. -/
def Machine.withSink (sink : Sink) (m : Machine) : Machine := { m with sink }

/-! ### Simple steps -/

namespace Eval

variable {α β : Type}

/-- The computation never stops for want of fuel. -/
def Frugal (x : Eval α) : Prop := ∀ m m', x m ≠ .error .outOfFuel m'

/-- Two steps that both have no need of fuel. -/
theorem Frugal.bind {x : Eval α} {f : α → Eval β} (hx : Frugal x) (hf : ∀ a, Frugal (f a)) :
    Frugal (x >>= f) := by
  intro m m'
  cases hm : x m with
  | ok a m₁ =>
    rw [bind_of_ok hm]
    exact hf a m₁ m'
  | error reason m₁ =>
    rw [bind_of_error hm]
    rintro ⟨⟩
    exact hx m m' hm

/-- The computation neither writes nor depends on the sink, and it never stops for want of fuel. -/
structure Simple (x : Eval α) : Prop where
  silent : ∀ sink, Commutes id (Machine.withSink sink) id x x
  frugal : Frugal x

namespace Simple

theorem pure (a : α) : Simple (pure a) := ⟨fun _ _ => rfl, nofun⟩

theorem fail (pos : Position) (fault : RuntimeFault) : Simple (Eval.fail pos fault : Eval α) :=
  ⟨fun _ _ => rfl, nofun⟩

/-- Two simple steps. -/
theorem bind {x : Eval α} {f : α → Eval β} (hx : Simple x) (hf : ∀ a, Simple (f a)) :
    Simple (x >>= f) where
  silent sink := (hx.silent sink).bind fun a => (hf a).silent sink
  frugal := hx.frugal.bind fun a => (hf a).frugal

/-- A step that looks at the machine, but not at its sink. -/
theorem bind_get {f : Machine → Eval β} (hf : ∀ m, Simple (f m))
    (hsink : ∀ sink m, f (m.withSink sink) = f m) : Simple (get >>= f) where
  silent sink m := by
    show f (m.withSink sink) (m.withSink sink) = _
    rw [hsink]
    exact (hf m).silent sink m
  frugal m := (hf m).frugal m

/-- A result that is taken over, or a fault. -/
theorem lift (pos : Position) (result : Except RuntimeFault α) : Simple (Eval.lift pos result) := by
  cases result with
  | ok a => exact pure a
  | error fault => exact fail pos fault

theorem newFrame (enclosing : FrameId) (bindings : Bindings Value) :
    Simple (Eval.newFrame enclosing bindings) := ⟨fun _ _ => rfl, nofun⟩

theorem currentFrame : Simple Eval.currentFrame := ⟨fun _ _ => rfl, nofun⟩

theorem define (name : String) (value : Value) : Simple (Eval.define name value) :=
  ⟨fun _ _ => rfl, nofun⟩

theorem newIdentity : Simple Eval.newIdentity := ⟨fun _ _ => rfl, nofun⟩

theorem newInstance (cls : Class) : Simple (Eval.newInstance cls) := ⟨fun _ _ => rfl, nofun⟩

theorem setField (object : Instance) (name : String) (value : Value) :
    Simple (Eval.setField object name value) := ⟨fun _ _ => rfl, nofun⟩

theorem bindReceiver (method : Closure) (object : Instance) :
    Simple (Eval.bindReceiver method object) := ⟨fun _ _ => rfl, nofun⟩

theorem boundMethod (method : Closure) (object : Instance) :
    Simple (Eval.boundMethod method object) := ⟨fun _ _ => rfl, nofun⟩

/-- A use of a name is looked up in the frames only. -/
theorem lookUp (ref : Reference) : Simple (Eval.lookUp ref) where
  silent sink m := by
    have hsame : (m.withSink sink).lookUp? ref = m.lookUp? ref := rfl
    unfold Eval.lookUp
    rw [hsame]
    cases m.lookUp? ref <;> rfl
  frugal m m' := by
    unfold Eval.lookUp
    cases m.lookUp? ref <;> nofun

/-- An assignment changes the frames only. -/
theorem assign (ref : Reference) (value : Value) : Simple (Eval.assign ref value) where
  silent sink m := by
    have hsame : (m.withSink sink).holder? ref = m.holder? ref := rfl
    unfold Eval.assign
    rw [hsame]
    cases m.holder? ref <;> rfl
  frugal m m' := by
    unfold Eval.assign
    cases m.holder? ref <;> nofun

/-- A property is looked up in the fields and the methods. -/
theorem property (object : Instance) (name : Name) : Simple (Eval.property object name) := by
  refine bind_get (fun m => ?_) fun _ _ => rfl
  cases m.field? object name.text with
  | some v => exact pure v
  | none =>
    cases object.cls.findMethod? name.text with
    | some method => exact boundMethod method object
    | none => exact fail _ _

/-- The method of the superclass is looked up in the frames. -/
theorem superMethod (keyword : Reference) (method : Name) :
    Simple (Eval.superMethod keyword method) := by
  refine bind_get (fun m => ?_) fun _ _ => rfl
  simp only
  split
  · exact fail _ _
  · split
    · exact fail _ _
    · split
      · split
        · exact boundMethod _ _
        · exact fail _ _
      · exact fail _ _
    · exact fail _ _

/-- The superclass of a class is looked up in the frames. -/
theorem superclassValue (ref : Reference) : Simple (Eval.superclassValue ref) := by
  refine (lookUp ref).bind fun v => ?_
  cases v with
  | classValue cls => exact pure cls
  | _ => exact fail _ _

/-- A declaration of a class changes the frames only. -/
theorem declareClass (name : Name) (superclass : Option Reference) (decls : List FunctionDecl) :
    Simple (Eval.declareClass name superclass decls) := by
  have hfirst : Simple (superclass.mapM Eval.superclassValue) := by
    cases superclass with
    | none => exact pure none
    | some ref => exact (superclassValue ref).bind fun cls => pure (some cls)
  refine hfirst.bind fun found => currentFrame.bind fun outer => ?_
  cases found with
  | none => exact (pure outer).bind fun frame => newIdentity.bind fun identity => define _ _
  | some cls =>
    exact (newFrame outer _).bind fun frame => newIdentity.bind fun identity => define _ _

/-- The number of arguments is right, or it is a fault. -/
theorem checkCount (expected : Nat) (arguments : List Value) (paren : Position) :
    Simple (Eval.checkCount expected arguments paren) := by
  unfold Eval.checkCount
  split
  · exact pure ()
  · exact fail _ _

/-- Built-in functions that do not print. -/
theorem builtin {b : Builtin} (hb : b ∉ [Builtin.print, Builtin.println]) (arguments : List Value)
    (paren : Position) : Simple (b.apply arguments paren) := by
  cases b with
  | print => exact absurd List.mem_cons_self hb
  | println => exact absurd (List.mem_cons_of_mem _ List.mem_cons_self) hb
  | charAt =>
    simp only [Builtin.apply]
    split
    · exact lift _ _
    · exact fail _ _
  | _ =>
    simp only [Builtin.apply]
    split
    · exact pure _
    · exact fail _ _

end Simple

end Eval

/-! ### Courses -/

namespace Job

open Eval

variable {α β : Type}

/-- The computations `x`, one for each amount of fuel, consist of simple steps and of jobs. They
    pass the fuel on to the jobs, and start those that are given, in that order. -/
inductive Course : {α : Type} → (jobs : Nat → Machine → List Job) → (x : Nat → Eval α) → Prop where
  | simple {α : Type} {x : Eval α} (hx : Simple x) : Course (fun _ _ => []) fun _ => x
  | evaluate (e : Expr) : Course (fun _ m => [⟨.evaluate e, m⟩]) (Eval.evaluate · e)
  | evaluateAll (es : List Expr) :
    Course (fun _ m => [⟨.evaluateAll es, m⟩]) (Eval.evaluateAll · es)
  | call (callee : Value) (arguments : List Value) (paren : Position) :
    Course (fun _ m => [⟨.call callee arguments paren, m⟩]) (Eval.call · callee arguments paren)
  | invoke (closure : Closure) (arguments : List Value) :
    Course (fun _ m => [⟨.invoke closure arguments, m⟩]) (Eval.invoke · closure arguments)
  | execute (s : Stmt) : Course (fun _ m => [⟨.execute s, m⟩]) (Eval.execute · s)
  | executeAll (ss : List Stmt) : Course (fun _ m => [⟨.executeAll ss, m⟩]) (Eval.executeAll · ss)
  | seq {α β : Type} {jobs : Nat → Machine → List Job} {x : Nat → Eval α}
      {next : α → Nat → Machine → List Job} {f : α → Nat → Eval β} (hx : Course jobs x)
      (hf : ∀ a, Course (next a) (f a)) :
    Course (fun n m => jobs n m ++ after (x n) m fun a m' => next a n m') fun n =>
      x n >>= fun a => f a n
  | within {α : Type} {jobs : Nat → Machine → List Job} {x : Nat → Eval α} (frame : FrameId)
      (hx : Course jobs x) :
    Course (fun n m => jobs n { m with current := frame }) fun n => Eval.within frame (x n)

namespace Course

variable {jobs : Nat → Machine → List Job} {task : Task} {x : Nat → Eval α}
  {next : α → Nat → Machine → List Job} {f : α → Nat → Eval β}

/-- A step that is a job, and then what follows it. -/
theorem cons (hx : Course (fun _ m => [⟨task, m⟩]) x) (hf : ∀ a, Course (next a) (f a)) :
    Course (fun n m => ⟨task, m⟩ :: after (x n) m fun a m' => next a n m') fun n =>
      x n >>= fun a => f a n :=
  hx.seq hf

/-- A simple step, and then what follows it. -/
theorem bind {x : Eval α} (hx : Simple x) (hf : ∀ a, Course (next a) (f a)) :
    Course (fun n m => after x m fun a m' => next a n m') fun n => x >>= fun a => f a n :=
  (simple hx).seq hf

/-- What starts jobs, and then a simple step. -/
theorem andThen {f : α → Eval β} (hx : Course jobs x) (hf : ∀ a, Simple (f a)) :
    Course jobs fun n => x n >>= f := by
  have hafter : ∀ n m, after (x n) m (fun _ _ => []) = [] := by
    intro n m
    unfold after
    cases x n m <;> rfl
  simpa only [hafter, List.append_nil] using hx.seq fun a => simple (hf a)

/-- A step that leaves the machine alone, and then what follows it. -/
theorem skip {x : Eval α} {a : α} (hx : ∀ m, x m = .ok a m) (hf : Course jobs (f a)) :
    Course jobs fun n => x >>= fun a => f a n := by
  have hsame : (fun n => x >>= fun a => f a n) = f a :=
    funext fun n => funext fun m => bind_of_ok (hx m)
  rwa [hsame]

/-! ### The functions that run a program -/

/-- An expression, by the jobs that its evaluation starts. -/
theorem ofExpr (e : Expr) : Course (Job.ofExpr · · e) fun n => Eval.evaluate (n + 1) e := by
  cases e with
  | literal value => exact .simple (.pure _)
  | grouping inner => exact .evaluate inner
  | unary operator operand => exact (evaluate operand).andThen fun v => .lift _ _
  | binary left operator right =>
    exact .cons (.evaluate left) fun v => (evaluate right).andThen fun w => .lift _ _
  | logical left operator right =>
    refine .cons (.evaluate left) fun v => ?_
    cases v with
    | boolean b =>
      simp only
      split
      · exact .simple (.pure _)
      · exact .evaluate right
    | _ => exact .simple (.fail _ _)
  | ternary condition question yes no =>
    refine .cons (.evaluate condition) fun v => ?_
    cases v with
    | boolean b =>
      cases b
      · exact .evaluate no
      · exact .evaluate yes
    | _ => exact .simple (.fail _ _)
  | var ref => exact .simple (.lookUp ref)
  | this ref => exact .simple (.lookUp ref)
  | super keyword method => exact .simple (.superMethod keyword method)
  | assign target value =>
    exact (evaluate value).andThen fun v => (Simple.assign target v).bind fun _ => .pure v
  | call callee paren arguments =>
    refine .cons (.evaluate callee) fun f => .cons (.evaluateAll arguments) fun values => ?_
    exact .call f values paren
  | get object name =>
    refine (evaluate object).andThen fun v => ?_
    cases v with
    | instanceValue o => exact .property o name
    | _ => exact .fail _ _
  | set object name value =>
    refine .cons (.evaluate object) fun v => ?_
    cases v with
    | instanceValue o =>
      exact (evaluate value).andThen fun w => (Simple.setField o _ w).bind fun _ => .pure w
    | _ => exact .simple (.fail _ _)

/-- Expressions in order, by the jobs that their evaluation starts. -/
theorem ofExprs (es : List Expr) :
    Course (fun n m => Job.next n ⟨.evaluateAll es, m⟩) fun n => Eval.evaluateAll (n + 1) es := by
  cases es with
  | nil => exact .simple (.pure _)
  | cons e es =>
    exact .cons (.evaluate e) fun v => (evaluateAll es).andThen fun vs => .pure _

/-- A call of anything but a built-in function, by the jobs that it starts. -/
theorem ofCallee {callee : Value} (hcallee : ∀ b, callee ≠ .builtin b) (arguments : List Value)
    (paren : Position) :
    Course (fun _ m => Job.ofCallee m arguments callee) fun n =>
      Eval.call (n + 1) callee arguments paren := by
  cases callee with
  | builtin b => exact absurd rfl (hcallee b)
  | function identity closure =>
    by_cases hlength : arguments.length = closure.arity
    · simp only [Job.ofCallee, if_pos hlength]
      exact .skip (fun _ => checkCount_eq_ok hlength) (.invoke closure arguments)
    · simp only [Job.ofCallee, Eval.call, checkCount, if_neg hlength]
      exact .simple (.fail _ _)
  | classValue cls =>
    by_cases hlength : arguments.length = cls.arity
    · simp only [Job.ofCallee, if_pos hlength]
      refine .skip (fun _ => checkCount_eq_ok hlength) (.bind (.newInstance cls) fun object => ?_)
      cases cls.initializer? with
      | none => exact .simple (.pure _)
      | some method =>
        refine .bind (.bindReceiver method object) fun bound => ?_
        exact (invoke bound arguments).andThen fun _ => .pure _
    · simp only [Job.ofCallee, Eval.call, checkCount, if_neg hlength]
      exact .simple (.fail _ _)
  | _ => exact .simple (.fail _ _)

/-- The body of a function, by the job that runs it. -/
theorem ofClosure (closure : Closure) (arguments : List Value) :
    Course (fun n m => Job.next n ⟨.invoke closure arguments, m⟩) fun n =>
      Eval.invoke (n + 1) closure arguments := by
  simp only [Job.next, Eval.invoke]
  refine .bind (.newFrame _ _) fun frame => ?_
  refine (within frame (.executeAll closure.decl.body)).andThen fun flow => ?_
  split
  · refine .bind_get (fun m => ?_) fun _ _ => rfl
    split
    · exact .pure _
    · exact .fail _ _
  · cases flow <;> exact .pure _

/-- A statement, by the jobs that its execution starts. -/
theorem ofStmt (s : Stmt) : Course (Job.ofStmt · · s) fun n => Eval.execute (n + 1) s := by
  cases s with
  | expression e => exact (evaluate e).andThen fun _ => .pure _
  | val name type initializer =>
    cases initializer with
    | none => exact .simple ((Simple.define _ _).bind fun _ => .pure _)
    | some e => exact (evaluate e).andThen fun v => (Simple.define _ v).bind fun _ => .pure _
  | block body =>
    simp only [Eval.execute]
    show Course (fun _ m => after currentFrame m fun outer m => after (newFrame outer .empty) m
      fun frame m => [⟨.executeAll body, { m with current := frame }⟩]) _
    refine .bind .currentFrame fun outer => .bind (.newFrame outer .empty) fun frame => ?_
    exact .within frame (.executeAll body)
  | ifThen keyword condition yes =>
    refine .cons (.evaluate condition) fun v => ?_
    cases v with
    | boolean b =>
      cases b
      · exact .simple (.pure _)
      · exact .execute yes
    | _ => exact .simple (.fail _ _)
  | ifElse keyword condition yes no =>
    refine .cons (.evaluate condition) fun v => ?_
    cases v with
    | boolean b =>
      cases b
      · exact .execute no
      · exact .execute yes
    | _ => exact .simple (.fail _ _)
  | whileLoop keyword condition body =>
    refine .cons (.evaluate condition) fun v => ?_
    cases v with
    | boolean b =>
      cases b with
      | false => exact .simple (.pure _)
      | true =>
        refine .cons (.execute body) fun flow => ?_
        cases flow with
        | returned v => exact .simple (.pure _)
        | normal => exact .execute (.whileLoop keyword condition body)
    | _ => exact .simple (.fail _ _)
  | funDecl decl =>
    simp only [Job.ofStmt, Eval.execute]
    exact .simple (Simple.currentFrame.bind fun _ => Simple.newIdentity.bind fun _ =>
      (Simple.define _ _).bind fun _ => .pure _)
  | ret keyword value =>
    cases value with
    | none => exact .simple (.pure _)
    | some e => exact (evaluate e).andThen fun _ => .pure _
  | classDecl name superclass decls =>
    exact .simple ((Simple.declareClass name superclass decls).bind fun _ => .pure _)

/-- Statements in order, by the jobs that their execution starts. -/
theorem ofStmts (ss : List Stmt) :
    Course (fun n m => Job.next n ⟨.executeAll ss, m⟩) fun n => Eval.executeAll (n + 1) ss := by
  cases ss with
  | nil => exact .simple (.pure _)
  | cons s ss =>
    refine .cons (.execute s) fun flow => ?_
    cases flow with
    | returned v => exact .simple (.pure _)
    | normal => exact .executeAll ss

end Course

end Job

end ClassScript
