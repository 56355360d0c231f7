import ClassScript.Proofs.Discipline

namespace ClassScript

/-!
# The events of a run

A run starts jobs and ends them, one after the other. In between lies nothing that a job does not
do, so the starts and ends, in order, are all that happens; and each of them has a machine on which
it happens and values that are handed on there. What a discipline says about machines one after the
other holds between any two events of a run.

* `Eval.final`, `Job.final`: the machine that a computation or a job ends on, with a result or
  without;
* `Event`, `Job.events`: starts and ends of jobs, and those of a run in order;
* `Discipline.Line`: a computation along the jobs that it starts;
* `Discipline.Lawful.events_ordered`: the machines of the events follow each other as the discipline
  says.
-/

/-! ### Last machines -/

namespace Eval

variable {α β : Type}

/-- The machine that a computation ends on, with a result or without. -/
def final (x : Eval α) (m : Machine) : Machine :=
  match x m with
  | .ok _ m' => m'
  | .error _ m' => m'

/-- The values in the result of a computation, none if it has no result. -/
def outcome (x : Eval α) (values : α → List Value) (m : Machine) : List Value :=
  match x m with
  | .ok a _ => values a
  | .error _ _ => []

/-- The reason for which a computation stops without a result, if it does. -/
def reason? (x : Eval α) (m : Machine) : Option Stop :=
  match x m with
  | .ok _ _ => none
  | .error reason _ => some reason

/-- A computation that succeeds ends on the machine that it gives. -/
theorem final_of_ok {x : Eval α} {m m' : Machine} {a : α} (h : x m = .ok a m') :
    x.final m = m' := by
  rw [final, h]

/-- A computation that stops ends on the machine that it gives. -/
theorem final_of_error {x : Eval α} {m m' : Machine} {reason : Stop}
    (h : x m = .error reason m') : x.final m = m' := by
  rw [final, h]

/-- What comes out of a computation comes from a result. -/
theorem mem_outcome {x : Eval α} {values : α → List Value} {m : Machine} {v : Value}
    (h : v ∈ x.outcome values m) : ∃ a, x m = .ok a (x.final m) ∧ v ∈ values a := by
  unfold outcome at h
  cases hx : x m with
  | ok a m' =>
    rw [hx] at h
    exact ⟨a, by rw [final_of_ok hx], h⟩
  | error reason m' =>
    rw [hx] at h
    cases h

/-- A computation that has a reason to stop stops for it. -/
theorem reason?_eq_some {x : Eval α} {m : Machine} {reason : Stop}
    (h : x.reason? m = some reason) : x m = .error reason (x.final m) := by
  unfold reason? at h
  cases hx : x m with
  | ok a m' =>
    rw [hx] at h
    cases h
  | error reason' m' =>
    rw [hx] at h
    cases h
    rw [final_of_error hx]

/-- After a step that succeeds, the computation ends as what follows does. -/
theorem final_bind_of_ok {x : Eval α} {f : α → Eval β} {m m' : Machine} {a : α}
    (h : x m = .ok a m') : Eval.final (x >>= f) m = (f a).final m' := by
  rw [final, bind_of_ok h]
  rfl

/-- After a step that stops, the computation has ended. -/
theorem final_bind_of_error {x : Eval α} {f : α → Eval β} {m m' : Machine} {reason : Stop}
    (h : x m = .error reason m') : Eval.final (x >>= f) m = m' := by
  rw [final, bind_of_error h]

/-- What follows a step without changing the machine does not change where it ends. -/
theorem final_bind_of_same {x : Eval α} {f : α → Eval β} (m : Machine)
    (h : ∀ a m', (f a).final m' = m') : Eval.final (x >>= f) m = x.final m := by
  cases hx : x m with
  | ok a m' => rw [final_bind_of_ok hx, final_of_ok hx, h]
  | error reason m' => rw [final_bind_of_error hx, final_of_error hx]

/-- A new frame, and then what runs with it. -/
theorem final_newFrame_bind (enclosing : FrameId) (bindings : Bindings Value)
    (f : FrameId → Eval β) (m : Machine) :
    Eval.final (newFrame enclosing bindings >>= f) m
      = (f m.heap.next).final { m with heap := m.heap.alloc (some enclosing) bindings } :=
  rfl

/-- What runs in another frame ends in the frame that it came from. -/
theorem final_within (frame : FrameId) (x : Eval α) (m : Machine) :
    (within frame x).final m
      = { x.final { m with current := frame } with current := m.current } := by
  unfold final within
  cases x { m with current := frame } <;> rfl

/-- A result that is taken over, or a fault, changes nothing. -/
theorem final_lift (pos : Position) (result : Except RuntimeFault α) (m : Machine) :
    (lift pos result).final m = m := by
  cases result <;> rfl

/-- What holds of the machine however a computation ends holds of the one that it ends on. -/
theorem Ensures.final {x : Eval α} {m : Machine} {P : α → Machine → Prop}
    {S : Stop → Machine → Prop} {Q : Machine → Prop} (h : Ensures x m P S)
    (hpost : ∀ a m', P a m' → Q m') (hstop : ∀ reason m', S reason m' → Q m') :
    Q (x.final m) := by
  cases hx : x m with
  | ok a m' =>
    rw [final_of_ok hx]
    exact hpost a m' (h.of_ok hx)
  | error reason m' =>
    rw [final_of_error hx]
    exact hstop reason m' (h.of_error hx)

end Eval

open Eval

/-! ### Starts and ends -/

/-- The values that a task is handed. -/
def Task.values : Task → List Value
  | .call callee arguments _ => callee :: arguments
  | .invoke _ arguments => arguments
  | _ => []

/-- The values that a way for a statement to end hands on. -/
def Flow.values : Flow → List Value
  | .normal => []
  | .returned v => [v]

namespace Job

/-- The machine that a job ends on, with a result or without. -/
def final (n : Nat) (j : Job) : Machine :=
  match j.task with
  | .evaluate e => (evaluate n e).final j.machine
  | .evaluateAll es => (evaluateAll n es).final j.machine
  | .call callee arguments paren => (Eval.call n callee arguments paren).final j.machine
  | .invoke closure arguments => (invoke n closure arguments).final j.machine
  | .execute s => (execute n s).final j.machine
  | .executeAll ss => (executeAll n ss).final j.machine

/-- The values that a job ends with, none if it stops without a result. -/
def results (n : Nat) (j : Job) : List Value :=
  match j.task with
  | .evaluate e => (evaluate n e).outcome List.singleton j.machine
  | .evaluateAll es => (evaluateAll n es).outcome id j.machine
  | .call callee arguments paren =>
    (Eval.call n callee arguments paren).outcome List.singleton j.machine
  | .invoke closure arguments => (invoke n closure arguments).outcome List.singleton j.machine
  | .execute s => (execute n s).outcome Flow.values j.machine
  | .executeAll ss => (executeAll n ss).outcome Flow.values j.machine

/-- The reason for which a job stops without a result, if it does. -/
def reason? (n : Nat) (j : Job) : Option Stop :=
  match j.task with
  | .evaluate e => (evaluate n e).reason? j.machine
  | .evaluateAll es => (evaluateAll n es).reason? j.machine
  | .call callee arguments paren => (Eval.call n callee arguments paren).reason? j.machine
  | .invoke closure arguments => (invoke n closure arguments).reason? j.machine
  | .execute s => (execute n s).reason? j.machine
  | .executeAll ss => (executeAll n ss).reason? j.machine

end Job

/-- A job with the fuel that it has is started, or ends. -/
inductive Event where
  | start (fuel : Nat) (job : Job)
  | stop (fuel : Nat) (job : Job)

namespace Event

/-- The machine on which the event happens. -/
def machine : Event → Machine
  | start _ j => j.machine
  | stop n j => j.final n

/-- The values that are handed on in the event: to a task, or from it. -/
def values : Event → List Value
  | start _ j => j.task.values
  | stop n j => j.results n

/-- The job that starts or ends. -/
def job : Event → Job
  | start _ j => j
  | stop _ j => j

end Event

/-- What happens in a run, in order: the job starts, everything that it starts happens, and it
    ends. -/
def Job.events : Nat → Job → List Event
  | 0, j => [.start 0 j, .stop 0 j]
  | n + 1, j => .start (n + 1) j :: ((j.next n).flatMap (Job.events n) ++ [.stop (n + 1) j])

namespace Discipline

variable {D : Discipline} {n : Nat} {m : Machine}

section Jobs

variable (laws : D.Lawful)

include laws

/-- A good machine is kept since itself. -/
theorem Lawful.since_refl (hm : D.Good m) : D.Since m m :=
  laws.machine.since_of_later (laws.machine.refl hm)

/-- A job that is ready starts on a good machine. -/
theorem Lawful.good_of_ready {j : Job} (hj : D.Ready j) : D.Good j.machine := by
  obtain ⟨task, m⟩ := j
  cases task with
  | call callee arguments paren => exact laws.call.good hj
  | invoke closure arguments => exact laws.call.entered hj
  | _ => exact laws.expr.good hj

/-- What may start ends on a machine that it may make of the one that it starts on. -/
theorem Lawful.since_final (n : Nat) {j : Job} (hj : D.Ready j) :
    D.Since j.machine (j.final n) := by
  have hdone := laws.done n hj
  obtain ⟨task, m⟩ := j
  have hlater : ∀ {m' : Machine}, D.Later m m' → D.Since m m' := laws.machine.since_of_later
  cases task with
  | evaluate e => exact Ensures.final hdone (fun _ _ h => hlater h.1) fun _ _ h => h.2
  | evaluateAll es => exact Ensures.final hdone (fun _ _ h => hlater h.1) fun _ _ h => h.2
  | call callee arguments paren =>
    exact Ensures.final hdone (fun _ _ h => hlater h.1) fun _ _ h => h.2
  | invoke closure arguments =>
    exact Ensures.final hdone (fun _ _ h => hlater h.1) fun _ _ h => h.2
  | execute s => exact Ensures.final hdone (fun _ _ h => h.since) fun _ _ h => h.2
  | executeAll ss => exact Ensures.final hdone (fun _ _ h => h.1) fun _ _ h => h.2

/-- A job that is ready ends on a good machine. -/
theorem Lawful.good_final (n : Nat) {j : Job} (hj : D.Ready j) : D.Good (j.final n) :=
  laws.machine.good (laws.since_final n hj)

/-- The values that a job ends with may be around on the machine that it ends on. -/
theorem Lawful.holds_results (n : Nat) {j : Job} (hj : D.Ready j) :
    ∀ v ∈ j.results n, D.Holds (j.final n) v := by
  intro v hv
  have hdone := laws.done n hj
  obtain ⟨task, m⟩ := j
  -- A statement ends with a value only if it returns one.
  have hflow : ∀ {flow : Flow} {m' : Machine}, v ∈ flow.values → D.FlowHolds m' flow →
      D.Holds m' v := by
    intro flow m' hmem hholds
    cases flow with
    | normal => cases hmem
    | returned w =>
      rw [List.mem_singleton.mp hmem]
      exact hholds
  cases task with
  | evaluate e =>
    obtain ⟨w, hok, hmem⟩ := mem_outcome hv
    cases List.mem_singleton.mp hmem
    exact laws.expr.holds (hdone.of_ok hok).2
  | evaluateAll es =>
    obtain ⟨vs, hok, hmem⟩ := mem_outcome hv
    exact laws.expr.holds_all (hdone.of_ok hok).2 v hmem
  | call callee arguments paren =>
    obtain ⟨w, hok, hmem⟩ := mem_outcome hv
    cases List.mem_singleton.mp hmem
    exact (hdone.of_ok hok).2
  | invoke closure arguments =>
    obtain ⟨w, hok, hmem⟩ := mem_outcome hv
    cases List.mem_singleton.mp hmem
    exact (hdone.of_ok hok).2
  | execute s =>
    obtain ⟨flow, hok, hmem⟩ := mem_outcome hv
    exact hflow hmem (hdone.of_ok hok).holds
  | executeAll ss =>
    obtain ⟨flow, hok, hmem⟩ := mem_outcome hv
    exact hflow hmem (hdone.of_ok hok).2

/-- A job stops for a reason that it may stop for. -/
theorem Lawful.allows_reason {j : Job} (hj : D.Ready j) {reason : Stop}
    (hreason : j.reason? n = some reason) : D.Allows reason := by
  have hdone := laws.done n hj
  obtain ⟨task, m⟩ := j
  cases task with
  | evaluate e => exact (Ensures.of_error hdone (reason?_eq_some hreason)).1
  | evaluateAll es => exact (Ensures.of_error hdone (reason?_eq_some hreason)).1
  | call callee arguments paren => exact (Ensures.of_error hdone (reason?_eq_some hreason)).1
  | invoke closure arguments => exact (Ensures.of_error hdone (reason?_eq_some hreason)).1
  | execute s => exact (Ensures.of_error hdone (reason?_eq_some hreason)).1
  | executeAll ss => exact (Ensures.of_error hdone (reason?_eq_some hreason)).1

end Jobs

/-! ### Lines -/

section Lines

variable {α β : Type} {x : Eval α} {task : Task}

/-- The computation starts the jobs, goes on to each of them from where the one before ended, and
    ends after all of them. -/
structure Line (D : Discipline) (n : Nat) (jobs : List Job) (x : Eval α) (m : Machine) : Prop where
  whole : D.Since m (x.final m)
  starts : ∀ j ∈ jobs, D.Since m j.machine
  ends : ∀ j ∈ jobs, D.Since (j.final n) (x.final m)
  order : jobs.Pairwise fun j j' => D.Since (j.final n) j'.machine

/-- A computation that starts nothing. -/
theorem Line.nil (h : D.Since m (x.final m)) : Line D n [] x m :=
  ⟨h, List.forall_mem_nil _, List.forall_mem_nil _, .nil⟩

/-- A step that leaves the machine alone, and then what follows it. -/
theorem Line.skip {jobs : List Job} {f : α → Eval β} {a : α} (hx : x m = .ok a m)
    (h : Line D n jobs (f a) m) : Line D n jobs (x >>= f) m := by
  have hfinal : Eval.final (x >>= f) m = (f a).final m := final_bind_of_ok hx
  exact ⟨hfinal ▸ h.whole, h.starts, hfinal ▸ h.ends, h.order⟩

variable (laws : D.Lawful)

include laws

/-- A computation that is a job itself. -/
theorem Lawful.line_single (hready : D.Ready ⟨task, m⟩)
    (hj : Job.final n ⟨task, m⟩ = x.final m) : Line D n [⟨task, m⟩] x m := by
  have hwhole := laws.since_final n hready
  refine ⟨hj ▸ hwhole, ?_, ?_, List.pairwise_singleton _ _⟩
  · exact List.forall_mem_singleton.mpr (laws.since_refl (laws.good_of_ready hready))
  · refine List.forall_mem_singleton.mpr ?_
    rw [hj]
    exact laws.since_refl (hj ▸ laws.good_final n hready)

/-- A step that starts nothing, and then what follows it. -/
theorem Lawful.line_bind {f : α → Eval β} {next : α → Machine → List Job}
    (h : D.Since m (x.final m))
    (hf : ∀ a m', x m = .ok a m' → Line D n (next a m') (f a) m') :
    Line D n (Job.after x m next) (x >>= f) m := by
  cases hx : x m with
  | ok a m' =>
    have hrest := hf a m' hx
    have hjobs : Job.after x m next = next a m' := by rw [Job.after, hx]
    have hfinal : Eval.final (x >>= f) m = (f a).final m' := final_bind_of_ok hx
    rw [final_of_ok hx] at h
    rw [hjobs]
    exact ⟨hfinal ▸ laws.machine.since_trans h hrest.whole,
      fun j hj => laws.machine.since_trans h (hrest.starts j hj), hfinal ▸ hrest.ends, hrest.order⟩
  | error reason m' =>
    have hjobs : Job.after x m next = [] := by rw [Job.after, hx]
    rw [final_of_error hx] at h
    rw [hjobs]
    refine .nil ?_
    rw [final_bind_of_error hx]
    exact h

/-- A step that is a job, and then what follows it. -/
theorem Lawful.line_cons {f : α → Eval β} {next : α → Machine → List Job}
    (hready : D.Ready ⟨task, m⟩) (hj : Job.final n ⟨task, m⟩ = x.final m)
    (hf : ∀ a m', x m = .ok a m' → Line D n (next a m') (f a) m') :
    Line D n (⟨task, m⟩ :: Job.after x m next) (x >>= f) m := by
  have hsince : D.Since m (x.final m) := hj ▸ laws.since_final n hready
  have hline := laws.line_bind hsince hf
  have hgood := laws.machine.good hsince
  refine ⟨hline.whole, List.forall_mem_cons.mpr ⟨?_, hline.starts⟩,
    List.forall_mem_cons.mpr ⟨?_, hline.ends⟩,
    List.pairwise_cons.mpr ⟨fun j' hj' => ?_, hline.order⟩⟩
  · exact laws.since_refl (laws.good_of_ready hready)
  · rw [hj]
    cases hx : x m with
    | ok a m' =>
      rw [final_of_ok hx, final_bind_of_ok hx]
      exact (hf a m' hx).whole
    | error reason m' =>
      rw [final_of_error hx] at hgood ⊢
      rw [final_bind_of_error hx]
      exact laws.since_refl hgood
  · -- What follows starts where the job ended.
    obtain ⟨a, m', ha, hmem⟩ := Job.mem_after.mp hj'
    rw [hj, final_of_ok ha]
    exact (hf a m' ha).starts j' hmem

/-- A step that is a job, and then one that starts nothing. -/
theorem Lawful.line_last {f : α → Eval β} (hready : D.Ready ⟨task, m⟩)
    (hj : Job.final n ⟨task, m⟩ = x.final m)
    (hf : ∀ a m', x m = .ok a m' → D.Since m' ((f a).final m')) :
    Line D n [⟨task, m⟩] (x >>= f) m := by
  have hline : Line D n (⟨task, m⟩ :: Job.after x m fun _ _ => []) (x >>= f) m :=
    laws.line_cons hready hj fun a m' ha => Line.nil (hf a m' ha)
  exact ⟨hline.whole, List.forall_mem_singleton.mpr (hline.starts _ List.mem_cons_self),
    List.forall_mem_singleton.mpr (hline.ends _ List.mem_cons_self), List.pairwise_singleton _ _⟩

/-! ### Expressions and calls -/

/-- The jobs of an expression stand in a line, each on a machine that the one before leads to. -/
theorem Lawful.line_evaluate {e : Expr} (hruns : D.Runs m (.expr e)) :
    Line D n (Job.ofExpr n m e) (evaluate (n + 1) e) m := by
  have hready := (laws.ready_step n ⟨.evaluate e, m⟩ hruns fun j _ => laws.done n).1
  have hwhole : D.Since m ((evaluate (n + 1) e).final m) :=
    laws.since_final (n + 1) (j := ⟨.evaluate e, m⟩) hruns
  -- Where a part ended, its value is one that it may give, and nothing need follow.
  have hpart : ∀ {e' m' v m''}, D.Ready ⟨.evaluate e', m'⟩ → evaluate n e' m' = .ok v m'' →
      D.Later m' m'' ∧ D.Gives m'' e' v := fun hj hv => (laws.done n hj).of_ok hv
  have hsame : ∀ {e' m' v m''}, D.Ready ⟨.evaluate e', m'⟩ → evaluate n e' m' = .ok v m'' →
      D.Since m'' m'' := fun hj hv => laws.since_refl (laws.later_good (hpart hj hv).1)
  cases e with
  | literal value => exact .nil hwhole
  | var ref => exact .nil hwhole
  | this ref => exact .nil hwhole
  | super keyword method => exact .nil hwhole
  | grouping inner => exact laws.line_single (hready _ List.mem_cons_self) rfl
  | unary operator operand =>
    have hoperand := hready _ List.mem_cons_self
    refine laws.line_last hoperand rfl fun v m₁ hv => ?_
    rw [final_lift]
    exact hsame hoperand hv
  | assign target value =>
    have hvalue := hready _ List.mem_cons_self
    refine laws.line_last hvalue rfl fun v m₁ hv => ?_
    obtain ⟨hlater, hgives⟩ := hpart hvalue hv
    have hassign : D.Since m₁ ((Eval.assign target v).final m₁) := by
      unfold Eval.final Eval.assign
      cases hholder : m₁.holder? target with
      | some f =>
        exact laws.machine.since_of_later
          (laws.expr.assign (laws.expr.later hruns hlater) hgives hholder)
      | none => exact hsame hvalue hv
    rw [final_bind_of_same m₁ fun _ _ => rfl]
    exact hassign
  | get object name =>
    have hobject := hready _ List.mem_cons_self
    refine laws.line_last hobject rfl fun v m₁ hv => ?_
    obtain ⟨hlater, hgives⟩ := hpart hobject hv
    cases v with
    | instanceValue o =>
      exact Ensures.final
        (laws.ensures_property (laws.expr.later hruns hlater) (laws.expr.holds hgives))
        (fun _ _ h => laws.machine.since_of_later h.1) fun _ _ h => h.2
    | _ => exact hsame hobject hv
  | binary left operator right =>
    refine laws.line_cons (hready _ List.mem_cons_self) rfl fun v m₁ hv => ?_
    have hright : D.Ready ⟨.evaluate right, m₁⟩ :=
      Job.forall_mem_next hready hv _ List.mem_cons_self
    refine laws.line_last hright rfl fun w m₂ hw => ?_
    rw [final_lift]
    exact hsame hright hw
  | logical left operator right =>
    have hleft := hready _ List.mem_cons_self
    refine laws.line_cons hleft rfl fun v m₁ hv => ?_
    have hnext := Job.forall_mem_next hready hv
    cases v with
    | boolean b =>
      simp only at hnext ⊢
      split
      · exact .nil (hsame hleft hv)
      · next hdecides =>
        rw [if_neg hdecides] at hnext
        exact laws.line_single (hnext _ List.mem_cons_self) rfl
    | _ => exact .nil (hsame hleft hv)
  | ternary condition question yes no =>
    have hcondition := hready _ List.mem_cons_self
    refine laws.line_cons hcondition rfl fun v m₁ hv => ?_
    have hnext := Job.forall_mem_next hready hv
    cases v with
    | boolean b =>
      cases b
      · exact laws.line_single (hnext _ List.mem_cons_self) rfl
      · exact laws.line_single (hnext _ List.mem_cons_self) rfl
    | _ => exact .nil (hsame hcondition hv)
  | call callee paren arguments =>
    refine laws.line_cons (hready _ List.mem_cons_self) rfl fun f m₁ hf => ?_
    have hnext := Job.forall_mem_next hready hf
    refine laws.line_cons (hnext _ List.mem_cons_self) rfl fun values m₂ hvalues => ?_
    have hcall : D.Ready ⟨.call f values paren, m₂⟩ :=
      Job.forall_mem_next hnext hvalues _ List.mem_cons_self
    exact laws.line_single hcall rfl
  | set object name value =>
    have hobject := hready _ List.mem_cons_self
    refine laws.line_cons hobject rfl fun v m₁ hv => ?_
    have hnext := Job.forall_mem_next hready hv
    cases v with
    | instanceValue o =>
      obtain ⟨hlater, hgives⟩ := hpart hobject hv
      have hvalue := hnext _ List.mem_cons_self
      refine laws.line_last hvalue rfl fun w m₂ hw => ?_
      obtain ⟨hlater₁, hgives₁⟩ := hpart hvalue hw
      have hset := laws.expr.setField (laws.expr.later hruns (laws.machine.trans hlater hlater₁))
        (laws.value.later (laws.expr.holds hgives) hlater₁) (laws.expr.holds hgives₁)
      rw [final_bind_of_same m₂ fun _ _ => rfl]
      exact Ensures.final hset (fun _ _ h => laws.machine.since_of_later h) fun _ _ h => h.elim
    | _ => exact .nil (hsame hobject hv)

/-- The jobs of a call stand in a line. -/
theorem Lawful.line_call {callee : Value} {values : List Value} {paren : Position}
    (hcalls : D.Calls m callee values paren) :
    Line D n (Job.ofCallee m values callee) (Eval.call (n + 1) callee values paren) m := by
  have hready := (laws.ready_step n ⟨.call callee values paren, m⟩ hcalls fun j _ => laws.done n).1
  have hwhole : D.Since m ((Eval.call (n + 1) callee values paren).final m) :=
    laws.since_final (n + 1) (j := ⟨.call callee values paren, m⟩) hcalls
  cases callee with
  | function identity closure =>
    by_cases hlength : values.length = closure.arity
    · have hnext : ∀ j ∈ Job.ofCallee m values (.function identity closure), D.Ready j := hready
      rw [Job.ofCallee, if_pos hlength] at hnext ⊢
      exact .skip (checkCount_eq_ok hlength) (laws.line_single (hnext _ List.mem_cons_self) rfl)
    · rw [Job.ofCallee, if_neg hlength]
      exact .nil hwhole
  | classValue cls =>
    by_cases hlength : values.length = cls.arity
    · have hnext : ∀ j ∈ Job.ofCallee m values (.classValue cls), D.Ready j := hready
      rw [Job.ofCallee, if_pos hlength] at hnext ⊢
      refine .skip (checkCount_eq_ok hlength) ?_
      -- First there is an object, and then the constructor runs on it.
      have hconstruct := laws.call.construct hcalls hlength
      refine laws.line_bind (hconstruct.final
        (fun _ _ h => laws.machine.since_of_later h.1) fun _ _ h => h.elim) fun object m₁ h₁ => ?_
      obtain ⟨hlater, -, hinitializer⟩ := hconstruct.of_ok h₁
      have hnext₁ : ∀ j ∈ _, D.Ready j := fun j hj =>
        hnext j (Job.mem_after.mpr ⟨object, m₁, h₁, hj⟩)
      cases hmethod : cls.initializer? with
      | none => exact .nil (laws.since_refl (laws.later_good hlater))
      | some method =>
        simp only [hmethod] at hnext₁ ⊢
        have hbind := hinitializer method hmethod
        refine laws.line_bind (hbind.final
          (fun _ _ h => laws.machine.since_of_later h.1) fun _ _ h => h.elim) fun bound m₂ h₂ => ?_
        have hinvoke : D.Ready ⟨.invoke bound values, m₂⟩ :=
          hnext₁ _ (Job.mem_after.mpr ⟨bound, m₂, h₂, List.mem_cons_self⟩)
        refine laws.line_last hinvoke rfl fun v m₃ hv => ?_
        exact laws.since_refl (laws.later_good ((laws.done n hinvoke).of_ok hv).1)
    · rw [Job.ofCallee, if_neg hlength]
      exact .nil hwhole
  | _ => exact .nil hwhole

/-- The jobs of expressions stand in a line. -/
theorem Lawful.line_evaluateAll {es : List Expr} (hruns : D.Runs m (.exprs es)) :
    Line D n (Job.next n ⟨.evaluateAll es, m⟩) (evaluateAll (n + 1) es) m := by
  have hready := (laws.ready_step n ⟨.evaluateAll es, m⟩ hruns fun j _ => laws.done n).1
  cases es with
  | nil => exact .nil (laws.since_refl (laws.expr.good hruns))
  | cons e es =>
    refine laws.line_cons (hready _ List.mem_cons_self) rfl fun v m₁ hv => ?_
    have hrest : D.Ready ⟨.evaluateAll es, m₁⟩ :=
      Job.forall_mem_next hready hv _ List.mem_cons_self
    refine laws.line_last hrest rfl fun vs m₂ hvs => ?_
    exact laws.since_refl (laws.later_good ((laws.done n hrest).of_ok hvs).1)

/-! ### Statements -/

/-- The jobs of statements stand in a line. -/
theorem Lawful.line_executeAll {ss : List Stmt} (hruns : D.Runs m (.stmts ss)) :
    Line D n (Job.next n ⟨.executeAll ss, m⟩) (executeAll (n + 1) ss) m := by
  have hready := (laws.ready_step n ⟨.executeAll ss, m⟩ hruns fun j _ => laws.done n).1
  cases ss with
  | nil => exact .nil (laws.since_refl (laws.expr.good hruns))
  | cons s ss =>
    have hfirst : D.Ready ⟨.execute s, m⟩ := hready _ List.mem_cons_self
    refine laws.line_cons hfirst rfl fun flow m₁ hflow => ?_
    cases flow with
    | returned v =>
      have hdone := (laws.done n hfirst).of_ok hflow
      exact .nil (laws.since_refl (laws.machine.good hdone.since))
    | normal =>
      have hrest : D.Ready ⟨.executeAll ss, m₁⟩ :=
        Job.forall_mem_next hready hflow _ List.mem_cons_self
      exact laws.line_single hrest rfl

variable (hcurrent : ∀ {m : Machine} (frame : FrameId), D.Good m →
  D.Since m { m with current := frame })

include hcurrent

/-- Statements that run in a frame of their own, after which the current frame is put back. -/
theorem Lawful.line_inside {enclosing : FrameId} {bindings : Bindings Value} {body : List Stmt}
    (hm : D.Good m) (hready : D.Ready ⟨.executeAll body, m.inside enclosing bindings⟩)
    (hfinal : x.final m
      = { (executeAll n body).final (m.inside enclosing bindings) with current := m.current }) :
    Line D n [⟨.executeAll body, m.inside enclosing bindings⟩] x m := by
  have hinside : D.Good (m.inside enclosing bindings) := laws.good_of_ready hready
  have hbody := laws.since_final n hready
  refine ⟨?_, List.forall_mem_singleton.mpr ?_, List.forall_mem_singleton.mpr ?_,
    List.pairwise_singleton _ _⟩
  · rw [hfinal]
    exact laws.machine.since_of_later (laws.machine.back hm hbody)
  · have hback := laws.machine.since_of_later
      (laws.machine.back hm (laws.since_refl hinside))
    exact laws.machine.since_trans hback (hcurrent m.heap.next (laws.machine.good hback))
  · rw [hfinal]
    exact hcurrent m.current (laws.good_final n hready)

/-- The body that a call comes to is one job in a frame of its own. -/
theorem Lawful.line_invoke {closure : Closure} {values : List Value}
    (henters : D.Enters m closure values) :
    Line D n (Job.next n ⟨.invoke closure values, m⟩) (invoke (n + 1) closure values) m := by
  have hready :=
    (laws.ready_step n ⟨.invoke closure values, m⟩ henters fun j _ => laws.done n).1
  refine laws.line_inside hcurrent (laws.call.entered henters) (hready _ List.mem_cons_self) ?_
  -- The result is looked up after the frame is put back, and that changes nothing.
  refine (final_newFrame_bind _ _ _ m).trans
    ((final_bind_of_same _ fun flow m' => ?_).trans (final_within _ _ _))
  split
  · have hget : (get : Eval Machine) m' = .ok m' m' := rfl
    refine (final_bind_of_ok hget).trans ?_
    cases m'.heap.lookup? closure.frame thisName <;> rfl
  · cases flow <;> rfl

/-- The jobs of a statement stand in a line. -/
theorem Lawful.line_execute {s : Stmt} (hruns : D.Runs m (.stmt s)) :
    Line D n (Job.ofStmt n m s) (execute (n + 1) s) m := by
  have hready := (laws.ready_step n ⟨.execute s, m⟩ hruns fun j _ => laws.done n).1
  have hwhole : D.Since m ((execute (n + 1) s).final m) :=
    laws.since_final (n + 1) (j := ⟨.execute s, m⟩) hruns
  have hpart : ∀ {e' m' v m''}, D.Ready ⟨.evaluate e', m'⟩ → evaluate n e' m' = .ok v m'' →
      D.Later m' m'' ∧ D.Gives m'' e' v := fun hj hv => (laws.done n hj).of_ok hv
  have hsame : ∀ {e' m' v m''}, D.Ready ⟨.evaluate e', m'⟩ → evaluate n e' m' = .ok v m'' →
      D.Since m'' m'' := fun hj hv => laws.since_refl (laws.later_good (hpart hj hv).1)
  cases s with
  | expression e =>
    have he := hready _ List.mem_cons_self
    exact laws.line_last he rfl fun v m₁ hv => hsame he hv
  | val name type initializer =>
    cases initializer with
    | none => exact .nil hwhole
    | some e =>
      have he := hready _ List.mem_cons_self
      refine laws.line_last he rfl fun v m₁ hv => ?_
      obtain ⟨hlater, hgives⟩ := hpart he hv
      have hval := laws.stmt.val (laws.expr.later hruns hlater) (v := v)
        (fun e' he' => Option.some.inj he' ▸ hgives) (by simp)
      rw [final_bind_of_same m₁ fun _ _ => rfl]
      exact Ensures.final hval (fun _ _ h => laws.stmt.since h) fun _ _ h => h.elim
  | block body =>
    exact laws.line_inside hcurrent (laws.expr.good hruns) (hready _ List.mem_cons_self)
      (final_within m.heap.next (executeAll n body)
        { m with heap := m.heap.alloc (some m.current) .empty })
  | ifThen keyword condition yes =>
    have hcondition := hready _ List.mem_cons_self
    refine laws.line_cons hcondition rfl fun v m₁ hv => ?_
    have hnext := Job.forall_mem_next hready hv
    cases v with
    | boolean b =>
      cases b with
      | false => exact .nil (hsame hcondition hv)
      | true => exact laws.line_single (hnext _ List.mem_cons_self) rfl
    | _ => exact .nil (hsame hcondition hv)
  | ifElse keyword condition yes no =>
    have hcondition := hready _ List.mem_cons_self
    refine laws.line_cons hcondition rfl fun v m₁ hv => ?_
    have hnext := Job.forall_mem_next hready hv
    cases v with
    | boolean b =>
      cases b
      · exact laws.line_single (hnext _ List.mem_cons_self) rfl
      · exact laws.line_single (hnext _ List.mem_cons_self) rfl
    | _ => exact .nil (hsame hcondition hv)
  | whileLoop keyword condition body =>
    have hcondition := hready _ List.mem_cons_self
    refine laws.line_cons hcondition rfl fun v m₁ hv => ?_
    have hnext := Job.forall_mem_next hready hv
    cases v with
    | boolean b =>
      cases b with
      | false => exact .nil (hsame hcondition hv)
      | true =>
        have hbody := hnext _ List.mem_cons_self
        refine laws.line_cons hbody rfl fun flow m₂ hflow => ?_
        cases flow with
        | returned w =>
          have hdone := (laws.done n hbody).of_ok hflow
          exact .nil (laws.since_refl (laws.machine.good hdone.since))
        | normal =>
          exact laws.line_single (Job.forall_mem_next hnext hflow _ List.mem_cons_self) rfl
    | _ => exact .nil (hsame hcondition hv)
  | funDecl decl => exact .nil hwhole
  | ret keyword value =>
    cases value with
    | none => exact .nil hwhole
    | some e =>
      have he := hready _ List.mem_cons_self
      exact laws.line_last he rfl fun v m₁ hv => hsame he hv
  | classDecl name superclass decls => exact .nil hwhole

end Lines

/-! ### Runs -/

section Runs

variable (laws : D.Lawful) (hcurrent : ∀ {m : Machine} (frame : FrameId), D.Good m →
  D.Since m { m with current := frame })

include laws hcurrent

/-- The jobs that a job starts are ready, and lie between its start and its end, one after the
    other. -/
theorem Lawful.next_ordered {j : Job} (hj : D.Ready j) :
    (∀ j' ∈ j.next n, D.Ready j') ∧ (∀ j' ∈ j.next n, D.Since j.machine j'.machine) ∧
      (∀ j' ∈ j.next n, D.Since (j'.final n) (j.final (n + 1))) ∧
      (j.next n).Pairwise fun j₁ j₂ => D.Since (j₁.final n) j₂.machine := by
  refine ⟨(laws.ready_step n j hj fun j _ => laws.done n).1, ?_⟩
  obtain ⟨task, m⟩ := j
  cases task with
  | evaluate e =>
    have hline := laws.line_evaluate (n := n) hj
    exact ⟨hline.starts, hline.ends, hline.order⟩
  | evaluateAll es =>
    have hline := laws.line_evaluateAll (n := n) hj
    exact ⟨hline.starts, hline.ends, hline.order⟩
  | call callee values paren =>
    have hline := laws.line_call (n := n) hj
    exact ⟨hline.starts, hline.ends, hline.order⟩
  | invoke closure values =>
    have hline := laws.line_invoke (n := n) hcurrent hj
    exact ⟨hline.starts, hline.ends, hline.order⟩
  | execute s =>
    have hline := laws.line_execute (n := n) hcurrent hj
    exact ⟨hline.starts, hline.ends, hline.order⟩
  | executeAll ss =>
    have hline := laws.line_executeAll (n := n) hj
    exact ⟨hline.starts, hline.ends, hline.order⟩

/-- **The events of a run follow each other as the discipline says**, all of them between the start
    and the end of the run, and every job in them is ready. -/
theorem Lawful.events_ordered {j : Job} (hj : D.Ready j) :
    (∀ e ∈ j.events n, D.Ready e.job ∧ D.Since j.machine e.machine ∧
      D.Since e.machine (j.final n)) ∧
      (j.events n).Pairwise fun e e' => D.Since e.machine e'.machine := by
  induction n generalizing j with
  | zero =>
    have hwhole := laws.since_final 0 hj
    have hstart := laws.since_refl (laws.good_of_ready hj)
    have hstop := laws.since_refl (laws.good_final 0 hj)
    refine ⟨List.forall_mem_cons.mpr ⟨⟨hj, hstart, hwhole⟩,
      List.forall_mem_singleton.mpr ⟨hj, hwhole, hstop⟩⟩, ?_⟩
    exact List.pairwise_cons.mpr ⟨List.forall_mem_singleton.mpr hwhole, List.pairwise_singleton _ _⟩
  | succ n ih =>
    have hwhole := laws.since_final (n + 1) hj
    have hstart := laws.since_refl (laws.good_of_ready hj)
    have hstop := laws.since_refl (laws.good_final (n + 1) hj)
    obtain ⟨hready, hstarts, hends, horder⟩ := laws.next_ordered (n := n) hcurrent hj
    -- What happens in a job that is started happens between its start and its end.
    have hinner : ∀ e ∈ (j.next n).flatMap (Job.events n), D.Ready e.job ∧
        D.Since j.machine e.machine ∧ D.Since e.machine (j.final (n + 1)) := by
      intro e he
      obtain ⟨j', hj', he⟩ := List.mem_flatMap.mp he
      obtain ⟨hjob, hafter, hbefore⟩ := (ih (hready j' hj')).1 e he
      exact ⟨hjob, laws.machine.since_trans (hstarts j' hj') hafter,
        laws.machine.since_trans hbefore (hends j' hj')⟩
    have hpairs : ((j.next n).flatMap (Job.events n)).Pairwise
        fun e e' => D.Since e.machine e'.machine := by
      refine List.pairwise_flatMap.mpr ⟨fun j' hj' => (ih (hready j' hj')).2, ?_⟩
      refine horder.imp_of_mem fun {j₁ j₂} h₁ h₂ hbetween e he e' he' => ?_
      have hleft := ((ih (hready j₁ h₁)).1 e he).2.2
      have hright := ((ih (hready j₂ h₂)).1 e' he').2.1
      exact laws.machine.since_trans hleft (laws.machine.since_trans hbetween hright)
    refine ⟨?_, ?_⟩
    · refine List.forall_mem_cons.mpr ⟨⟨hj, hstart, hwhole⟩, ?_⟩
      exact List.forall_mem_append.mpr
        ⟨hinner, List.forall_mem_singleton.mpr ⟨hj, hwhole, hstop⟩⟩
    · refine List.pairwise_cons.mpr ⟨?_, List.pairwise_append.mpr
        ⟨hpairs, List.pairwise_singleton _ _, fun e he => ?_⟩⟩
      · exact List.forall_mem_append.mpr
          ⟨fun e he => (hinner e he).2.1, List.forall_mem_singleton.mpr hwhole⟩
      · exact List.forall_mem_singleton.mpr (hinner e he).2.2

end Runs

end Discipline

end ClassScript
