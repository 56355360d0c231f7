import ClassScript.Proofs.Effects
import ClassScript.Proofs.Events
import ClassScript.Proofs.Positions

namespace ClassScript

/-!
# Initializers and their receivers

A method that sets up instances gives its receiver, whatever it returns. A class keeps such methods
without a receiver, but no program gets hold of one like that: wherever a session comes to, an
initializer that is a value has its receiver in the frame that it closes over. No table of distances
is asked for; the words for the receiver and the superclass cannot be assigned to.

* `Session.events`: what happens in the steps of a session;
* `Event.Holds`: the values that are around when an event happens;
* `KeepsReceivers`: what is said about the events;
* `session_keeps_receivers`: every session keeps to it.
-/

open Eval

/-! ### Calls that end well -/

/-- An initializer gives what its frame binds the receiver to when it ends. -/
theorem lookup?_of_invoke_initializer {n : Nat} {c : Closure} {values : List Value}
    {m m' : Machine} {v : Value} (h : invoke n c values m = .ok v m')
    (hc : c.isInitializer = true) : m'.heap.lookup? c.frame thisName = some v := by
  cases n with
  | zero => cases h
  | succ n =>
    obtain ⟨frame, m₁, -, h⟩ := bind_eq_ok.mp h
    obtain ⟨flow, m₂, -, h⟩ := bind_eq_ok.mp h
    rw [if_pos hc] at h
    obtain ⟨m₃, m₄, hget, h⟩ := bind_eq_ok.mp h
    cases hget
    cases hfound : m₂.heap.lookup? c.frame thisName with
    | none =>
      simp only [hfound] at h
      cases h
    | some object =>
      simp only [hfound] at h
      obtain ⟨rfl, rfl⟩ := pure_eq_ok.mp h
      exact hfound

/-- An initializer that ends gives what its frame binds the word for the receiver to. -/
theorem lookup?_of_call_initializer {n identity : Nat} {c : Closure} {values : List Value}
    {paren : Position} {m m' : Machine} {v : Value}
    (h : call n (.function identity c) values paren m = .ok v m')
    (hc : c.isInitializer = true) : m'.heap.lookup? c.frame thisName = some v := by
  cases n with
  | zero => cases h
  | succ n =>
    obtain ⟨_, m₁, -, h⟩ := bind_eq_ok.mp h
    exact lookup?_of_invoke_initializer h hc

/-- A class makes an instance of its own, with the next free number, whichever initializer it
    has. -/
theorem call_class_eq_ok {n : Nat} {cls : Class} {values : List Value} {paren : Position}
    {m m' : Machine} {v : Value} (h : call n (.classValue cls) values paren m = .ok v m') :
    v = .instanceValue ⟨m.fields.size, cls⟩ := by
  cases n with
  | zero => cases h
  | succ n =>
    obtain ⟨_, m₁, hcount, hmake⟩ := bind_eq_ok.mp h
    have hm₁ : m₁ = m := by
      unfold checkCount at hcount
      split at hcount
      · exact (pure_eq_ok.mp hcount).2.symm
      · cases hcount
    obtain ⟨object, m₂, hobject, hrest⟩ := bind_eq_ok.mp hmake
    cases hobject
    rw [← hm₁]
    cases hmethod : cls.initializer? with
    | none =>
      simp only [hmethod] at hrest
      exact (pure_eq_ok.mp hrest).1.symm
    | some method =>
      simp only [hmethod] at hrest
      obtain ⟨bound, m₃, -, hinvoke⟩ := bind_eq_ok.mp hrest
      obtain ⟨_, m₄, -, hend⟩ := bind_eq_ok.mp hinvoke
      exact (pure_eq_ok.mp hend).1.symm

/-! ### Values that are around -/

/-- The machine keeps the value, as a variable of a frame or as a field of an instance. -/
def Machine.Stores (m : Machine) (v : Value) : Prop :=
  (∃ f x, m.heap.lookup? f x = some v) ∨
    ∃ (i : Nat) (fields : Bindings Value) (x : String),
      m.fields[i]? = some fields ∧ fields.find? x = some v

/-- The value is around when the event happens: the machine keeps it, or it is handed on, as the
    callee or an argument of a call or as a result. -/
def Event.Holds (e : Event) (v : Value) : Prop := e.machine.Stores v ∨ v ∈ e.values

/-- Code as the grammar gives it, wherever it stands. -/
abbrev CodeRule.wellFormed : CodeRule := .placed fun _ => True

theorem CodeRule.wellFormed_lawful : CodeRule.wellFormed.discipline.Lawful :=
  CodeRule.placed_lawful.lawful

theorem Event.good {e : Event} (he : CodeRule.wellFormed.discipline.Ready e.job) :
    CodeRule.wellFormed.Good e.machine := by
  cases e with
  | start n j => exact CodeRule.wellFormed_lawful.good_of_ready he
  | stop n j => exact CodeRule.wellFormed_lawful.good_final n he

/-- Whatever is around in a run of well-formed code is kept to the rule. -/
theorem Event.holds {e : Event} {v : Value} (he : CodeRule.wellFormed.discipline.Ready e.job)
    (hv : e.Holds v) : CodeRule.wellFormed.Holds e.machine v := by
  rcases hv with (⟨f, x, hv⟩ | ⟨i, fields, x, hfields, hv⟩) | hv
  · exact (Event.good he).values f x v hv
  · exact (Event.good he).fields i fields x v hfields hv
  · cases e with
    | stop n j => exact CodeRule.wellFormed_lawful.holds_results n he v hv
    | start n j =>
      obtain ⟨task, m⟩ := j
      cases task with
      | call callee arguments paren =>
        rcases List.mem_cons.mp hv with rfl | hv
        · exact he.2.1
        · exact he.2.2.1 v hv
      | invoke closure arguments => exact he.2.2 v hv
      | _ => cases hv

/-! ### Sessions -/

namespace Session

/-- The job that evaluating a program starts: its expression, after an empty program has run well,
    or all of it if it is no expression. -/
def evaluation? (fuel : Nat) (program : Program) (table : Distances) (m : Machine) : Option Job :=
  match program with
  | [.expression e] =>
    match m.interpret fuel [] table with
    | (.finished, m) => some ⟨.evaluate e, m⟩
    | _ => none
  | _ => some ⟨.executeAll program, { m with table }⟩

/-- The job that a step starts, if its source is a program. -/
def Step.job? (fuel : Nat) (s : Step) (m : Machine) : Option Job :=
  match s.prepare with
  | .error _ => none
  | .ok (program, table) =>
    match s with
    | .run _ _ => some ⟨.executeAll program, { m with table }⟩
    | .eval _ _ => evaluation? fuel program table m

/-- What happens in the steps of a session, in order. -/
def events (fuel : Nat) : List Step → Machine → List Event
  | [], _ => []
  | s :: ss, m =>
    (s.job? fuel m).toList.flatMap (Job.events fuel) ++ events fuel ss (step fuel s m).2

end Session

/-- A run of a program ends on the machine that its statements end on. -/
theorem Machine.interpret_final (fuel : Nat) (program : Program) (table : Distances)
    (m : Machine) :
    (m.interpret fuel program table).2 = (executeAll fuel program).final { m with table } := by
  unfold interpret Eval.final
  cases executeAll fuel program { m with table } with
  | ok flow m' =>
    simp only
    split <;> rfl
  | error reason m' =>
    cases reason with
    | failure fault =>
      simp only
      split <;> rfl
    | outOfFuel => rfl

theorem Machine.interpret_nil (fuel : Nat) (table : Distances) (m : Machine) :
    (m.interpret fuel [] table).2 = { m with table } := by
  rw [interpret_final]
  cases fuel <;> rfl

namespace Session

variable {fuel : Nat} {s : Step} {m : Machine}

/-- The machine is the one that the job ends on; without a job at most the table has changed. -/
def EndsWith (fuel : Nat) (j? : Option Job) (m m' : Machine) : Prop :=
  match j? with
  | some j => m' = j.final fuel
  | none => ∃ table, m' = { m with table }

theorem evaluate_expression (fuel : Nat) (source : String) (e : Expr) (table : Distances)
    (m : Machine) :
    EndsWith fuel (evaluation? fuel [.expression e] table m) m
      (evaluate fuel source [.expression e] table m).2 := by
  have hempty := m.interpret_nil fuel table
  unfold evaluation? evaluate
  cases hstart : m.interpret fuel [] table with
  | mk ending m₁ =>
    rw [hstart] at hempty
    cases ending with
    | finished =>
      show _ = (Eval.evaluate fuel e).final m₁
      unfold Eval.final
      cases hvalue : Eval.evaluate fuel e m₁ with
      | ok v m₂ => simp only [hvalue]
      | error reason m₂ => cases reason <;> simp only [hvalue]
    | _ => exact ⟨table, hempty⟩

theorem evaluate_endsWith (fuel : Nat) (source : String) (program : Program) (table : Distances)
    (m : Machine) :
    EndsWith fuel (evaluation? fuel program table m) m
      (evaluate fuel source program table m).2 := by
  cases program with
  | nil => exact m.interpret_final fuel _ table
  | cons first others =>
    cases first with
    | expression e =>
      cases others with
      | nil => exact evaluate_expression fuel source e table m
      | cons second others => exact m.interpret_final fuel _ table
    | _ => exact m.interpret_final fuel _ table

/-- A step ends where the job that it starts ends. -/
theorem step_endsWith (fuel : Nat) (s : Step) (m : Machine) :
    EndsWith fuel (s.job? fuel m) m (step fuel s m).2 := by
  unfold Step.job? step
  cases s.prepare with
  | error failures => exact ⟨m.table, rfl⟩
  | ok prepared =>
    obtain ⟨program, table⟩ := prepared
    cases s with
    | run source choice => exact m.interpret_final fuel program table
    | eval expression choice => exact evaluate_endsWith fuel _ program table m

/-- The programs of steps are well formed. -/
theorem Step.prepare_wellFormed {program : Program} {table : Distances}
    (h : s.prepare = .ok (program, table)) :
    Part.WellFormed (.stmts program) ∧ Part.PlacedIn (fun _ => True) (.stmts program) := by
  obtain ⟨p, hp, h⟩ := except_bind_eq_ok.mp h
  obtain ⟨t, -, h⟩ := except_bind_eq_ok.mp h
  cases h
  obtain ⟨tokens, -, hparse⟩ := Source.program_eq_ok hp
  exact ⟨Source.program_wellFormed hp, placedIn_of_parse hparse fun _ _ => trivial⟩

/-- The job that a step starts is ready on a good machine, and starts there but for the table. -/
theorem Step.ready_job {j : Job} (hm : CodeRule.wellFormed.Good m) (h : s.job? fuel m = some j) :
    CodeRule.wellFormed.discipline.Ready j ∧ CodeRule.wellFormed.Since m j.machine := by
  have htable : ∀ table, CodeRule.wellFormed.Since m { m with table } :=
    fun table => .of_eq hm rfl rfl
  unfold Step.job? at h
  cases hprepare : s.prepare with
  | error failures =>
    rw [hprepare] at h
    cases h
  | ok prepared =>
    obtain ⟨program, table⟩ := prepared
    have hprogram := s.prepare_wellFormed hprepare
    have hall : CodeRule.wellFormed.discipline.Ready ⟨.executeAll program, { m with table }⟩ :=
      ⟨(htable table).good, hprogram⟩
    rw [hprepare] at h
    cases s with
    | run source choice =>
      cases h
      exact ⟨hall, htable table⟩
    | eval expression choice =>
      simp only [evaluation?] at h
      split at h
      · next e =>
        -- Before the expression a program without statements runs, which changes nothing.
        have hempty := m.interpret_nil fuel table
        split at h
        · next m₁ hm₁ =>
          rw [hm₁] at hempty
          cases h
          cases hempty
          exact ⟨⟨(htable table).good, hprogram.1.1, hprogram.2.1⟩, htable table⟩
        · cases h
      · cases h
        exact ⟨hall, htable table⟩

/-- The events of a session follow each other, and every job in them is ready. -/
theorem events_ordered (fuel : Nat) (steps : List Step) {m : Machine}
    (hm : CodeRule.wellFormed.Good m) :
    (∀ e ∈ events fuel steps m, CodeRule.wellFormed.discipline.Ready e.job ∧
      CodeRule.wellFormed.Since m e.machine) ∧
      (events fuel steps m).Pairwise fun e e' =>
        CodeRule.wellFormed.Since e.machine e'.machine := by
  have hlaws := CodeRule.wellFormed_lawful
  induction steps generalizing m with
  | nil => exact ⟨List.forall_mem_nil _, .nil⟩
  | cons s steps ih =>
    have hends := step_endsWith fuel s m
    unfold events
    cases hjob : s.job? fuel m with
    | none =>
      rw [hjob] at hends
      obtain ⟨table, htable⟩ := hends
      have hsince : CodeRule.wellFormed.Since m (step fuel s m).2 := by
        rw [htable]
        exact .of_eq hm rfl rfl
      obtain ⟨hall, hpairs⟩ := ih hsince.good
      exact ⟨fun e he => ⟨(hall e he).1, hsince.trans (hall e he).2⟩, hpairs⟩
    | some j =>
      rw [hjob] at hends
      -- The events of this step come first; those of the other steps start where it ends.
      obtain ⟨hready, hstart⟩ := s.ready_job hm hjob
      obtain ⟨hfirst, hfirstPairs⟩ := hlaws.events_ordered (n := fuel)
        (fun {m} frame (hm : CodeRule.wellFormed.Good m) => .of_eq hm rfl rfl) hready
      have hwhole : CodeRule.wellFormed.Since j.machine (step fuel s m).2 := by
        rw [show (step fuel s m).2 = j.final fuel from hends]
        exact hlaws.since_final fuel hready
      obtain ⟨hall, hpairs⟩ := ih hwhole.good
      simp only [Option.toList_some, List.flatMap_singleton]
      refine ⟨List.forall_mem_append.mpr ⟨fun e he => ?_, fun e he => ?_⟩,
        List.pairwise_append.mpr ⟨hfirstPairs, hpairs, fun e he e' he' => ?_⟩⟩
      · exact ⟨(hfirst e he).1, hstart.trans (hfirst e he).2.1⟩
      · exact ⟨(hall e he).1, hstart.trans (hwhole.trans (hall e he).2)⟩
      · have hbetween := (hfirst e he).2.2
        rw [show j.final fuel = (step fuel s m).2 from hends.symm] at hbetween
        exact CodeRule.Since.trans hbetween (hall e' he').2

end Session

/-! ### Receivers -/

/-- What is said about the events of a session. -/
structure KeepsReceivers (events : List Event) : Prop where
  /-- Every initializer that is around has an instance as its receiver. -/
  held : ∀ e ∈ events, ∀ identity c, e.Holds (.function identity c) → c.isInitializer = true →
    ∃ object, e.machine.heap.lookup? c.frame thisName = some (.instanceValue object)
  /-- No frame loses its receiver or gets another one. -/
  kept : events.Pairwise fun e e' => ∀ f v, e.machine.heap.lookup? f thisName = some v →
    e'.machine.heap.lookup? f thisName = some v
  /-- A call of an initializer that ends well gives the receiver. -/
  gives : ∀ n identity c values paren m v m',
    .stop n ⟨.call (.function identity c) values paren, m⟩ ∈ events → c.isInitializer = true →
    call n (.function identity c) values paren m = .ok v m' →
    (∃ object, v = .instanceValue object) ∧ m.heap.lookup? c.frame thisName = some v
  /-- A call of a class that ends well gives an instance of this very class, and one that was not
      around at any event up to the start of the call. -/
  makes : ∀ earlier later n cls values paren m v m',
    events = earlier ++ .start n ⟨.call (.classValue cls) values paren, m⟩ :: later →
    call n (.classValue cls) values paren m = .ok v m' →
    ∃ object, v = .instanceValue object ∧ object.cls = cls ∧
      (m'.fields[object.index]?).isSome = true ∧
      ∀ e ∈ earlier ++ [.start n ⟨.call (.classValue cls) values paren, m⟩], ∀ other,
        e.Holds (.instanceValue other) → other.index ≠ object.index
  /-- No job stops for want of a receiver. -/
  bound : ∀ n j, .stop n j ∈ events → ∀ fault, j.reason? n = some (.failure fault) →
    fault.what ≠ .unboundInitializer

/-- **Initializers keep their receivers.** In every session, under whatever tables, an initializer
    that is around as a variable, a field, an argument or a result has an instance as its receiver
    and never gets another one. A call of it gives this instance, if it ends well, and a call of a
    class gives a new instance of this class. -/
theorem session_keeps_receivers (fuel : Nat) (steps : List Session.Step) (sink : Sink) :
    KeepsReceivers (Session.events fuel steps (.fresh sink)) := by
  have hlaws := CodeRule.wellFormed_lawful
  obtain ⟨hall, hpairs⟩ :=
    Session.events_ordered fuel steps (CodeRule.wellFormed.good_fresh sink)
  refine ⟨?_, ?_, ?_, ?_, ?_⟩
  · intro e he identity c hheld hc
    have hholds : CodeRule.wellFormed.ClosureHolds e.machine.heap c :=
      Event.holds (hall e he).1 hheld
    exact hholds.2 hc
  · refine hpairs.imp ?_
    intro e e' hsince f v hv
    exact hsince.retains.this hv
  · intro n identity c values paren m v m' hmem hc hcall
    have hready := (hall _ hmem).1
    have hholds : CodeRule.wellFormed.ClosureHolds m.heap c := hready.2.1
    obtain ⟨object, hobject⟩ := hholds.2 hc
    -- The result is read off the frame after the call, which has kept the receiver.
    have hlater := ((hlaws.done n hready).of_ok hcall).1
    have hfound := lookup?_of_call_initializer hcall hc
    rw [hlater.retains.this hobject] at hfound
    cases hfound
    exact ⟨⟨object, rfl⟩, hobject⟩
  · intro earlier later n cls values paren m v m' hevents hcall
    have hmem : ∀ e ∈ earlier ++ [.start n ⟨.call (.classValue cls) values paren, m⟩],
        e ∈ Session.events fuel steps (.fresh sink) ∧ e.machine.fields.size ≤ m.fields.size := by
      rw [hevents] at hpairs ⊢
      intro e he
      rcases List.mem_append.mp he with he | he
      · have hbefore := (List.pairwise_append.mp hpairs).2.2 e he _ List.mem_cons_self
        exact ⟨List.mem_append_left _ he, hbefore.instances⟩
      · cases List.mem_singleton.mp he
        exact ⟨List.mem_append_right _ List.mem_cons_self, Nat.le_refl _⟩
    have hready := (hall _ (hmem _ (List.mem_append_right _ List.mem_cons_self)).1).1
    have hv := call_class_eq_ok hcall
    have hdone := (hlaws.done n hready).of_ok hcall
    subst hv
    refine ⟨_, rfl, rfl, ?_, fun e he other hother => ?_⟩
    · have hindex : m.fields.size < m'.fields.size := hdone.2.1
      rw [Array.getElem?_eq_getElem hindex]
      rfl
    · -- What is around at an earlier event has a number that was taken then.
      have hindex : other.index < e.machine.fields.size :=
        (Event.holds (hall e (hmem e he).1).1 hother).1
      exact Nat.ne_of_lt (Nat.lt_of_lt_of_le hindex (hmem e he).2)
  · intro n j hmem fault hfault
    exact (hlaws.allows_reason (hall _ hmem).1 hfault).2

/-- A call of an initializer, as a function, ends well. -/
def Event.initializes : Event → Bool
  | .stop n ⟨.call (.function identity c) values paren, m⟩ =>
    c.isInitializer &&
      !((call n (.function identity c) values paren).outcome List.singleton m).isEmpty
  | _ => false

theorem Event.exists_call_of_initializes {e : Event} (h : e.initializes = true) :
    ∃ n identity c values paren m v m', e = .stop n ⟨.call (.function identity c) values paren, m⟩ ∧
      c.isInitializer = true ∧ call n (.function identity c) values paren m = .ok v m' := by
  unfold initializes at h
  split at h
  · next n identity c values paren m =>
    obtain ⟨hc, hend⟩ := Bool.and_eq_true_iff.mp h
    have hsome : (call n (.function identity c) values paren).outcome List.singleton m ≠ [] := by
      simpa using hend
    obtain ⟨v, hv⟩ := List.exists_mem_of_ne_nil _ hsome
    obtain ⟨w, hcall, -⟩ := mem_outcome hv
    exact ⟨n, identity, c, values, paren, m, w, _, rfl, hc, hcall⟩
  · cases h

/-- A class inherits its initializer; with an instance as its receiver it is kept in a variable, and
    called in a later step. -/
theorem session_keeps_receivers_inherited :
    ∃ n identity c values paren m v m',
      .stop n ⟨.call (.function identity c) values paren, m⟩ ∈ Session.events 11
        [.run "class A \x7b constructor() \x7b return; \x7d \x7d class B < A \x7b \x7d"
            (.given .empty),
          .run "val f = B().constructor;" (.given .empty), .eval "f()" (.given .empty)]
        (.fresh .unbounded) ∧
      c.isInitializer = true ∧ call n (.function identity c) values paren m = .ok v m' ∧
      (∃ object, v = .instanceValue object) ∧ m.heap.lookup? c.frame thisName = some v := by
  have hany : (Session.events 11
      [.run "class A \x7b constructor() \x7b return; \x7d \x7d class B < A \x7b \x7d"
          (.given .empty),
        .run "val f = B().constructor;" (.given .empty), .eval "f()" (.given .empty)]
      (.fresh .unbounded)).any Event.initializes = true := by decide +kernel
  obtain ⟨e, hmem, he⟩ := List.any_eq_true.mp hany
  obtain ⟨n, identity, c, values, paren, m, v, m', rfl, hc, hcall⟩ :=
    e.exists_call_of_initializes he
  exact ⟨n, identity, c, values, paren, m, v, m', hmem, hc, hcall,
    (session_keeps_receivers 11 _ .unbounded).gives n identity c values paren m v m' hmem hc hcall⟩

end ClassScript
