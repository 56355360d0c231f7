import ClassScript.Proofs.Discipline
import ClassScript.Proofs.Frames
import ClassScript.Session

namespace ClassScript

/-!
# Effects that every run has

What every single change of a machine does, whole runs do, however they end: with a result, by a
`return` from any depth, by a failure or for want of fuel. The program does not matter for this, nor
does the table of distances.

* `Effect`: a relation between machines that every single change keeps to;
* `Effect.runs`: every run keeps to it;
* `Machine.KeepsFrames`: the current frame, the globals and the table stay, and so does the frame
  that each frame stands inside;
* `runs_restore_frames`: runs, and sessions, come back to the frame that they started in.
-/

/-- A relation between machines to which every single change keeps. -/
structure Effect (R : Machine → Machine → Prop) : Prop where
  refl : ∀ m, R m m
  trans : ∀ {m₁ m₂ m₃}, R m₁ m₂ → R m₂ m₃ → R m₁ m₃
  alloc : ∀ m enclosing bindings, R m { m with heap := m.heap.alloc (some enclosing) bindings }
  define : ∀ m f x v, R m { m with heap := m.heap.define f x v }
  fields : ∀ m fields, R m { m with fields }
  identity : ∀ m nextIdentity, R m { m with nextIdentity }
  write : ∀ m text, R m { m with sink := (m.sink.write text).2 }
  within : ∀ {m m' frame}, R { m with current := frame } m' → R m { m' with current := m.current }

/-- A discipline that is about nothing but what becomes of the machine. -/
def Discipline.ofEffect (R : Machine → Machine → Prop) : Discipline where
  Good _ := True
  Later := R
  Since := R
  Executed m _ m' := R m m'
  Allows _ := True
  Holds _ _ := True
  Gives _ _ _ := True
  Runs _ _ := True
  Calls _ _ _ _ := True
  Enters _ _ _ := True

namespace Effect

open Eval

variable {R : Machine → Machine → Prop} (hR : Effect R)

include hR

theorem boundMethod (c : Closure) (object : Instance) (m : Machine) :
    Ensures (boundMethod c object) m ((Discipline.ofEffect R).Yields m) fun _ _ => False :=
  ⟨hR.trans (hR.alloc m _ _) (hR.identity _ _), trivial⟩

theorem declareClass (name : Name) (superclass : Option Reference) (decls : List FunctionDecl)
    (m : Machine) :
    Ensures (declareClass name superclass decls) m (fun _ m' => R m m') fun _ m' => R m m' := by
  have hclass : ∀ m superclass frame, R m (Machine.withClass m name superclass frame decls) :=
    fun m _ _ => hR.trans (hR.identity m (m.nextIdentity + 1)) (hR.define _ _ _ _)
  exact .declareClass (fun _ _ _ _ => hR.refl m) (fun _ => hclass m _ _)
    fun _ _ cls _ => hR.trans (hR.alloc m m.current _) (hclass (m.withSuper cls) _ _)

theorem lawful : (Discipline.ofEffect R).Lawful where
  machine :=
    { refl := fun _ => hR.refl _
      trans := hR.trans
      since_of_later := id
      since_trans := hR.trans
      good := fun _ => trivial
      back := fun _ h => hR.trans (hR.alloc _ _ _) (hR.within h)
      outOfFuel := trivial }
  value :=
    { later := fun _ _ => trivial
      current := fun _ => trivial
      plain := fun _ _ => trivial
      field := fun _ _ _ => trivial
      method := fun _ _ _ => hR.boundMethod _ _ _ }
  expr :=
    { good := fun _ => trivial
      later := fun _ _ => trivial
      parts := fun _ _ => trivial
      list := fun _ => ⟨trivial, trivial⟩
      raises := fun _ _ _ => trivial
      holds := fun _ => trivial
      gives_later := fun _ _ => trivial
      read := fun _ _ _ _ => trivial
      result := fun _ _ _ _ => trivial
      computed := fun _ _ _ _ => trivial
      assign := fun _ _ _ => hR.define _ _ _ _
      setField := fun _ _ _ => hR.fields _ _
      superMethod := fun _ _ _ _ _ => hR.boundMethod _ _ _ }
  call :=
    { calls := fun _ _ _ => trivial
      good := fun _ => trivial
      raises := fun _ _ => trivial
      write := fun text _ => hR.write _ text
      function := fun _ _ => trivial
      construct := fun _ _ => ⟨hR.fields _ _, trivial, fun _ _ => ⟨hR.alloc _ _ _, trivial⟩⟩
      entered := fun _ => trivial
      invoke := fun _ => trivial
      receiver := fun _ _ _ => trivial
      unbound := fun _ _ _ _ => trivial }
  stmt :=
    { parts := fun _ _ => trivial
      first := fun _ => trivial
      rest := fun _ _ => trivial
      raises := fun _ _ _ => trivial
      since := id
      later := hR.trans
      plain := fun _ _ => Iff.rfl
      branch := fun _ _ h => h
      block := fun _ => trivial
      val := fun _ _ _ => hR.define _ _ _ _
      funDecl := fun _ => hR.trans (hR.identity _ _) (hR.define _ _ _ _)
      classDecl := fun _ =>
        (hR.declareClass _ _ _ _).mono (fun _ _ h => h) fun _ _ h => ⟨trivial, h⟩ }

end Effect

/-- However the computation ends, it keeps to the relation. -/
def Eval.Keeps {α : Type} (R : Machine → Machine → Prop) (x : Eval α) : Prop :=
  ∀ m, Eval.Ensures x m (fun _ m' => R m m') fun _ m' => R m m'

/-- The functions that run a program keep to a relation. -/
structure Eval.RunsKeep (R : Machine → Machine → Prop) (n : Nat) : Prop where
  evaluate : ∀ e, Keeps R (Eval.evaluate n e)
  evaluateAll : ∀ es, Keeps R (Eval.evaluateAll n es)
  call : ∀ callee arguments paren, Keeps R (Eval.call n callee arguments paren)
  invoke : ∀ closure arguments, Keeps R (Eval.invoke n closure arguments)
  execute : ∀ s, Keeps R (Eval.execute n s)
  executeAll : ∀ ss, Keeps R (Eval.executeAll n ss)
  block : ∀ frame ss, Keeps R (Eval.within frame (Eval.executeAll n ss))

/-- **Every run has the effects of its single changes.** -/
theorem Effect.runs {R : Machine → Machine → Prop} (hR : Effect R) (n : Nat) :
    Eval.RunsKeep R n := by
  have hdone : ∀ j, (Discipline.ofEffect R).Done n j := by
    rintro ⟨task, m⟩
    refine hR.lawful.done n ?_
    cases task <;> trivial
  have hall : ∀ ss, Eval.Keeps R (Eval.executeAll n ss) := fun ss m =>
    (hdone ⟨.executeAll ss, m⟩).mono (fun _ _ h => h.1) fun _ _ h => h.2
  exact
    { evaluate := fun e m => (hdone ⟨.evaluate e, m⟩).mono (fun _ _ h => h.1) fun _ _ h => h.2
      evaluateAll := fun es m =>
        (hdone ⟨.evaluateAll es, m⟩).mono (fun _ _ h => h.1) fun _ _ h => h.2
      call := fun f vs paren m =>
        (hdone ⟨.call f vs paren, m⟩).mono (fun _ _ h => h.1) fun _ _ h => h.2
      invoke := fun c vs m => (hdone ⟨.invoke c vs, m⟩).mono (fun _ _ h => h.1) fun _ _ h => h.2
      execute := fun s m => (hdone ⟨.execute s, m⟩).mono (fun _ _ h => h.since) fun _ _ h => h.2
      executeAll := hall
      block := fun frame ss m => Eval.Ensures.within
        ((hall ss { m with current := frame }).mono (fun _ _ h => hR.within h)
          fun _ _ h => hR.within h) }

/-- What every step does to the machine, a whole run does. -/
theorem Effect.interpret {R : Machine → Machine → Prop} (hR : Effect R) (fuel : Nat)
    (program : Program) (table : Distances) (m : Machine) :
    R { m with table } (m.interpret fuel program table).2 := by
  have hrun := (hR.runs fuel).executeAll program { m with table }
  unfold Machine.interpret
  cases heq : Eval.executeAll fuel program { m with table } with
  | ok flow m' =>
    simp only
    split <;> exact hrun.of_ok heq
  | error reason m' =>
    cases reason with
    | failure fault =>
      simp only
      split <;> exact hrun.of_error heq
    | outOfFuel => exact hrun.of_error heq

/-! ### Frames -/

/-- Names are bound in the same frame, and every frame stands inside the frame that it stood in. -/
structure Machine.KeepsFrames (m m' : Machine) : Prop where
  current : m'.current = m.current
  globals : m'.globals = m.globals
  table : m'.table = m.table
  enclosing : ∀ f, (m.heap.frame? f).isSome = true →
    (m'.heap.frame? f).isSome = true ∧ m'.heap.enclosing? f = m.heap.enclosing? f

theorem Machine.KeepsFrames.of_grows {m m' : Machine} (hcurrent : m'.current = m.current)
    (hglobals : m'.globals = m.globals) (htable : m'.table = m.table)
    (hgrows : m.heap.Grows m'.heap) : m.KeepsFrames m' :=
  ⟨hcurrent, hglobals, htable, fun f hf => ⟨hgrows.frame f hf, hgrows.enclosing f hf⟩⟩

theorem Machine.KeepsFrames.effect : Effect Machine.KeepsFrames where
  refl _ := ⟨rfl, rfl, rfl, fun _ hf => ⟨hf, rfl⟩⟩
  trans h h' := ⟨h'.current.trans h.current, h'.globals.trans h.globals, h'.table.trans h.table,
    fun f hf => ⟨(h'.enclosing f (h.enclosing f hf).1).1,
      (h'.enclosing f (h.enclosing f hf).1).2.trans (h.enclosing f hf).2⟩⟩
  alloc _ _ _ := .of_grows rfl rfl rfl (.alloc _ _ _)
  define _ _ _ _ := .of_grows rfl rfl rfl (.define _ _ _ _)
  fields _ _ := .of_grows rfl rfl rfl (.refl _)
  identity _ _ := .of_grows rfl rfl rfl (.refl _)
  write _ _ := .of_grows rfl rfl rfl (.refl _)
  within h := ⟨rfl, h.globals, h.table, h.enclosing⟩

/-! ### Sessions -/

namespace Session

/-- The machine after the steps of a session. -/
def machineAfter (fuel : Nat) (steps : List Step) (m : Machine) : Machine :=
  steps.foldl (fun m s => (step fuel s m).2) m

/-- The later steps of a session run on the machine that the earlier ones leave. -/
theorem runFrom_append (fuel : Nat) (before after : List Step) (m : Machine) :
    runFrom fuel (before ++ after) m
      = runFrom fuel before m ++ runFrom fuel after (machineAfter fuel before m) := by
  induction before generalizing m with
  | nil => rfl
  | cons s before ih =>
    rw [List.cons_append, runFrom, runFrom]
    exact congrArg (_ :: ·) (ih (step fuel s m).2)

/-- A step of a session has the effects of its run, which may be under another table. -/
theorem step_effect {R : Machine → Machine → Prop} (hR : Effect R)
    (htable : ∀ m table, R m { m with table }) (fuel : Nat) (s : Step) (m : Machine) :
    R m (step fuel s m).2 := by
  have hrun : ∀ program table, R m (m.interpret fuel program table).2 :=
    fun program table => hR.trans (htable m table) (hR.interpret fuel program table m)
  unfold step
  cases s.prepare with
  | error failures => exact hR.refl m
  | ok prepared =>
    obtain ⟨program, table⟩ := prepared
    cases s with
    | run source choice => exact hrun program table
    | eval expression choice =>
      show R m (evaluate fuel _ program table m).2
      unfold evaluate
      split
      · next e =>
        -- The expression is evaluated after a program without statements.
        have hempty := hrun [] table
        split
        · next m' hm' =>
          rw [hm'] at hempty
          have hvalue := (hR.runs fuel).evaluate e m'
          split
          · next heq => exact hR.trans hempty (hvalue.of_ok heq)
          · next heq => exact hR.trans hempty (hvalue.of_error heq)
          · next heq => exact hR.trans hempty (hvalue.of_error heq)
        · next hm' =>
          rw [hm'] at hempty
          exact hempty
      · exact hrun program table

theorem machineAfter_effect {R : Machine → Machine → Prop} (hR : Effect R)
    (htable : ∀ m table, R m { m with table }) (fuel : Nat) (steps : List Step) (m : Machine) :
    R m (machineAfter fuel steps m) := by
  induction steps generalizing m with
  | nil => exact hR.refl m
  | cons s steps ih => exact hR.trans (step_effect hR htable fuel s m) (ih _)

end Session

/-- Names are bound in the same frame, and the globals are the same frame. -/
def Machine.KeepsScope (m m' : Machine) : Prop := m'.current = m.current ∧ m'.globals = m.globals

theorem Machine.KeepsScope.effect : Effect Machine.KeepsScope where
  refl _ := ⟨rfl, rfl⟩
  trans h h' := ⟨h'.1.trans h.1, h'.2.trans h.2⟩
  alloc _ _ _ := ⟨rfl, rfl⟩
  define _ _ _ _ := ⟨rfl, rfl⟩
  fields _ _ := ⟨rfl, rfl⟩
  identity _ _ := ⟨rfl, rfl⟩
  write _ _ := ⟨rfl, rfl⟩
  within h := ⟨rfl, h.2⟩

/-- **Runs come back to the frame that they started in.** However a computation ends, on whatever
    machine and under whatever table, names are bound in the same frame again, the globals and the
    table are the same, and no frame that was there stands inside another one. So a program leaves
    the machine in the globals if it started there, and every step of a session starts there. -/
theorem runs_restore_frames (fuel : Nat) :
    Eval.RunsKeep Machine.KeepsFrames fuel ∧
      (∀ program table (m : Machine),
        Machine.KeepsFrames { m with table } (m.interpret fuel program table).2 ∧
          ((m.interpret fuel program table).2.current = (m.interpret fuel program table).2.globals ↔
            m.current = m.globals)) ∧
      ∀ sink before after,
        let m := Session.machineAfter fuel before (.fresh sink)
        m.current = m.globals ∧
          Session.runFrom fuel (before ++ after) (.fresh sink)
            = Session.runFrom fuel before (.fresh sink) ++ Session.runFrom fuel after m := by
  refine ⟨Machine.KeepsFrames.effect.runs fuel, fun program table m => ?_,
    fun sink before after => ?_⟩
  · have hrun := Machine.KeepsFrames.effect.interpret fuel program table m
    refine ⟨hrun, ?_⟩
    rw [hrun.current, hrun.globals]
  · have hsteps := Session.machineAfter_effect Machine.KeepsScope.effect
      (fun _ _ => ⟨rfl, rfl⟩) fuel before (.fresh sink)
    refine ⟨?_, Session.runFrom_append fuel before after (.fresh sink)⟩
    rw [hsteps.1, hsteps.2]
    rfl

end ClassScript
