import ClassScript.Pipeline

namespace ClassScript

/-!
# Sessions

Several source texts one after the other on one machine, without type checking. The machine keeps
its globals; the table of distances of a step replaces that of the step before, also for functions
that were declared earlier.

* `Session.Step`: a program to run, or an expression to evaluate;
* `Session.step`: one step;
* `Session.run`: all steps, each with the bytes that it wrote.
-/

namespace Session

/-- A step of a session. -/
inductive Step where
  | run (source : String) (choice : TableChoice)
  | eval (expression : String) (choice : TableChoice)

/-- What came of a step. -/
inductive Answer where
  | finished
  | value (v : Value)
  | failed (failures : List Failure)
  | outOfFuel

/-- The answer that a verdict is. -/
def Answer.ofVerdict : Verdict → Answer
  | .finished => .finished
  | .failed failures => .failed failures
  | .outOfFuel => .outOfFuel

/-- The source text of a step; an expression is read as a statement. -/
def Step.source : Step → String
  | run source _ => source
  | eval expression _ => expression ++ ";"

/-- The table that a step asks for. -/
def Step.choice : Step → TableChoice
  | run _ choice => choice
  | eval _ choice => choice

/-- The program of a step and its table. -/
def Step.prepare (s : Step) : Except (List Failure) (Program × Distances) := do
  let statements ← Source.program s.source
  let table ← (s.choice.table statements).mapError fun f => [f.withSource s.source]
  return (statements, table)

/-- The value of the expression that a program consists of, under a table that replaces the one
    before; a program of any other form is run. -/
def evaluate (fuel : Nat) (source : String) (program : Program) (table : Distances) (m : Machine) :
    Answer × Machine :=
  match program with
  | [.expression e] =>
    match m.interpret fuel [] table with
    | (.finished, m) =>
      match Eval.evaluate fuel e m with
      | .ok v m => (.value v, m)
      | .error (.failure fault) m => (.failed [(Failure.ofRuntime fault).withSource source], m)
      | .error .outOfFuel m => (.outOfFuel, m)
    | (ending, m) => (.ofVerdict (ending.verdict source), m)
  | _ =>
    let (ending, m) := m.interpret fuel program table
    (.ofVerdict (ending.verdict source), m)

/-- One step. If the source is refused the machine stays as it was. -/
def step (fuel : Nat) (s : Step) (m : Machine) : Answer × Machine :=
  match s.prepare with
  | .error failures => (.failed failures, m)
  | .ok (statements, table) =>
    match s with
    | .run source _ =>
      let (ending, m) := m.interpret fuel statements table
      (.ofVerdict (ending.verdict source), m)
    | .eval _ _ => evaluate fuel s.source statements table m

/-- All steps in order, each with the bytes that it wrote. A step that fails does not end the
    session. -/
def runFrom (fuel : Nat) : List Step → Machine → List (Answer × ByteArray)
  | [], _ => []
  | s :: ss, m =>
    let before := m.sink.written.size
    let (answer, m) := step fuel s m
    (answer, m.sink.written.extract before m.sink.written.size) :: runFrom fuel ss m

/-- A session on a fresh machine. -/
def run (fuel : Nat) (steps : List Step) : List (Answer × ByteArray) :=
  runFrom fuel steps (.fresh .unbounded)

end Session

end ClassScript
