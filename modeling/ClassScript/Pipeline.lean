import ClassScript.Diagnostic
import ClassScript.Evaluation
import ClassScript.Program.Parser
import ClassScript.Resolution
import ClassScript.Token.Lexer
import ClassScript.Typing

namespace ClassScript

/-!
# From source text to result

The stages in order; each starts only if the one before succeeded, and what a stage finds is
reported with the line of the source that it is about.

* `Source.tokens`, `Source.program`, `Source.checked`: the stages up to the check;
* `Source.run`: all of them, into a sink;
* `TableChoice.table`: the table of distances that a program is checked or run under.
-/

/-! ### Faults as failures -/

/-- A fault of a stage as a failure, without its source line. -/
def Failure.of {α : Type} (stage : Stage) (message : α → String) (fault : Located α) : Failure :=
  .diagnostic (.bare stage (message fault.what) fault.pos)

/-- A lexical fault as a failure. -/
def Failure.ofLex : Located LexFault → Failure := .of .lexing LexFault.message

/-- A fault of grammar as a failure. -/
def Failure.ofSyntax : Located SyntaxFault → Failure := .of .parsing SyntaxFault.message

/-- A misuse of a name as a failure. -/
def Failure.ofScope : Located ScopeFault → Failure := .of .resolving ScopeFault.message

/-- A typing violation as a failure. -/
def Failure.ofType : Located TypeFault → Failure := .of .typing TypeFault.message

/-- A failure of a running program as a failure. -/
def Failure.ofRuntime : Located RuntimeFault → Failure := .of .runtime RuntimeFault.message

/-! ### Stages -/

/-- The source text that bytes encode. -/
def Source.decode (bytes : List UInt8) : Except Failure String :=
  (Text.Utf8.decode bytes).mapError .utf8

/-- The table of distances of a program that also passes the type checker. -/
def analyze (program : Program) : Except Failure Distances := do
  let table ← (resolve program).mapError .ofScope
  (typecheck table program).mapError .ofType
  return table

namespace Source

/-- The tokens of a source text. -/
def tokens (source : String) : Except (List Failure) (List Token) :=
  (scan source).mapError fun faults => faults.map fun f => (Failure.ofLex f).withSource source

/-- The program that a source text is. -/
def program (source : String) : Except (List Failure) Program := do
  let tokens ← tokens source
  (parse tokens).mapError fun faults => faults.map fun f => (Failure.ofSyntax f).withSource source

/-- The program that a source text is, with its table of distances, if it passes every check. -/
def checked (source : String) : Except (List Failure) (Program × Distances) := do
  let statements ← program source
  let table ← (analyze statements).mapError fun f => [f.withSource source]
  return (statements, table)

end Source

/-! ### Runs -/

/-- What came of a run. -/
inductive Verdict where
  | finished
  | failed (failures : List Failure)
  | outOfFuel
deriving DecidableEq

/-- How a run of a program with the given source ended, as a verdict. -/
def Ending.verdict (source : String) : Ending → Verdict
  | finished => .finished
  | failed fault => .failed [(Failure.ofRuntime fault).withSource source]
  | flushFailed text => .failed [.io text]
  | outOfFuel => .outOfFuel

/-- Runs a source text into a sink; gives the verdict and the sink after it. -/
def Source.run (fuel : Nat) (source : String) (sink : Sink) : Verdict × Sink :=
  match Source.checked source with
  | .error failures => (.failed failures, sink)
  | .ok (statements, table) =>
    let (ending, m) := (Machine.fresh sink).interpret fuel statements table
    (ending.verdict source, m.sink)

/-! ### Tables from outside -/

/-- Which table of distances to use for a program. -/
inductive TableChoice where
  /-- The one that resolution finds. -/
  | resolved
  | given (table : Distances)

/-- The chosen table for a program. -/
def TableChoice.table (choice : TableChoice) (program : Program) : Except Failure Distances :=
  match choice with
  | resolved => (resolve program).mapError .ofScope
  | given table => .ok table

/-- Checks the types of a source text under a chosen table. Only faults of the text itself are
    reported with their source line. -/
def Source.typecheckWith (source : String) (choice : TableChoice) :
    Except (List Failure) Unit := do
  let statements ← Source.program source
  let table ← (choice.table statements).mapError fun f => [f]
  (typecheck table statements).mapError fun f => [.ofType f]

end ClassScript
