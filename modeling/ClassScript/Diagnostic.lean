import ClassScript.Position
import ClassScript.Text.Lines
import ClassScript.Text.Utf8

namespace ClassScript

/-!
# Diagnostics

What the user is told when a program is refused or fails: the stage that found the fault, a message,
a position, and the line of the source with a caret under the column.

* `Diagnostic.render`: the three lines of a diagnostic;
* `Failure`: a diagnostic, or a failure outside the language;
* `Failure.exitCode`: the code that the command line ends with.
-/

/-- The stage of the pipeline that finds a fault. -/
inductive Stage where
  | lexing
  | parsing
  | resolving
  | typing
  | runtime
deriving DecidableEq

/-- The word for a stage in front of its messages. -/
def Stage.label : Stage → String
  | lexing => "Lexing"
  | parsing => "Parsing"
  | resolving => "Resolving"
  | typing => "Typing"
  | runtime => "Runtime"

/-- A fault of the program, as it is reported. -/
structure Diagnostic where
  stage : Stage
  message : String
  pos : Position
  /-- The text of the line at `pos`; empty as long as no source is attached. -/
  sourceLine : String
deriving DecidableEq

namespace Diagnostic

/-- A diagnostic without its source line. -/
def bare (stage : Stage) (message : String) (pos : Position) : Diagnostic :=
  ⟨stage, message, pos, ""⟩

/-- The diagnostic with the line of `source` that it is about. -/
def withSource (source : String) (d : Diagnostic) : Diagnostic :=
  { d with sourceLine := Text.lineAt source d.pos.line }

/-- What stands before the source line. -/
def gutter (d : Diagnostic) : String :=
  toString d.pos.line ++ ":" ++ toString d.pos.column ++ " | "

/-- Message, source line and a caret under the column. The column counts bytes, and so do the
    blanks before the caret. -/
def render (d : Diagnostic) : String :=
  let pad := d.gutter.utf8ByteSize + (d.pos.column - 1)
  "[" ++ d.stage.label ++ " Error] " ++ d.message ++ "\n\t" ++ d.gutter ++ d.sourceLine ++ "\n\t"
    ++ String.ofList (List.replicate pad ' ') ++ "^"

end Diagnostic

/-- Why an operation on a program did not succeed. -/
inductive Failure where
  | diagnostic (d : Diagnostic)
  /-- The outside world failed, with its own words. -/
  | io (text : String)
  /-- The bytes of a source are not UTF-8. -/
  | utf8 (fault : Text.Utf8.Fault)
deriving DecidableEq

namespace Failure

/-- The message alone, without position. -/
def message : Failure → String
  | diagnostic d => d.message
  | io text => text
  | utf8 fault => fault.message

/-- The full text of a failure. -/
def render : Failure → String
  | diagnostic d => d.render
  | io text => text
  | utf8 fault => fault.message

/-- The failure with the source line that it is about, if it is about one. -/
def withSource (source : String) : Failure → Failure
  | diagnostic d => .diagnostic (d.withSource source)
  | f => f

/-- The exit code for a failure: programs that are refused, programs that fail while they run, and
    everything outside the language. -/
def exitCode : Failure → Nat
  | diagnostic d =>
    match d.stage with
    | .runtime => 70
    | _ => 65
  | io _ => 74
  | utf8 _ => 74

end Failure

end ClassScript
