import ClassScript.Pipeline
import ClassScript.Program.Printer
import ClassScript.Token.Json

namespace ClassScript

/-!
# The command line

What each command does with the content of a file, as texts for the two output streams and an exit
code. Reading the file and writing the texts is left to the caller.

* `Command`: the commands;
* `Command.ofArguments?`: the command that arguments ask for;
* `Command.execute`: what a command reports.
-/

/-- The commands, each on one file. -/
inductive Command where
  /-- Lists the tokens; as JSON if `json` is set. -/
  | tokenize (json : Bool)
  /-- Prints the program. -/
  | parse
  /-- Checks the program without running it. -/
  | check
  /-- Runs the program. -/
  | run
deriving DecidableEq

/-- What a command reports. -/
structure Report where
  stdout : String
  stderr : String
  exit : Nat
deriving DecidableEq

namespace Report

/-- A report of success. -/
def success (stdout : String) : Report := ⟨stdout, "", 0⟩

/-- A report of failures: each on its own line or lines, and the exit code of the first. -/
def failures (stdout : String) (fs : List Failure) : Report :=
  ⟨stdout, String.join (fs.map fun f => f.render ++ "\n"), (fs.head?.map Failure.exitCode).getD 65⟩

/-- A report that the file could not be read, and why. -/
def unreadable (message cause : String) : Report :=
  ⟨"", "Error: " ++ message ++ "\n\nCaused by:\n    " ++ cause ++ "\n", 1⟩

end Report

/-- Each text on a line of its own. -/
def unlines (texts : List String) : String :=
  String.join (texts.map fun text => text ++ "\n")

namespace Command

/-- The command and the file that arguments ask for: the name of a command, the name of a file, and
    for the list of tokens a flag before or after it. -/
def ofArguments? : List String → Option (Command × String)
  | ["tokenize", "--json", file] => some (.tokenize true, file)
  | ["tokenize", file, "--json"] => some (.tokenize true, file)
  | ["tokenize", file] => some (.tokenize false, file)
  | ["parse", file] => some (.parse, file)
  | ["check", file] => some (.check, file)
  | ["run", file] => some (.run, file)
  | _ => none

/-- Lists the tokens, the good ones also if there are faults. -/
def tokenizeText (json : Bool) (source : String) : Report :=
  let items := itemsOf source
  let tokens := items.filterMap Item.token?
  let faults := items.filterMap Item.fault?
  let stdout := if json then Json.tokens tokens ++ "\n" else unlines (tokens.map Token.text)
  if faults.isEmpty then .success stdout
  else .failures stdout (faults.map fun f => (Failure.ofLex f).withSource source)

/-- Prints the program, one statement a line. -/
def parseText (source : String) : Report :=
  match Source.program source with
  | .ok statements => .success (unlines (statements.map Stmt.render))
  | .error fs => .failures "" fs

/-- Checks the program. -/
def checkText (source : String) : Report :=
  match Source.checked source with
  | .ok _ => .success "ok\n"
  | .error fs => .failures "" fs

/-- Runs the program. What it wrote is shown also if it fails. -/
def runText (fuel : Nat) (source : String) : Report :=
  let (verdict, sink) := Source.run fuel source .unbounded
  let stdout := Text.Utf8.decodeLossy sink.written.toList
  match verdict with
  | .finished => .success stdout
  | .failed fs => .failures stdout fs
  | .outOfFuel => .failures stdout []

/-- What a command reports on a source text. -/
def executeText (fuel : Nat) (command : Command) (source : String) : Report :=
  match command with
  | tokenize json => tokenizeText json source
  | parse => parseText source
  | check => checkText source
  | run => runText fuel source

/-- What a command reports on the content of the file `name`; there is no content if the file is
    missing. -/
def execute (fuel : Nat) (command : Command) (name : String) (content : Option (List UInt8)) :
    Report :=
  match content with
  | none =>
    .unreadable ("Failed to open file " ++ Json.quoted name)
      "No such file or directory (os error 2)"
  | some bytes =>
    match Text.Utf8.decode bytes with
    | .ok source => executeText fuel command source
    | .error fault =>
      .unreadable ("File " ++ Json.quoted name ++ " is not valid UTF-8") fault.message

end Command

end ClassScript
