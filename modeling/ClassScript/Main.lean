import ClassScript.Command

/-!
# The program

Reads the file that the arguments name, and writes what the command reports. A run gets more fuel
than it can use up in practice.
-/

namespace ClassScript.Main

/-- The fuel of a run. -/
def ampleFuel : Nat := Nat.pow 2 60

/-- What is said when the arguments name no command. -/
def usage : String :=
  "Usage: <COMMAND> [--json] <FILENAME>\n\nCommands: tokenize, parse, check, run\n"

/-- The content of a file, if it can be read. -/
def content (name : String) : IO (Option (List UInt8)) := do
  try
    let bytes ← IO.FS.readBinFile name
    return some bytes.toList
  catch _ => return none

end ClassScript.Main

open ClassScript ClassScript.Main in
/-- Runs the command that the arguments ask for. -/
def main (args : List String) : IO UInt32 := do
  match Command.ofArguments? args with
  | none =>
    IO.eprint usage
    return 2
  | some (command, name) =>
    let bytes ← content name
    let report := command.execute ampleFuel name bytes
    IO.print report.stdout
    IO.eprint report.stderr
    return report.exit.toUInt32
