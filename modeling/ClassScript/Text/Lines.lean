namespace ClassScript.Text

/-!
# Lines of a text

A line feed ends a line, and one carriage return right before it belongs to the line end. A
carriage return anywhere else is part of its line, and a final line feed opens no further line.

* `splitLines`: the lines in order;
* `lineAt`: the text of one line, empty if there is no such line.
-/

/-- The lines of a text, without their ends. -/
def splitLines : List Char → List (List Char)
  | [] => []
  | '\n' :: rest => [] :: splitLines rest
  | '\r' :: '\n' :: rest => [] :: splitLines rest
  | c :: rest =>
    match splitLines rest with
    | [] => [[c]]
    | line :: more => (c :: line) :: more

/-- Line number `line` of `source`, counted from one. Line zero is read as line one, and a line
    that the text does not have is empty. -/
def lineAt (source : String) (line : Nat) : String :=
  String.ofList ((splitLines source.toList)[line - 1]?.getD [])

end ClassScript.Text
