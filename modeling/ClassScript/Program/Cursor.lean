import ClassScript.Program

namespace ClassScript

/-!
# Reading a token list

Reading goes over the tokens before the first end of input. A rule of the grammar either succeeds or
stops with a fault at a position; both ways it leaves the cursor where reading came to.

* `SyntaxFault`: what the grammar asked for and did not find;
* `Cursor`: what is still to be read, the next free identity and the faults so far;
* `Parse`: a rule; `accept`, `expect` and `reference` are its steps.
-/

/-- The two places in which a function may be declared. -/
inductive Routine where
  | function
  | method
deriving DecidableEq

/-- The word for a routine. -/
def Routine.word : Routine → String
  | function => "function"
  | method => "method"

/-- What the grammar asked for and did not find. -/
inductive SyntaxFault where
  | className
  | superclassName
  | classOpen
  | classClose
  | routineName (r : Routine)
  | routineOpen (r : Routine)
  | routineBody (r : Routine)
  | parameterName
  | parameterColon
  | parametersClose
  | tooManyParameters
  | variableName
  | valueOrType
  | variableEnd
  | typeName
  | forOpen
  | forCondition
  | forClose
  | ifOpen
  | ifClose
  | whileOpen
  | whileClose
  | returnEnd
  | expressionEnd
  | blockClose
  | assignmentTarget
  | ternaryColon
  | propertyName
  | tooManyArguments
  | argumentsClose
  | expression
  | superDot
  | superMethod
  | groupClose
  /-- The budget of steps is used up. The budget that a token list gets covers every way to read
      it, so this fault is never reported. -/
  | tooDeep
deriving DecidableEq

/-- The wording of a fault. -/
def SyntaxFault.message : SyntaxFault → String
  | className => "Expected class name"
  | superclassName => "Expected superclass name"
  | classOpen => "Expected '\x7b' before class body"
  | classClose => "Expected '\x7d' after class body"
  | routineName r => "Expected " ++ r.word ++ " name"
  | routineOpen r => "Expected '(' after " ++ r.word ++ " name"
  | routineBody r => "Expected '\x7b' before " ++ r.word ++ " body"
  | parameterName => "Expected parameter name"
  | parameterColon => "Expected ':' after parameter name"
  | parametersClose => "Expected ')' after parameters"
  | tooManyParameters => "No more than 255 parameters"
  | variableName => "Expected variable name"
  | valueOrType => "Expected a type annotation or an initializer"
  | variableEnd => "Expected ';' after variable declaration"
  | typeName => "Expected type expression"
  | forOpen => "Expected '(' after 'for'"
  | forCondition => "Expected ';' after loop condition"
  | forClose => "Expected ')' after for clauses"
  | ifOpen => "Expected '(' after 'if'"
  | ifClose => "Expected ')' after if condition"
  | whileOpen => "Expected '(' after 'while'"
  | whileClose => "Expected ')' after condition"
  | returnEnd => "Expected ';' after return value"
  | expressionEnd => "Expected ';' after expression"
  | blockClose => "Expected '\x7d' after block"
  | assignmentTarget => "Invalid assignment target"
  | ternaryColon => "Expected ':' after ternary operator '?'"
  | propertyName => "Expected property name after '.'"
  | tooManyArguments => "No more than 255 arguments"
  | argumentsClose => "Expected ')' after arguments"
  | expression => "Expected expression"
  | superDot => "Expected '.' after 'super'"
  | superMethod => "Expected superclass method name"
  | groupClose => "Expected ')' after expression"
  | tooDeep => "Nesting too deep"

/-- How far reading has come. -/
structure Cursor where
  /-- The tokens still to be read; none of them ends the input. -/
  ahead : List Token
  /-- The position of the end of input. -/
  stop : Position
  /-- The identity of the next reference. -/
  nextId : Nat
  /-- The faults reported so far, in order. -/
  faults : List (Located SyntaxFault)

namespace Cursor

/-- The position of the next token, or of the end of input. -/
def here (c : Cursor) : Position :=
  match c.ahead with
  | t :: _ => t.pos
  | [] => c.stop

/-- The cursor before a token list: reading stops at the first end of input. A list without one ends
    at the position of its last token, and an empty list at the start. -/
def ofTokens (tokens : List Token) : Cursor :=
  let stop :=
    match tokens.find? Token.isEnd, tokens.getLast? with
    | some t, _ => t.pos
    | none, some t => t.pos
    | none, none => .start
  ⟨tokens.takeWhile fun t => !t.isEnd, stop, 0, []⟩

end Cursor

/-- A rule of the grammar. -/
abbrev Parse := EStateM (Located SyntaxFault) Cursor

namespace Parse

variable {α : Type}

/-- Stops with a fault at `pos`. -/
def failAt (pos : Position) (fault : SyntaxFault) : Parse α :=
  fun c => .error ⟨fault, pos⟩ c

/-- Stops with a fault at the next token. -/
def fail (fault : SyntaxFault) : Parse α :=
  fun c => .error ⟨fault, c.here⟩ c

/-- The next token, if there is one; it is not read. -/
def peek : Parse (Option Token) :=
  fun c => .ok c.ahead.head? c

/-- Reads the next token, if there is one. -/
def skip : Parse Unit :=
  fun c => .ok () { c with ahead := c.ahead.tail }

/-- Whether the next token is of kind `k`. -/
def upNext (k : Kind) : Parse Bool :=
  fun c => .ok (c.ahead.head?.any fun t => t.kind = k) c

/-- Whether all tokens are read. -/
def atEnd : Parse Bool :=
  fun c => .ok c.ahead.isEmpty c

/-- Reads the next token if its kind is one of `ks`. -/
def acceptAny (ks : List Kind) : Parse (Option Token) :=
  fun c =>
    match c.ahead with
    | t :: rest => if t.kind ∈ ks then .ok (some t) { c with ahead := rest } else .ok none c
    | [] => .ok none c

/-- Reads the next token if it is of kind `k`. -/
def accept (k : Kind) : Parse (Option Token) := acceptAny [k]

/-- Reads the next token, which has to be of kind `k`. -/
def expect (k : Kind) (fault : SyntaxFault) : Parse Token :=
  fun c =>
    match c.ahead with
    | t :: rest =>
      if t.kind = k then .ok t { c with ahead := rest } else .error ⟨fault, t.pos⟩ c
    | [] => .error ⟨fault, c.stop⟩ c

/-- Reads an identifier. -/
def expectName (fault : SyntaxFault) : Parse Name := do
  let t ← expect .identifier fault
  return ⟨t.lexeme, t.pos⟩

/-- Makes a use of `name` with an identity of its own. -/
def reference (name : Name) : Parse Reference :=
  fun c => .ok ⟨c.nextId, name⟩ { c with nextId := c.nextId + 1 }

end Parse

end ClassScript
