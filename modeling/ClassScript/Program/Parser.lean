import ClassScript.Program.Cursor

namespace ClassScript

/-!
# From tokens to programs

Rules of the grammar, one function each, by recursive descent. Binary operators form levels, the
loosest first; every level associates to the left. A loop with `for` is read as a `while` loop
inside blocks.

A rule takes a budget of steps. Each rule calls others with a smaller budget, and no more than
twenty rules call each other without reading a token, so `budget` covers every token list.

* `Parse.expression`: expressions;
* `Parse.statement`, `Parse.declaration`: statements; a declaration that goes wrong is reported, and
  reading goes on at the next statement;
* `parse`: the program, or every fault.
-/

/-- The levels of binary operators, the loosest first. -/
inductive Level where
  | or
  | and
  | equality
  | comparison
  | term
  | factor
  | exponent
deriving DecidableEq

namespace Level

/-- Every level, the loosest first. -/
def all : List Level := [or, and, equality, comparison, term, factor, exponent]

/-- The operators of a level. -/
def operators : Level → List Kind
  | or => [.keyword .kwOr]
  | and => [.keyword .kwAnd]
  | equality => [.symbol .bangEqual, .symbol .equalEqual]
  | comparison => [.symbol .greater, .symbol .greaterEqual, .symbol .less, .symbol .lessEqual]
  | term => [.symbol .minus, .symbol .plus]
  | factor => [.symbol .slash, .symbol .star, .symbol .percent]
  | exponent => [.symbol .caret]

/-- The expression for an operator of a level between two operands. -/
def node : Level → Expr → Token → Expr → Expr
  | or => Expr.logical
  | and => Expr.logical
  | _ => Expr.binary

end Level

namespace Parse

/-- How many parameters or arguments a list may have. -/
def listLimit : Nat := 255

/-! ### Expressions -/

mutual

/-- An assignment, or an expression without one. What stands left of `=` has to be a variable or a
    property. -/
def expression : Nat → Parse Expr
  | 0 => fail .tooDeep
  | n + 1 => do
    let target ← ternary n
    match ← accept (.symbol .equal) with
    | none => return target
    | some equals =>
      let value ← expression n
      -- The left side is read before the sign is seen, so it is judged afterwards, and a bad one is
      -- reported at the sign with the right side already read.
      match target with
      | .var ref => return .assign ref value
      | .get object name => return .set object name value
      | _ => failAt equals.pos .assignmentTarget

/-- A choice, which associates to the right, or an expression without one. -/
def ternary : Nat → Parse Expr
  | 0 => fail .tooDeep
  | n + 1 => do
    let condition ← chain n Level.all
    match ← accept (.symbol .question) with
    | none => return condition
    | some question =>
      -- Between `?` and `:` a choice or an assignment needs parentheses.
      let yes ← chain n Level.all
      let _ ← expect (.symbol .colon) .ternaryColon
      let no ← ternary n
      return .ternary condition question.pos yes no

/-- Operands of the given levels and the operators between them. -/
def chain : Nat → List Level → Parse Expr
  | 0, _ => fail .tooDeep
  | n + 1, [] => unary n
  | n + 1, level :: tighter => do
    let left ← chain n tighter
    chainRest n level tighter left

/-- More operators of `level` after the operand `left`. -/
def chainRest : Nat → Level → List Level → Expr → Parse Expr
  | 0, _, _, _ => fail .tooDeep
  | n + 1, level, tighter, left => do
    match ← acceptAny level.operators with
    | none => return left
    | some operator =>
      let right ← chain n tighter
      chainRest n level tighter (level.node left operator right)

/-- An expression behind unary operators. -/
def unary : Nat → Parse Expr
  | 0 => fail .tooDeep
  | n + 1 => do
    match ← acceptAny [.symbol .bang, .symbol .minus] with
    | none =>
      let callee ← primary n
      suffixes n callee
    | some operator =>
      let operand ← unary n
      return .unary operator operand

/-- Calls and properties after the expression `e`. -/
def suffixes : Nat → Expr → Parse Expr
  | 0, _ => fail .tooDeep
  | n + 1, e => do
    match ← acceptAny [.symbol .leftParen, .symbol .dot] with
    | none => return e
    | some t =>
      if t.kind = .symbol .leftParen then
        let args ← if ← upNext (.symbol .rightParen) then pure [] else arguments n 0
        let paren ← expect (.symbol .rightParen) .argumentsClose
        suffixes n (.call e paren.pos args)
      else
        let name ← expectName .propertyName
        suffixes n (.get e name)

/-- One or more arguments, after `count` arguments of the same call. -/
def arguments : Nat → Nat → Parse (List Expr)
  | 0, _ => fail .tooDeep
  | n + 1, count => do
    if listLimit ≤ count then fail .tooManyArguments
    let arg ← expression n
    match ← accept (.symbol .comma) with
    | none => return [arg]
    | some _ =>
      let more ← arguments n (count + 1)
      return arg :: more

/-- A constant, a name or an expression in parentheses. A token that starts none of them is not
    read. -/
def primary : Nat → Parse Expr
  | 0 => fail .tooDeep
  | n + 1 => do
    match ← peek with
    | none => fail .expression
    | some t =>
      match t.kind with
      | .keyword .kwFalse => skip; return .literal (.boolean false)
      | .keyword .kwTrue => skip; return .literal (.boolean true)
      | .keyword .kwNull => skip; return .literal .null
      | .number value => skip; return .literal (.number value)
      | .string text => skip; return .literal (.string text)
      | .keyword .kwSuper =>
        skip
        let _ ← expect (.symbol .dot) .superDot
        let method ← expectName .superMethod
        -- The identity is given out only when the whole form is read.
        let keyword ← reference ⟨t.lexeme, t.pos⟩
        return .super keyword method
      | .keyword .kwThis =>
        skip
        let ref ← reference ⟨t.lexeme, t.pos⟩
        return .this ref
      | .identifier =>
        skip
        let ref ← reference ⟨t.lexeme, t.pos⟩
        return .var ref
      | .symbol .leftParen =>
        skip
        let inner ← expression n
        let _ ← expect (.symbol .rightParen) .groupClose
        return .grouping inner
      | _ => fail .expression

end

/-! ### Annotations and parameters -/

/-- A type as it is written. A token that names no type is read all the same. -/
def typeName : Parse TypeName := do
  match ← peek with
  | none => fail .typeName
  | some t =>
    skip
    match t.kind with
    | .keyword .kwBoolean => return .boolean
    | .keyword .kwNumber => return .number
    | .keyword .kwString => return .string
    | .keyword .kwVoid => return .void
    | .identifier =>
      let ref ← reference ⟨t.lexeme, t.pos⟩
      return .named ref
    | _ => failAt t.pos .typeName

/-- An annotation after `mark`, or nothing. -/
def typeAfter (mark : Symbol) : Parse (Option TypeName) := do
  match ← accept (.symbol mark) with
  | none => return none
  | some _ =>
    let type ← typeName
    return some type

/-- One or more parameters, after `count` parameters of the same function. -/
def parameters : Nat → Nat → Parse (List Param)
  | 0, _ => fail .tooDeep
  | n + 1, count => do
    if listLimit ≤ count then fail .tooManyParameters
    let name ← expectName .parameterName
    let _ ← expect (.symbol .colon) .parameterColon
    let type ← typeName
    match ← accept (.symbol .comma) with
    | none => return [⟨name, type⟩]
    | some _ =>
      let more ← parameters n (count + 1)
      return ⟨name, type⟩ :: more

/-! ### Statements -/

/-- The rest of a declaration of a variable. -/
def valRest (n : Nat) : Parse Stmt := do
  let name ← expectName .variableName
  let type ← typeAfter .colon
  let initializer ←
    match ← accept (.symbol .equal) with
    | none => pure none
    | some _ => some <$> expression n
  if type.isNone && initializer.isNone then failAt name.pos .valueOrType
  let _ ← expect (.symbol .semicolon) .variableEnd
  return .val name type initializer

/-- An expression as a statement. -/
def expressionStatement (n : Nat) : Parse Stmt := do
  let e ← expression n
  let _ ← expect (.symbol .semicolon) .expressionEnd
  return .expression e

/-- An expression, unless the next token is the symbol `close`. -/
def expressionUntil (close : Symbol) (n : Nat) : Parse (Option Expr) := do
  if ← upNext (.symbol close) then return none else some <$> expression n

/-- The rest of a `return`. -/
def returnRest (keyword : Position) (n : Nat) : Parse Stmt := do
  let value ← expressionUntil .semicolon n
  let _ ← expect (.symbol .semicolon) .returnEnd
  return .ret keyword value

/-- A condition in parentheses. -/
def condition (opening closing : SyntaxFault) (n : Nat) : Parse Expr := do
  let _ ← expect (.symbol .leftParen) opening
  let e ← expression n
  let _ ← expect (.symbol .rightParen) closing
  return e

/-- The first clause of a `for` loop. -/
def forStart (n : Nat) : Parse (Option Stmt) := do
  match ← acceptAny [.symbol .semicolon, .keyword .kwVal] with
  | none => some <$> expressionStatement n
  | some t => if t.kind = .symbol .semicolon then return none else some <$> valRest n

/-- A `for` loop in terms of `while`: the step runs after the body in a block of their own, a
    missing condition is true, and the loop runs in a block after its first clause. -/
def forLoop (keyword : Position) (first : Option Stmt) (condition step : Option Expr)
    (body : Stmt) : Stmt :=
  let body :=
    match step with
    | some e => .block [body, .expression e]
    | none => body
  let loop := .whileLoop keyword (condition.getD (.literal (.boolean true))) body
  match first with
  | some s => .block [s, loop]
  | none => loop

/-- Whether reading may go on at a token of kind `k` after a fault. -/
def startsStatement (k : Kind) : Bool :=
  k ∈ [Kind.keyword .kwClass, .keyword .kwDef, .keyword .kwVal, .keyword .kwFor, .keyword .kwIf,
    .keyword .kwWhile, .keyword .kwReturn]

/-- What is left after the tokens up to a place where a statement may start: after a semicolon, or
    before a keyword that starts one. -/
def resume : List Token → List Token
  | [] => []
  | t :: rest =>
    if t.kind = .symbol .semicolon then rest
    else
      -- The token at hand is passed over even if it could start a statement.
      match rest with
      | next :: _ => if startsStatement next.kind then rest else resume rest
      | [] => []

/-- Runs a rule; if it stops with a fault, the fault is reported and reading goes on at the next
    statement. At least one token is passed over. -/
def recovering (rule : Parse Stmt) : Parse (Option Stmt) :=
  fun c =>
    match rule c with
    | .ok s c => .ok (some s) c
    -- Identities that the faulty part has used are not given back.
    | .error fault c =>
      .ok none { c with ahead := resume c.ahead, faults := c.faults ++ [fault] }

mutual

/-- A declaration or a statement, or nothing after a fault. -/
def declaration : Nat → Parse (Option Stmt)
  | 0 => recovering (fail .tooDeep)
  | n + 1 => recovering do
    match ← acceptAny [.keyword .kwClass, .keyword .kwDef, .keyword .kwVal] with
    | none => statement n
    | some t =>
      match t.kind with
      | .keyword .kwClass => classRest n
      | .keyword .kwDef => Stmt.funDecl <$> function n .function
      | _ => valRest n

/-- The rest of a class. -/
def classRest : Nat → Parse Stmt
  | 0 => fail .tooDeep
  | n + 1 => do
    let name ← expectName .className
    let superclass ←
      match ← accept (.symbol .less) with
      | none => pure none
      | some _ =>
        let superclass ← expectName .superclassName
        some <$> reference superclass
    let _ ← expect (.symbol .leftBrace) .classOpen
    let methods ← methods n
    let _ ← expect (.symbol .rightBrace) .classClose
    return .classDecl name superclass methods

/-- Methods up to a closing brace. -/
def methods : Nat → Parse (List FunctionDecl)
  | 0 => fail .tooDeep
  | n + 1 => do
    -- At the end of input the rule stops too; the missing brace is for the rule outside to report.
    if (← upNext (.symbol .rightBrace)) || (← atEnd) then return []
    let method ← function n .method
    let more ← methods n
    return method :: more

/-- A function from its name on. -/
def function : Nat → Routine → Parse FunctionDecl
  | 0, _ => fail .tooDeep
  | n + 1, r => do
    let name ← expectName (.routineName r)
    let _ ← expect (.symbol .leftParen) (.routineOpen r)
    let params ← if ← upNext (.symbol .rightParen) then pure [] else parameters n 0
    let _ ← expect (.symbol .rightParen) .parametersClose
    let returns ← typeAfter .arrow
    let _ ← expect (.symbol .leftBrace) (.routineBody r)
    let body ← block n
    return ⟨name, params, returns, body⟩

/-- A block from after its opening brace on. -/
def block : Nat → Parse (List Stmt)
  | 0 => fail .tooDeep
  | n + 1 => do
    let body ← declarations n
    let _ ← expect (.symbol .rightBrace) .blockClose
    return body

/-- Declarations up to a closing brace. -/
def declarations : Nat → Parse (List Stmt)
  | 0 => fail .tooDeep
  | n + 1 => do
    -- As for methods, a missing brace is for the rule outside to report.
    if (← upNext (.symbol .rightBrace)) || (← atEnd) then return []
    let s ← declaration n
    let more ← declarations n
    return s.toList ++ more

/-- A statement that declares nothing. -/
def statement : Nat → Parse Stmt
  | 0 => fail .tooDeep
  | n + 1 => do
    let starts : List Kind := [.keyword .kwFor, .keyword .kwIf, .keyword .kwReturn,
      .keyword .kwWhile, .symbol .leftBrace]
    match ← acceptAny starts with
    | none => expressionStatement n
    | some t =>
      match t.kind with
      | .keyword .kwFor => forRest n t.pos
      | .keyword .kwIf => ifRest n t.pos
      | .keyword .kwReturn => returnRest t.pos n
      | .keyword .kwWhile => whileRest n t.pos
      | _ => Stmt.block <$> block n

/-- The rest of a `for` loop. -/
def forRest : Nat → Position → Parse Stmt
  | 0, _ => fail .tooDeep
  | n + 1, keyword => do
    let _ ← expect (.symbol .leftParen) .forOpen
    let first ← forStart n
    let condition ← expressionUntil .semicolon n
    let _ ← expect (.symbol .semicolon) .forCondition
    let step ← expressionUntil .rightParen n
    let _ ← expect (.symbol .rightParen) .forClose
    let body ← statement n
    return forLoop keyword first condition step body

/-- The rest of an `if`. An `else` belongs to the nearest `if`. -/
def ifRest : Nat → Position → Parse Stmt
  | 0, _ => fail .tooDeep
  | n + 1, keyword => do
    let cond ← condition .ifOpen .ifClose n
    let yes ← statement n
    match ← accept (.keyword .kwElse) with
    | none => return .ifThen keyword cond yes
    | some _ =>
      let no ← statement n
      return .ifElse keyword cond yes no

/-- The rest of a `while` loop. -/
def whileRest : Nat → Position → Parse Stmt
  | 0, _ => fail .tooDeep
  | n + 1, keyword => do
    let cond ← condition .whileOpen .whileClose n
    let body ← statement n
    return .whileLoop keyword cond body

end

/-- Declarations up to the end of input. -/
def program : Nat → Parse Program
  | 0 => fail .tooDeep
  | n + 1 => do
    if ← atEnd then return []
    let s ← declaration n
    let more ← program n
    return s.toList ++ more

end Parse

/-- A budget that covers every way to read `tokens`. -/
def budget (tokens : List Token) : Nat := 32 * (tokens.length + 1)

/-- The program that a token list is, or every fault in it. -/
def parse (tokens : List Token) : Except (List (Located SyntaxFault)) Program :=
  match Parse.program (budget tokens) (.ofTokens tokens) with
  | .ok statements c => if c.faults.isEmpty then .ok statements else .error c.faults
  | .error fault c => .error (c.faults ++ [fault])

end ClassScript
