import ClassScript.Program

namespace ClassScript

/-!
# The grammar

The grammar of the language as a derivation relation over tokens, said without the parser. A
derivation goes from one mark to another: from the tokens that stand before a phrase to those that
stand after it. Marks also carry the next free identity, so that a phrase determines the identities
of the uses of names in its tree.

* `Grammar.Phrase`: the phrases, each with the tree that stands for it;
* `Grammar.Derives`: the rules;
* `ElseRule`: as it is written, the grammar lets an `else` belong to any `if` that is still without
  one; the language takes the nearest;
* `Grammar.Reads`: the programs that a token list stands for.
-/

/-- Which `if` an `else` may belong to. -/
inductive ElseRule where
  /-- Any `if` before it that is still without one, as in the grammar as it is written. -/
  | free
  /-- The nearest `if` before it that is still without one. -/
  | nearest
deriving DecidableEq

/-- The name that an identifier or a keyword is read as. -/
abbrev Token.asName (t : Token) : Name := ⟨t.lexeme, t.pos⟩

namespace Grammar

/-- A place between tokens: what stands after it, and the next free identity. -/
structure Mark where
  ahead : List Token
  nextId : Nat

/-- The next token is of none of the given kinds. -/
def Mark.Lacks (m : Mark) (ks : List Kind) : Prop := ∀ t ∈ m.ahead.head?, t.kind ∉ ks

/-- The kinds of the binary operators by level, the loosest level first. -/
def operators : List (List Kind) :=
  [[.keyword .kwOr],
    [.keyword .kwAnd],
    [.symbol .bangEqual, .symbol .equalEqual],
    [.symbol .greater, .symbol .greaterEqual, .symbol .less, .symbol .lessEqual],
    [.symbol .minus, .symbol .plus],
    [.symbol .slash, .symbol .star, .symbol .percent],
    [.symbol .caret]]

/-- The tree of an operator between two operands. -/
def operation (left : Expr) (operator : Token) (right : Expr) : Expr :=
  match operator.kind with
  | .keyword _ => .logical left operator right
  | _ => .binary left operator right

/-- The constant that a token denotes. -/
def constant? : Kind → Option Literal
  | .keyword .kwTrue => some (.boolean true)
  | .keyword .kwFalse => some (.boolean false)
  | .keyword .kwNull => some .null
  | .number value => some (.number value)
  | .string text => some (.string text)
  | _ => none

/-- The type that a keyword denotes. -/
def plainType? : Kind → Option TypeName
  | .keyword .kwBoolean => some .boolean
  | .keyword .kwNumber => some .number
  | .keyword .kwString => some .string
  | .keyword .kwVoid => some .void
  | _ => none

/-- A `for` loop in terms of `while`:
    `for (first; condition; step) body` is `{ first; while (condition) { body step; } }`. A missing
    clause leaves its block out, and a missing condition is true. -/
def desugared (keyword : Position) (first : Option Stmt) (condition step : Option Expr)
    (body : Stmt) : Stmt :=
  let test := condition.getD (.literal (.boolean true))
  match first, step with
  | none, none => .whileLoop keyword test body
  | none, some e => .whileLoop keyword test (.block [body, .expression e])
  | some s, none => .block [s, .whileLoop keyword test body]
  | some s, some e => .block [s, .whileLoop keyword test (.block [body, .expression e])]

/-- The phrases of the grammar with their trees. -/
inductive Phrase where
  /-- Any number of declarations: what a program and a block consist of. -/
  | declarations (ss : List Stmt)
  | declaration (s : Stmt)
  /-- What stands after the name of a class: a superclass or nothing. -/
  | heritage (superclass : Option Reference)
  | methods (decls : List FunctionDecl)
  /-- A function from its name on. -/
  | function (decl : FunctionDecl)
  /-- Parameters between parentheses, which may be none. -/
  | parameterList (ps : List Param)
  /-- One or more parameters. -/
  | parameters (ps : List Param)
  | type (t : TypeName)
  /-- A type after the symbol `mark`, or nothing. -/
  | typeAfter (mark : Symbol) (t : Option TypeName)
  /-- A variable from its name on. -/
  | binding (s : Stmt)
  /-- The initializer of a variable, or nothing. -/
  | initializer (e : Option Expr)
  /-- A block with its braces. -/
  | block (ss : List Stmt)
  /-- A statement; `dangling` says that it ends with an `if` that is still without an `else`. -/
  | statement (s : Stmt) (dangling : Bool)
  /-- The first clause of a `for` loop. -/
  | firstClause (s : Option Stmt)
  /-- An expression in parentheses. -/
  | condition (e : Expr)
  /-- An expression or nothing. -/
  | optional (e : Option Expr)
  | expression (e : Expr)
  | ternary (e : Expr)
  /-- Binary operators of the given levels. -/
  | binary (levels : List (List Kind)) (e : Expr)
  | unary (e : Expr)
  | call (e : Expr)
  /-- Arguments between parentheses, which may be none. -/
  | argumentList (es : List Expr)
  /-- One or more arguments. -/
  | arguments (es : List Expr)
  | primary (e : Expr)

/-- The rules of the grammar. `Derives rule m p m'` says that the tokens from `m` to `m'` are the
    phrase `p`. -/
inductive Derives (rule : ElseRule) : Mark → Phrase → Mark → Prop where
  -- `program → declaration* EOF`, `block → "{" declaration* "}"`
  | declarationsNil {m} : Derives rule m (.declarations []) m
  | declarationsCons {m m' m'' s ss} :
      Derives rule m (.declaration s) m' → Derives rule m' (.declarations ss) m'' →
      Derives rule m (.declarations (s :: ss)) m''
  | block {opening closing ts us i j ss} :
      opening.kind = .symbol .leftBrace →
      Derives rule ⟨ts, i⟩ (.declarations ss) ⟨closing :: us, j⟩ →
      closing.kind = .symbol .rightBrace →
      Derives rule ⟨opening :: ts, i⟩ (.block ss) ⟨us, j⟩
  -- `declaration → "class" classDecl | "def" function | "val" valDecl | statement`
  | classDeclaration {keyword name opening closing ts us vs i j k superclass decls} :
      keyword.kind = .keyword .kwClass → name.kind = .identifier →
      Derives rule ⟨ts, i⟩ (.heritage superclass) ⟨opening :: us, j⟩ →
      opening.kind = .symbol .leftBrace →
      Derives rule ⟨us, j⟩ (.methods decls) ⟨closing :: vs, k⟩ →
      closing.kind = .symbol .rightBrace →
      Derives rule ⟨keyword :: name :: ts, i⟩
        (.declaration (.classDecl name.asName superclass decls)) ⟨vs, k⟩
  | functionDeclaration {keyword ts i m decl} :
      keyword.kind = .keyword .kwDef → Derives rule ⟨ts, i⟩ (.function decl) m →
      Derives rule ⟨keyword :: ts, i⟩ (.declaration (.funDecl decl)) m
  | variableDeclaration {keyword ts i m s} :
      keyword.kind = .keyword .kwVal → Derives rule ⟨ts, i⟩ (.binding s) m →
      Derives rule ⟨keyword :: ts, i⟩ (.declaration s) m
  | statementDeclaration {m m' s dangling} :
      Derives rule m (.statement s dangling) m' → Derives rule m (.declaration s) m'
  -- `classDecl → IDENT ( "<" IDENT )? "{" function* "}"`
  | heritageNone {m} : Derives rule m (.heritage none) m
  | heritageSome {less name ts i} :
      less.kind = .symbol .less → name.kind = .identifier →
      Derives rule ⟨less :: name :: ts, i⟩ (.heritage (some ⟨i, name.asName⟩)) ⟨ts, i + 1⟩
  | methodsNil {m} : Derives rule m (.methods []) m
  | methodsCons {m m' m'' decl decls} :
      Derives rule m (.function decl) m' → Derives rule m' (.methods decls) m'' →
      Derives rule m (.methods (decl :: decls)) m''
  -- `function → IDENT "(" params? ")" ( "->" type )? block`
  | function {name opening closing ts us i j m m' params returns body} :
      name.kind = .identifier → opening.kind = .symbol .leftParen →
      Derives rule ⟨ts, i⟩ (.parameterList params) ⟨closing :: us, j⟩ →
      closing.kind = .symbol .rightParen → params.length ≤ 255 →
      Derives rule ⟨us, j⟩ (.typeAfter .arrow returns) m → Derives rule m (.block body) m' →
      Derives rule ⟨name :: opening :: ts, i⟩ (.function ⟨name.asName, params, returns, body⟩) m'
  -- `params → IDENT ":" type ( "," IDENT ":" type )*`
  | parameterListNil {m} : Derives rule m (.parameterList []) m
  | parameterListSome {m m' ps} :
      Derives rule m (.parameters ps) m' → Derives rule m (.parameterList ps) m'
  | parametersOne {name colon ts i m t} :
      name.kind = .identifier → colon.kind = .symbol .colon →
      Derives rule ⟨ts, i⟩ (.type t) m →
      Derives rule ⟨name :: colon :: ts, i⟩ (.parameters [⟨name.asName, t⟩]) m
  | parametersCons {name colon comma ts us i j m t ps} :
      name.kind = .identifier → colon.kind = .symbol .colon →
      Derives rule ⟨ts, i⟩ (.type t) ⟨comma :: us, j⟩ → comma.kind = .symbol .comma →
      Derives rule ⟨us, j⟩ (.parameters ps) m →
      Derives rule ⟨name :: colon :: ts, i⟩ (.parameters (⟨name.asName, t⟩ :: ps)) m
  -- `type → "Boolean" | "Number" | "String" | "Void" | IDENT`
  | typePlain {word ts i t} :
      plainType? word.kind = some t → Derives rule ⟨word :: ts, i⟩ (.type t) ⟨ts, i⟩
  | typeNamed {name ts i} :
      name.kind = .identifier →
      Derives rule ⟨name :: ts, i⟩ (.type (.named ⟨i, name.asName⟩)) ⟨ts, i + 1⟩
  | typeAfterNone {m mark} : Derives rule m (.typeAfter mark none) m
  | typeAfterSome {sign ts i m mark t} :
      sign.kind = .symbol mark → Derives rule ⟨ts, i⟩ (.type t) m →
      Derives rule ⟨sign :: ts, i⟩ (.typeAfter mark (some t)) m
  -- `valDecl → IDENT ( ":" type )? ( "=" expression )? ";"`, with a type or an initializer
  | binding {name semicolon ts us i j m t e} :
      name.kind = .identifier → Derives rule ⟨ts, i⟩ (.typeAfter .colon t) m →
      Derives rule m (.initializer e) ⟨semicolon :: us, j⟩ →
      (t.isSome ∨ e.isSome) → semicolon.kind = .symbol .semicolon →
      Derives rule ⟨name :: ts, i⟩ (.binding (.val name.asName t e)) ⟨us, j⟩
  | initializerNone {m} : Derives rule m (.initializer none) m
  | initializerSome {equal ts i m e} :
      equal.kind = .symbol .equal → Derives rule ⟨ts, i⟩ (.expression e) m →
      Derives rule ⟨equal :: ts, i⟩ (.initializer (some e)) m
  -- `statement → forStmt | ifStmt | returnStmt | whileStmt | block | exprStmt`
  | forStatement {keyword opening semicolon closing ts us vs i j k m m' first test step body
        dangling} :
      keyword.kind = .keyword .kwFor → opening.kind = .symbol .leftParen →
      Derives rule ⟨ts, i⟩ (.firstClause first) m →
      Derives rule m (.optional test) ⟨semicolon :: us, j⟩ → semicolon.kind = .symbol .semicolon →
      Derives rule ⟨us, j⟩ (.optional step) ⟨closing :: vs, k⟩ →
      closing.kind = .symbol .rightParen →
      Derives rule ⟨vs, k⟩ (.statement body dangling) m' →
      Derives rule ⟨keyword :: opening :: ts, i⟩
        (.statement (desugared keyword.pos first test step body) dangling) m'
  | ifStatement {keyword ts i m m' test yes dangling} :
      keyword.kind = .keyword .kwIf → Derives rule ⟨ts, i⟩ (.condition test) m →
      Derives rule m (.statement yes dangling) m' →
      Derives rule ⟨keyword :: ts, i⟩ (.statement (.ifThen keyword.pos test yes) true) m'
  | ifElseStatement {keyword otherwise ts us i j m m' test yes no dangling dangling'} :
      keyword.kind = .keyword .kwIf → Derives rule ⟨ts, i⟩ (.condition test) m →
      Derives rule m (.statement yes dangling) ⟨otherwise :: us, j⟩ →
      (rule = .nearest → dangling = false) → otherwise.kind = .keyword .kwElse →
      Derives rule ⟨us, j⟩ (.statement no dangling') m' →
      Derives rule ⟨keyword :: ts, i⟩ (.statement (.ifElse keyword.pos test yes no) dangling') m'
  | whileStatement {keyword ts i m m' test body dangling} :
      keyword.kind = .keyword .kwWhile → Derives rule ⟨ts, i⟩ (.condition test) m →
      Derives rule m (.statement body dangling) m' →
      Derives rule ⟨keyword :: ts, i⟩ (.statement (.whileLoop keyword.pos test body) dangling) m'
  | returnStatement {keyword semicolon ts us i j value} :
      keyword.kind = .keyword .kwReturn →
      Derives rule ⟨ts, i⟩ (.optional value) ⟨semicolon :: us, j⟩ →
      semicolon.kind = .symbol .semicolon →
      Derives rule ⟨keyword :: ts, i⟩ (.statement (.ret keyword.pos value) false) ⟨us, j⟩
  | blockStatement {m m' ss} :
      Derives rule m (.block ss) m' → Derives rule m (.statement (.block ss) false) m'
  | expressionStatement {semicolon m us j e} :
      Derives rule m (.expression e) ⟨semicolon :: us, j⟩ → semicolon.kind = .symbol .semicolon →
      Derives rule m (.statement (.expression e) false) ⟨us, j⟩
  -- The first clause of a `for` loop: `";" | "val" valDecl | exprStmt`
  | firstNone {semicolon ts i} :
      semicolon.kind = .symbol .semicolon →
      Derives rule ⟨semicolon :: ts, i⟩ (.firstClause none) ⟨ts, i⟩
  | firstVariable {keyword ts i m s} :
      keyword.kind = .keyword .kwVal → Derives rule ⟨ts, i⟩ (.binding s) m →
      Derives rule ⟨keyword :: ts, i⟩ (.firstClause (some s)) m
  | firstExpression {semicolon m us j e} :
      Derives rule m (.expression e) ⟨semicolon :: us, j⟩ → semicolon.kind = .symbol .semicolon →
      Derives rule m (.firstClause (some (.expression e))) ⟨us, j⟩
  | condition {opening closing ts us i j e} :
      opening.kind = .symbol .leftParen →
      Derives rule ⟨ts, i⟩ (.expression e) ⟨closing :: us, j⟩ →
      closing.kind = .symbol .rightParen →
      Derives rule ⟨opening :: ts, i⟩ (.condition e) ⟨us, j⟩
  | optionalNone {m} : Derives rule m (.optional none) m
  | optionalSome {m m' e} :
      Derives rule m (.expression e) m' → Derives rule m (.optional (some e)) m'
  -- `assignment → ( call "." )? IDENT "=" assignment | ternary`
  | assign {name equal ts i m value} :
      name.kind = .identifier → equal.kind = .symbol .equal →
      Derives rule ⟨ts, i + 1⟩ (.expression value) m →
      Derives rule ⟨name :: equal :: ts, i⟩ (.expression (.assign ⟨i, name.asName⟩ value)) m
  | set {dot name equal ts j m m' object value} :
      Derives rule m (.call object) ⟨dot :: name :: equal :: ts, j⟩ → dot.kind = .symbol .dot →
      name.kind = .identifier → equal.kind = .symbol .equal →
      Derives rule ⟨ts, j⟩ (.expression value) m' →
      Derives rule m (.expression (.set object name.asName value)) m'
  | plainExpression {m m' e} :
      Derives rule m (.ternary e) m' → Derives rule m (.expression e) m'
  -- `ternary → or ( "?" or ":" ternary )?`
  | choice {question colon m ts us i j m' test yes no} :
      Derives rule m (.binary operators test) ⟨question :: ts, i⟩ →
      question.kind = .symbol .question →
      Derives rule ⟨ts, i⟩ (.binary operators yes) ⟨colon :: us, j⟩ →
      colon.kind = .symbol .colon → Derives rule ⟨us, j⟩ (.ternary no) m' →
      Derives rule m (.ternary (.ternary test question.pos yes no)) m'
  | plainTernary {m m' e} :
      Derives rule m (.binary operators e) m' → Derives rule m (.ternary e) m'
  -- `level → tighter ( operator tighter )*`, read from the left; the tightest is `unary`
  | operation {operator m ts i m' kinds tighter left right} :
      Derives rule m (.binary (kinds :: tighter) left) ⟨operator :: ts, i⟩ →
      operator.kind ∈ kinds → Derives rule ⟨ts, i⟩ (.binary tighter right) m' →
      Derives rule m (.binary (kinds :: tighter) (operation left operator right)) m'
  | operand {m m' kinds tighter e} :
      Derives rule m (.binary tighter e) m' → Derives rule m (.binary (kinds :: tighter) e) m'
  | tightest {m m' e} : Derives rule m (.unary e) m' → Derives rule m (.binary [] e) m'
  -- `unary → ( "!" | "-" ) unary | call`
  | signed {operator ts i m e} :
      (operator.kind = .symbol .bang ∨ operator.kind = .symbol .minus) →
      Derives rule ⟨ts, i⟩ (.unary e) m →
      Derives rule ⟨operator :: ts, i⟩ (.unary (.unary operator e)) m
  | plainUnary {m m' e} : Derives rule m (.call e) m' → Derives rule m (.unary e) m'
  -- `call → primary ( "(" arguments? ")" | "." IDENT )*`
  | plainCall {m m' e} : Derives rule m (.primary e) m' → Derives rule m (.call e) m'
  | call {opening closing m ts us i j callee args} :
      Derives rule m (.call callee) ⟨opening :: ts, i⟩ → opening.kind = .symbol .leftParen →
      Derives rule ⟨ts, i⟩ (.argumentList args) ⟨closing :: us, j⟩ →
      closing.kind = .symbol .rightParen → args.length ≤ 255 →
      Derives rule m (.call (.call callee closing.pos args)) ⟨us, j⟩
  | get {dot name m ts i object} :
      Derives rule m (.call object) ⟨dot :: name :: ts, i⟩ → dot.kind = .symbol .dot →
      name.kind = .identifier →
      Derives rule m (.call (.get object name.asName)) ⟨ts, i⟩
  | argumentListNil {m} : Derives rule m (.argumentList []) m
  | argumentListSome {m m' es} :
      Derives rule m (.arguments es) m' → Derives rule m (.argumentList es) m'
  | argumentsOne {m m' e} :
      Derives rule m (.expression e) m' → Derives rule m (.arguments [e]) m'
  | argumentsCons {comma m ts i m' e es} :
      Derives rule m (.expression e) ⟨comma :: ts, i⟩ → comma.kind = .symbol .comma →
      Derives rule ⟨ts, i⟩ (.arguments es) m' → Derives rule m (.arguments (e :: es)) m'
  -- `primary → "true" | "false" | "null" | NUMBER | STRING | "this" | "super" "." IDENT | IDENT
  -- | "(" expression ")"`
  | constant {t ts i value} :
      constant? t.kind = some value →
      Derives rule ⟨t :: ts, i⟩ (.primary (.literal value)) ⟨ts, i⟩
  | this {t ts i} :
      t.kind = .keyword .kwThis →
      Derives rule ⟨t :: ts, i⟩ (.primary (.this ⟨i, t.asName⟩)) ⟨ts, i + 1⟩
  | super {t dot method ts i} :
      t.kind = .keyword .kwSuper → dot.kind = .symbol .dot → method.kind = .identifier →
      Derives rule ⟨t :: dot :: method :: ts, i⟩
        (.primary (.super ⟨i, t.asName⟩ method.asName)) ⟨ts, i + 1⟩
  | name {t ts i} :
      t.kind = .identifier →
      Derives rule ⟨t :: ts, i⟩ (.primary (.var ⟨i, t.asName⟩)) ⟨ts, i + 1⟩
  | grouping {opening closing ts us i j e} :
      opening.kind = .symbol .leftParen →
      Derives rule ⟨ts, i⟩ (.expression e) ⟨closing :: us, j⟩ →
      closing.kind = .symbol .rightParen →
      Derives rule ⟨opening :: ts, i⟩ (.primary (.grouping e)) ⟨us, j⟩

/-- The tokens before the first end of input. -/
def body (tokens : List Token) : List Token := tokens.takeWhile fun t => !t.isEnd

theorem length_body_le (tokens : List Token) : (body tokens).length ≤ tokens.length :=
  (List.takeWhile_sublist _).length_le

/-- The tokens before the first end of input derive the program `p`; its uses of names are numbered
    from zero. -/
def Reads (rule : ElseRule) (tokens : List Token) (p : Program) : Prop :=
  ∃ n, Derives rule ⟨body tokens, 0⟩ (.declarations p) ⟨[], n⟩

end Grammar

end ClassScript
