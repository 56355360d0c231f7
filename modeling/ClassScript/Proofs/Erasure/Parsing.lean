import ClassScript.Program.Parser
import ClassScript.Proofs.Erasure.Trees

namespace ClassScript

/-!
# Reading without positions

The rules of the grammar look at the kinds and the texts of tokens and never at their positions, so
that they read erased tokens as they read the tokens, and what they give is the same, erased. So is
every fault, and a fault passes over the same tokens.

* `Cursor.erase`, `Parse.Erases`: rules on erased tokens;
* `Parse.expressionsErase`, `Parse.statementsErase`: the rules;
* `parse_erase`: token lists.
-/

/-- A cursor over erased tokens. -/
def Cursor.erase (c : Cursor) : Cursor :=
  ⟨c.ahead.map Token.erase, .start, c.nextId, c.faults.map Located.erase⟩

theorem Cursor.here_erase (c : Cursor) : c.erase.here = .start := by
  obtain ⟨ahead, stop, nextId, faults⟩ := c
  cases ahead <;> rfl

/-- Reading starts with the erased tokens. -/
theorem Cursor.ofTokens_erase (tokens : List Token) :
    Cursor.ofTokens (tokens.map Token.erase) = (Cursor.ofTokens tokens).erase := by
  have hkind : (Token.isEnd ∘ Token.erase) = Token.isEnd := rfl
  have hahead : (tokens.map Token.erase).takeWhile (fun t => !t.isEnd)
      = (tokens.takeWhile fun t => !t.isEnd).map Token.erase := by
    rw [List.takeWhile_map]
    rfl
  unfold ofTokens erase
  simp only [hahead, List.map_nil, List.find?_map, hkind, List.getLast?_map]
  cases tokens.find? Token.isEnd with
  | some t => rfl
  | none => cases tokens.getLast? <;> rfl

namespace Parse

/-- On erased tokens the second rule does what the first one does on the tokens. -/
abbrev Erases {α β : Type} (f : α → β) (x : Parse α) (y : Parse β) : Prop :=
  Commutes Located.erase Cursor.erase f x y

/-! ### Steps -/

section Steps

variable {α β : Type} {f : α → β}

theorem erases_failAt (pos : Position) (fault : SyntaxFault) :
    Erases f (failAt pos fault) (failAt .start fault) :=
  fun _ => rfl

theorem erases_fail (fault : SyntaxFault) : Erases f (fail fault) (fail fault) := by
  intro c
  show EStateM.Result.error (Located.mk fault c.erase.here) c.erase = _
  rw [Cursor.here_erase]
  rfl

/-- The next token is the erased one. -/
theorem erases_peek : Erases (Option.map Token.erase) peek peek := by
  intro c
  show EStateM.Result.ok (c.ahead.map Token.erase).head? c.erase = _
  rw [List.head?_map]
  rfl

/-- The next token is passed over alike. -/
theorem erases_skip : Erases id skip skip := by
  intro c
  show EStateM.Result.ok () { c.erase with ahead := (c.ahead.map Token.erase).tail } = _
  rw [← List.map_tail]
  rfl

/-- The kind of the next token is the same. -/
theorem erases_upNext (k : Kind) : Erases id (upNext k) (upNext k) := by
  rintro ⟨_ | ⟨t, rest⟩, stop, nextId, faults⟩ <;> rfl

/-- Reading is at the end where it was. -/
theorem erases_atEnd : Erases id atEnd atEnd := by
  rintro ⟨_ | ⟨t, rest⟩, stop, nextId, faults⟩ <;> rfl

/-- A token of some kinds is accepted alike. -/
theorem erases_acceptAny (ks : List Kind) :
    Erases (Option.map Token.erase) (acceptAny ks) (acceptAny ks) := by
  rintro ⟨_ | ⟨t, rest⟩, stop, nextId, faults⟩
  · rfl
  · show (if t.kind ∈ ks then _ else _) = outcome _ _ _ (if t.kind ∈ ks then _ else _)
    split <;> rfl

theorem erases_expect (k : Kind) (fault : SyntaxFault) :
    Erases Token.erase (expect k fault) (expect k fault) := by
  rintro ⟨_ | ⟨t, rest⟩, stop, nextId, faults⟩
  · rfl
  · show (if t.kind = k then _ else _) = outcome _ _ _ (if t.kind = k then _ else _)
    split <;> rfl

theorem erases_expectName (fault : SyntaxFault) :
    Erases Name.erase (expectName fault) (expectName fault) :=
  (erases_expect _ fault).bind fun _ => .pure rfl

/-- Uses of names get the same numbers. -/
theorem erases_reference (name : Name) :
    Erases Reference.erase (reference name) (reference name.erase) :=
  fun _ => rfl

end Steps

/-! ### Expressions -/

/-- The rules for expressions under one budget. -/
structure ExpressionsErase (n : Nat) : Prop where
  expression : Erases Expr.erase (expression n) (expression n)
  ternary : Erases Expr.erase (ternary n) (ternary n)
  chain (levels : List Level) : Erases Expr.erase (chain n levels) (chain n levels)
  chainRest (level : Level) (tighter : List Level) (left : Expr) :
    Erases Expr.erase (chainRest n level tighter left) (chainRest n level tighter left.erase)
  unary : Erases Expr.erase (unary n) (unary n)
  suffixes (e : Expr) : Erases Expr.erase (suffixes n e) (suffixes n e.erase)
  arguments (count : Nat) : Erases Expr.eraseAll (arguments n count) (arguments n count)
  primary : Erases Expr.erase (primary n) (primary n)

section Expressions

variable {n : Nat}

theorem expression_erases (ih : ExpressionsErase n) :
    Erases Expr.erase (expression (n + 1)) (expression (n + 1)) := by
  rw [expression]
  refine .bind ih.ternary fun target => .bind (erases_acceptAny _) fun equals => ?_
  cases equals with
  | none => exact .pure rfl
  | some t =>
    refine .bind ih.expression fun value => ?_
    cases target with
    | var ref => exact .pure rfl
    | get object name => exact .pure rfl
    | _ => exact erases_failAt _ _

theorem ternary_erases (ih : ExpressionsErase n) :
    Erases Expr.erase (ternary (n + 1)) (ternary (n + 1)) := by
  rw [ternary]
  refine .bind (ih.chain _) fun condition => .bind (erases_acceptAny _) fun question => ?_
  cases question with
  | none => exact .pure rfl
  | some t =>
    refine .bind (ih.chain _) fun yes => .bind (erases_expect _ _) fun _ => ?_
    exact .bind ih.ternary fun no => .pure rfl

theorem chain_erases (ih : ExpressionsErase n) (levels : List Level) :
    Erases Expr.erase (chain (n + 1) levels) (chain (n + 1) levels) := by
  cases levels with
  | nil =>
    rw [chain]
    exact ih.unary
  | cons level tighter =>
    rw [chain]
    exact .bind (ih.chain tighter) fun left => ih.chainRest level tighter left

theorem node_erase (level : Level) (left right : Expr) (operator : Token) :
    (level.node left operator right).erase = level.node left.erase operator.erase right.erase := by
  cases level <;> rfl

theorem chainRest_erases (ih : ExpressionsErase n) (level : Level) (tighter : List Level)
    (left : Expr) : Erases Expr.erase (chainRest (n + 1) level tighter left)
      (chainRest (n + 1) level tighter left.erase) := by
  rw [chainRest, chainRest]
  refine .bind (erases_acceptAny _) fun operator => ?_
  cases operator with
  | none => exact .pure rfl
  | some t =>
    refine .bind (ih.chain tighter) fun right => ?_
    have h := ih.chainRest level tighter (level.node left t right)
    rw [node_erase] at h
    exact h

/-- Operands with signs are read alike. -/
theorem unary_erases (ih : ExpressionsErase n) :
    Erases Expr.erase (unary (n + 1)) (unary (n + 1)) := by
  rw [unary]
  refine .bind (erases_acceptAny _) fun operator => ?_
  cases operator with
  | none => exact .bind ih.primary fun callee => ih.suffixes callee
  | some t => exact .bind ih.unary fun operand => .pure rfl

theorem suffixes_erases (ih : ExpressionsErase n) (e : Expr) :
    Erases Expr.erase (suffixes (n + 1) e) (suffixes (n + 1) e.erase) := by
  rw [suffixes, suffixes]
  refine .bind (erases_acceptAny _) fun suffix => ?_
  cases suffix with
  | none => exact .pure rfl
  | some t =>
    have close (args : List Expr) : Erases Expr.erase
        (do
          let paren ← expect (.symbol .rightParen) .argumentsClose
          suffixes n (.call e paren.pos args))
        (do
          let paren ← expect (.symbol .rightParen) .argumentsClose
          suffixes n (.call e.erase paren.pos (Expr.eraseAll args))) :=
      .bind (erases_expect _ _) fun paren => ih.suffixes (.call e paren.pos args)
    by_cases hparen : t.kind = .symbol .leftParen
    · simp only [Option.map_some, Token.erase, hparen, if_true]
      refine .bind (erases_upNext _) fun b => ?_
      cases b with
      | true => exact close []
      | false => exact .bind (ih.arguments 0) fun args => close args
    · simp only [Option.map_some, Token.erase, hparen, if_false]
      exact .bind (erases_expectName _) fun name => ih.suffixes (.get e name)

theorem arguments_erases (ih : ExpressionsErase n) (count : Nat) :
    Erases Expr.eraseAll (arguments (n + 1) count) (arguments (n + 1) count) := by
  rw [arguments]
  split
  · exact erases_fail _
  · refine .bind ih.expression fun arg => .bind (erases_acceptAny _) fun comma => ?_
    cases comma with
    | none => exact .pure rfl
    | some t => exact .bind (ih.arguments (count + 1)) fun more => .pure rfl

/-- Primary expressions are read alike. -/
theorem primary_erases (ih : ExpressionsErase n) :
    Erases Expr.erase (primary (n + 1)) (primary (n + 1)) := by
  rw [primary]
  refine .bind erases_peek fun next => ?_
  cases next with
  | none => exact erases_fail _
  | some t =>
    simp only [Option.map_some, Token.erase]
    split
    · exact .bind erases_skip fun _ => .pure rfl
    · exact .bind erases_skip fun _ => .pure rfl
    · exact .bind erases_skip fun _ => .pure rfl
    · exact .bind erases_skip fun _ => .pure rfl
    · exact .bind erases_skip fun _ => .pure rfl
    · refine .bind erases_skip fun _ => .bind (erases_expect _ _) fun _ => ?_
      refine .bind (erases_expectName _) fun method => ?_
      exact .bind (erases_reference ⟨t.lexeme, t.pos⟩) fun keyword => .pure rfl
    · refine .bind erases_skip fun _ => ?_
      exact .bind (erases_reference ⟨t.lexeme, t.pos⟩) fun ref => .pure rfl
    · refine .bind erases_skip fun _ => ?_
      exact .bind (erases_reference ⟨t.lexeme, t.pos⟩) fun ref => .pure rfl
    · refine .bind erases_skip fun _ => .bind ih.expression fun inner => ?_
      exact .bind (erases_expect _ _) fun _ => .pure rfl
    · exact erases_fail _

theorem expressionsErase (n : Nat) : ExpressionsErase n := by
  induction n with
  | zero => constructor <;> intros <;> exact erases_fail _
  | succ n ih =>
    exact
      { expression := expression_erases ih
        ternary := ternary_erases ih
        chain := chain_erases ih
        chainRest := chainRest_erases ih
        unary := unary_erases ih
        suffixes := suffixes_erases ih
        arguments := arguments_erases ih
        primary := primary_erases ih }

end Expressions

/-! ### Annotations, parameters and simple statements -/

section Simple

variable {n : Nat}

theorem typeName_erases : Erases TypeName.erase typeName typeName := by
  unfold typeName
  refine .bind erases_peek fun next => ?_
  cases next with
  | none => exact erases_fail _
  | some t =>
    refine .bind erases_skip fun _ => ?_
    simp only [Token.erase]
    split
    · exact .pure rfl
    · exact .pure rfl
    · exact .pure rfl
    · exact .pure rfl
    · exact .bind (erases_reference ⟨t.lexeme, t.pos⟩) fun ref => .pure rfl
    · exact erases_failAt _ _

theorem typeAfter_erases (mark : Symbol) :
    Erases (Option.map TypeName.erase) (typeAfter mark) (typeAfter mark) := by
  unfold typeAfter
  refine .bind (erases_acceptAny _) fun next => ?_
  cases next with
  | none => exact .pure rfl
  | some t => exact .bind typeName_erases fun type => .pure rfl

theorem parameters_erases (n count : Nat) :
    Erases (List.map Param.erase) (parameters n count) (parameters n count) := by
  induction n generalizing count with
  | zero => exact erases_fail _
  | succ n ih =>
    rw [parameters]
    split
    · exact erases_fail _
    · refine .bind (erases_expectName _) fun name => .bind (erases_expect _ _) fun _ => ?_
      refine .bind typeName_erases fun type => .bind (erases_acceptAny _) fun comma => ?_
      cases comma with
      | none => exact .pure rfl
      | some t => exact .bind (ih (count + 1)) fun more => .pure rfl

/-- Declarations of variables are read alike. -/
theorem valRest_erases : Erases Stmt.erase (valRest n) (valRest n) := by
  unfold valRest
  refine .bind (erases_expectName _) fun name => .bind (typeAfter_erases _) fun type => ?_
  have close (initializer : Option Expr) : Erases Stmt.erase
      (do
        if type.isNone && initializer.isNone then failAt name.pos .valueOrType
        let _ ← expect (.symbol .semicolon) .variableEnd
        return Stmt.val name type initializer)
      (do
        let type := type.map TypeName.erase
        let initializer := initializer.map Expr.erase
        if type.isNone && initializer.isNone then failAt .start .valueOrType
        let _ ← expect (.symbol .semicolon) .variableEnd
        return Stmt.val name.erase type initializer) := by
    simp only [Option.isNone_map]
    split
    · exact erases_failAt _ _
    · exact .bind (erases_expect _ _) fun _ => .pure rfl
  refine .bind (erases_acceptAny _) fun equal => ?_
  cases equal with
  | none => exact close none
  | some t => exact .bind ((expressionsErase n).expression.map fun _ => rfl) close

theorem expressionStatement_erases :
    Erases Stmt.erase (expressionStatement n) (expressionStatement n) := by
  refine .bind (expressionsErase n).expression fun e => ?_
  exact .bind (erases_expect _ _) fun _ => .pure rfl

theorem expressionUntil_erases (close : Symbol) :
    Erases (Option.map Expr.erase) (expressionUntil close n) (expressionUntil close n) := by
  refine .bind (erases_upNext _) fun b => ?_
  cases b with
  | true => exact .pure rfl
  | false => exact (expressionsErase n).expression.map fun _ => rfl

theorem returnRest_erases (keyword : Position) :
    Erases Stmt.erase (returnRest keyword n) (returnRest .start n) := by
  refine .bind (expressionUntil_erases _) fun value => ?_
  exact .bind (erases_expect _ _) fun _ => .pure rfl

theorem condition_erases (opening closing : SyntaxFault) :
    Erases Expr.erase (condition opening closing n) (condition opening closing n) := by
  refine .bind (erases_expect _ _) fun _ => .bind (expressionsErase n).expression fun e => ?_
  exact .bind (erases_expect _ _) fun _ => .pure rfl

theorem forStart_erases : Erases (Option.map Stmt.erase) (forStart n) (forStart n) := by
  refine .bind (erases_acceptAny _) fun first => ?_
  cases first with
  | none => exact expressionStatement_erases.map fun _ => rfl
  | some t =>
    simp only [Option.map_some, Token.erase]
    split
    · exact .pure rfl
    · exact valRest_erases.map fun _ => rfl

theorem forLoop_erase (keyword : Position) (first : Option Stmt) (condition step : Option Expr)
    (body : Stmt) :
    (forLoop keyword first condition step body).erase
      = forLoop .start (first.map Stmt.erase) (condition.map Expr.erase) (step.map Expr.erase)
        body.erase := by
  cases first <;> cases condition <;> cases step <;> rfl

end Simple

/-! ### Statements with parts -/

theorem resume_map (ts : List Token) :
    resume (ts.map Token.erase) = (resume ts).map Token.erase := by
  induction ts with
  | nil => rfl
  | cons t rest ih =>
    cases rest with
    | nil =>
      simp only [List.map_cons, List.map_nil, resume, Token.erase]
      split <;> rfl
    | cons next rest =>
      simp only [List.map_cons, resume, Token.erase] at ih ⊢
      split
      · rfl
      · split
        · rfl
        · exact ih

/-- A fault passes over the same tokens. -/
theorem erases_recovering {rule rule' : Parse Stmt} (h : Erases Stmt.erase rule rule') :
    Erases (Option.map Stmt.erase) (recovering rule) (recovering rule') := by
  intro c
  unfold recovering
  rw [h c]
  cases rule c with
  | ok s c' => rfl
  | error fault c' =>
    simp only [outcome, Cursor.erase, resume_map, List.map_append]
    rfl

/-- The rules for statements under one budget. -/
structure StatementsErase (n : Nat) : Prop where
  declaration : Erases (Option.map Stmt.erase) (declaration n) (declaration n)
  classRest : Erases Stmt.erase (classRest n) (classRest n)
  methods : Erases FunctionDecl.eraseAll (methods n) (methods n)
  function (r : Routine) : Erases FunctionDecl.erase (function n r) (function n r)
  block : Erases Stmt.eraseAll (block n) (block n)
  declarations : Erases Stmt.eraseAll (declarations n) (declarations n)
  statement : Erases Stmt.erase (statement n) (statement n)
  forRest (keyword : Position) : Erases Stmt.erase (forRest n keyword) (forRest n .start)
  ifRest (keyword : Position) : Erases Stmt.erase (ifRest n keyword) (ifRest n .start)
  whileRest (keyword : Position) : Erases Stmt.erase (whileRest n keyword) (whileRest n .start)

section Statements

variable {n : Nat}

theorem declaration_erases (ih : StatementsErase n) :
    Erases (Option.map Stmt.erase) (declaration (n + 1)) (declaration (n + 1)) := by
  rw [declaration]
  refine erases_recovering (.bind (erases_acceptAny _) fun next => ?_)
  cases next with
  | none => exact ih.statement
  | some t =>
    simp only [Option.map_some, Token.erase]
    split
    · exact ih.classRest
    · exact (ih.function _).map fun _ => rfl
    · exact valRest_erases

/-- Classes are read alike behind their keyword. -/
theorem classRest_erases (ih : StatementsErase n) :
    Erases Stmt.erase (classRest (n + 1)) (classRest (n + 1)) := by
  rw [classRest]
  refine .bind (erases_expectName _) fun name => ?_
  have body (superclass : Option Reference) : Erases Stmt.erase
      (do
        let _ ← expect (.symbol .leftBrace) .classOpen
        let methods ← methods n
        let _ ← expect (.symbol .rightBrace) .classClose
        return Stmt.classDecl name superclass methods)
      (do
        let _ ← expect (.symbol .leftBrace) .classOpen
        let methods ← methods n
        let _ ← expect (.symbol .rightBrace) .classClose
        return Stmt.classDecl name.erase (superclass.map Reference.erase) methods) := by
    refine .bind (erases_expect _ _) fun _ => .bind ih.methods fun methods => ?_
    exact .bind (erases_expect _ _) fun _ => .pure rfl
  refine .bind (erases_acceptAny _) fun less => ?_
  cases less with
  | none => exact body none
  | some t =>
    refine .bind (erases_expectName _) fun superclass => ?_
    exact .bind ((erases_reference superclass).map fun _ => rfl) body

/-- The methods of a class are read alike. -/
theorem methods_erases (ih : StatementsErase n) :
    Erases FunctionDecl.eraseAll (methods (n + 1)) (methods (n + 1)) := by
  rw [methods]
  refine .bind (erases_upNext _) fun b => .bind erases_atEnd fun b' => ?_
  simp only [id]
  split
  · exact .pure rfl
  · exact .bind (ih.function .method) fun method => .bind ih.methods fun more => .pure rfl

theorem function_erases (ih : StatementsErase n) (r : Routine) :
    Erases FunctionDecl.erase (function (n + 1) r) (function (n + 1) r) := by
  rw [function]
  refine .bind (erases_expectName _) fun name => .bind (erases_expect _ _) fun _ => ?_
  have rest (params : List Param) : Erases FunctionDecl.erase
      (do
        let _ ← expect (.symbol .rightParen) .parametersClose
        let returns ← typeAfter .arrow
        let _ ← expect (.symbol .leftBrace) (.routineBody r)
        let body ← block n
        return (⟨name, params, returns, body⟩ : FunctionDecl))
      (do
        let _ ← expect (.symbol .rightParen) .parametersClose
        let returns ← typeAfter .arrow
        let _ ← expect (.symbol .leftBrace) (.routineBody r)
        let body ← block n
        return (⟨name.erase, params.map Param.erase, returns, body⟩ : FunctionDecl)) := by
    refine .bind (erases_expect _ _) fun _ => .bind (typeAfter_erases _) fun returns => ?_
    exact .bind (erases_expect _ _) fun _ => .bind ih.block fun body => .pure rfl
  refine .bind (erases_upNext _) fun b => ?_
  cases b with
  | true => exact rest []
  | false => exact .bind (parameters_erases n 0) rest

/-- Blocks are read alike. -/
theorem block_erases (ih : StatementsErase n) :
    Erases Stmt.eraseAll (block (n + 1)) (block (n + 1)) := by
  rw [block]
  exact .bind ih.declarations fun body => .bind (erases_expect _ _) fun _ => .pure rfl

theorem eraseAll_toList_append (s : Option Stmt) (more : List Stmt) :
    Stmt.eraseAll (s.toList ++ more) = (s.map Stmt.erase).toList ++ Stmt.eraseAll more := by
  cases s <;> rfl

/-- The declarations of a block are read alike. -/
theorem declarations_erases (ih : StatementsErase n) :
    Erases Stmt.eraseAll (declarations (n + 1)) (declarations (n + 1)) := by
  rw [declarations]
  refine .bind (erases_upNext _) fun b => .bind erases_atEnd fun b' => ?_
  simp only [id]
  split
  · exact .pure rfl
  · refine .bind ih.declaration fun s => .bind ih.declarations fun more => ?_
    exact .pure (eraseAll_toList_append s more)

theorem statement_erases (ih : StatementsErase n) :
    Erases Stmt.erase (statement (n + 1)) (statement (n + 1)) := by
  rw [statement]
  refine .bind (erases_acceptAny _) fun next => ?_
  cases next with
  | none => exact expressionStatement_erases
  | some t =>
    simp only [Option.map_some, Token.erase]
    split
    · exact ih.forRest t.pos
    · exact ih.ifRest t.pos
    · exact returnRest_erases t.pos
    · exact ih.whileRest t.pos
    · exact ih.block.map fun _ => rfl

theorem forRest_erases (ih : StatementsErase n) (keyword : Position) :
    Erases Stmt.erase (forRest (n + 1) keyword) (forRest (n + 1) .start) := by
  rw [forRest, forRest]
  refine .bind (erases_expect _ _) fun _ => .bind forStart_erases fun first => ?_
  refine .bind (expressionUntil_erases _) fun condition => .bind (erases_expect _ _) fun _ => ?_
  refine .bind (expressionUntil_erases _) fun step => .bind (erases_expect _ _) fun _ => ?_
  exact .bind ih.statement fun body => .pure (forLoop_erase keyword first condition step body)

theorem ifRest_erases (ih : StatementsErase n) (keyword : Position) :
    Erases Stmt.erase (ifRest (n + 1) keyword) (ifRest (n + 1) .start) := by
  rw [ifRest, ifRest]
  refine .bind (condition_erases _ _) fun cond => .bind ih.statement fun yes => ?_
  refine .bind (erases_acceptAny _) fun next => ?_
  cases next with
  | none => exact .pure rfl
  | some t => exact .bind ih.statement fun no => .pure rfl

theorem whileRest_erases (ih : StatementsErase n) (keyword : Position) :
    Erases Stmt.erase (whileRest (n + 1) keyword) (whileRest (n + 1) .start) := by
  rw [whileRest, whileRest]
  exact .bind (condition_erases _ _) fun cond => .bind ih.statement fun body => .pure rfl

theorem statementsErase (n : Nat) : StatementsErase n := by
  induction n with
  | zero =>
    constructor
    · exact erases_recovering (erases_fail _)
    all_goals intros; exact erases_fail _
  | succ n ih =>
    exact
      { declaration := declaration_erases ih
        classRest := classRest_erases ih
        methods := methods_erases ih
        function := function_erases ih
        block := block_erases ih
        declarations := declarations_erases ih
        statement := statement_erases ih
        forRest := forRest_erases ih
        ifRest := ifRest_erases ih
        whileRest := whileRest_erases ih }

/-- Programs are read alike without positions. -/
theorem program_erases (n : Nat) : Erases Stmt.eraseAll (program n) (program n) := by
  induction n with
  | zero => exact erases_fail _
  | succ n ih =>
    rw [program]
    refine .bind erases_atEnd fun b => ?_
    cases b with
    | true => exact .pure rfl
    | false =>
      refine .bind (statementsErase n).declaration fun s => .bind ih fun more => ?_
      exact .pure (eraseAll_toList_append s more)

end Statements

end Parse

/-- Erased tokens are read like the tokens, as the same program or with the same faults, erased. -/
theorem parse_erase (tokens : List Token) :
    parse (tokens.map Token.erase)
      = ((parse tokens).map Stmt.eraseAll).mapError (List.map Located.erase) := by
  have hbudget : budget (tokens.map Token.erase) = budget tokens := by
    rw [budget, budget, List.length_map]
  unfold parse
  rw [hbudget, Cursor.ofTokens_erase, Parse.program_erases _ _]
  cases Parse.program (budget tokens) (.ofTokens tokens) with
  | ok statements c =>
    show (if (c.faults.map Located.erase).isEmpty = true then _ else _) = _
    rw [List.isEmpty_map]
    by_cases h : c.faults.isEmpty = true
    · simp only [h, if_true]
      rfl
    · simp only [h]
      rfl
  | error fault c =>
    show Except.error (c.faults.map Located.erase ++ [fault.erase])
      = Except.error ((c.faults ++ [fault]).map Located.erase)
    rw [List.map_append]
    rfl

end ClassScript
