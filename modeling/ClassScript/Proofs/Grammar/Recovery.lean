import ClassScript.Proofs.Grammar.Trails

namespace ClassScript

/-!
# Reading ends, and reports faults in order

No more than twenty rules call each other before a token is read, so a budget of twenty steps for
each token and some more is enough for every rule, and any larger budget gives the same.

* `Parse.ExpressionsAgree`, `Parse.StatementsAgree`: the rules under two budgets that leave room;
* `Parse.program_agree`: all of a program.
-/

namespace Parse

/-- Two budgets leave room for a rule at the index `i`: twenty steps for each token still to be
    read, and `rank` for the rules up to the next token. -/
def Covered (base : Cursor) (i rank n m : Nat) : Prop :=
  20 * (base.ahead.length - i) + rank ≤ n ∧ 20 * (base.ahead.length - i) + rank ≤ m

/-! ### Expressions -/

/-- The rules for expressions under two budgets: they do the same, and report no faults. -/
structure ExpressionsAgree (base : Cursor) (n m : Nat) : Prop where
  expression {since i : Nat} : Covered base i 12 n m →
    Agree base .never since i i (expression n) (expression m)
  ternary {since i : Nat} : Covered base i 11 n m →
    Agree base .never since i i (ternary n) (ternary m)
  chain {since i : Nat} (levels : List Level) :
    levels.length ≤ 7 → Covered base i (3 + levels.length) n m →
      Agree base .never since i i (chain n levels) (chain m levels)
  chainRest {since i : Nat} (level : Level) (tighter : List Level) (left : Expr) :
    tighter.length ≤ 6 → Covered base i 1 n m →
      Agree base .never since i i (chainRest n level tighter left) (chainRest m level tighter left)
  unary {since i : Nat} : Covered base i 2 n m →
    Agree base .never since i i (unary n) (unary m)
  suffixes {since i : Nat} (e : Expr) : Covered base i 1 n m →
    Agree base .never since i i (suffixes n e) (suffixes m e)
  arguments {since i : Nat} (count : Nat) : Covered base i 13 n m →
    Agree base .never since i i (arguments n count) (arguments m count)
  primary {since i : Nat} : Covered base i 1 n m →
    Agree base .never since i i (primary n) (primary m)

section Expressions

variable {base : Cursor} {since i n m : Nat}

theorem expression_agree (ih : ExpressionsAgree base n m) (h : Covered base i 12 (n + 1) (m + 1)) :
    Agree base .never since i i (expression (n + 1)) (expression (m + 1)) := by
  unfold Covered at h
  rw [expression, expression]
  refine .bindQuiet (ih.ternary ⟨by omega, by omega⟩) fun target j hj _ => ?_
  refine .acceptAny (.pure hj) fun equals hnext _ => ?_
  have hlt := hnext.lt_length
  refine .bindQuiet (ih.expression ⟨by omega, by omega⟩) fun value j' hj' _ => ?_
  split
  · exact .pure (by omega)
  · exact .pure (by omega)
  · -- The fault is at the sign; the value behind it was read without any.
    exact .failAt hnext.since_le (by omega) hnext.pos_eq (by decide)

theorem ternary_agree (ih : ExpressionsAgree base n m) (h : Covered base i 11 (n + 1) (m + 1)) :
    Agree base .never since i i (ternary (n + 1)) (ternary (m + 1)) := by
  unfold Covered at h
  have hlevels : Level.all.length = 7 := rfl
  rw [ternary, ternary]
  refine .bindQuiet (ih.chain _ (by decide) ⟨by omega, by omega⟩) fun condition j hj _ => ?_
  refine .acceptAny (.pure hj) fun question hnext _ => ?_
  have hlt := hnext.lt_length
  refine .bindQuiet (ih.chain _ (by decide) ⟨by omega, by omega⟩) fun yes j' hj' _ => ?_
  refine .expect (by decide) fun colon _ => ?_
  refine .bindQuiet (ih.ternary ⟨by omega, by omega⟩) fun no j'' hj'' _ => ?_
  exact .pure (by omega)

theorem chain_agree (ih : ExpressionsAgree base n m) (levels : List Level) (hl : levels.length ≤ 7)
    (h : Covered base i (3 + levels.length) (n + 1) (m + 1)) :
    Agree base .never since i i (chain (n + 1) levels) (chain (m + 1) levels) := by
  unfold Covered at h
  cases levels with
  | nil =>
    rw [chain, chain]
    exact ih.unary ⟨by simp at h; omega, by simp at h; omega⟩
  | cons level tighter =>
    rw [List.length_cons] at h hl
    rw [chain, chain]
    refine .bindQuiet (ih.chain tighter (by omega) ⟨by omega, by omega⟩) fun left j hj _ => ?_
    exact (ih.chainRest level tighter left (by omega) ⟨by omega, by omega⟩).toward (by omega)

theorem chainRest_agree (ih : ExpressionsAgree base n m) (level : Level) (tighter : List Level)
    (left : Expr) (hl : tighter.length ≤ 6) (h : Covered base i 1 (n + 1) (m + 1)) :
    Agree base .never since i i (chainRest (n + 1) level tighter left)
      (chainRest (m + 1) level tighter left) := by
  unfold Covered at h
  rw [chainRest, chainRest]
  refine .acceptAny (.pure (Nat.le_refl i)) fun operator hnext _ => ?_
  have hlt := hnext.lt_length
  -- The operator that was read pays for the higher rank of the tighter levels.
  refine .bindQuiet (ih.chain tighter (by omega) ⟨by omega, by omega⟩) fun right j hj _ => ?_
  exact (ih.chainRest _ _ _ hl ⟨by omega, by omega⟩).toward (by omega)

theorem unary_agree (ih : ExpressionsAgree base n m) (h : Covered base i 2 (n + 1) (m + 1)) :
    Agree base .never since i i (unary (n + 1)) (unary (m + 1)) := by
  unfold Covered at h
  rw [unary, unary]
  refine .acceptAny ?_ fun operator hnext _ => ?_
  · refine .bindQuiet (ih.primary ⟨by omega, by omega⟩) fun callee j hj _ => ?_
    exact (ih.suffixes callee ⟨by omega, by omega⟩).toward (by omega)
  · have hlt := hnext.lt_length
    refine .bindQuiet (ih.unary ⟨by omega, by omega⟩) fun operand j hj _ => ?_
    exact .pure (by omega)

theorem suffixes_agree (ih : ExpressionsAgree base n m) (e : Expr)
    (h : Covered base i 1 (n + 1) (m + 1)) :
    Agree base .never since i i (suffixes (n + 1) e) (suffixes (m + 1) e) := by
  unfold Covered at h
  rw [suffixes, suffixes]
  refine .acceptAny (.pure (Nat.le_refl i)) fun t hnext _ => ?_
  have hlt := hnext.lt_length
  simp only
  split
  · -- Both ways to the closing parenthesis go on alike from there.
    have close (args : List Expr) (j : Nat) (hj : i + 1 ≤ j) : Agree base .never since j i
        (do
          let paren ← expect (.symbol .rightParen) .argumentsClose
          suffixes n (.call e paren.pos args))
        (do
          let paren ← expect (.symbol .rightParen) .argumentsClose
          suffixes m (.call e paren.pos args)) := by
      refine .expect (by decide) fun paren hparen => ?_
      exact (ih.suffixes _ ⟨by omega, by omega⟩).toward (by omega)
    refine .upNext fun b => ?_
    cases b with
    | true => exact close [] (i + 1) (Nat.le_refl _)
    | false =>
      refine .bindQuiet (ih.arguments 0 ⟨by omega, by omega⟩) fun args j hj _ => ?_
      exact close args j hj
  · refine .expectName (by decide) fun name hname => ?_
    exact (ih.suffixes _ ⟨by omega, by omega⟩).toward (by omega)

/-- Arguments, each time after a comma. -/
theorem arguments_agree (ih : ExpressionsAgree base n m) (count : Nat)
    (h : Covered base i 13 (n + 1) (m + 1)) :
    Agree base .never since i i (arguments (n + 1) count) (arguments (m + 1) count) := by
  unfold Covered at h
  rw [arguments, arguments]
  split
  · exact .fail (by decide)
  · refine .bindQuiet (ih.expression ⟨by omega, by omega⟩) fun arg j hj _ => ?_
    refine .acceptAny (.pure hj) fun comma hnext _ => ?_
    have hlt := hnext.lt_length
    refine .bindQuiet (ih.arguments (count + 1) ⟨by omega, by omega⟩) fun more j' hj' _ => ?_
    exact .pure (by omega)

/-- A primary expression reads a token at once. -/
theorem primary_agree (ih : ExpressionsAgree base n m) (h : Covered base i 1 (n + 1) (m + 1)) :
    Agree base .never since i i (primary (n + 1)) (primary (m + 1)) := by
  unfold Covered at h
  rw [primary, primary]
  refine .peek (.fail (by decide)) fun t hnext => ?_
  have hlt := hnext.lt_length
  simp only
  split
  · exact .skip (.pure (Nat.le_succ i))
  · exact .skip (.pure (Nat.le_succ i))
  · exact .skip (.pure (Nat.le_succ i))
  · exact .skip (.pure (Nat.le_succ i))
  · exact .skip (.pure (Nat.le_succ i))
  · refine .skip (.expect (by decide) fun dot _ => .expectName (by decide) fun method _ => ?_)
    exact .reference fun keyword => .pure (by omega)
  · exact .skip (.reference fun ref => .pure (Nat.le_succ i))
  · exact .skip (.reference fun ref => .pure (Nat.le_succ i))
  · refine .skip (.bindQuiet (ih.expression ⟨by omega, by omega⟩) fun inner j hj _ => ?_)
    exact .expect (by decide) fun paren _ => .pure (by omega)
  · exact .of_agree (.fail (by decide))

/-- Expressions are read without reports, and alike under all budgets that leave room. -/
theorem expressionsAgree (base : Cursor) (n m : Nat) : ExpressionsAgree base n m := by
  induction n generalizing m with
  -- Every rank is positive, so no budget of zero leaves room.
  | zero => constructor <;> intros <;> rename_i h <;> unfold Covered at h <;> omega
  | succ n ih =>
    cases m with
    | zero => constructor <;> intros <;> rename_i h <;> unfold Covered at h <;> omega
    | succ m =>
      exact
        { expression := expression_agree (ih m)
          ternary := ternary_agree (ih m)
          chain := chain_agree (ih m)
          chainRest := chainRest_agree (ih m)
          unary := unary_agree (ih m)
          suffixes := suffixes_agree (ih m)
          arguments := arguments_agree (ih m)
          primary := primary_agree (ih m) }

end Expressions

/-! ### Annotations, parameters and simple statements -/

section Simple

variable {base : Cursor} {since i n m : Nat}

/-- A type reads a token, or fails at once. -/
theorem typeName_agree : Agree base .never since i (i + 1) typeName typeName := by
  unfold typeName
  refine .peek (.fail (by decide)) fun t hnext => .skip ?_
  split
  · exact .pure (Nat.le_refl _)
  · exact .pure (Nat.le_refl _)
  · exact .pure (Nat.le_refl _)
  · exact .pure (Nat.le_refl _)
  · exact .reference fun ref => .pure (Nat.le_refl _)
  · -- A token that names no type is read, and the fault is about it.
    exact .failAt hnext.since_le (Nat.le_succ i) hnext.pos_eq (by decide)

/-- A type behind its mark, or none. -/
theorem typeAfter_agree (mark : Symbol) :
    Agree base .never since i i (typeAfter mark) (typeAfter mark) := by
  unfold typeAfter
  refine .acceptAny (.pure (Nat.le_refl i)) fun t hnext _ => ?_
  exact .bindQuiet typeName_agree fun type j hj _ => .pure (by omega)

/-- Parameters, each time after a comma. -/
theorem parameters_agree (count : Nat) (h : Covered base i 1 n m) :
    Agree base .never since i i (parameters n count) (parameters m count) := by
  unfold Covered at h
  induction n generalizing m i count with
  | zero => omega
  | succ n ih =>
    cases m with
    | zero => omega
    | succ m =>
      rw [parameters, parameters]
      split
      · exact .fail (by decide)
      refine .expectName (by decide) fun name hname => .expect (by decide) fun colon _ => ?_
      have hlt := hname.lt_length
      refine .bindQuiet typeName_agree fun type j hj _ => ?_
      refine .acceptAny (.pure (by omega)) fun comma _ _ => ?_
      refine .bindQuiet (ih (i := j + 1) (m := m) (count + 1) (by omega)) fun more j' hj' _ => ?_
      exact .pure (by omega)

theorem valRest_agree (h : Covered base i 12 n m) :
    Agree base .never since i (i + 1) (valRest n) (valRest m) := by
  unfold Covered at h
  unfold valRest
  refine .expectName (by decide) fun name hname => ?_
  have close (type : Option TypeName) (initializer : Option Expr) (j : Nat) (hj : i + 1 ≤ j) :
      Agree base .never since j (i + 1)
        (do
          if type.isNone && initializer.isNone then failAt name.pos .valueOrType
          let _ ← expect (.symbol .semicolon) .variableEnd
          return Stmt.val name type initializer)
        (do
          if type.isNone && initializer.isNone then failAt name.pos .valueOrType
          let _ ← expect (.symbol .semicolon) .variableEnd
          return Stmt.val name type initializer) := by
    split
    · -- The fault is at the name; nothing was reported after it.
      exact .failAt hname.since_le (by omega) hname.pos_eq (by decide)
    · exact .expect (by decide) fun semicolon _ => .pure (by omega)
  refine .bindQuiet (typeAfter_agree .colon) fun type j hj _ => ?_
  refine .acceptAny (close type none j hj) fun equal _ _ => ?_
  have hvalue : Agree base .never since (j + 1) (j + 1) (expression n) (expression m) :=
    (expressionsAgree base n m).expression ⟨by omega, by omega⟩
  exact .bindQuiet (hvalue.map some) fun initializer j' hj' _ => close _ _ _ (by omega)

/-- An expression and its semicolon. -/
theorem expressionStatement_agree (h : Covered base i 12 n m) :
    Agree base .never since i (i + 1) (expressionStatement n) (expressionStatement m) := by
  unfold expressionStatement
  refine .bindQuiet ((expressionsAgree base n m).expression h) fun e j hj _ => ?_
  exact .expect (by decide) fun semicolon _ => .pure (by omega)

/-- An expression that may be absent. -/
theorem expressionUntil_agree (close : Symbol) (h : Covered base i 12 n m) :
    Agree base .never since i i (expressionUntil close n) (expressionUntil close m) := by
  unfold expressionUntil
  refine .upNext fun b => ?_
  split
  · exact .pure (Nat.le_refl i)
  · exact ((expressionsAgree base n m).expression h).map some

/-- The end of a function. -/
theorem returnRest_agree (keyword : Position) (h : Covered base i 12 n m) :
    Agree base .never since i i (returnRest keyword n) (returnRest keyword m) := by
  unfold returnRest
  refine .bindQuiet (expressionUntil_agree .semicolon h) fun value j hj _ => ?_
  exact .expect (by decide) fun semicolon _ => .pure (by omega)

/-- A condition between parentheses. -/
theorem condition_agree {opening closing : SyntaxFault} (hopening : opening ≠ .tooDeep)
    (hclosing : closing ≠ .tooDeep) (h : Covered base i 12 n m) :
    Agree base .never since i i (condition opening closing n) (condition opening closing m) := by
  unfold Covered at h
  unfold condition
  refine .expect hopening fun paren _ => ?_
  have hinner : Covered base (i + 1) 12 n m := ⟨by omega, by omega⟩
  refine .bindQuiet ((expressionsAgree base n m).expression hinner) fun e j hj _ => ?_
  exact .expect hclosing fun paren _ => .pure (by omega)

/-- The first clause of a `for` loop. -/
theorem forStart_agree (h : Covered base i 12 n m) :
    Agree base .never since i i (forStart n) (forStart m) := by
  unfold forStart
  refine .acceptAny ((expressionStatement_agree h).map some |>.toward (by omega)) fun t _ _ => ?_
  unfold Covered at h
  simp only
  split
  · exact .pure (Nat.le_succ i)
  · exact (valRest_agree ⟨by omega, by omega⟩).map some |>.toward (by omega)

end Simple

/-! ### Statements with parts -/

/-- The rules for statements under two budgets: they do the same, and report fewer faults than they
    read tokens, or as many where a token was read before. -/
structure StatementsAgree (base : Cursor) (n m : Nat) : Prop where
  declaration {i : Nat} : i < base.ahead.length → Covered base i 14 n m →
    Agree base .atMost i i (i + 1) (declaration n) (declaration m)
  classRest {i : Nat} : Covered base i 19 n m →
    Agree base .atMost i i i (classRest n) (classRest m)
  methods {i : Nat} : Covered base i 18 n m →
    Agree base .atMost i i i (methods n) (methods m)
  function {i : Nat} (r : Routine) : Covered base i 17 n m →
    Agree base .atMost i i (i + 1) (function n r) (function m r)
  block {i : Nat} : Covered base i 16 n m →
    Agree base .atMost i i i (block n) (block m)
  declarations {i : Nat} : Covered base i 15 n m →
    Agree base .atMost i i i (declarations n) (declarations m)
  statement {i : Nat} : Covered base i 13 n m →
    Agree base .fewer i i (i + 1) (statement n) (statement m)
  forRest {i : Nat} (keyword : Position) : Covered base i 14 n m →
    Agree base .atMost i i i (forRest n keyword) (forRest m keyword)
  ifRest {i : Nat} (keyword : Position) : Covered base i 14 n m →
    Agree base .atMost i i i (ifRest n keyword) (ifRest m keyword)
  whileRest {i : Nat} (keyword : Position) : Covered base i 14 n m →
    Agree base .atMost i i i (whileRest n keyword) (whileRest m keyword)

section Statements

variable {base : Cursor} {i n m : Nat}

theorem declaration_agree (ih : StatementsAgree base n m) (hi : i < base.ahead.length)
    (h : Covered base i 14 (n + 1) (m + 1)) :
    Agree base .atMost i i (i + 1) (declaration (n + 1)) (declaration (m + 1)) := by
  unfold Covered at h
  rw [declaration, declaration]
  refine .recovering hi ?_
  refine .acceptAny (ih.statement ⟨by omega, by omega⟩) fun t _ _ => ?_
  simp only
  split
  · exact (ih.classRest ⟨by omega, by omega⟩).of_here
  · exact ((ih.function _ ⟨by omega, by omega⟩).map _).of_here.toward (by omega)
  · exact (valRest_agree ⟨by omega, by omega⟩).of_never.toward (by omega)

theorem classRest_agree (ih : StatementsAgree base n m) (h : Covered base i 19 (n + 1) (m + 1)) :
    Agree base .atMost i i i (classRest (n + 1)) (classRest (m + 1)) := by
  unfold Covered at h
  rw [classRest, classRest]
  refine .expectName (by decide) fun name _ => ?_
  have body (superclass : Option Reference) (j : Nat) (hj : i + 1 ≤ j) : Agree base .atMost i j i
      (do
        let _ ← expect (.symbol .leftBrace) .classOpen
        let methods ← methods n
        let _ ← expect (.symbol .rightBrace) .classClose
        return Stmt.classDecl name superclass methods)
      (do
        let _ ← expect (.symbol .leftBrace) .classOpen
        let methods ← methods m
        let _ ← expect (.symbol .rightBrace) .classClose
        return Stmt.classDecl name superclass methods) := by
    refine .expect (by decide) fun brace _ => ?_
    refine .bind (ih.methods ⟨by omega, by omega⟩).of_here fun methods j' hj' _ => ?_
    exact .expect (by decide) fun brace _ => .pure (by omega)
  refine .acceptAny (body none _ (Nat.le_refl _)) fun less _ _ => ?_
  refine .expectName (by decide) fun superclass _ => ?_
  rw [bind_map_left, bind_map_left]
  exact .reference fun ref => body (some ref) _ (by omega)

/-- Methods, of which each reads a token. -/
theorem methods_agree (ih : StatementsAgree base n m) (h : Covered base i 18 (n + 1) (m + 1)) :
    Agree base .atMost i i i (methods (n + 1)) (methods (m + 1)) := by
  unfold Covered at h
  rw [methods, methods]
  refine .upNext fun b => .atEnd (fun _ => ?_) fun hi => ?_
  · rw [Bool.or_true]
    exact .pure (Nat.le_refl i)
  split
  · exact .pure (Nat.le_refl i)
  · refine .bind (ih.function .method ⟨by omega, by omega⟩) fun method j hj hmore => ?_
    refine .bind (ih.methods ⟨by omega, by omega⟩) fun more j' hj' _ => ?_
    exact .pure (by omega)

theorem function_agree (ih : StatementsAgree base n m) (r : Routine)
    (h : Covered base i 17 (n + 1) (m + 1)) :
    Agree base .atMost i i (i + 1) (function (n + 1) r) (function (m + 1) r) := by
  unfold Covered at h
  rw [function, function]
  refine .expectName (by simp) fun name _ => .expect (by simp) fun paren _ => ?_
  have rest (params : List Param) (j : Nat) (hj : i + 2 ≤ j) : Agree base .atMost i j (i + 1)
      (do
        let _ ← expect (.symbol .rightParen) .parametersClose
        let returns ← typeAfter .arrow
        let _ ← expect (.symbol .leftBrace) (.routineBody r)
        let body ← block n
        return (⟨name, params, returns, body⟩ : FunctionDecl))
      (do
        let _ ← expect (.symbol .rightParen) .parametersClose
        let returns ← typeAfter .arrow
        let _ ← expect (.symbol .leftBrace) (.routineBody r)
        let body ← block m
        return (⟨name, params, returns, body⟩ : FunctionDecl)) := by
    refine .expect (by decide) fun paren _ => ?_
    refine .bindQuiet (typeAfter_agree .arrow) fun returns j' hj' _ => ?_
    refine .expect (by simp) fun brace _ => ?_
    refine .bind (ih.block ⟨by omega, by omega⟩).of_here fun body j'' hj'' _ => ?_
    exact .pure (by omega)
  refine .upNext fun b => ?_
  cases b with
  | true => exact rest [] _ (Nat.le_refl _)
  | false =>
    refine .bindQuiet (parameters_agree 0 ⟨by omega, by omega⟩) fun params j hj _ => ?_
    exact rest params j hj

/-- A block, in which faults may be reported. -/
theorem block_agree (ih : StatementsAgree base n m) (h : Covered base i 16 (n + 1) (m + 1)) :
    Agree base .atMost i i i (block (n + 1)) (block (m + 1)) := by
  unfold Covered at h
  rw [block, block]
  refine .bind (ih.declarations ⟨by omega, by omega⟩) fun body j hj _ => ?_
  exact .expect (by decide) fun brace _ => .pure (by omega)

theorem declarations_agree (ih : StatementsAgree base n m) (h : Covered base i 15 (n + 1) (m + 1)) :
    Agree base .atMost i i i (declarations (n + 1)) (declarations (m + 1)) := by
  unfold Covered at h
  rw [declarations, declarations]
  refine .upNext fun b => .atEnd (fun _ => ?_) fun hi => ?_
  · rw [Bool.or_true]
    exact .pure (Nat.le_refl i)
  split
  · exact .pure (Nat.le_refl i)
  · -- A declaration passes over a token, also where it recovers from a fault.
    refine .bind (ih.declaration hi ⟨by omega, by omega⟩) fun s j hj hmore => ?_
    refine .bind (ih.declarations ⟨by omega, by omega⟩) fun more j' hj' _ => ?_
    exact .pure (by omega)

theorem statement_agree (ih : StatementsAgree base n m) (h : Covered base i 13 (n + 1) (m + 1)) :
    Agree base .fewer i i (i + 1) (statement (n + 1)) (statement (m + 1)) := by
  unfold Covered at h
  rw [statement, statement]
  refine .acceptAny (expressionStatement_agree ⟨by omega, by omega⟩).of_never fun t ht _ => ?_
  have hlt := ht.lt_length
  simp only
  split
  · exact (ih.forRest _ ⟨by omega, by omega⟩).of_here
  · exact (ih.ifRest _ ⟨by omega, by omega⟩).of_here
  · exact (returnRest_agree _ ⟨by omega, by omega⟩).of_never
  · exact (ih.whileRest _ ⟨by omega, by omega⟩).of_here
  · exact ((ih.block ⟨by omega, by omega⟩).map _).of_here

theorem forRest_agree (ih : StatementsAgree base n m) (keyword : Position)
    (h : Covered base i 14 (n + 1) (m + 1)) :
    Agree base .atMost i i i (forRest (n + 1) keyword) (forRest (m + 1) keyword) := by
  unfold Covered at h
  rw [forRest, forRest]
  refine .expect (by decide) fun paren _ => ?_
  refine .bindQuiet (forStart_agree ⟨by omega, by omega⟩) fun first j hj _ => ?_
  refine .bindQuiet (expressionUntil_agree _ ⟨by omega, by omega⟩) fun condition j' hj' _ => ?_
  refine .expect (by decide) fun semicolon _ => ?_
  refine .bindQuiet (expressionUntil_agree _ ⟨by omega, by omega⟩) fun step j'' hj'' _ => ?_
  refine .expect (by decide) fun paren _ => ?_
  refine .bind (ih.statement ⟨by omega, by omega⟩).of_fewer.of_here fun body k hk _ => ?_
  exact .pure (by omega)

theorem ifRest_agree (ih : StatementsAgree base n m) (keyword : Position)
    (h : Covered base i 14 (n + 1) (m + 1)) :
    Agree base .atMost i i i (ifRest (n + 1) keyword) (ifRest (m + 1) keyword) := by
  unfold Covered at h
  rw [ifRest, ifRest]
  have hcond : Covered base i 12 n m := ⟨by omega, by omega⟩
  refine .bindQuiet (condition_agree (by decide) (by decide) hcond) fun cond j hj _ => ?_
  refine .bind (ih.statement ⟨by omega, by omega⟩).of_fewer.of_here fun yes j' hj' _ => ?_
  refine .acceptAny (.pure (by omega)) fun t _ _ => ?_
  refine .bind (ih.statement ⟨by omega, by omega⟩).of_fewer.of_here fun no j'' hj'' _ => ?_
  exact .pure (by omega)

/-- A loop, in whose body faults may be reported. -/
theorem whileRest_agree (ih : StatementsAgree base n m) (keyword : Position)
    (h : Covered base i 14 (n + 1) (m + 1)) :
    Agree base .atMost i i i (whileRest (n + 1) keyword) (whileRest (m + 1) keyword) := by
  unfold Covered at h
  rw [whileRest, whileRest]
  have hcond : Covered base i 12 n m := ⟨by omega, by omega⟩
  refine .bindQuiet (condition_agree (by decide) (by decide) hcond) fun cond j hj _ => ?_
  refine .bind (ih.statement ⟨by omega, by omega⟩).of_fewer.of_here fun body j' hj' _ => ?_
  exact .pure (by omega)

/-- Statements are read alike under all budgets that leave room. -/
theorem statementsAgree (base : Cursor) (n m : Nat) : StatementsAgree base n m := by
  induction n generalizing m with
  | zero => constructor <;> intros <;> rename_i h <;> unfold Covered at h <;> omega
  | succ n ih =>
    cases m with
    | zero => constructor <;> intros <;> rename_i h <;> unfold Covered at h <;> omega
    | succ m =>
      exact
        { declaration := declaration_agree (ih m)
          classRest := classRest_agree (ih m)
          methods := methods_agree (ih m)
          function := function_agree (ih m)
          block := block_agree (ih m)
          declarations := declarations_agree (ih m)
          statement := statement_agree (ih m)
          forRest := forRest_agree (ih m)
          ifRest := ifRest_agree (ih m)
          whileRest := whileRest_agree (ih m) }

/-- A program is read alike under all budgets that leave room. -/
theorem program_agree (h : Covered base i 15 n m) :
    Agree base .atMost i i i (program n) (program m) := by
  unfold Covered at h
  induction n generalizing m i with
  | zero => omega
  | succ n ih =>
    cases m with
    | zero => omega
    | succ m =>
      rw [program, program]
      refine .atEnd (fun _ => .pure (Nat.le_refl i)) fun hi => ?_
      have hs := (statementsAgree base n m).declaration hi ⟨by omega, by omega⟩
      refine .bind hs fun s j hj hmore => ?_
      refine .bind (ih (i := j) (m := m) (by omega)) fun more j' hj' _ => ?_
      exact .pure (by omega)

end Statements

end Parse

end ClassScript
