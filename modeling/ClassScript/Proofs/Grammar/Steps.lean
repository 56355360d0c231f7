import ClassScript.Proofs.Computation
import ClassScript.Proofs.Grammar.Trails

namespace ClassScript

/-!
# Reading step by step

A rule of the grammar is a series of single steps. No step sees more of the token list than the next
token, and the only way on leads past this token; after a fault reading goes on by passing tokens
one by one. So there is a list of the cursors that reading comes to, one for each step, and each of
them stands at an index of the token list.

* `Parse.Script`: a series of steps; `Script.run` is the rule that it makes up;
* `Script.cursors`: the cursors that a series of steps comes to;
* `Script.within_of_mem_cursors`: all of them stand within the tokens;
* `Parse.Stepwise`: a rule is a series of steps; `Parse.stepwise_program`: so is reading a program.
-/

namespace Parse

variable {α β : Type}

/-! ### Series of steps -/

/-- A series of steps. What is not here is what no rule can do: look at a token other than the next
    one, go back, or go on without passing the next token. -/
inductive Script : Type → Type 1 where
  | pure {α : Type} (a : α) : Script α
  | failAt {α : Type} (pos : Position) (fault : SyntaxFault) : Script α
  | fail {α : Type} (fault : SyntaxFault) : Script α
  | peek : Script (Option Token)
  | skip : Script Unit
  | reference (name : Name) : Script Reference
  | bind {α β : Type} (first : Script α) (rest : α → Script β) : Script β
  | recovering (rule : Script Stmt) : Script (Option Stmt)

/-- What is still to be read at each step of `resume`, from the faulty token to where reading goes
    on. -/
def resumeTrail : List Token → List (List Token)
  | [] => [[]]
  | t :: rest =>
    (t :: rest) ::
      if t.kind = .symbol .semicolon then [rest]
      else
        match rest with
        | next :: _ => if startsStatement next.kind then [rest] else resumeTrail rest
        | [] => [[]]

namespace Script

/-- The rule that a series of steps makes up. -/
def run : {α : Type} → Script α → Parse α
  | _, pure a => Pure.pure a
  | _, failAt pos fault => Parse.failAt pos fault
  | _, fail fault => Parse.fail fault
  | _, peek => Parse.peek
  | _, skip => Parse.skip
  | _, reference name => Parse.reference name
  | _, bind first rest => first.run >>= fun a => (rest a).run
  | _, recovering rule => Parse.recovering rule.run

/-- The cursor that a series of steps ends at, with a result or with a fault. -/
def last (s : Script α) (c : Cursor) : Cursor :=
  match s.run c with
  | .ok _ c' => c'
  | .error _ c' => c'

/-- The cursors that a series of steps comes to from `c`, in order. -/
def cursors : {α : Type} → Script α → Cursor → List Cursor
  | _, pure _, c => [c]
  | _, failAt _ _, c => [c]
  | _, fail _, c => [c]
  | _, peek, c => [c]
  | _, skip, c => [c, { c with ahead := c.ahead.tail }]
  | _, reference _, c => [c, { c with nextId := c.nextId + 1 }]
  | _, bind first rest, c =>
    first.cursors c ++
      match first.run c with
      | .ok a c' => (rest a).cursors c'
      | .error _ _ => []
  | _, recovering rule, c =>
    rule.cursors c ++
      match rule.run c with
      | .ok _ _ => []
      | .error fault c' => (resumeTrail c'.ahead).map fun ahead =>
          { c' with ahead, faults := c'.faults ++ [fault] }

end Script

/-! ### Where the steps stand -/

/-- Recovery ends at the end of its trail. -/
theorem resume_mem_resumeTrail (tokens : List Token) : resume tokens ∈ resumeTrail tokens := by
  induction tokens with
  | nil => exact List.mem_singleton.mpr rfl
  | cons t rest ih =>
    unfold resume resumeTrail
    refine List.mem_cons_of_mem _ ?_
    split
    · exact List.mem_singleton.mpr rfl
    cases rest with
    | nil => exact List.mem_singleton.mpr rfl
    | cons next rest =>
      by_cases hstart : startsStatement next.kind = true
      · simp [hstart]
      · simpa [hstart] using ih

theorem exists_drop_of_mem_resumeTrail {tokens ahead : List Token}
    (h : ahead ∈ resumeTrail tokens) : ∃ d, d ≤ tokens.length ∧ ahead = tokens.drop d := by
  induction tokens with
  | nil => exact ⟨0, Nat.le_refl _, List.mem_singleton.mp h⟩
  | cons t rest ih =>
    have hlast {ahead : List Token} (h : ahead = rest) :
        ∃ d, d ≤ (t :: rest).length ∧ ahead = (t :: rest).drop d :=
      ⟨1, by simp, h⟩
    unfold resumeTrail at h
    rcases List.mem_cons.mp h with rfl | h
    · exact ⟨0, Nat.zero_le _, rfl⟩
    split at h
    · exact hlast (List.mem_singleton.mp h)
    cases rest with
    | nil => exact hlast (List.mem_singleton.mp h)
    | cons next rest =>
      by_cases hstart : startsStatement next.kind = true
      · exact hlast (by simpa [hstart] using h)
      · obtain ⟨d, hd, rfl⟩ := ih (by simpa [hstart] using h)
        exact ⟨d + 1, Nat.succ_le_succ hd, rfl⟩

namespace Script

theorem last_mem_cursors (s : Script α) (c : Cursor) : s.last c ∈ s.cursors c := by
  induction s generalizing c with
  | pure a => exact List.mem_singleton.mpr rfl
  | failAt pos fault => exact List.mem_singleton.mpr rfl
  | fail fault => exact List.mem_singleton.mpr rfl
  | peek => exact List.mem_singleton.mpr rfl
  | skip => exact List.mem_cons_of_mem _ (List.mem_singleton.mpr rfl)
  | reference name => exact List.mem_cons_of_mem _ (List.mem_singleton.mpr rfl)
  | bind first rest ihfirst ihrest =>
    have hfirst := ihfirst c
    unfold cursors
    cases hrun : first.run c with
    | ok a c' =>
      have hlast : (first.bind rest).last c = (rest a).last c' := by
        unfold last
        rw [run, bind_of_ok hrun]
      rw [hlast]
      exact List.mem_append_right _ (ihrest a c')
    | error f c' =>
      have hlast : (first.bind rest).last c = first.last c := by
        unfold last
        rw [run, bind_of_error hrun, hrun]
      rw [hlast]
      exact List.mem_append_left _ hfirst
  | recovering rule ih =>
    have hrule := ih c
    unfold last at hrule ⊢
    unfold run cursors Parse.recovering
    cases hrun : rule.run c with
    | ok s c' =>
      rw [hrun] at hrule
      exact List.mem_append_left _ hrule
    | error f c' =>
      exact List.mem_append_right _
        (List.mem_map.mpr ⟨_, resume_mem_resumeTrail c'.ahead, rfl⟩)

theorem within_of_mem_cursors (s : Script α) {base c d : Cursor} {i : Nat}
    (hc : Cursor.Within base i c) (hd : d ∈ s.cursors c) :
    ∃ j, i ≤ j ∧ Cursor.Within base j d := by
  have hstay {d : Cursor} (h : d = c) : ∃ j, i ≤ j ∧ Cursor.Within base j d :=
    ⟨i, Nat.le_refl _, h ▸ hc⟩
  induction s generalizing c d i with
  | pure a => exact hstay (List.mem_singleton.mp hd)
  | failAt pos fault => exact hstay (List.mem_singleton.mp hd)
  | fail fault => exact hstay (List.mem_singleton.mp hd)
  | peek => exact hstay (List.mem_singleton.mp hd)
  | skip =>
    rcases List.mem_cons.mp hd with hd | hd
    · exact hstay hd
    rw [List.mem_singleton.mp hd]
    cases hahead : c.ahead with
    | nil => exact ⟨i, Nat.le_refl _, hc.le_length, by rw [← hc.ahead, hahead]; rfl, hc.stop⟩
    | cons t rest => exact ⟨i + 1, Nat.le_succ i, hc.next hahead⟩
  | reference name =>
    rcases List.mem_cons.mp hd with hd | hd
    · exact hstay hd
    rw [List.mem_singleton.mp hd]
    exact ⟨i, Nat.le_refl _, hc.le_length, hc.ahead, hc.stop⟩
  | bind first rest ihfirst ihrest =>
    unfold cursors at hd
    rcases List.mem_append.mp hd with hd | hd
    · exact ihfirst hc hd hstay
    -- The rest starts where the first part ended, which is one of the cursors of the first part.
    have hlast := last_mem_cursors first c
    cases hrun : first.run c with
    | error f c' =>
      rw [hrun] at hd
      cases hd
    | ok a c' =>
      rw [last, hrun] at hlast
      rw [hrun] at hd
      obtain ⟨j, hj, hc'⟩ := ihfirst hc hlast hstay
      obtain ⟨k, hk, hd⟩ := ihrest a hc' hd fun h => ⟨j, Nat.le_refl _, h ▸ hc'⟩
      exact ⟨k, Nat.le_trans hj hk, hd⟩
  | recovering rule ih =>
    unfold cursors at hd
    rcases List.mem_append.mp hd with hd | hd
    · exact ih hc hd hstay
    have hlast := last_mem_cursors rule c
    cases hrun : rule.run c with
    | ok s c' =>
      rw [hrun] at hd
      cases hd
    | error f c' =>
      rw [last, hrun] at hlast
      rw [hrun] at hd
      obtain ⟨j, hj, hc'⟩ := ih hc hlast hstay
      obtain ⟨ahead, hahead, rfl⟩ := List.mem_map.mp hd
      obtain ⟨n, hn, rfl⟩ := exists_drop_of_mem_resumeTrail hahead
      have hle := hc'.le_length
      have hlength : c'.ahead.length = base.ahead.length - j := by
        rw [hc'.ahead, List.length_drop]
      refine ⟨j + n, by omega, by omega, ?_, hc'.stop⟩
      show c'.ahead.drop n = _
      rw [hc'.ahead, List.drop_drop]

end Script

/-! ### Rules as series of steps -/

/-- A rule is a series of steps. -/
def Stepwise (p : Parse α) : Prop := ∃ s : Script α, s.run = p

namespace Stepwise

theorem pure {a : α} : Stepwise (pure a : Parse α) := ⟨.pure a, rfl⟩

theorem failAt {pos : Position} {fault : SyntaxFault} : Stepwise (failAt pos fault : Parse α) :=
  ⟨.failAt pos fault, rfl⟩

theorem fail {fault : SyntaxFault} : Stepwise (fail fault : Parse α) := ⟨.fail fault, rfl⟩

theorem peek : Stepwise peek := ⟨.peek, rfl⟩

theorem skip : Stepwise skip := ⟨.skip, rfl⟩

theorem reference {name : Name} : Stepwise (reference name) := ⟨.reference name, rfl⟩

/-- One series of steps after another. -/
theorem bind {p : Parse α} {f : α → Parse β} (hp : Stepwise p) (hf : ∀ a, Stepwise (f a)) :
    Stepwise (p >>= f) := by
  obtain ⟨s, rfl⟩ := hp
  obtain ⟨rest, hrest⟩ := Classical.axiomOfChoice hf
  exact ⟨.bind s rest, congrArg (s.run >>= ·) (funext hrest)⟩

/-- A result that is changed afterwards. -/
theorem map {p : Parse α} {f : α → β} (hp : Stepwise p) : Stepwise (f <$> p) := by
  rw [map_eq_pure_bind]
  exact hp.bind fun _ => .pure

theorem recovering {p : Parse Stmt} (hp : Stepwise p) : Stepwise (recovering p) := by
  obtain ⟨s, rfl⟩ := hp
  exact ⟨.recovering s, rfl⟩

theorem upNext {kind : Kind} : Stepwise (upNext kind) :=
  ⟨.bind .peek fun next => .pure (next.any fun t => t.kind = kind), rfl⟩

/-- The end is where there is no next token. -/
theorem atEnd : Stepwise atEnd := by
  refine ⟨.bind .peek fun next => .pure next.isNone, ?_⟩
  funext c
  show EStateM.Result.ok c.ahead.head?.isNone c = .ok c.ahead.isEmpty c
  cases c.ahead <;> rfl

theorem acceptAny {kinds : List Kind} : Stepwise (acceptAny kinds) := by
  refine ⟨.bind .peek fun next => next.elim (.pure none) fun t =>
    if t.kind ∈ kinds then .bind .skip fun _ => .pure (some t) else .pure none, ?_⟩
  funext c
  obtain ⟨ahead, stop, nextId, faults⟩ := c
  cases ahead with
  | nil => rfl
  | cons t rest =>
    show (if t.kind ∈ kinds then _ else _ : Script (Option Token)).run _ = _
    unfold Parse.acceptAny
    by_cases hkind : t.kind ∈ kinds
    · simp only [if_pos hkind]
      rfl
    · simp only [if_neg hkind]
      rfl

theorem expect {kind : Kind} {fault : SyntaxFault} : Stepwise (expect kind fault) := by
  refine ⟨.bind .peek fun next => next.elim (.fail fault) fun t =>
    if t.kind = kind then .bind .skip fun _ => .pure t else .failAt t.pos fault, ?_⟩
  funext c
  obtain ⟨ahead, stop, nextId, faults⟩ := c
  cases ahead with
  | nil => rfl
  | cons t rest =>
    show (if t.kind = kind then _ else _ : Script Token).run _ = _
    unfold Parse.expect
    by_cases hkind : t.kind = kind
    · simp only [if_pos hkind]
      rfl
    · simp only [if_neg hkind]
      rfl

/-- A name that is expected. -/
theorem expectName {fault : SyntaxFault} : Stepwise (expectName fault) :=
  expect.bind fun _ => .pure

end Stepwise

/-- The rules for expressions are series of steps, whatever the budget. -/
structure ExpressionsStepwise (n : Nat) : Prop where
  expression : Stepwise (expression n)
  ternary : Stepwise (ternary n)
  chain (levels : List Level) : Stepwise (chain n levels)
  chainRest (level : Level) (tighter : List Level) (left : Expr) :
    Stepwise (chainRest n level tighter left)
  unary : Stepwise (unary n)
  suffixes (e : Expr) : Stepwise (suffixes n e)
  arguments (count : Nat) : Stepwise (arguments n count)
  primary : Stepwise (primary n)

section Expressions

variable {n : Nat}

theorem stepwise_expression (ih : ExpressionsStepwise n) : Stepwise (expression (n + 1)) := by
  rw [expression]
  refine .bind ih.ternary fun target => .bind .acceptAny fun equals => ?_
  cases equals with
  | none => exact .pure
  | some equals =>
    refine .bind ih.expression fun value => ?_
    split
    · exact .pure
    · exact .pure
    · exact .failAt

/-- A choice goes on as its mark comes next. -/
theorem stepwise_ternary (ih : ExpressionsStepwise n) : Stepwise (ternary (n + 1)) := by
  rw [ternary]
  refine .bind (ih.chain _) fun condition => .bind .acceptAny fun question => ?_
  cases question with
  | none => exact .pure
  | some question =>
    exact .bind (ih.chain _) fun yes => .bind .expect fun colon => .bind ih.ternary fun no => .pure

theorem stepwise_chain (ih : ExpressionsStepwise n) (levels : List Level) :
    Stepwise (chain (n + 1) levels) := by
  cases levels with
  | nil =>
    rw [chain]
    exact ih.unary
  | cons level tighter =>
    rw [chain]
    exact .bind (ih.chain tighter) fun left => ih.chainRest level tighter left

theorem stepwise_chainRest (ih : ExpressionsStepwise n) (level : Level) (tighter : List Level)
    (left : Expr) : Stepwise (chainRest (n + 1) level tighter left) := by
  rw [chainRest]
  refine .bind .acceptAny fun operator => ?_
  cases operator with
  | none => exact .pure
  | some operator => exact .bind (ih.chain tighter) fun right => ih.chainRest _ _ _

/-- Signs before an operand. -/
theorem stepwise_unary (ih : ExpressionsStepwise n) : Stepwise (unary (n + 1)) := by
  rw [unary]
  refine .bind .acceptAny fun operator => ?_
  cases operator with
  | none => exact .bind ih.primary fun callee => ih.suffixes callee
  | some operator => exact .bind ih.unary fun operand => .pure

theorem stepwise_suffixes (ih : ExpressionsStepwise n) (e : Expr) :
    Stepwise (suffixes (n + 1) e) := by
  rw [suffixes]
  refine .bind .acceptAny fun t => ?_
  cases t with
  | none => exact .pure
  | some t =>
    simp only
    split
    · refine .bind .upNext fun closed => ?_
      cases closed with
      | true => exact .bind .pure fun args => .bind .expect fun paren => ih.suffixes _
      | false => exact .bind (ih.arguments 0) fun args => .bind .expect fun paren => ih.suffixes _
    · exact .bind .expectName fun name => ih.suffixes _

/-- Arguments go on as commas come next. -/
theorem stepwise_arguments (ih : ExpressionsStepwise n) (count : Nat) :
    Stepwise (arguments (n + 1) count) := by
  rw [arguments]
  split
  · exact .fail
  refine .bind ih.expression fun arg => .bind .acceptAny fun comma => ?_
  cases comma with
  | none => exact .pure
  | some comma => exact .bind (ih.arguments _) fun more => .pure

theorem stepwise_primary (ih : ExpressionsStepwise n) : Stepwise (primary (n + 1)) := by
  rw [primary]
  refine .bind .peek fun t => ?_
  cases t with
  | none => exact .fail
  | some t =>
    simp only
    split
    · exact .bind .skip fun _ => .pure
    · exact .bind .skip fun _ => .pure
    · exact .bind .skip fun _ => .pure
    · exact .bind .skip fun _ => .pure
    · exact .bind .skip fun _ => .pure
    · refine .bind .skip fun _ => .bind .expect fun dot => .bind .expectName fun method => ?_
      exact .bind .reference fun keyword => .pure
    · exact .bind .skip fun _ => .bind .reference fun ref => .pure
    · exact .bind .skip fun _ => .bind .reference fun ref => .pure
    · refine .bind .skip fun _ => .bind ih.expression fun inner => ?_
      exact .bind .expect fun paren => .pure
    · exact .fail

/-- Expressions are read step by step. -/
theorem expressionsStepwise (n : Nat) : ExpressionsStepwise n := by
  induction n with
  | zero => constructor <;> intros <;> exact .fail
  | succ n ih =>
    exact
      { expression := stepwise_expression ih
        ternary := stepwise_ternary ih
        chain := stepwise_chain ih
        chainRest := stepwise_chainRest ih
        unary := stepwise_unary ih
        suffixes := stepwise_suffixes ih
        arguments := stepwise_arguments ih
        primary := stepwise_primary ih }

end Expressions

section Simple

/-- A type is told by its first token. -/
theorem stepwise_typeName : Stepwise typeName := by
  unfold typeName
  refine .bind .peek fun t => ?_
  cases t with
  | none => exact .fail
  | some t =>
    refine .bind .skip fun _ => ?_
    split
    · exact .pure
    · exact .pure
    · exact .pure
    · exact .pure
    · exact .bind .reference fun ref => .pure
    · exact .failAt

/-- There is a type if its mark comes next. -/
theorem stepwise_typeAfter (mark : Symbol) : Stepwise (typeAfter mark) := by
  unfold typeAfter
  refine .bind .acceptAny fun t => ?_
  cases t with
  | none => exact .pure
  | some t => exact .bind stepwise_typeName fun type => .pure

/-- Parameters go on as commas come next. -/
theorem stepwise_parameters (n count : Nat) : Stepwise (parameters n count) := by
  induction n generalizing count with
  | zero => exact .fail
  | succ n ih =>
    rw [parameters]
    split
    · exact .fail
    refine .bind .expectName fun name => .bind .expect fun colon => ?_
    refine .bind stepwise_typeName fun type => .bind .acceptAny fun comma => ?_
    cases comma with
    | none => exact .pure
    | some comma => exact .bind (ih _) fun more => .pure

theorem stepwise_valRest (n : Nat) : Stepwise (valRest n) := by
  unfold valRest
  refine .bind .expectName fun name => .bind (stepwise_typeAfter _) fun type => ?_
  have close (initializer : Option Expr) : Stepwise do
      if type.isNone && initializer.isNone then failAt name.pos .valueOrType
      let _ ← expect (.symbol .semicolon) .variableEnd
      return Stmt.val name type initializer := by
    split
    · exact .failAt
    · exact .bind .expect fun semicolon => .pure
  refine .bind .acceptAny fun equal => ?_
  cases equal with
  | none => exact close none
  | some equal => exact .bind (expressionsStepwise n).expression.map fun initializer => close _

theorem stepwise_expressionStatement (n : Nat) : Stepwise (expressionStatement n) := by
  unfold expressionStatement
  exact .bind (expressionsStepwise n).expression fun e => .bind .expect fun semicolon => .pure

theorem stepwise_expressionUntil (close : Symbol) (n : Nat) :
    Stepwise (expressionUntil close n) := by
  unfold expressionUntil
  refine .bind .upNext fun closed => ?_
  cases closed with
  | true => exact .pure
  | false => exact (expressionsStepwise n).expression.map

theorem stepwise_returnRest (keyword : Position) (n : Nat) : Stepwise (returnRest keyword n) := by
  unfold returnRest
  exact .bind (stepwise_expressionUntil _ n) fun value => .bind .expect fun semicolon => .pure

/-- A condition with its parentheses. -/
theorem stepwise_condition (opening closing : SyntaxFault) (n : Nat) :
    Stepwise (condition opening closing n) := by
  unfold condition
  refine .bind .expect fun paren => .bind (expressionsStepwise n).expression fun e => ?_
  exact .bind .expect fun paren => .pure

theorem stepwise_forStart (n : Nat) : Stepwise (forStart n) := by
  unfold forStart
  refine .bind .acceptAny fun t => ?_
  cases t with
  | none => exact (stepwise_expressionStatement n).map
  | some t =>
    simp only
    split
    · exact .pure
    · exact (stepwise_valRest n).map

end Simple

/-- The rules for statements are series of steps, whatever the budget. -/
structure StatementsStepwise (n : Nat) : Prop where
  declaration : Stepwise (declaration n)
  classRest : Stepwise (classRest n)
  methods : Stepwise (methods n)
  function (r : Routine) : Stepwise (function n r)
  block : Stepwise (block n)
  declarations : Stepwise (declarations n)
  statement : Stepwise (statement n)
  forRest (keyword : Position) : Stepwise (forRest n keyword)
  ifRest (keyword : Position) : Stepwise (ifRest n keyword)
  whileRest (keyword : Position) : Stepwise (whileRest n keyword)

section Statements

variable {n : Nat}

/-- A declaration is told by its first token. -/
theorem stepwise_declaration (ih : StatementsStepwise n) : Stepwise (declaration (n + 1)) := by
  rw [declaration]
  refine .recovering (.bind .acceptAny fun t => ?_)
  cases t with
  | none => exact ih.statement
  | some t =>
    simp only
    split
    · exact ih.classRest
    · exact (ih.function _).map
    · exact stepwise_valRest n

theorem stepwise_classRest (ih : StatementsStepwise n) : Stepwise (classRest (n + 1)) := by
  rw [classRest]
  refine .bind .expectName fun name => ?_
  have body (superclass : Option Reference) : Stepwise do
      let _ ← expect (.symbol .leftBrace) .classOpen
      let methods ← methods n
      let _ ← expect (.symbol .rightBrace) .classClose
      return Stmt.classDecl name superclass methods :=
    .bind .expect fun brace => .bind ih.methods fun methods => .bind .expect fun brace => .pure
  refine .bind .acceptAny fun less => ?_
  cases less with
  | none => exact body none
  | some less =>
    exact .bind .expectName fun superclass => .bind (.map .reference) fun superclass => body _

/-- Methods go on until the class is closed. -/
theorem stepwise_methods (ih : StatementsStepwise n) : Stepwise (methods (n + 1)) := by
  rw [methods]
  refine .bind .upNext fun closed => .bind .atEnd fun ended => ?_
  split
  · exact .pure
  · exact .bind (ih.function _) fun method => .bind ih.methods fun more => .pure

theorem stepwise_function (ih : StatementsStepwise n) (r : Routine) :
    Stepwise (function (n + 1) r) := by
  rw [function]
  refine .bind .expectName fun name => .bind .expect fun paren => ?_
  have rest (params : List Param) : Stepwise do
      let _ ← expect (.symbol .rightParen) .parametersClose
      let returns ← typeAfter .arrow
      let _ ← expect (.symbol .leftBrace) (.routineBody r)
      let body ← block n
      return (⟨name, params, returns, body⟩ : FunctionDecl) := by
    refine .bind .expect fun paren => .bind (stepwise_typeAfter _) fun returns => ?_
    exact .bind .expect fun brace => .bind ih.block fun body => .pure
  refine .bind .upNext fun closed => ?_
  cases closed with
  | true => exact rest []
  | false => exact .bind (stepwise_parameters n 0) fun params => rest params

theorem stepwise_block (ih : StatementsStepwise n) : Stepwise (block (n + 1)) := by
  rw [block]
  exact .bind ih.declarations fun body => .bind .expect fun brace => .pure

/-- Declarations go on until the block is closed. -/
theorem stepwise_declarations (ih : StatementsStepwise n) : Stepwise (declarations (n + 1)) := by
  rw [declarations]
  refine .bind .upNext fun closed => .bind .atEnd fun ended => ?_
  split
  · exact .pure
  · exact .bind ih.declaration fun s => .bind ih.declarations fun more => .pure

/-- A statement is told by its first token. -/
theorem stepwise_statement (ih : StatementsStepwise n) : Stepwise (statement (n + 1)) := by
  rw [statement]
  refine .bind .acceptAny fun t => ?_
  cases t with
  | none => exact stepwise_expressionStatement n
  | some t =>
    simp only
    split
    · exact ih.forRest _
    · exact ih.ifRest _
    · exact stepwise_returnRest _ n
    · exact ih.whileRest _
    · exact ih.block.map

/-- A `for` loop, clause by clause. -/
theorem stepwise_forRest (ih : StatementsStepwise n) (keyword : Position) :
    Stepwise (forRest (n + 1) keyword) := by
  rw [forRest]
  refine .bind .expect fun paren => .bind (stepwise_forStart n) fun first => ?_
  refine .bind (stepwise_expressionUntil _ n) fun condition => .bind .expect fun semicolon => ?_
  refine .bind (stepwise_expressionUntil _ n) fun step => .bind .expect fun paren => ?_
  exact .bind ih.statement fun body => .pure

theorem stepwise_ifRest (ih : StatementsStepwise n) (keyword : Position) :
    Stepwise (ifRest (n + 1) keyword) := by
  rw [ifRest]
  refine .bind (stepwise_condition _ _ n) fun cond => .bind ih.statement fun yes => ?_
  refine .bind .acceptAny fun t => ?_
  cases t with
  | none => exact .pure
  | some t => exact .bind ih.statement fun no => .pure

/-- A loop with its condition and its body. -/
theorem stepwise_whileRest (ih : StatementsStepwise n) (keyword : Position) :
    Stepwise (whileRest (n + 1) keyword) := by
  rw [whileRest]
  exact .bind (stepwise_condition _ _ n) fun cond => .bind ih.statement fun body => .pure

/-- Statements are read step by step. -/
theorem statementsStepwise (n : Nat) : StatementsStepwise n := by
  induction n with
  | zero =>
    constructor
    case declaration => exact .recovering .fail
    all_goals intros; exact .fail
  | succ n ih =>
    exact
      { declaration := stepwise_declaration ih
        classRest := stepwise_classRest ih
        methods := stepwise_methods ih
        function := stepwise_function ih
        block := stepwise_block ih
        declarations := stepwise_declarations ih
        statement := stepwise_statement ih
        forRest := stepwise_forRest ih
        ifRest := stepwise_ifRest ih
        whileRest := stepwise_whileRest ih }

/-- A program is read step by step. -/
theorem stepwise_program (n : Nat) : Stepwise (program n) := by
  induction n with
  | zero => exact .fail
  | succ n ih =>
    rw [program]
    refine .bind .atEnd fun ended => ?_
    cases ended with
    | true => exact .pure
    | false => exact .bind (statementsStepwise n).declaration fun s => .bind ih fun more => .pure

end Statements

end Parse

end ClassScript
