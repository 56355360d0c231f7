import ClassScript.Program.Printer
import ClassScript.Proofs.Erasure.Trees
import ClassScript.Proofs.Grammar.Trees
import ClassScript.Proofs.NumberTexts

namespace ClassScript

open Grammar

/-!
# Spelling and outlines of trees

Two views of the trees that are printed. The leaves of a tree that is read from a source text are
spelt in a way that tells what they are, and its numbers may be taken to be finite. The outline of a
tree is the tree without what printing leaves out: positions, the identities of uses, and whether a
function that returns nothing says so.

* `TreeRule.spelt`, `allObey_spelt_of_parse`: how the leaves of trees of source texts are spelt;
* `Expr.outline`, `Stmt.outline`: outlines;
* `Stmt.render_outline`: a statement and its outline have the same text.
-/

/-! ### Leaves -/

/-- How a kind that always reads alike is spelt. -/
def Kind.spelling : Kind → String
  | .symbol s => String.ofList s.spelling
  | .keyword k => k.spelling
  | _ => ""

/-- The kind is not that of a number beyond the finite ones. -/
def Kind.IsFinite : Kind → Prop
  | .number value => Number.IsFinite value
  | _ => True

instance : (kind : Kind) → Decidable kind.IsFinite
  | .number value => inferInstanceAs (Decidable (Number.IsFinite value))
  | .symbol _ | .keyword _ | .identifier | .string _ | .endOfInput => .isTrue trivial

/-- A constant that can be written as a literal: the text of a string has no quote in it, and a
    number is finite. -/
def Literal.IsPlain : Literal → Prop
  | .number value => Number.IsFinite value
  | .string text => '"' ∉ text.toList
  | _ => True

/-- The operator is of one of the given kinds and spelt as such. -/
def Token.IsOperator (kinds : List Kind) (t : Token) : Prop :=
  t.kind ∈ kinds ∧ t.lexeme = t.kind.spelling

/-- The rule that leaves are spelt as what they are and that numbers are finite. -/
def TreeRule.spelt : TreeRule where
  name name := IsName name.text
  receiver name := name.text = thisName
  superclass name := name.text = superName
  unary := Token.IsOperator unaryOperators
  binary := Token.IsOperator binaryOperators
  logical := Token.IsOperator logicalOperators
  literal := Literal.IsPlain
  position _ := True
  branch _ := True

theorem TreeRule.spelt_lawful : TreeRule.spelt.Lawful where
  literal_true := trivial
  branch _ _ := trivial

/-- Operators are symbols and keywords, so they are spelt like their kind. -/
theorem Kind.Spells.isOperator {t : Token} {kinds : List Kind} (h : t.kind.Spells t.lexeme)
    (hkinds : ∀ k ∈ kinds, k.spelling ≠ "") (ht : t.kind ∈ kinds) : t.IsOperator kinds := by
  refine ⟨ht, ?_⟩
  have hne := hkinds _ ht
  cases hkind : t.kind <;> rw [hkind] at h hne
  case symbol => exact h
  case keyword => exact h
  all_goals exact absurd rfl hne

theorem Kind.Spells.fits {t : Token} (h : t.kind.Spells t.lexeme) (hfinite : t.kind.IsFinite) :
    TreeRule.spelt.Fits t where
  name hkind := by
    rw [hkind] at h
    exact h
  receiver hkind := by
    rw [hkind] at h
    exact h
  superclass hkind := by
    rw [hkind] at h
    exact h
  unary := h.isOperator (by decide)
  binary := h.isOperator (by decide)
  logical := h.isOperator (by decide)
  literal value hvalue := by
    cases hkind : t.kind <;> rw [hkind] at h hfinite hvalue
    case number x =>
      cases hvalue
      exact hfinite
    case string text =>
      cases hvalue
      exact h
    case keyword k => cases k <;> cases hvalue <;> trivial
    all_goals cases hvalue
  position := trivial

/-- The trees of source texts with finite numbers only are spelt as the rule asks. -/
theorem allObey_spelt_of_parse {source : String} {tokens : List Token} {p : Program}
    (hscan : scan source = .ok tokens) (hparse : parse tokens = .ok p)
    (hfinite : ∀ t ∈ tokens, t.kind.IsFinite) : Stmt.AllObey .spelt p :=
  (reads_of_parse hparse).obeys TreeRule.spelt_lawful
    fun t ht => (spells_of_scan hscan t ht).fits (hfinite t ht)

/-! ### Outlines -/

/-- A use of a name without its identity and its position. -/
def Reference.outline (ref : Reference) : Reference := ⟨0, ref.name.erase⟩

/-- A type without identities and positions. -/
def TypeName.outline : TypeName → TypeName
  | .named ref => .named ref.outline
  | type => type

/-- A parameter without identities and positions. -/
def Param.outline (p : Param) : Param := ⟨p.name.erase, p.type.outline⟩

mutual

/-- An expression without identities and positions. -/
def Expr.outline : Expr → Expr
  | .literal value => .literal value
  | .grouping inner => .grouping inner.outline
  | .unary operator operand => .unary operator.erase operand.outline
  | .binary left operator right => .binary left.outline operator.erase right.outline
  | .logical left operator right => .logical left.outline operator.erase right.outline
  | .ternary condition _ yes no => .ternary condition.outline .start yes.outline no.outline
  | .var ref => .var ref.outline
  | .assign target value => .assign target.outline value.outline
  | .call callee _ arguments => .call callee.outline .start (Expr.outlineAll arguments)
  | .get object name => .get object.outline name.erase
  | .set object name value => .set object.outline name.erase value.outline
  | .this ref => .this ref.outline
  | .super keyword method => .super keyword.outline method.erase

/-- Expressions without identities and positions. -/
def Expr.outlineAll : List Expr → List Expr
  | [] => []
  | e :: es => e.outline :: Expr.outlineAll es

end

mutual

/-- A statement without identities and positions, in which every function states its result. -/
def Stmt.outline : Stmt → Stmt
  | .expression e => .expression e.outline
  | .val name type initializer =>
    .val name.erase (type.map TypeName.outline) (initializer.map Expr.outline)
  | .block body => .block (Stmt.outlineAll body)
  | .ifThen _ condition yes => .ifThen .start condition.outline yes.outline
  | .ifElse _ condition yes no => .ifElse .start condition.outline yes.outline no.outline
  | .whileLoop _ condition body => .whileLoop .start condition.outline body.outline
  | .funDecl decl => .funDecl decl.outline
  | .ret _ value => .ret .start (value.map Expr.outline)
  | .classDecl name superclass decls =>
    .classDecl name.erase (superclass.map Reference.outline) (FunctionDecl.outlineAll decls)

/-- Statements without identities and positions. -/
def Stmt.outlineAll : List Stmt → List Stmt
  | [] => []
  | s :: ss => s.outline :: Stmt.outlineAll ss

/-- A function without identities and positions. One without an annotation returns `Void`. -/
def FunctionDecl.outline : FunctionDecl → FunctionDecl
  | ⟨name, params, returns, body⟩ =>
    ⟨name.erase, params.map Param.outline, some (returns.getD .void).outline,
      Stmt.outlineAll body⟩

/-- Functions without identities and positions. -/
def FunctionDecl.outlineAll : List FunctionDecl → List FunctionDecl
  | [] => []
  | decl :: decls => decl.outline :: FunctionDecl.outlineAll decls

end

/-! ### Outlines have the same texts -/

/-- The outline of a type has the same text. -/
theorem TypeName.render_outline (t : TypeName) : t.outline.render = t.render := by
  cases t <;> rfl

mutual

theorem Expr.render_outline : ∀ e : Expr, e.outline.render = e.render
  | .literal _ | .var _ | .this _ | .super _ _ => rfl
  | .grouping inner => by simp only [Expr.outline, Expr.render, inner.render_outline]
  | .unary _ operand => by
    simp only [Expr.outline, Expr.render, Token.erase, operand.render_outline]
  | .binary left _ right | .logical left _ right => by
    simp only [Expr.outline, Expr.render, Token.erase, left.render_outline, right.render_outline]
  | .ternary condition _ yes no => by
    simp only [Expr.outline, Expr.render, condition.render_outline, yes.render_outline,
      no.render_outline]
  | .assign _ value => by
    simp only [Expr.outline, Expr.render, Reference.outline, Name.erase, value.render_outline]
  | .call callee _ arguments => by
    simp only [Expr.outline, Expr.render, callee.render_outline, Expr.renderEach_outline arguments]
  | .get object _ => by simp only [Expr.outline, Expr.render, Name.erase, object.render_outline]
  | .set object _ value => by
    simp only [Expr.outline, Expr.render, Name.erase, object.render_outline, value.render_outline]

theorem Expr.renderEach_outline : ∀ es : List Expr,
    Expr.renderEach (Expr.outlineAll es) = Expr.renderEach es
  | [] => rfl
  | e :: es => by
    simp only [Expr.outlineAll, Expr.renderEach, e.render_outline, Expr.renderEach_outline es]

end

mutual

/-- The outline of a statement has the same text. -/
theorem Stmt.render_outline : ∀ s : Stmt, s.outline.render = s.render
  | .expression e => by simp only [Stmt.outline, Stmt.render, e.render_outline]
  | .val name type initializer => by
    cases type <;> cases initializer <;>
      simp only [Stmt.outline, Stmt.render, optional, Option.map_none, Option.map_some, Name.erase,
        TypeName.render_outline, Expr.render_outline]
  | .block body => by simp only [Stmt.outline, Stmt.render, Stmt.renderEach_outline body]
  | .ifThen _ condition yes => by
    simp only [Stmt.outline, Stmt.render, condition.render_outline, yes.render_outline]
  | .ifElse _ condition yes no => by
    simp only [Stmt.outline, Stmt.render, condition.render_outline, yes.render_outline,
      no.render_outline]
  | .whileLoop _ condition body => by
    simp only [Stmt.outline, Stmt.render, condition.render_outline, body.render_outline]
  | .funDecl decl => by simp only [Stmt.outline, Stmt.render, decl.render_outline]
  | .ret _ value => by
    cases value <;>
      simp only [Stmt.outline, Stmt.render, Option.map_none, Option.map_some, Expr.render_outline]
  | .classDecl name superclass decls => by
    cases superclass <;>
      simp only [Stmt.outline, Stmt.render, optional, Option.map_none, Option.map_some, Name.erase,
        Reference.outline, FunctionDecl.renderEach_outline decls]

theorem Stmt.renderEach_outline : ∀ ss : List Stmt,
    Stmt.renderEach (Stmt.outlineAll ss) = Stmt.renderEach ss
  | [] => rfl
  | s :: ss => by
    simp only [Stmt.outlineAll, Stmt.renderEach, s.render_outline, Stmt.renderEach_outline ss]

/-- The outline of a function has the same text. -/
theorem FunctionDecl.render_outline : ∀ decl : FunctionDecl, decl.outline.render = decl.render
  | ⟨name, params, returns, body⟩ => by
    have hparams : (params.map Param.outline).map Param.render = params.map Param.render := by
      rw [List.map_map]
      apply List.map_congr_left
      intro p _
      simp [Param.render, Param.outline, Name.erase, TypeName.render_outline]
    simp only [FunctionDecl.outline, FunctionDecl.render, Name.erase, hparams, Option.getD_some,
      TypeName.render_outline, Stmt.renderEach_outline body]

theorem FunctionDecl.renderEach_outline : ∀ decls : List FunctionDecl,
    FunctionDecl.renderEach (FunctionDecl.outlineAll decls) = FunctionDecl.renderEach decls
  | [] => rfl
  | decl :: decls => by
    simp only [FunctionDecl.outlineAll, FunctionDecl.renderEach, decl.render_outline,
      FunctionDecl.renderEach_outline decls]

end

end ClassScript
