import ClassScript.Proofs.Grammar
import ClassScript.Proofs.Syntax

namespace ClassScript

open Grammar

/-!
# Rules for trees

What holds of every leaf of a tree because it holds of the tokens that the tree is read from. A
rule says what is asked of the names, operators, constants and positions in a tree, and of the
statements that are branches of conditions and loops. A token fits the rule if it meets what the
rule asks of every leaf that the grammar may make of it. Trees that are read from tokens that fit
obey the rule.

* `TreeRule`, `Expr.Obeys`, `Stmt.Obeys`: rules, and the trees that obey them;
* `TreeRule.Fits`: the tokens that fit a rule;
* `Grammar.Derives.obeys`: phrases of tokens that fit have trees that obey.
-/

/-- The kinds of the operators that may leave their right side alone. -/
def logicalOperators : List Kind := [.keyword .kwOr, .keyword .kwAnd]

/-- What is asked of the leaves of a tree and of its branches. -/
structure TreeRule where
  name : Name → Prop
  /-- The word for the receiver. -/
  receiver : Name → Prop
  /-- The word for the superclass. -/
  superclass : Name → Prop
  unary : Token → Prop
  binary : Token → Prop
  logical : Token → Prop
  literal : Literal → Prop
  /-- The positions of keywords and brackets. -/
  position : Position → Prop
  /-- The branches of conditions and loops. -/
  branch : Stmt → Prop

/-- The token has what the rule asks of every leaf that it may become. -/
structure TreeRule.Fits (rule : TreeRule) (t : Token) : Prop where
  name : t.kind = .identifier → rule.name t.asName
  receiver : t.kind = .keyword .kwThis → rule.receiver t.asName
  superclass : t.kind = .keyword .kwSuper → rule.superclass t.asName
  unary : t.kind ∈ unaryOperators → rule.unary t
  binary : t.kind ∈ binaryOperators → rule.binary t
  logical : t.kind ∈ logicalOperators → rule.logical t
  literal : ∀ value, constant? t.kind = some value → rule.literal value
  position : rule.position t.pos

/-- The rule asks nothing of a tree that its tokens cannot give: the condition that a loop without
    one gets is allowed, and so are branches that declare no name. -/
structure TreeRule.Lawful (rule : TreeRule) : Prop where
  literal_true : rule.literal (.boolean true)
  branch : ∀ s : Stmt, s.declared? = none → rule.branch s

/-! ### Trees that obey a rule -/

section Trees

variable (rule : TreeRule)

mutual

/-- All leaves of the expression are as the rule asks. -/
def Expr.Obeys : Expr → Prop
  | .literal value => rule.literal value
  | .grouping inner => inner.Obeys
  | .unary operator operand => rule.unary operator ∧ operand.Obeys
  | .binary left operator right => rule.binary operator ∧ left.Obeys ∧ right.Obeys
  | .logical left operator right => rule.logical operator ∧ left.Obeys ∧ right.Obeys
  | .ternary condition question yes no =>
    rule.position question ∧ condition.Obeys ∧ yes.Obeys ∧ no.Obeys
  | .var ref => rule.name ref.name
  | .assign target value => rule.name target.name ∧ value.Obeys
  | .call callee paren arguments => rule.position paren ∧ callee.Obeys ∧ Expr.AllObey arguments
  | .get object name => rule.name name ∧ object.Obeys
  | .set object name value => rule.name name ∧ object.Obeys ∧ value.Obeys
  | .this ref => rule.receiver ref.name
  | .super keyword method => rule.superclass keyword.name ∧ rule.name method

/-- All leaves of the expressions are as the rule asks. -/
def Expr.AllObey : List Expr → Prop
  | [] => True
  | e :: es => e.Obeys ∧ Expr.AllObey es

end

/-- The class that the type names, if any, has a name as the rule asks. -/
def TypeName.Obeys (t : TypeName) : Prop := ∀ ref ∈ t.references, rule.name ref.name

/-- The names of the parameter are as the rule asks. -/
def Param.Obeys (p : Param) : Prop := rule.name p.name ∧ p.type.Obeys rule

mutual

/-- All leaves and branches of the statement are as the rule asks. -/
def Stmt.Obeys : Stmt → Prop
  | .expression e => e.Obeys rule
  | .val name type initializer =>
    rule.name name ∧ (∀ t ∈ type, t.Obeys rule) ∧ ∀ e ∈ initializer, e.Obeys rule
  | .block body => Stmt.AllObey body
  | .ifThen keyword condition yes =>
    rule.position keyword ∧ condition.Obeys rule ∧ yes.Obeys ∧ rule.branch yes
  | .ifElse keyword condition yes no =>
    rule.position keyword ∧ condition.Obeys rule ∧ (yes.Obeys ∧ rule.branch yes) ∧
      no.Obeys ∧ rule.branch no
  | .whileLoop keyword condition body =>
    rule.position keyword ∧ condition.Obeys rule ∧ body.Obeys ∧ rule.branch body
  | .funDecl decl => decl.Obeys
  | .ret keyword value => rule.position keyword ∧ ∀ e ∈ value, e.Obeys rule
  | .classDecl name superclass decls =>
    rule.name name ∧ (∀ ref ∈ superclass, rule.name ref.name) ∧ FunctionDecl.AllObey decls

/-- All leaves and branches of the statements are as the rule asks. -/
def Stmt.AllObey : List Stmt → Prop
  | [] => True
  | s :: ss => s.Obeys ∧ Stmt.AllObey ss

/-- All leaves and branches of the function are as the rule asks. -/
def FunctionDecl.Obeys : FunctionDecl → Prop
  | ⟨name, params, returns, body⟩ =>
    rule.name name ∧ (∀ p ∈ params, p.Obeys rule) ∧ (∀ t ∈ returns, t.Obeys rule) ∧
      Stmt.AllObey body

/-- All leaves and branches of the functions are as the rule asks. -/
def FunctionDecl.AllObey : List FunctionDecl → Prop
  | [] => True
  | decl :: decls => decl.Obeys ∧ FunctionDecl.AllObey decls

end

end Trees

/-! ### Phrases -/

namespace Grammar

variable {rule : TreeRule}

/-- The tree of the phrase obeys the rule. -/
def Phrase.Obeys (rule : TreeRule) : Phrase → Prop
  | .declarations ss | .block ss => Stmt.AllObey rule ss
  | .declaration s | .binding s => s.Obeys rule
  | .statement s _ => s.Obeys rule ∧ s.declared? = none
  | .heritage superclass => ∀ ref ∈ superclass, rule.name ref.name
  | .methods decls => FunctionDecl.AllObey rule decls
  | .function decl => decl.Obeys rule
  | .parameterList ps | .parameters ps => ∀ p ∈ ps, p.Obeys rule
  | .type t => t.Obeys rule
  | .typeAfter _ t => ∀ u ∈ t, u.Obeys rule
  | .initializer e | .optional e => ∀ f ∈ e, f.Obeys rule
  | .firstClause s => ∀ u ∈ s, u.Obeys rule
  | .binary levels e => levels ⊆ operators → e.Obeys rule
  | .condition e | .expression e | .ternary e | .unary e | .call e | .primary e => e.Obeys rule
  | .argumentList es | .arguments es => Expr.AllObey rule es

/-- A loop with `for` obeys if its clauses and its body do. -/
theorem obeys_desugared (hrule : rule.Lawful) {keyword : Position} {first : Option Stmt}
    {test step : Option Expr} {body : Stmt} (hkeyword : rule.position keyword)
    (hfirst : ∀ s ∈ first, s.Obeys rule) (htest : ∀ e ∈ test, e.Obeys rule)
    (hstep : ∀ e ∈ step, e.Obeys rule) (hbody : body.Obeys rule ∧ body.declared? = none) :
    (desugared keyword first test step body).Obeys rule ∧
      (desugared keyword first test step body).declared? = none := by
  have htest' : (test.getD (.literal (.boolean true))).Obeys rule := by
    cases test with
    | none => exact hrule.literal_true
    | some e => exact htest e rfl
  have hbranch := hrule.branch body hbody.2
  have hblock : ∀ ss, rule.branch (.block ss) := fun ss => hrule.branch _ rfl
  cases first <;> cases step <;>
    simp_all [desugared, Stmt.Obeys, Stmt.AllObey, Stmt.declared?]

/-- The operators between two operands are the binary and the logical ones. -/
theorem obeys_operation {left right : Expr} {op : Token} {kinds : List Kind}
    (hkinds : kinds ∈ operators) (hop : op.kind ∈ kinds) (hfits : rule.Fits op)
    (hleft : left.Obeys rule) (hright : right.Obeys rule) :
    (operation left op right).Obeys rule := by
  have hcheck : ∀ kinds ∈ operators, ∀ k ∈ kinds, k ∈ binaryOperators ∨ k ∈ logicalOperators := by
    decide
  have hsymbol : ∀ k, Kind.keyword k ∉ binaryOperators := by
    intro k
    cases k <;> decide
  unfold operation
  split
  · next k hk =>
    refine ⟨hfits.logical ?_, hleft, hright⟩
    exact (hcheck kinds hkinds op.kind hop).resolve_left (hk ▸ hsymbol k)
  · next hword =>
    refine ⟨hfits.binary ?_, hleft, hright⟩
    rcases hcheck kinds hkinds op.kind hop with h | h
    · exact h
    · simp only [logicalOperators, List.mem_cons, List.not_mem_nil, or_false] at h
      rcases h with h | h <;> exact absurd h (hword _)

theorem obeys_plainType {k : Kind} {t : TypeName} (h : plainType? k = some t) : t.Obeys rule := by
  unfold plainType? at h
  split at h <;> cases h <;> exact List.forall_mem_nil _

/-- Phrases of tokens that fit a rule have trees that obey it. -/
theorem Derives.obeys {grammar : ElseRule} {m m' : Mark} {p : Phrase} (hrule : rule.Lawful)
    (h : Derives grammar m p m') (hm : ∀ t ∈ m.ahead, rule.Fits t) :
    p.Obeys rule ∧ ∀ t ∈ m'.ahead, rule.Fits t := by
  -- By induction on the derivation: each part takes its tokens from the front of what fits, and
  -- leaves a rest that fits to the next one.
  induction h with
  | declarationsNil | methodsNil | argumentListNil => exact ⟨trivial, hm⟩
  | heritageNone | parameterListNil | typeAfterNone | initializerNone | optionalNone =>
    exact ⟨nofun, hm⟩
  | declarationsCons _ _ ihs ihss | methodsCons _ _ ihs ihss =>
    obtain ⟨hs, hm₁⟩ := ihs hm
    obtain ⟨hss, hm₂⟩ := ihss hm₁
    exact ⟨⟨hs, hss⟩, hm₂⟩
  | block _ _ _ ih | condition _ _ _ ih | grouping _ _ _ ih =>
    simp only [List.forall_mem_cons] at hm ih
    obtain ⟨hp, hm'⟩ := ih hm.2
    exact ⟨hp, hm'.2⟩
  | classDeclaration _ hname _ _ _ _ ihsuper ihdecls =>
    simp only [List.forall_mem_cons] at hm ihsuper ihdecls
    obtain ⟨hsuper, hm₁⟩ := ihsuper hm.2.2
    obtain ⟨hdecls, hm₂⟩ := ihdecls hm₁.2
    exact ⟨⟨hm.2.1.name hname, hsuper, hdecls⟩, hm₂.2⟩
  | functionDeclaration _ _ ih | variableDeclaration _ _ ih =>
    simp only [List.forall_mem_cons] at hm
    exact ih hm.2
  | typeAfterSome _ _ ih | initializerSome _ _ ih | firstVariable _ _ ih =>
    simp only [List.forall_mem_cons] at hm
    obtain ⟨hp, hm'⟩ := ih hm.2
    refine ⟨?_, hm'⟩
    rintro q ⟨rfl⟩
    exact hp
  | statementDeclaration _ ih =>
    -- Of a statement it is known, too, that it declares nothing.
    obtain ⟨hs, hm'⟩ := ih hm
    exact ⟨hs.1, hm'⟩
  | heritageSome _ hname =>
    simp only [List.forall_mem_cons] at hm
    refine ⟨?_, hm.2.2⟩
    rintro ref ⟨rfl⟩
    exact hm.2.1.name hname
  | function hname _ _ _ _ _ _ ihparams ihreturns ihbody =>
    simp only [List.forall_mem_cons] at hm ihparams
    obtain ⟨hparams, hm₁⟩ := ihparams hm.2.2
    obtain ⟨hreturns, hm₂⟩ := ihreturns hm₁.2
    obtain ⟨hbody, hm₃⟩ := ihbody hm₂
    exact ⟨⟨hm.1.name hname, hparams, hreturns, hbody⟩, hm₃⟩
  | parametersOne hname _ _ ih =>
    simp only [List.forall_mem_cons] at hm
    obtain ⟨htype, hm'⟩ := ih hm.2.2
    exact ⟨List.forall_mem_singleton.mpr ⟨hm.1.name hname, htype⟩, hm'⟩
  | parametersCons hname _ _ _ _ ihtype ihps =>
    simp only [List.forall_mem_cons] at hm ihtype
    obtain ⟨htype, hm₁⟩ := ihtype hm.2.2
    obtain ⟨hps, hm₂⟩ := ihps hm₁.2
    exact ⟨List.forall_mem_cons.mpr ⟨⟨hm.1.name hname, htype⟩, hps⟩, hm₂⟩
  | typePlain hword =>
    simp only [List.forall_mem_cons] at hm
    exact ⟨obeys_plainType hword, hm.2⟩
  | typeNamed hname =>
    simp only [List.forall_mem_cons] at hm
    exact ⟨List.forall_mem_singleton.mpr (hm.1.name hname), hm.2⟩
  | binding hname _ _ _ _ ihtype ihe =>
    simp only [List.forall_mem_cons] at hm ihe
    obtain ⟨htype, hm₁⟩ := ihtype hm.2
    obtain ⟨he, hm₂⟩ := ihe hm₁
    exact ⟨⟨hm.1.name hname, htype, he⟩, hm₂.2⟩
  | forStatement _ _ _ _ _ _ _ _ ihfirst ihtest ihstep ihbody =>
    simp only [List.forall_mem_cons] at hm ihtest ihstep
    obtain ⟨hfirst, hm₁⟩ := ihfirst hm.2.2
    obtain ⟨htest, hm₂⟩ := ihtest hm₁
    obtain ⟨hstep, hm₃⟩ := ihstep hm₂.2
    obtain ⟨hbody, hm₄⟩ := ihbody hm₃.2
    exact ⟨obeys_desugared hrule hm.1.position hfirst htest hstep hbody, hm₄⟩
  | ifStatement _ _ _ ihtest ihyes | whileStatement _ _ _ ihtest ihyes =>
    simp only [List.forall_mem_cons] at hm
    obtain ⟨htest, hm₁⟩ := ihtest hm.2
    obtain ⟨hyes, hm₂⟩ := ihyes hm₁
    exact ⟨⟨⟨hm.1.position, htest, hyes.1, hrule.branch _ hyes.2⟩, rfl⟩, hm₂⟩
  | ifElseStatement _ _ _ _ _ _ ihtest ihyes ihno =>
    simp only [List.forall_mem_cons] at hm ihyes
    obtain ⟨htest, hm₁⟩ := ihtest hm.2
    obtain ⟨hyes, hm₂⟩ := ihyes hm₁
    obtain ⟨hno, hm₃⟩ := ihno hm₂.2
    exact ⟨⟨⟨hm.1.position, htest, ⟨hyes.1, hrule.branch _ hyes.2⟩, hno.1,
      hrule.branch _ hno.2⟩, rfl⟩, hm₃⟩
  | returnStatement _ _ _ ih =>
    simp only [List.forall_mem_cons] at hm ih
    obtain ⟨hvalue, hm'⟩ := ih hm.2
    exact ⟨⟨⟨hm.1.position, hvalue⟩, rfl⟩, hm'.2⟩
  | blockStatement _ ih =>
    obtain ⟨hss, hm'⟩ := ih hm
    exact ⟨⟨hss, rfl⟩, hm'⟩
  | expressionStatement _ _ ih =>
    simp only [List.forall_mem_cons] at ih
    obtain ⟨he, hm'⟩ := ih hm
    exact ⟨⟨he, rfl⟩, hm'.2⟩
  | firstNone _ => exact ⟨nofun, (List.forall_mem_cons.mp hm).2⟩
  | firstExpression _ _ ih =>
    simp only [List.forall_mem_cons] at ih
    obtain ⟨he, hm'⟩ := ih hm
    refine ⟨?_, hm'.2⟩
    rintro s ⟨rfl⟩
    exact he
  | optionalSome _ ih =>
    obtain ⟨he, hm'⟩ := ih hm
    refine ⟨?_, hm'⟩
    rintro f ⟨rfl⟩
    exact he
  | assign hname _ _ ih =>
    simp only [List.forall_mem_cons] at hm
    obtain ⟨hvalue, hm'⟩ := ih hm.2.2
    exact ⟨⟨hm.1.name hname, hvalue⟩, hm'⟩
  | set _ _ hname _ _ ihobject ihvalue =>
    simp only [List.forall_mem_cons] at ihobject
    obtain ⟨hobject, hm₁⟩ := ihobject hm
    obtain ⟨hvalue, hm₂⟩ := ihvalue hm₁.2.2.2
    exact ⟨⟨hm₁.2.1.name hname, hobject, hvalue⟩, hm₂⟩
  | choice _ _ _ _ _ ihtest ihyes ihno =>
    simp only [List.forall_mem_cons] at ihtest ihyes
    obtain ⟨htest, hm₁⟩ := ihtest hm
    obtain ⟨hyes, hm₂⟩ := ihyes hm₁.2
    obtain ⟨hno, hm₃⟩ := ihno hm₂.2
    exact ⟨⟨hm₁.1.position, htest (List.Subset.refl _), hyes (List.Subset.refl _), hno⟩, hm₃⟩
  | operation _ hop _ ihleft ihright =>
    simp only [List.forall_mem_cons] at ihleft
    obtain ⟨hleft, hm₁⟩ := ihleft hm
    obtain ⟨hright, hm₂⟩ := ihright hm₁.2
    -- The levels of a chain are the last ones of the grammar, so its operators are among these.
    refine ⟨?_, hm₂⟩
    intro hlevels
    exact obeys_operation (hlevels List.mem_cons_self) hop hm₁.1 (hleft hlevels)
      (hright fun k hk => hlevels (List.mem_cons_of_mem _ hk))
  | operand _ ih =>
    obtain ⟨he, hm'⟩ := ih hm
    exact ⟨fun hlevels => he fun k hk => hlevels (List.mem_cons_of_mem _ hk), hm'⟩
  | tightest _ ih =>
    obtain ⟨he, hm'⟩ := ih hm
    exact ⟨fun _ => he, hm'⟩
  | plainTernary _ ih =>
    obtain ⟨he, hm'⟩ := ih hm
    exact ⟨he (List.Subset.refl _), hm'⟩
  | signed hop _ ih =>
    simp only [List.forall_mem_cons] at hm
    obtain ⟨he, hm'⟩ := ih hm.2
    exact ⟨⟨hm.1.unary (by simpa [unaryOperators] using hop), he⟩, hm'⟩
  | call _ _ _ _ _ ihcallee ihargs =>
    simp only [List.forall_mem_cons] at ihcallee ihargs
    obtain ⟨hcallee, hm₁⟩ := ihcallee hm
    obtain ⟨hargs, hm₂⟩ := ihargs hm₁.2
    exact ⟨⟨hm₂.1.position, hcallee, hargs⟩, hm₂.2⟩
  | get _ _ hname ih =>
    simp only [List.forall_mem_cons] at ih
    obtain ⟨hobject, hm'⟩ := ih hm
    exact ⟨⟨hm'.2.1.name hname, hobject⟩, hm'.2.2⟩
  | argumentsOne _ ih =>
    obtain ⟨he, hm'⟩ := ih hm
    exact ⟨⟨he, trivial⟩, hm'⟩
  | argumentsCons _ _ _ ihe ihes =>
    simp only [List.forall_mem_cons] at ihe
    obtain ⟨he, hm₁⟩ := ihe hm
    obtain ⟨hes, hm₂⟩ := ihes hm₁.2
    exact ⟨⟨he, hes⟩, hm₂⟩
  | constant hvalue =>
    simp only [List.forall_mem_cons] at hm
    exact ⟨hm.1.literal _ hvalue, hm.2⟩
  | this ht =>
    simp only [List.forall_mem_cons] at hm
    exact ⟨hm.1.receiver ht, hm.2⟩
  | super ht _ hmethod =>
    simp only [List.forall_mem_cons] at hm
    exact ⟨⟨hm.1.superclass ht, hm.2.2.1.name hmethod⟩, hm.2.2.2⟩
  | name ht =>
    simp only [List.forall_mem_cons] at hm
    exact ⟨hm.1.name ht, hm.2⟩
  | parameterListSome _ ih | plainExpression _ ih | plainUnary _ ih | plainCall _ ih
  | argumentListSome _ ih => exact ih hm

/-- The tree of a program obeys a rule that its tokens fit. -/
theorem Reads.obeys {grammar : ElseRule} {tokens : List Token} {p : Program} (hrule : rule.Lawful)
    (h : Reads grammar tokens p) (hfits : ∀ t ∈ tokens, rule.Fits t) : Stmt.AllObey rule p := by
  obtain ⟨n, hn⟩ := h
  refine (hn.obeys hrule ?_).1
  intro t ht
  exact hfits t ((List.takeWhile_sublist _).subset ht)

end Grammar

end ClassScript
