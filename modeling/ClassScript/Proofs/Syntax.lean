import ClassScript.Program

namespace ClassScript

/-!
# Programs as trees

What holds of the tree of a program by the way programs are written, apart from what its names
mean: which names it uses, and which shapes the grammar never gives.

* `Expr.references`, `Stmt.references`: the uses of names in a tree;
* `Stmt.declared?`: the name that a statement binds in the frame that it stands in;
* `Expr.WellFormed`, `Stmt.WellFormed`: operators are operators, the words for the receiver and the
  superclass are not used as names, and no branch of a condition or a loop declares a name.
-/

/-! ### Uses of names -/

/-- The use of a name in a type as it is written. -/
def TypeName.references : TypeName → List Reference
  | .named ref => [ref]
  | _ => []

mutual

/-- The uses of names in an expression. -/
def Expr.references : Expr → List Reference
  | .literal _ => []
  | .grouping inner => inner.references
  | .unary _ operand => operand.references
  | .binary left _ right => left.references ++ right.references
  | .logical left _ right => left.references ++ right.references
  | .ternary condition _ yes no => condition.references ++ (yes.references ++ no.references)
  | .var ref => [ref]
  | .assign target value => target :: value.references
  | .call callee _ arguments => callee.references ++ Expr.referencesAll arguments
  | .get object _ => object.references
  | .set object _ value => object.references ++ value.references
  | .this ref => [ref]
  | .super keyword _ => [keyword]

/-- The uses of names in expressions. -/
def Expr.referencesAll : List Expr → List Reference
  | [] => []
  | e :: es => e.references ++ Expr.referencesAll es

end

/-- The uses of names in the types of a function. -/
def FunctionDecl.typeReferences (decl : FunctionDecl) : List Reference :=
  decl.params.flatMap (fun p => p.type.references) ++ decl.returns.elim [] TypeName.references

mutual

/-- The uses of names in a statement. -/
def Stmt.references : Stmt → List Reference
  | .expression e => e.references
  | .val _ type initializer =>
    type.elim [] TypeName.references ++ initializer.elim [] Expr.references
  | .block body => Stmt.referencesAll body
  | .ifThen _ condition yes => condition.references ++ yes.references
  | .ifElse _ condition yes no => condition.references ++ (yes.references ++ no.references)
  | .whileLoop _ condition body => condition.references ++ body.references
  | .funDecl decl => decl.references
  | .ret _ value => value.elim [] Expr.references
  | .classDecl _ superclass decls => superclass.toList ++ FunctionDecl.referencesAll decls

/-- The uses of names in statements. -/
def Stmt.referencesAll : List Stmt → List Reference
  | [] => []
  | s :: ss => s.references ++ Stmt.referencesAll ss

/-- The uses of names in a function. -/
def FunctionDecl.references : FunctionDecl → List Reference
  | ⟨name, params, returns, body⟩ =>
    FunctionDecl.typeReferences ⟨name, params, returns, body⟩ ++ Stmt.referencesAll body

/-- The uses of names in functions. -/
def FunctionDecl.referencesAll : List FunctionDecl → List Reference
  | [] => []
  | decl :: decls => decl.references ++ FunctionDecl.referencesAll decls

end

/-! ### Declarations -/

/-- The name that a statement binds in the frame that it stands in. -/
def Stmt.declared? : Stmt → Option String
  | .val name _ _ => some name.text
  | .funDecl decl => some decl.name.text
  | .classDecl name _ _ => some name.text
  | _ => none

/-! ### Well-formed trees -/

/-- The name is an ordinary one: it stands neither for the receiver nor for the superclass. -/
def Name.Plain (name : Name) : Prop := name.text ≠ thisName ∧ name.text ≠ superName

/-- The class that a type names, if any, has an ordinary name. -/
def TypeName.WellFormed (type : TypeName) : Prop := ∀ ref ∈ type.references, ref.name.Plain

/-- The kinds of the unary operators. -/
def unaryOperators : List Kind := [.symbol .bang, .symbol .minus]

/-- The kinds of the operators that always take both sides. -/
def binaryOperators : List Kind :=
  [.symbol .bangEqual, .symbol .equalEqual, .symbol .greater, .symbol .greaterEqual, .symbol .less,
    .symbol .lessEqual, .symbol .minus, .symbol .plus, .symbol .slash, .symbol .star,
    .symbol .percent, .symbol .caret]

mutual

/-- An expression as the grammar gives it. -/
def Expr.WellFormed : Expr → Prop
  | .literal _ => True
  | .grouping inner => inner.WellFormed
  | .unary operator operand => operator.kind ∈ unaryOperators ∧ operand.WellFormed
  | .binary left operator right =>
    operator.kind ∈ binaryOperators ∧ left.WellFormed ∧ right.WellFormed
  | .logical left _ right => left.WellFormed ∧ right.WellFormed
  | .ternary condition _ yes no => condition.WellFormed ∧ yes.WellFormed ∧ no.WellFormed
  | .var ref => ref.name.Plain
  | .assign target value => target.name.Plain ∧ value.WellFormed
  | .call callee _ arguments => callee.WellFormed ∧ Expr.AllWellFormed arguments
  | .get object _ => object.WellFormed
  | .set object _ value => object.WellFormed ∧ value.WellFormed
  | .this ref => ref.name.text = thisName
  | .super keyword _ => keyword.name.text = superName

/-- Expressions as the grammar gives them. -/
def Expr.AllWellFormed : List Expr → Prop
  | [] => True
  | e :: es => e.WellFormed ∧ Expr.AllWellFormed es

end

/-- A parameter as the grammar gives it. -/
def Param.WellFormed (p : Param) : Prop := p.name.Plain ∧ p.type.WellFormed

mutual

/-- A statement as the grammar gives it. -/
def Stmt.WellFormed : Stmt → Prop
  | .expression e => e.WellFormed
  | .val name type initializer =>
    name.Plain ∧ (∀ t ∈ type, t.WellFormed) ∧ ∀ e ∈ initializer, e.WellFormed
  | .block body => Stmt.AllWellFormed body
  | .ifThen _ condition yes => condition.WellFormed ∧ yes.WellFormed ∧ yes.declared? = none
  | .ifElse _ condition yes no =>
    condition.WellFormed ∧ (yes.WellFormed ∧ yes.declared? = none) ∧
      no.WellFormed ∧ no.declared? = none
  | .whileLoop _ condition body => condition.WellFormed ∧ body.WellFormed ∧ body.declared? = none
  | .funDecl decl => decl.WellFormed
  | .ret _ value => ∀ e ∈ value, e.WellFormed
  | .classDecl name superclass decls =>
    name.Plain ∧ (∀ ref ∈ superclass, ref.name.Plain) ∧ FunctionDecl.AllWellFormed decls

/-- Statements as the grammar gives them. -/
def Stmt.AllWellFormed : List Stmt → Prop
  | [] => True
  | s :: ss => s.WellFormed ∧ Stmt.AllWellFormed ss

/-- A function as the grammar gives it. -/
def FunctionDecl.WellFormed : FunctionDecl → Prop
  | ⟨name, params, returns, body⟩ =>
    name.Plain ∧ (∀ p ∈ params, p.WellFormed) ∧ (∀ t ∈ returns, t.WellFormed) ∧
      Stmt.AllWellFormed body

/-- Functions as the grammar gives them. -/
def FunctionDecl.AllWellFormed : List FunctionDecl → Prop
  | [] => True
  | decl :: decls => decl.WellFormed ∧ FunctionDecl.AllWellFormed decls

end

theorem FunctionDecl.plain_of_wellFormed {decl : FunctionDecl} (h : decl.WellFormed) :
    decl.name.Plain ∧ ∀ p ∈ decl.params, p.name.Plain := by
  obtain ⟨name, params, returns, body⟩ := decl
  exact ⟨h.1, fun p hp => (h.2.1 p hp).1⟩

end ClassScript
