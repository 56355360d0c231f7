import ClassScript.Proofs.CodeRules
import ClassScript.Proofs.Grammar.Trees

namespace ClassScript

/-!
# Positions in trees

Whatever in the tree of a program carries a position has it from a token: names, operators and the
few keywords and brackets that are kept. This holds of loops with `for` too, whose tree is made of
other statements. A run reports its failures at positions of the tree that it runs, so at positions
of tokens.

* `Expr.PlacedIn`, `Stmt.PlacedIn`: all positions of a tree have a property;
* `Grammar.Derives.placed`: phrases have the positions of their tokens;
* `CodeRule.placed`: code that is well formed and has its positions in a given set; runs of it
  report their failures there.
-/

/-! ### All positions of a tree -/

section Trees

variable (P : Position → Prop)

mutual

/-- All positions in the expression have the property. -/
def Expr.PlacedIn : Expr → Prop
  | .literal _ => True
  | .grouping inner => inner.PlacedIn
  | .unary operator operand => P operator.pos ∧ operand.PlacedIn
  | .binary left operator right => P operator.pos ∧ left.PlacedIn ∧ right.PlacedIn
  | .logical left operator right => P operator.pos ∧ left.PlacedIn ∧ right.PlacedIn
  | .ternary condition question yes no =>
    P question ∧ condition.PlacedIn ∧ yes.PlacedIn ∧ no.PlacedIn
  | .var ref => P ref.name.pos
  | .assign target value => P target.name.pos ∧ value.PlacedIn
  | .call callee paren arguments => P paren ∧ callee.PlacedIn ∧ Expr.AllPlacedIn arguments
  | .get object name => P name.pos ∧ object.PlacedIn
  | .set object name value => P name.pos ∧ object.PlacedIn ∧ value.PlacedIn
  | .this ref => P ref.name.pos
  | .super keyword method => P keyword.name.pos ∧ P method.pos

/-- All positions in the expressions have the property. -/
def Expr.AllPlacedIn : List Expr → Prop
  | [] => True
  | e :: es => e.PlacedIn ∧ Expr.AllPlacedIn es

end

/-- The position in the type, if it has one, has the property. -/
def TypeName.PlacedIn (t : TypeName) : Prop := ∀ ref ∈ t.references, P ref.name.pos

/-- The positions of the parameter have the property. -/
def Param.PlacedIn (p : Param) : Prop := P p.name.pos ∧ p.type.PlacedIn P

mutual

/-- All positions in the statement have the property. -/
def Stmt.PlacedIn : Stmt → Prop
  | .expression e => e.PlacedIn P
  | .val name type initializer =>
    P name.pos ∧ (∀ t ∈ type, t.PlacedIn P) ∧ ∀ e ∈ initializer, e.PlacedIn P
  | .block body => Stmt.AllPlacedIn body
  | .ifThen keyword condition yes => P keyword ∧ condition.PlacedIn P ∧ yes.PlacedIn
  | .ifElse keyword condition yes no =>
    P keyword ∧ condition.PlacedIn P ∧ yes.PlacedIn ∧ no.PlacedIn
  | .whileLoop keyword condition body => P keyword ∧ condition.PlacedIn P ∧ body.PlacedIn
  | .funDecl decl => decl.PlacedIn
  | .ret keyword value => P keyword ∧ ∀ e ∈ value, e.PlacedIn P
  | .classDecl name superclass decls =>
    P name.pos ∧ (∀ ref ∈ superclass, P ref.name.pos) ∧ FunctionDecl.AllPlacedIn decls

/-- All positions in the statements have the property. -/
def Stmt.AllPlacedIn : List Stmt → Prop
  | [] => True
  | s :: ss => s.PlacedIn ∧ Stmt.AllPlacedIn ss

/-- All positions in the function have the property. -/
def FunctionDecl.PlacedIn : FunctionDecl → Prop
  | ⟨name, params, returns, body⟩ =>
    P name.pos ∧ (∀ p ∈ params, p.PlacedIn P) ∧ (∀ t ∈ returns, t.PlacedIn P) ∧
      Stmt.AllPlacedIn body

/-- All positions in the functions have the property. -/
def FunctionDecl.AllPlacedIn : List FunctionDecl → Prop
  | [] => True
  | decl :: decls => decl.PlacedIn ∧ FunctionDecl.AllPlacedIn decls

end

/-- All positions in the part have the property. -/
def Part.PlacedIn : Part → Prop
  | .expr e => e.PlacedIn P
  | .exprs es => Expr.AllPlacedIn P es
  | .stmt s => s.PlacedIn P
  | .stmts ss => Stmt.AllPlacedIn P ss

end Trees

variable {P : Position → Prop}

theorem FunctionDecl.placedIn_of_mem {decls : List FunctionDecl}
    (h : FunctionDecl.AllPlacedIn P decls) : ∀ decl ∈ decls, decl.PlacedIn P := by
  induction decls with
  | nil => exact List.forall_mem_nil _
  | cons first decls ih => exact List.forall_mem_cons.mpr ⟨h.1, ih h.2⟩

/-! ### Positions of tokens -/

/-- The rule that all positions have a property. -/
def TreeRule.placed (P : Position → Prop) : TreeRule where
  name name := P name.pos
  receiver name := P name.pos
  superclass name := P name.pos
  unary operator := P operator.pos
  binary operator := P operator.pos
  logical operator := P operator.pos
  literal _ := True
  position := P
  branch _ := True

theorem TreeRule.placed_lawful : (TreeRule.placed P).Lawful where
  literal_true := trivial
  branch _ _ := trivial

/-- A token that stands there fits the rule. -/
theorem TreeRule.fits_placed {t : Token} (h : P t.pos) : (TreeRule.placed P).Fits t where
  name _ := h
  receiver _ := h
  superclass _ := h
  unary _ := h
  binary _ := h
  logical _ := h
  literal _ _ := trivial
  position := h

mutual

theorem Expr.placedIn_of_obeys : ∀ e : Expr, e.Obeys (.placed P) → e.PlacedIn P
  | .literal _, _ => trivial
  | .grouping inner, h => inner.placedIn_of_obeys h
  | .unary _ operand, h => ⟨h.1, operand.placedIn_of_obeys h.2⟩
  | .binary left _ right, h => ⟨h.1, left.placedIn_of_obeys h.2.1, right.placedIn_of_obeys h.2.2⟩
  | .logical left _ right, h => ⟨h.1, left.placedIn_of_obeys h.2.1, right.placedIn_of_obeys h.2.2⟩
  | .ternary condition _ yes no, h =>
    ⟨h.1, condition.placedIn_of_obeys h.2.1, yes.placedIn_of_obeys h.2.2.1,
      no.placedIn_of_obeys h.2.2.2⟩
  | .var _, h => h
  | .assign _ value, h => ⟨h.1, value.placedIn_of_obeys h.2⟩
  | .call callee _ arguments, h =>
    ⟨h.1, callee.placedIn_of_obeys h.2.1, Expr.allPlacedIn_of_obey arguments h.2.2⟩
  | .get object _, h => ⟨h.1, object.placedIn_of_obeys h.2⟩
  | .set object _ value, h =>
    ⟨h.1, object.placedIn_of_obeys h.2.1, value.placedIn_of_obeys h.2.2⟩
  | .this _, h => h
  | .super _ _, h => h

theorem Expr.allPlacedIn_of_obey : ∀ es : List Expr, Expr.AllObey (.placed P) es →
    Expr.AllPlacedIn P es
  | [], _ => trivial
  | e :: es, h => ⟨e.placedIn_of_obeys h.1, Expr.allPlacedIn_of_obey es h.2⟩

end

mutual

theorem Stmt.placedIn_of_obeys : ∀ s : Stmt, s.Obeys (.placed P) → s.PlacedIn P
  | .expression e, h => e.placedIn_of_obeys h
  | .val _ _ _, h => ⟨h.1, h.2.1, fun e he => e.placedIn_of_obeys (h.2.2 e he)⟩
  | .block body, h => Stmt.allPlacedIn_of_obey body h
  | .ifThen _ condition yes, h =>
    ⟨h.1, condition.placedIn_of_obeys h.2.1, yes.placedIn_of_obeys h.2.2.1⟩
  | .ifElse _ condition yes no, h =>
    ⟨h.1, condition.placedIn_of_obeys h.2.1, yes.placedIn_of_obeys h.2.2.1.1,
      no.placedIn_of_obeys h.2.2.2.1⟩
  | .whileLoop _ condition body, h =>
    ⟨h.1, condition.placedIn_of_obeys h.2.1, body.placedIn_of_obeys h.2.2.1⟩
  | .funDecl decl, h => decl.placedIn_of_obeys h
  | .ret _ _, h => ⟨h.1, fun e he => e.placedIn_of_obeys (h.2 e he)⟩
  | .classDecl _ _ decls, h => ⟨h.1, h.2.1, FunctionDecl.allPlacedIn_of_obey decls h.2.2⟩

theorem Stmt.allPlacedIn_of_obey : ∀ ss : List Stmt, Stmt.AllObey (.placed P) ss →
    Stmt.AllPlacedIn P ss
  | [], _ => trivial
  | s :: ss, h => ⟨s.placedIn_of_obeys h.1, Stmt.allPlacedIn_of_obey ss h.2⟩

theorem FunctionDecl.placedIn_of_obeys : ∀ decl : FunctionDecl, decl.Obeys (.placed P) →
    decl.PlacedIn P
  | ⟨_, _, _, body⟩, h => ⟨h.1, h.2.1, h.2.2.1, Stmt.allPlacedIn_of_obey body h.2.2.2⟩

theorem FunctionDecl.allPlacedIn_of_obey : ∀ decls : List FunctionDecl,
    FunctionDecl.AllObey (.placed P) decls → FunctionDecl.AllPlacedIn P decls
  | [], _ => trivial
  | decl :: decls, h => ⟨decl.placedIn_of_obeys h.1, FunctionDecl.allPlacedIn_of_obey decls h.2⟩

end

namespace Grammar

/-- All positions in the tree of the phrase have the property. -/
def Phrase.PlacedIn (P : Position → Prop) : Phrase → Prop
  | .declarations ss | .block ss => Stmt.AllPlacedIn P ss
  | .declaration s | .binding s | .statement s _ => s.PlacedIn P
  | .heritage superclass => ∀ ref ∈ superclass, P ref.name.pos
  | .methods decls => FunctionDecl.AllPlacedIn P decls
  | .function decl => decl.PlacedIn P
  | .parameterList ps | .parameters ps => ∀ p ∈ ps, p.PlacedIn P
  | .type t => t.PlacedIn P
  | .typeAfter _ t => ∀ u ∈ t, u.PlacedIn P
  | .initializer e | .optional e => ∀ f ∈ e, f.PlacedIn P
  | .firstClause s => ∀ u ∈ s, u.PlacedIn P
  | .condition e | .expression e | .ternary e | .binary _ e | .unary e | .call e | .primary e =>
    e.PlacedIn P
  | .argumentList es | .arguments es => Expr.AllPlacedIn P es

/-- Phrases, binary operators among those of the grammar, have the positions of their tokens. -/
theorem Derives.placed {rule : ElseRule} {m m' : Mark} {p : Phrase} (h : Derives rule m p m')
    (hm : ∀ t ∈ m.ahead, P t.pos)
    (hlevels : ∀ levels e, p = .binary levels e → levels ⊆ operators) : p.PlacedIn P := by
  have hobeys := (h.obeys TreeRule.placed_lawful fun t ht => TreeRule.fits_placed (hm t ht)).1
  cases p with
  | declarations ss | block ss => exact Stmt.allPlacedIn_of_obey ss hobeys
  | declaration s | binding s => exact s.placedIn_of_obeys hobeys
  | statement s dangling => exact s.placedIn_of_obeys hobeys.1
  | heritage | parameterList | parameters | type | typeAfter => exact hobeys
  | methods decls => exact FunctionDecl.allPlacedIn_of_obey decls hobeys
  | function decl => exact decl.placedIn_of_obeys hobeys
  | initializer e | optional e => exact fun f hf => f.placedIn_of_obeys (hobeys f hf)
  | firstClause s => exact fun u hu => u.placedIn_of_obeys (hobeys u hu)
  | binary levels e => exact e.placedIn_of_obeys (hobeys (hlevels levels e rfl))
  | condition e | expression e | ternary e | unary e | call e | primary e =>
    exact e.placedIn_of_obeys hobeys
  | argumentList es | arguments es => exact Expr.allPlacedIn_of_obey es hobeys

end Grammar

/-- All positions in a program that is read are those of tokens. -/
theorem placedIn_of_parse {tokens : List Token} {p : Program} (h : parse tokens = .ok p)
    (htokens : ∀ t ∈ tokens, P t.pos) : Stmt.AllPlacedIn P p := by
  obtain ⟨n, hn⟩ := reads_of_parse h
  apply hn.placed
  · exact fun t ht => htokens t ((List.takeWhile_sublist _).subset ht)
  · intro levels e hphrase
    cases hphrase

/-! ### Runs -/

theorem Part.wellFormed_of_expr {e : Expr} {part : Part} (h : e.WellFormed)
    (hpart : part ∈ e.parts) : part.WellFormed := by
  revert part
  cases e <;> simp_all [Expr.parts, Expr.WellFormed, Part.WellFormed]

theorem Part.wellFormed_of_stmt {s : Stmt} {part : Part} (h : s.WellFormed)
    (hpart : part ∈ s.parts) : part.WellFormed := by
  revert part
  cases s <;> simp_all [Stmt.parts, Stmt.WellFormed, Part.WellFormed]

theorem Part.placedIn_of_expr {e : Expr} {part : Part} (h : e.PlacedIn P)
    (hpart : part ∈ e.parts) : part.PlacedIn P := by
  revert part
  cases e <;> simp_all [Expr.parts, Expr.PlacedIn, Part.PlacedIn]

theorem Part.placedIn_of_stmt {s : Stmt} {part : Part} (h : s.PlacedIn P)
    (hpart : part ∈ s.parts) : part.PlacedIn P := by
  revert part
  cases s <;> simp_all [Stmt.parts, Stmt.PlacedIn, Part.PlacedIn]

/-- What an expression raises itself is reported at one of its positions. -/
theorem Expr.Raises.placed {e : Expr} {fault : Located RuntimeFault} (h : e.Raises fault)
    (he : e.PlacedIn P) : P fault.pos := by
  cases e with
  | literal value => exact h.elim
  | grouping inner => exact h.elim
  | call callee paren arguments => exact h.elim
  | var ref => exact h ▸ he
  | this ref => exact h ▸ he
  | assign target value => exact h ▸ he.1
  | super keyword method =>
    rcases h with rfl | rfl | rfl
    · exact he.1
    · exact he.1
    · exact he.2
  | _ => exact h.1 ▸ he.1

/-- What a statement raises itself is reported at one of its positions. -/
theorem Stmt.Raises.placed {s : Stmt} {fault : Located RuntimeFault} (h : s.Raises fault)
    (hs : s.PlacedIn P) : P fault.pos := by
  cases s with
  | ifThen keyword condition yes => exact h.1 ▸ hs.1
  | ifElse keyword condition yes no => exact h.1 ▸ hs.1
  | whileLoop keyword condition body => exact h.1 ▸ hs.1
  | classDecl name superclass decls =>
    obtain ⟨ref, href, rfl⟩ := h
    exact hs.2.1 ref href
  | _ => exact h.elim

/-- Code as the grammar gives it, with its positions in a given set, may run anywhere. -/
def CodeRule.placed (P : Position → Prop) : CodeRule where
  Runs _ _ part := part.WellFormed ∧ part.PlacedIn P
  Closes _ _ decl := decl.WellFormed ∧ decl.PlacedIn P
  Awaits _ _ decl := decl.WellFormed ∧ decl.PlacedIn P
  Reports := P

theorem CodeRule.placed_lawful : (CodeRule.placed P).Lawful where
  runs_retains h _ := h
  closes_retains h _ := h
  awaits_retains h _ := h
  wellFormed h := h.1
  expr h hmem := ⟨Part.wellFormed_of_expr h.1 hmem, Part.placedIn_of_expr h.2 hmem⟩
  exprs h := ⟨⟨h.1.1, h.2.1⟩, ⟨h.1.2, h.2.2⟩⟩
  stmt h hmem := ⟨Part.wellFormed_of_stmt h.1 hmem, Part.placedIn_of_stmt h.2 hmem⟩
  stmts h := ⟨⟨h.1.1, h.2.1⟩, ⟨h.1.2, h.2.2⟩⟩
  block h := h
  function h := h
  params h := (FunctionDecl.plain_of_wellFormed h.1).2
  body := by
    rintro h f ⟨name, params, returns, body⟩ bindings hdecl -
    exact ⟨hdecl.1.2.2.2, hdecl.2.2.2.2⟩
  receiver h := h
  base h decl hmem := ⟨Resolution.Valid.wellFormed_of_mem h.1.2.2 hmem,
    FunctionDecl.placedIn_of_mem h.2.2.2 decl hmem⟩
  derived h decl hmem := ⟨Resolution.Valid.wellFormed_of_mem h.1.2.2 hmem,
    FunctionDecl.placedIn_of_mem h.2.2.2 decl hmem⟩
  raises_expr h hfault := hfault.placed h.2
  raises_stmt h hfault := hfault.placed h.2
  paren h := h.2.1
  superclass h := h.2.2.1 _ rfl

end ClassScript
