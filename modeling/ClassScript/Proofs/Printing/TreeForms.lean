import ClassScript.Proofs.Forms
import ClassScript.Proofs.Printing.Outlines
import ClassScript.Proofs.Respacing

namespace ClassScript

/-!
# Forms of trees

The text of a statement is that of a form. Where a mark follows a word without a blank, as in the
parameters of a function, the mark belongs to the word. The form is legible if the leaves of the
tree are spelt as what they are.

* `Expr.toForm`, `Stmt.toForm`: the forms of expressions and statements;
* `Expr.render_eq`, `Stmt.render_eq`: their texts are those of their forms;
* `Stmt.isLegible_toForm`: forms of trees whose leaves are well spelt are legible.
-/

/-! ### Forms of trees -/

mutual

/-- The form of an expression. -/
def Expr.toForm : Expr → Form
  | .literal value => .atom value.render
  | .grouping inner => .list [.atom "group", inner.toForm]
  | .unary operator operand => .list [.atom operator.lexeme, operand.toForm]
  | .binary left operator right => .list [.atom operator.lexeme, left.toForm, right.toForm]
  | .logical left operator right => .list [.atom operator.lexeme, left.toForm, right.toForm]
  | .ternary condition _ yes no =>
    .list [.atom "?:", condition.toForm, yes.toForm, no.toForm]
  | .var ref => .atom ref.name.text
  | .assign target value => .list [.atom "=", .atom target.name.text, value.toForm]
  | .call callee _ arguments => .list (.atom "call" :: callee.toForm :: Expr.toForms arguments)
  | .get object name => .list [.atom ".", object.toForm, .atom name.text]
  | .set object name value => .list [.atom ".=", object.toForm, .atom name.text, value.toForm]
  | .this _ => .atom thisName
  | .super _ method => .list [.atom superName, .atom method.text]

/-- The forms of expressions. -/
def Expr.toForms : List Expr → List Form
  | [] => []
  | e :: es => e.toForm :: Expr.toForms es

end

/-- The forms of parameters. The marks between them belong to the words before them. -/
def Param.toForms : List Param → List Form
  | [] => []
  | [p] => [.atom (p.name.text ++ ":"), .atom p.type.render]
  | p :: q :: ps =>
    .atom (p.name.text ++ ":") :: .atom (p.type.render ++ ",") :: Param.toForms (q :: ps)

/-- The forms of the name and the type of a variable. -/
def Name.toForms (name : Name) : Option TypeName → List Form
  | none => [.atom name.text]
  | some type => [.atom (name.text ++ ":"), .atom type.render]

/-- The forms of what a class extends. -/
def Reference.toForms : Option Reference → List Form
  | none => []
  | some ref => [.atom "<", .atom ref.name.text]

mutual

/-- The form of a statement. -/
def Stmt.toForm : Stmt → Form
  | .expression e => .list [.atom "expr", e.toForm]
  | .val name type initializer =>
    .list (.atom "val" :: (name.toForms type ++ (initializer.map Expr.toForm).toList))
  | .block body => .list (.atom "block" :: Stmt.toForms body)
  | .ifThen _ condition yes => .list [.atom "if", condition.toForm, yes.toForm]
  | .ifElse _ condition yes no => .list [.atom "if", condition.toForm, yes.toForm, no.toForm]
  | .whileLoop _ condition body => .list [.atom "while", condition.toForm, body.toForm]
  | .funDecl decl => decl.toForm
  | .ret _ value => .list (.atom "return" :: (value.map Expr.toForm).toList)
  | .classDecl name superclass decls =>
    .list (.atom "class" :: .atom name.text ::
      (Reference.toForms superclass ++ FunctionDecl.toForms decls))

/-- The forms of statements. -/
def Stmt.toForms : List Stmt → List Form
  | [] => []
  | s :: ss => s.toForm :: Stmt.toForms ss

/-- The form of a function. -/
def FunctionDecl.toForm : FunctionDecl → Form
  | ⟨name, params, returns, body⟩ =>
    .list [.atom "def", .atom name.text, .list (Param.toForms params), .atom "->",
      .atom (returns.getD .void).render, .list (.atom "block" :: Stmt.toForms body)]

/-- The forms of functions. -/
def FunctionDecl.toForms : List FunctionDecl → List Form
  | [] => []
  | decl :: decls => decl.toForm :: FunctionDecl.toForms decls

end

mutual

/-- The text of an expression is that of its form. -/
theorem Expr.render_eq : ∀ e : Expr, e.render.toList = e.toForm.render
  | .literal _ | .var _ | .this _ => by simp [Expr.render, Expr.toForm, Form.render, thisName]
  | .grouping inner => by
    simp [Expr.render, Expr.toForm, Form.render, Form.renderEach, inner.render_eq]
  | .unary _ operand => by
    simp [Expr.render, Expr.toForm, Form.render, Form.renderEach, operand.render_eq]
  | .binary left _ right | .logical left _ right => by
    simp [Expr.render, Expr.toForm, Form.render, Form.renderEach, left.render_eq, right.render_eq]
  | .ternary condition _ yes no => by
    simp [Expr.render, Expr.toForm, Form.render, Form.renderEach, condition.render_eq,
      yes.render_eq, no.render_eq]
  | .assign _ value => by
    simp [Expr.render, Expr.toForm, Form.render, Form.renderEach, value.render_eq]
  | .call callee _ arguments => by
    simp [Expr.render, Expr.toForm, Form.render, Form.renderEach, callee.render_eq,
      Expr.renderEach_eq arguments]
  | .get object _ => by
    simp [Expr.render, Expr.toForm, Form.render, Form.renderEach, object.render_eq]
  | .set object _ value => by
    simp [Expr.render, Expr.toForm, Form.render, Form.renderEach, object.render_eq,
      value.render_eq]
  | .super _ _ => by simp [Expr.render, Expr.toForm, Form.render, Form.renderEach, superName]

theorem Expr.renderEach_eq : ∀ es : List Expr,
    (Expr.renderEach es).toList = Form.renderEach (Expr.toForms es)
  | [] => rfl
  | e :: es => by
    simp [Expr.renderEach, Expr.toForms, Form.renderEach, e.render_eq, Expr.renderEach_eq es]

end

theorem Param.renderEach_eq (p : Param) (ps : List Param) :
    ' ' :: (String.intercalate ", " ((p :: ps).map Param.render)).toList
      = Form.renderEach (Param.toForms (p :: ps)) := by
  induction ps generalizing p with
  | nil => simp [Param.toForms, Form.renderEach, Form.render, Param.render]
  | cons q ps ih =>
    rw [Param.toForms, Form.renderEach, Form.renderEach, ← ih q]
    simp [Form.render, Param.render, String.intercalate_cons_cons]

/-- The parameters of a function between their parentheses. -/
theorem Param.render_eq (ps : List Param) :
    '(' :: ((String.intercalate ", " (ps.map Param.render)).toList ++ [')'])
      = (Form.list (Param.toForms ps)).render := by
  cases ps with
  | nil => simp [Param.toForms, Form.render]
  | cons p ps =>
    have heach := Param.renderEach_eq p ps
    obtain ⟨f, fs, hforms⟩ : ∃ f fs, Param.toForms (p :: ps) = f :: fs := by
      cases ps <;> exact ⟨_, _, rfl⟩
    rw [hforms, Form.renderEach] at heach
    rw [hforms, Form.render, ← (List.cons.inj heach).2]

mutual

/-- The text of a statement is that of its form. -/
theorem Stmt.render_eq : ∀ s : Stmt, s.render.toList = s.toForm.render
  | .expression e => by
    simp [Stmt.render, Stmt.toForm, Form.render, Form.renderEach, e.render_eq]
  | .val name type initializer => by
    cases type <;> cases initializer <;>
      simp [Stmt.render, Stmt.toForm, Name.toForms, optional, Form.render, Form.renderEach,
        Expr.render_eq]
  | .block body => by
    simp [Stmt.render, Stmt.toForm, Form.render, Stmt.renderEach_eq body]
  | .ifThen _ condition yes => by
    simp [Stmt.render, Stmt.toForm, Form.render, Form.renderEach, condition.render_eq,
      yes.render_eq]
  | .ifElse _ condition yes no => by
    simp [Stmt.render, Stmt.toForm, Form.render, Form.renderEach, condition.render_eq,
      yes.render_eq, no.render_eq]
  | .whileLoop _ condition body => by
    simp [Stmt.render, Stmt.toForm, Form.render, Form.renderEach, condition.render_eq,
      body.render_eq]
  | .funDecl decl => by
    rw [Stmt.render, Stmt.toForm]
    exact decl.render_eq
  | .ret _ value => by
    cases value <;> simp [Stmt.render, Stmt.toForm, Form.render, Form.renderEach, Expr.render_eq]
  | .classDecl name superclass decls => by
    cases superclass <;>
      simp [Stmt.render, Stmt.toForm, Reference.toForms, optional, Form.render, Form.renderEach,
        FunctionDecl.renderEach_eq decls]

theorem Stmt.renderEach_eq : ∀ ss : List Stmt,
    (Stmt.renderEach ss).toList = Form.renderEach (Stmt.toForms ss)
  | [] => rfl
  | s :: ss => by
    simp [Stmt.renderEach, Stmt.toForms, Form.renderEach, s.render_eq, Stmt.renderEach_eq ss]

/-- The text of a function is that of its form. -/
theorem FunctionDecl.render_eq : ∀ decl : FunctionDecl, decl.render.toList = decl.toForm.render
  | ⟨name, params, returns, body⟩ => by
    have hparams := Param.render_eq params
    simp [FunctionDecl.render, FunctionDecl.toForm, Form.render, Form.renderEach, ← hparams,
      Stmt.renderEach_eq body]

theorem FunctionDecl.renderEach_eq : ∀ decls : List FunctionDecl,
    (FunctionDecl.renderEach decls).toList = Form.renderEach (FunctionDecl.toForms decls)
  | [] => rfl
  | decl :: decls => by
    simp [FunctionDecl.renderEach, FunctionDecl.toForms, Form.renderEach, decl.render_eq,
      FunctionDecl.renderEach_eq decls]

end

/-! ### Legible forms -/

/-- What may stand in a word delimits no form. -/
theorem notMem_delimiters_of_isWordPart {c : Char} (h : isWordPart c = true) :
    c ∉ Form.delimiters := by
  intro hc
  have hnone : Form.delimiters.all (fun d => !isWordPart d) = true := by decide
  have hpart := List.all_eq_true.mp hnone c hc
  rw [h] at hpart
  cases hpart

/-- A name is a word of a form. -/
theorem IsName.isWord {text : String} (h : IsName text) : Form.IsWord text.toList := by
  obtain ⟨⟨c, rest, htext, hc, hrest⟩, -⟩ := h
  rw [htext]
  refine ⟨List.cons_ne_nil _ _, List.all_eq_true.mpr ?_⟩
  intro d hd
  apply decide_eq_true
  rcases List.mem_cons.mp hd with rfl | hd
  · exact notMem_delimiters_of_isWordPart (isWordPart_of_isWordStart hc)
  · exact notMem_delimiters_of_isWordPart (hrest d hd)

/-- The texts of finite numbers are words. -/
theorem Number.IsFinite.isWord {x : Float} (h : IsFinite x) :
    Form.IsWord (Literal.number x).render.toList := by
  obtain ⟨negative, a, hx⟩ := h
  have hdigits : Form.IsWord a.text := by
    obtain ⟨c, rest, htext, -⟩ := a.isNumeral_text.exists_cons
    refine ⟨htext ▸ List.cons_ne_nil _ _, List.all_eq_true.mpr ?_⟩
    intro c hc
    apply decide_eq_true
    rcases a.isNumeral_text.isDigit_or_eq hc with hdigit | rfl
    · exact notMem_delimiters_of_isWordPart (by simp [isWordPart, Char.isAlphanum, hdigit])
    · decide
  rw [Literal.render_number hx]
  cases negative with
  | false => exact hdigits
  | true => exact Form.IsWord.append (by decide) hdigits

/-- A literal without quotes inside is an atom. -/
theorem Literal.isAtom_render {value : Literal} (h : value.IsPlain) :
    Form.IsAtom value.render.toList := by
  cases value with
  | number x => exact .inl (Number.IsFinite.isWord h)
  | string text => exact .inr ⟨text.toList, by simp [render], h⟩
  | boolean b => cases b <;> exact .inl (by decide)
  | null => exact .inl (by decide)

/-- An operator is an atom. -/
theorem Token.IsOperator.isAtom {t : Token} {kinds : List Kind} (h : t.IsOperator kinds)
    (hkinds : ∀ k ∈ kinds, Form.IsWord k.spelling.toList) : Form.IsAtom t.lexeme.toList := by
  rw [h.2]
  exact .inl (hkinds _ h.1)

/-- A type is written as a word. -/
theorem TypeName.Obeys.isWord_render {t : TypeName} (h : t.Obeys .spelt) :
    Form.IsWord t.render.toList := by
  cases t with
  | named ref => exact IsName.isWord (h ref List.mem_cons_self)
  | boolean | number | string | void => decide

theorem TypeName.obeys_getD {returns : Option TypeName} (h : ∀ t ∈ returns, t.Obeys .spelt) :
    (returns.getD .void).Obeys .spelt := by
  cases returns with
  | none => exact List.forall_mem_nil _
  | some t => exact h t rfl

/-- A word with a mark after it is a word. -/
theorem isAtom_marked {text : String} (h : Form.IsWord text.toList) {mark : String}
    (hmark : Form.IsWord mark.toList) : Form.IsAtom (text ++ mark).toList := by
  rw [String.toList_append]
  exact .inl (h.append hmark)

/-- Parameters give legible forms. -/
theorem Param.allLegible_toForms (ps : List Param) (h : ∀ p ∈ ps, p.Obeys .spelt) :
    Form.AllLegible (Param.toForms ps) := by
  fun_induction Param.toForms ps with
  | case1 => trivial
  | case2 p =>
    obtain ⟨hname, htype⟩ := h p List.mem_cons_self
    exact ⟨isAtom_marked hname.isWord (by decide), .inl htype.isWord_render, trivial⟩
  | case3 p q ps ih =>
    obtain ⟨⟨hname, htype⟩, hrest⟩ := List.forall_mem_cons.mp h
    exact ⟨isAtom_marked hname.isWord (by decide), isAtom_marked htype.isWord_render (by decide),
      ih hrest⟩

/-- A name with its type gives legible forms. -/
theorem Name.allLegible_toForms {name : Name} {type : Option TypeName} (hname : IsName name.text)
    (htype : ∀ t ∈ type, t.Obeys .spelt) : Form.AllLegible (name.toForms type) := by
  cases type with
  | none => exact ⟨.inl hname.isWord, trivial⟩
  | some t =>
    exact ⟨isAtom_marked hname.isWord (by decide), .inl (htype t rfl).isWord_render, trivial⟩

/-- A superclass gives a legible form. -/
theorem Reference.allLegible_toForms {superclass : Option Reference}
    (h : ∀ ref ∈ superclass, IsName ref.name.text) :
    Form.AllLegible (Reference.toForms superclass) := by
  cases superclass with
  | none => trivial
  | some ref => exact ⟨.inl (by decide), .inl (h ref rfl).isWord, trivial⟩

mutual

theorem Expr.isLegible_toForm : ∀ e : Expr, e.Obeys .spelt → e.toForm.IsLegible
  | .literal _, h => Literal.isAtom_render h
  | .grouping inner, h => ⟨.inl (by decide), inner.isLegible_toForm h, trivial⟩
  | .unary _ operand, h => ⟨h.1.isAtom (by decide), operand.isLegible_toForm h.2, trivial⟩
  | .binary left _ right, h =>
    ⟨h.1.isAtom (by decide), left.isLegible_toForm h.2.1, right.isLegible_toForm h.2.2, trivial⟩
  | .logical left _ right, h =>
    ⟨h.1.isAtom (by decide), left.isLegible_toForm h.2.1, right.isLegible_toForm h.2.2, trivial⟩
  | .ternary condition _ yes no, h =>
    ⟨.inl (by decide), condition.isLegible_toForm h.2.1, yes.isLegible_toForm h.2.2.1,
      no.isLegible_toForm h.2.2.2, trivial⟩
  | .var _, h => .inl (IsName.isWord h)
  | .assign _ value, h =>
    ⟨.inl (by decide), .inl h.1.isWord, value.isLegible_toForm h.2, trivial⟩
  | .call callee _ arguments, h =>
    ⟨.inl (by decide), callee.isLegible_toForm h.2.1, Expr.allLegible_toForms arguments h.2.2⟩
  | .get object _, h =>
    ⟨.inl (by decide), object.isLegible_toForm h.2, .inl h.1.isWord, trivial⟩
  | .set object _ value, h =>
    ⟨.inl (by decide), object.isLegible_toForm h.2.1, .inl h.1.isWord,
      value.isLegible_toForm h.2.2, trivial⟩
  | .this _, _ => .inl (by decide)
  | .super _ _, h => ⟨.inl (by decide), .inl h.2.isWord, trivial⟩

theorem Expr.allLegible_toForms : ∀ es : List Expr, Expr.AllObey .spelt es →
    Form.AllLegible (Expr.toForms es)
  | [], _ => trivial
  | e :: es, h => ⟨e.isLegible_toForm h.1, Expr.allLegible_toForms es h.2⟩

end

theorem Expr.allLegible_optional {e : Option Expr} (h : ∀ f ∈ e, f.Obeys .spelt) :
    Form.AllLegible (e.map Expr.toForm).toList := by
  cases e with
  | none => trivial
  | some e => exact ⟨e.isLegible_toForm (h e rfl), trivial⟩

mutual

theorem Stmt.isLegible_toForm : ∀ s : Stmt, s.Obeys .spelt → s.toForm.IsLegible
  | .expression e, h => ⟨.inl (by decide), e.isLegible_toForm h, trivial⟩
  | .val _ _ _, h =>
    ⟨.inl (by decide), Form.allLegible_append.mpr
      ⟨Name.allLegible_toForms h.1 h.2.1, Expr.allLegible_optional h.2.2⟩⟩
  | .block body, h => ⟨.inl (by decide), Stmt.allLegible_toForms body h⟩
  | .ifThen _ condition yes, h =>
    ⟨.inl (by decide), condition.isLegible_toForm h.2.1, yes.isLegible_toForm h.2.2.1, trivial⟩
  | .ifElse _ condition yes no, h =>
    ⟨.inl (by decide), condition.isLegible_toForm h.2.1, yes.isLegible_toForm h.2.2.1.1,
      no.isLegible_toForm h.2.2.2.1, trivial⟩
  | .whileLoop _ condition body, h =>
    ⟨.inl (by decide), condition.isLegible_toForm h.2.1, body.isLegible_toForm h.2.2.1, trivial⟩
  | .funDecl decl, h => decl.isLegible_toForm h
  | .ret _ _, h => ⟨.inl (by decide), Expr.allLegible_optional h.2⟩
  | .classDecl _ _ decls, h =>
    ⟨.inl (by decide), .inl h.1.isWord, Form.allLegible_append.mpr
      ⟨Reference.allLegible_toForms h.2.1, FunctionDecl.allLegible_toForms decls h.2.2⟩⟩

/-- Statements that are spelt give legible forms. -/
theorem Stmt.allLegible_toForms : ∀ ss : List Stmt, Stmt.AllObey .spelt ss →
    Form.AllLegible (Stmt.toForms ss)
  | [], _ => trivial
  | s :: ss, h => ⟨s.isLegible_toForm h.1, Stmt.allLegible_toForms ss h.2⟩

theorem FunctionDecl.isLegible_toForm : ∀ decl : FunctionDecl, decl.Obeys .spelt →
    decl.toForm.IsLegible
  | ⟨_, params, returns, body⟩, h => by
    have hreturns := TypeName.obeys_getD h.2.2.1
    exact ⟨.inl (by decide), .inl h.1.isWord, Param.allLegible_toForms params h.2.1,
      .inl (by decide), .inl hreturns.isWord_render,
      ⟨.inl (by decide), Stmt.allLegible_toForms body h.2.2.2⟩, trivial⟩

/-- Functions that are spelt give legible forms. -/
theorem FunctionDecl.allLegible_toForms : ∀ decls : List FunctionDecl,
    FunctionDecl.AllObey .spelt decls → Form.AllLegible (FunctionDecl.toForms decls)
  | [], _ => trivial
  | decl :: decls, h => ⟨decl.isLegible_toForm h.1, FunctionDecl.allLegible_toForms decls h.2⟩

end

end ClassScript
