import ClassScript.Proofs.Printing.TreeForms
import Mathlib.Tactic.FinCases

namespace ClassScript

/-!
# Texts of programs

The text of a statement determines the statement up to what printing leaves out. The text
determines the form of the statement, and the outline of the statement can be read off the form. A
name is told from a constant by its first character and from a word of the language by being no
keyword; an operator is told by its spelling and the number of its operands.

* `Expr.ofForm`, `Stmt.ofForm`: the outline that a form stands for;
* `Expr.ofForm_toForm`, `Stmt.ofForm_toForm`: it is that of the tree the form belongs to;
* `render_eq_iff_outline_eq`: programs have the same texts exactly if they have the same outlines.
-/

/-! ### Reading forms of expressions -/

/-- The text of an atom; a list has none. -/
def Form.text : Form → String
  | .atom text => text
  | .list _ => ""

/-- The operator among the given kinds that is spelt `text`. -/
def Token.operatorOf (kinds : List Kind) (text : String) : Token :=
  ⟨(kinds.find? fun k => k.spelling == text).getD .endOfInput, text, .start⟩

/-- The finite number that is written as `text`. -/
noncomputable def Number.ofText (text : String) : Float :=
  Function.invFunOn (fun x => (Literal.number x).render) {x | Number.IsFinite x} text

/-- The expression that is written as a single atom. Its first character tells a string from a word
    and a word from a number. -/
noncomputable def Expr.ofAtom (text : String) : Expr :=
  match text.toList with
  | [] => .literal .null
  | c :: rest =>
    if c = '"' then .literal (.string (String.ofList rest.dropLast))
    else if isWordStart c then
      match Keyword.ofWord? text with
      | some .kwTrue => .literal (.boolean true)
      | some .kwFalse => .literal (.boolean false)
      | some .kwNull => .literal .null
      | some .kwThis => .this ⟨0, ⟨thisName, .start⟩⟩
      | _ => .var ⟨0, ⟨text, .start⟩⟩
    else .literal (.number (Number.ofText text))

/-- The expression with the given head and parts; where the head asks for a name, the name has been
    read as a use of it. -/
def Expr.assemble (head : String) (parts : List Expr) : Expr :=
  match head, parts with
  | "group", [inner] => .grouping inner
  | "?:", [condition, yes, no] => .ternary condition .start yes no
  | "=", [.var target, value] => .assign target value
  | "call", callee :: arguments => .call callee .start arguments
  | ".", [object, .var ref] => .get object ref.name
  | ".=", [object, .var ref, value] => .set object ref.name value
  | "super", [.var ref] => .super ⟨0, ⟨superName, .start⟩⟩ ref.name
  | "and", [left, right] => .logical left (.operatorOf logicalOperators head) right
  | "or", [left, right] => .logical left (.operatorOf logicalOperators head) right
  | _, [operand] => .unary (.operatorOf unaryOperators head) operand
  | _, [left, right] => .binary left (.operatorOf binaryOperators head) right
  | _, _ => .literal .null

mutual

/-- The expression that a form stands for. -/
noncomputable def Expr.ofForm : Form → Expr
  | .atom text => Expr.ofAtom text
  | .list [] => .literal .null
  | .list (head :: items) => Expr.assemble head.text (Expr.ofForms items)

/-- The expressions that forms stand for. -/
noncomputable def Expr.ofForms : List Form → List Expr
  | [] => []
  | item :: items => Expr.ofForm item :: Expr.ofForms items

end

/-- A finite number is read back from its text. -/
theorem Number.ofText_render {x : Float} (h : Number.IsFinite x) :
    Number.ofText (Literal.number x).render = x :=
  Literal.render_number_injOn.leftInvOn_invFunOn h

/-- No digit starts a word. -/
theorem isWordStart_eq_false_of_isDigit {c : Char} (h : c.isDigit = true) :
    isWordStart c = false := by
  have hrange : 48 ≤ c.toNat ∧ c.toNat ≤ 57 := Char.isDigit_iff_toNat.mp h
  have halpha : c.isAlpha = (decide (c.val ≥ 'A'.val ∧ c.val ≤ 'Z'.val) ||
      (decide (c.val ≥ 'a'.val) && decide (c.val ≤ 'z'.val))) := rfl
  -- Every letter comes after the digits.
  have hafter : ∀ letter : UInt32, 57 < letter.toNat → ¬ letter ≤ c.val := by
    intro letter hletter hle
    have hle := Nat.le_trans (UInt32.le_iff_toNat_le.mp hle) hrange.2
    omega
  have hne : c ≠ '_' := by
    rintro rfl
    cases h
  simp [isWordStart, halpha, hne, hafter 65 (by decide), hafter 97 (by decide)]

/-- The atom of a name is read as the name. -/
theorem Expr.ofAtom_name {text : String} (h : IsName text) :
    Expr.ofAtom text = .var ⟨0, ⟨text, .start⟩⟩ := by
  obtain ⟨⟨c, rest, htext, hc, -⟩, hword⟩ := h
  have hquote : c ≠ '"' := by
    rintro rfl
    cases hc
  simp [ofAtom, htext, hquote, hc, hword]

/-- The atom of a literal is read as the literal. -/
theorem Expr.ofAtom_literal {value : Literal} (h : value.IsPlain) :
    Expr.ofAtom value.render = .literal value := by
  cases value with
  | number x =>
    obtain ⟨c, rest, htext, hc⟩ := Literal.exists_cons_of_isFinite h
    have hquote : c ≠ '"' := by
      rintro rfl
      revert hc
      decide
    have hword : isWordStart c = false := by
      rcases hc with hc | rfl
      · exact isWordStart_eq_false_of_isDigit hc
      · decide
    simp [ofAtom, htext, hquote, hword, Number.ofText_render h]
  | string text => simp [ofAtom, Literal.render]
  | boolean b => cases b <;> rfl
  | null => rfl

/-- An operator is told by its spelling, which no other head with as many parts has. -/
theorem Token.IsOperator.assemble {t : Token} {kinds : List Kind} {parts : List Expr}
    (tree : Token → Expr) (h : t.IsOperator kinds)
    (hfind : ∀ k ∈ kinds, (kinds.find? fun l => l.spelling == k.spelling) = some k)
    (htree : ∀ k ∈ kinds, Expr.assemble k.spelling parts = tree (.operatorOf kinds k.spelling)) :
    Expr.assemble t.lexeme parts = tree t.erase := by
  obtain ⟨hkind, hlexeme⟩ := h
  have herase : Token.operatorOf kinds t.kind.spelling = t.erase := by
    rw [operatorOf, erase, hlexeme, hfind _ hkind]
    rfl
  rw [hlexeme, htree _ hkind, herase]

mutual

/-- The outline of an expression can be read off its form. -/
theorem Expr.ofForm_toForm : ∀ e : Expr, e.Obeys .spelt → Expr.ofForm e.toForm = e.outline
  | .literal _, h => Expr.ofAtom_literal h
  | .grouping inner, h => by
    simp only [toForm, ofForm, ofForms, inner.ofForm_toForm h, outline]
    rfl
  -- One minus is spelt like the other; what tells them apart is how many parts follow.
  | .unary _ operand, h => by
    simp only [toForm, ofForm, ofForms, operand.ofForm_toForm h.2, outline]
    refine Token.IsOperator.assemble (.unary · operand.outline) h.1 (by decide) ?_
    intro k hk
    fin_cases hk <;> rfl
  | .binary left _ right, h => by
    simp only [toForm, ofForm, ofForms, left.ofForm_toForm h.2.1, right.ofForm_toForm h.2.2,
      outline]
    refine Token.IsOperator.assemble (.binary left.outline · right.outline) h.1 (by decide) ?_
    intro k hk
    fin_cases hk <;> rfl
  | .logical left _ right, h => by
    simp only [toForm, ofForm, ofForms, left.ofForm_toForm h.2.1, right.ofForm_toForm h.2.2,
      outline]
    refine Token.IsOperator.assemble (.logical left.outline · right.outline) h.1 (by decide) ?_
    intro k hk
    fin_cases hk <;> rfl
  | .ternary condition _ yes no, h => by
    simp only [toForm, ofForm, ofForms, condition.ofForm_toForm h.2.1, yes.ofForm_toForm h.2.2.1,
      no.ofForm_toForm h.2.2.2, outline]
    rfl
  | .var _, h => Expr.ofAtom_name h
  | .assign _ value, h => by
    simp only [toForm, ofForm, ofForms, Expr.ofAtom_name h.1, value.ofForm_toForm h.2, outline]
    rfl
  | .call callee _ arguments, h => by
    simp only [toForm, ofForm, ofForms, callee.ofForm_toForm h.2.1,
      Expr.ofForms_toForms arguments h.2.2, outline]
    rfl
  | .get object _, h => by
    simp only [toForm, ofForm, ofForms, Expr.ofAtom_name h.1, object.ofForm_toForm h.2, outline]
    rfl
  | .set object _ value, h => by
    simp only [toForm, ofForm, ofForms, Expr.ofAtom_name h.1, object.ofForm_toForm h.2.1,
      value.ofForm_toForm h.2.2, outline]
    rfl
  | .this ref, h => by
    have hname : ref.name.erase = ⟨thisName, .start⟩ := congrArg (Name.mk · .start) h
    rw [outline, Reference.outline, hname]
    rfl
  | .super keyword _, h => by
    have hname : keyword.name.erase = ⟨superName, .start⟩ := congrArg (Name.mk · .start) h.1
    simp only [toForm, ofForm, ofForms, Expr.ofAtom_name h.2, outline, Reference.outline, hname]
    rfl

theorem Expr.ofForms_toForms : ∀ es : List Expr, Expr.AllObey .spelt es →
    Expr.ofForms (Expr.toForms es) = Expr.outlineAll es
  | [], _ => rfl
  | e :: es, h => by
    simp only [toForms, ofForms, e.ofForm_toForm h.1, Expr.ofForms_toForms es h.2, outlineAll]

end

/-! ### Reading forms of statements -/

/-- What stands before the mark at the end of a text, if the mark is there. -/
def chop (mark : Char) (text : String) : Option String :=
  if text.toList.getLast? = some mark then some (String.ofList text.toList.dropLast) else none

/-- The type that is written as `text`. -/
def TypeName.ofText (text : String) : TypeName :=
  match Keyword.ofWord? text with
  | some .kwBoolean => .boolean
  | some .kwNumber => .number
  | some .kwString => .string
  | some .kwVoid => .void
  | _ => .named ⟨0, ⟨text, .start⟩⟩

/-- The parameters that forms stand for. -/
def Param.ofForms : List Form → List Param
  | name :: type :: rest =>
    ⟨⟨(chop ':' name.text).getD "", .start⟩, .ofText ((chop ',' type.text).getD type.text)⟩ ::
      Param.ofForms rest
  | _ => []

/-- The class that forms say is extended. -/
def Reference.ofForms : List Form → Option Reference
  | .atom "<" :: ref :: _ => some ⟨0, ⟨ref.text, .start⟩⟩
  | _ => none

/-- The variable that forms stand for. -/
noncomputable def Stmt.ofVal (name : Form) (rest : List Form) : Stmt :=
  match chop ':' name.text, rest with
  | some text, type :: more =>
    .val ⟨text, .start⟩ (some (.ofText type.text)) (more.head?.map Expr.ofForm)
  | _, _ => .val ⟨name.text, .start⟩ none (rest.head?.map Expr.ofForm)

/-- The function that a statement declares. -/
def Stmt.function? : Stmt → Option FunctionDecl
  | .funDecl decl => some decl
  | _ => none

/-- The statement with the given head, whose items are given both as forms and as the statements
    that they stand for. -/
noncomputable def Stmt.assemble (head : String) (items : List Form) (parts : List Stmt) : Stmt :=
  match head, items, parts with
  | "expr", e :: _, _ => .expression (.ofForm e)
  | "val", name :: rest, _ => .ofVal name rest
  | "block", _, _ => .block parts
  | "if", condition :: _, [_, yes] => .ifThen .start (.ofForm condition) yes
  | "if", condition :: _, [_, yes, no] => .ifElse .start (.ofForm condition) yes no
  | "while", condition :: _, [_, body] => .whileLoop .start (.ofForm condition) body
  | "def", [name, .list params, _, returns, _], [_, _, _, _, .block body] =>
    .funDecl ⟨⟨name.text, .start⟩, Param.ofForms params, some (.ofText returns.text), body⟩
  | "return", _, _ => .ret .start (items.head?.map Expr.ofForm)
  | "class", name :: rest, _ =>
    .classDecl ⟨name.text, .start⟩ (Reference.ofForms rest) (parts.filterMap Stmt.function?)
  | _, _, _ => .block []

mutual

/-- The statement that a form stands for. -/
noncomputable def Stmt.ofForm : Form → Stmt
  | .atom _ => .block []
  | .list [] => .block []
  | .list (head :: items) => Stmt.assemble head.text items (Stmt.ofForms items)

/-- The statements that forms stand for. -/
noncomputable def Stmt.ofForms : List Form → List Stmt
  | [] => []
  | item :: items => Stmt.ofForm item :: Stmt.ofForms items

end

/-- A mark at the end of a text is taken off. -/
theorem chop_marked (text : String) : chop ':' (text ++ ":") = some text ∧
    chop ',' (text ++ ",") = some text := by
  simp [chop]

/-- A text without the mark has none to take off. -/
theorem chop_eq_none {mark : Char} {text : String} (h : mark ∉ text.toList) :
    chop mark text = none := by
  rw [chop, if_neg]
  exact fun hlast => h (List.mem_of_getLast? hlast)

theorem IsName.notMem {text : String} (h : IsName text) {mark : Char}
    (hmark : isWordPart mark = false) : mark ∉ text.toList := by
  obtain ⟨⟨c, rest, htext, hc, hrest⟩, -⟩ := h
  have hpart : ∀ d ∈ text.toList, isWordPart d = true := by
    rw [htext, List.forall_mem_cons]
    exact ⟨isWordPart_of_isWordStart hc, hrest⟩
  intro hmem
  rw [hpart mark hmem] at hmark
  cases hmark

/-- A type is read back from its text. -/
theorem TypeName.ofText_render {t : TypeName} (h : t.Obeys .spelt) :
    TypeName.ofText t.render = t.outline := by
  cases t with
  | named ref =>
    have hname : IsName ref.name.text := h ref List.mem_cons_self
    simp [ofText, render, hname.2, outline, Reference.outline, Name.erase]
  | boolean | number | string | void => rfl

/-- A type has no comma at its end. -/
theorem TypeName.chop_render {t : TypeName} (h : t.Obeys .spelt) : chop ',' t.render = none := by
  cases t with
  | named ref =>
    have hname : IsName ref.name.text := h ref List.mem_cons_self
    exact chop_eq_none (hname.notMem (by decide))
  | boolean | number | string | void => exact chop_eq_none (by decide)

theorem Param.ofForms_toForms (ps : List Param) (h : ∀ p ∈ ps, p.Obeys .spelt) :
    Param.ofForms (Param.toForms ps) = ps.map Param.outline := by
  fun_induction Param.toForms ps with
  | case1 => rfl
  | case2 p =>
    obtain ⟨-, htype⟩ := h p List.mem_cons_self
    simp [ofForms, Form.text, (chop_marked _).1, TypeName.chop_render htype,
      TypeName.ofText_render htype, outline, Name.erase]
  | case3 p q ps ih =>
    obtain ⟨⟨-, htype⟩, hrest⟩ := List.forall_mem_cons.mp h
    simp [ofForms, Form.text, (chop_marked _).1, (chop_marked _).2,
      TypeName.ofText_render htype, ih hrest, outline, Name.erase]

/-- Only the mark after the name of a class tells that it extends another; methods are lists. -/
theorem Reference.ofForms_toForms (superclass : Option Reference) (decls : List FunctionDecl) :
    Reference.ofForms (Reference.toForms superclass ++ FunctionDecl.toForms decls)
      = superclass.map Reference.outline := by
  cases superclass with
  | none => rcases decls with _ | ⟨⟨_, _, _, _⟩, _⟩ <;> rfl
  | some ref => rfl

/-- Forms are read one after the other. -/
theorem Stmt.ofForms_append (fs gs : List Form) :
    Stmt.ofForms (fs ++ gs) = Stmt.ofForms fs ++ Stmt.ofForms gs := by
  induction fs with
  | nil => rfl
  | cons f fs ih => simp only [List.cons_append, ofForms, ih]

theorem Expr.head?_optional {e : Option Expr} (h : ∀ f ∈ e, f.Obeys .spelt) :
    (e.map Expr.toForm).toList.head?.map Expr.ofForm = e.map Expr.outline := by
  cases e with
  | none => rfl
  | some e => exact congrArg some (e.ofForm_toForm (h e rfl))

mutual

/-- The outline of a statement can be read off its form. -/
theorem Stmt.ofForm_toForm : ∀ s : Stmt, s.Obeys .spelt → Stmt.ofForm s.toForm = s.outline
  | .expression e, h => by
    simp only [Stmt.outline, ← e.ofForm_toForm h]
    rfl
  | .val name type initializer, h => by
    simp only [Stmt.outline, ← Expr.head?_optional h.2.2]
    cases type with
    | none =>
      have hchop : chop ':' name.text = none := chop_eq_none (h.1.notMem (by decide))
      show Stmt.ofVal (.atom name.text) (initializer.map Expr.toForm).toList = _
      simp [Stmt.ofVal, Form.text, hchop, Name.erase]
    | some t =>
      show Stmt.ofVal (.atom (name.text ++ ":"))
        (.atom t.render :: (initializer.map Expr.toForm).toList) = _
      simp [Stmt.ofVal, Form.text, (chop_marked _).1, TypeName.ofText_render (h.2.1 t rfl),
        Name.erase]
  | .block body, h => by
    simp only [Stmt.outline, ← Stmt.ofForms_toForms body h]
    rfl
  | .ifThen _ condition yes, h => by
    simp only [Stmt.outline, ← condition.ofForm_toForm h.2.1, ← yes.ofForm_toForm h.2.2.1]
    rfl
  | .ifElse _ condition yes no, h => by
    simp only [Stmt.outline, ← condition.ofForm_toForm h.2.1, ← yes.ofForm_toForm h.2.2.1.1,
      ← no.ofForm_toForm h.2.2.2.1]
    rfl
  | .whileLoop _ condition body, h => by
    simp only [Stmt.outline, ← condition.ofForm_toForm h.2.1, ← body.ofForm_toForm h.2.2.1]
    rfl
  | .funDecl decl, h => by
    simp only [Stmt.outline, Stmt.toForm]
    exact decl.ofForm_toForm h
  | .ret _ value, h => by
    simp only [Stmt.outline, ← Expr.head?_optional h.2]
    rfl
  | .classDecl name superclass decls, h => by
    simp only [Stmt.outline, ← Reference.ofForms_toForms superclass decls,
      ← FunctionDecl.ofForms_toForms decls h.2.2]
    -- The names in front of the methods are atoms, which stand for no function.
    show Stmt.classDecl _ _ ((Stmt.ofForms (.atom name.text :: _)).filterMap Stmt.function?) = _
    rw [Stmt.ofForms, Stmt.ofForms_append]
    cases superclass <;> rfl

theorem Stmt.ofForms_toForms : ∀ ss : List Stmt, Stmt.AllObey .spelt ss →
    Stmt.ofForms (Stmt.toForms ss) = Stmt.outlineAll ss
  | [], _ => rfl
  | s :: ss, h => by
    simp only [Stmt.toForms, Stmt.ofForms, s.ofForm_toForm h.1, Stmt.ofForms_toForms ss h.2,
      Stmt.outlineAll]

theorem FunctionDecl.ofForm_toForm : ∀ decl : FunctionDecl, decl.Obeys .spelt →
    Stmt.ofForm decl.toForm = .funDecl decl.outline
  | ⟨name, params, returns, body⟩, h => by
    have hreturns : (returns.getD .void).Obeys .spelt := TypeName.obeys_getD h.2.2.1
    simp only [FunctionDecl.outline, ← Param.ofForms_toForms params h.2.1,
      ← TypeName.ofText_render hreturns, ← Stmt.ofForms_toForms body h.2.2.2]
    rfl

theorem FunctionDecl.ofForms_toForms : ∀ decls : List FunctionDecl,
    FunctionDecl.AllObey .spelt decls →
    (Stmt.ofForms (FunctionDecl.toForms decls)).filterMap Stmt.function?
      = FunctionDecl.outlineAll decls
  | [], _ => rfl
  | decl :: decls, h => by
    simp [FunctionDecl.toForms, Stmt.ofForms, decl.ofForm_toForm h.1, Stmt.function?,
      FunctionDecl.ofForms_toForms decls h.2, FunctionDecl.outlineAll]

end

/-! ### Texts and outlines -/

theorem Stmt.outline_eq_of_render_eq {s t : Stmt} (hs : s.Obeys .spelt) (ht : t.Obeys .spelt)
    (h : s.render = t.render) : s.outline = t.outline := by
  have hform : s.toForm = t.toForm := by
    apply Form.render_inj (s.isLegible_toForm hs) (t.isLegible_toForm ht)
    rw [← s.render_eq, ← t.render_eq, h]
  rw [← s.ofForm_toForm hs, ← t.ofForm_toForm ht, hform]

theorem map_outline_eq_of_map_render_eq {p q : Program} (hp : Stmt.AllObey .spelt p)
    (hq : Stmt.AllObey .spelt q) (h : p.map Stmt.render = q.map Stmt.render) :
    p.map Stmt.outline = q.map Stmt.outline := by
  induction p generalizing q with
  | nil =>
    rw [List.map_nil, eq_comm, List.map_eq_nil_iff] at h
    rw [h]
  | cons s ss ih =>
    cases q with
    | nil => cases h
    | cons t ts =>
      obtain ⟨hst, hrest⟩ := List.cons.inj h
      rw [List.map_cons, List.map_cons, Stmt.outline_eq_of_render_eq hp.1 hq.1 hst,
        ih hp.2 hq.2 hrest]

/-- Two programs that are read from source texts in which every number is finite have the same
    texts, statement by statement, exactly if they are the same up to positions, the identities of
    uses and whether a function that returns `Void` says so. -/
theorem render_eq_iff_outline_eq {source source' : String} {tokens tokens' : List Token}
    {p q : Program} (hscan : scan source = .ok tokens) (hparse : parse tokens = .ok p)
    (hfinite : ∀ t ∈ tokens, t.kind.IsFinite) (hscan' : scan source' = .ok tokens')
    (hparse' : parse tokens' = .ok q) (hfinite' : ∀ t ∈ tokens', t.kind.IsFinite) :
    p.map Stmt.render = q.map Stmt.render ↔ p.map Stmt.outline = q.map Stmt.outline := by
  constructor
  · exact map_outline_eq_of_map_render_eq (allObey_spelt_of_parse hscan hparse hfinite)
      (allObey_spelt_of_parse hscan' hparse' hfinite')
  · -- Printing reads nothing that an outline leaves out.
    intro h
    have hrender := congrArg (List.map Stmt.render) h
    simpa only [List.map_map, Function.comp_def, Stmt.render_outline] using hrender

/-- Two texts of one program: the second says what a method without a result returns, writes the
    number with a zero more, and has a comment and no blanks where none are needed. -/
theorem render_eq_iff_outline_eq_void :
    ∃ tokens tokens' p q,
      scan "class A < B { go(s: String) { return -1.5 - -x; } } val t = \"(a\";" = .ok tokens ∧
      scan "class A<B{go(s:String)->Void{return -1.50- -x;}}/**/val t=\"(a\";" = .ok tokens' ∧
      parse tokens = .ok p ∧ parse tokens' = .ok q ∧
      p.map Stmt.render = q.map Stmt.render ∧ p.map Stmt.outline = q.map Stmt.outline := by
  have hfirst : (scan "class A < B { go(s: String) { return -1.5 - -x; } } val t = \"(a\";"
      ).toOption.any (fun tokens => (parse tokens).toOption.any fun p =>
        decide (∀ t ∈ tokens, t.kind.IsFinite) && decide (p.map Stmt.render =
          ["(class A < B (def go (s: String) -> Void (block (return (- (- 1.5) (- x))))))",
            "(val t \"(a\")"])) = true := by
    decide +kernel
  have hsecond : (scan "class A<B{go(s:String)->Void{return -1.50- -x;}}/**/val t=\"(a\";"
      ).toOption.any (fun tokens => (parse tokens).toOption.any fun p =>
        decide (∀ t ∈ tokens, t.kind.IsFinite) && decide (p.map Stmt.render =
          ["(class A < B (def go (s: String) -> Void (block (return (- (- 1.5) (- x))))))",
            "(val t \"(a\")"])) = true := by
    decide +kernel
  obtain ⟨tokens, hscan, hfirst⟩ := exists_ok_of_any hfirst
  obtain ⟨p, hparse, hfirst⟩ := exists_ok_of_any hfirst
  obtain ⟨tokens', hscan', hsecond⟩ := exists_ok_of_any hsecond
  obtain ⟨q, hparse', hsecond⟩ := exists_ok_of_any hsecond
  rw [Bool.and_eq_true, decide_eq_true_eq, decide_eq_true_eq] at hfirst hsecond
  have htexts : p.map Stmt.render = q.map Stmt.render := hfirst.2.trans hsecond.2.symm
  exact ⟨tokens, tokens', p, q, hscan, hscan', hparse, hparse', htexts,
    (render_eq_iff_outline_eq hscan hparse hfirst.1 hscan' hparse' hsecond.1).mp htexts⟩

end ClassScript
