import ClassScript.Pipeline
import ClassScript.Proofs.Grammar.Soundness
import ClassScript.Proofs.Grammar.TreeRules
import ClassScript.Proofs.Pieces
import ClassScript.Proofs.Syntax
import Mathlib.Data.List.Nodup

namespace ClassScript

open Grammar

/-!
# The trees of source texts

Facts about the tree of every program that is read from a source text. The uses of names are
numbered in the order in which they are read, without gaps, so no two have the same number. Words
that the scanner takes for names are no keywords.

* `Grammar.Derives.numbered`: the numbers of the uses in a phrase;
* `Kind.Spells`, `spells_of_scan`: the texts of scanned tokens, by kind;
* `Token.WellSpelt`, `wellSpelt_of_scan`: the spelling of scanned words;
* `TreeRule.wellFormed`: the rule that well-formed trees obey, which well-spelt tokens fit;
* `Grammar.Derives.wellFormed`: phrases of well-spelt tokens have well-formed trees;
* `Source.program_wellFormed`, `Source.program_nodup`: the two facts for source texts.
-/

/-! ### Numbers of uses -/

/-- The uses `refs` have the numbers from `i` up to `j`, each once. -/
def Numbered (i : Nat) (refs : List Reference) (j : Nat) : Prop :=
  i ≤ j ∧ (refs.map Reference.id).Perm (List.range' i (j - i))

namespace Numbered

variable {i j k : Nat} {a b : List Reference}

theorem nil : Numbered i [] i := by
  refine ⟨Nat.le_refl i, ?_⟩
  rw [Nat.sub_self]
  exact .nil

/-- One use of a name takes one number. -/
theorem single {name : Name} : Numbered i [⟨i, name⟩] (i + 1) := by
  refine ⟨Nat.le_succ i, ?_⟩
  rw [Nat.add_sub_cancel_left]
  exact .refl _

/-- Numbers that go on where others end. -/
theorem append (ha : Numbered i a j) (hb : Numbered j b k) : Numbered i (a ++ b) k := by
  obtain ⟨hij, ha⟩ := ha
  obtain ⟨hjk, hb⟩ := hb
  refine ⟨Nat.le_trans hij hjk, ?_⟩
  have hrange : List.range' i (k - i) = List.range' i (j - i) ++ List.range' j (k - j) := by
    have hstart : j = i + (j - i) := by omega
    have hlength : k - i = (j - i) + (k - j) := by omega
    rw [hlength, ← List.range'_append_1]
    rw [← hstart]
  rw [List.map_append, hrange]
  exact ha.append hb

theorem perm (ha : Numbered i a j) (hab : a.Perm b) : Numbered i b j :=
  ⟨ha.1, (hab.symm.map _).trans ha.2⟩

/-- Uses that are numbered have distinct numbers. -/
theorem nodup (ha : Numbered i a j) : (a.map Reference.id).Nodup :=
  ha.2.nodup_iff.mpr List.nodup_range'

end Numbered

namespace Grammar

/-- The uses of names in the tree of a phrase. -/
def Phrase.references : Phrase → List Reference
  | .declarations ss | .block ss => Stmt.referencesAll ss
  | .declaration s | .binding s | .statement s _ => s.references
  | .heritage superclass => superclass.toList
  | .methods decls => FunctionDecl.referencesAll decls
  | .function decl => decl.references
  | .parameterList ps | .parameters ps => ps.flatMap fun p => p.type.references
  | .type t => t.references
  | .typeAfter _ t => t.elim [] TypeName.references
  | .initializer e | .optional e => e.elim [] Expr.references
  | .firstClause s => s.elim [] Stmt.references
  | .condition e | .expression e | .ternary e | .binary _ e | .unary e | .call e | .primary e =>
    e.references
  | .argumentList es | .arguments es => Expr.referencesAll es

/-- The uses in a loop with `for` are those in its clauses and its body. -/
theorem references_desugared (keyword : Position) (first : Option Stmt) (test step : Option Expr)
    (body : Stmt) :
    (first.elim [] Stmt.references ++ (test.elim [] Expr.references ++
      (step.elim [] Expr.references ++ body.references))).Perm
      (desugared keyword first test step body).references := by
  have htest : (test.getD (.literal (.boolean true))).references
      = test.elim [] Expr.references := by
    cases test <;> rfl
  -- The step is written before the body and runs after it.
  have hswap : ∀ e : Expr, (test.elim [] Expr.references ++ (e.references ++ body.references)).Perm
      (test.elim [] Expr.references ++ (body.references ++ (e.references ++ []))) := by
    intro e
    rw [List.append_nil]
    exact (List.perm_append_comm).append_left _
  cases first <;> cases step <;>
    simp only [desugared, Stmt.references, Stmt.referencesAll, htest, Option.elim_none,
      Option.elim_some, List.nil_append, List.append_nil]
  case none.none => exact .refl _
  case none.some e => simpa using hswap e
  case some.none s => exact .refl _
  case some.some s e => simpa using (hswap e).append_left s.references

/-- An operation uses the names of its operands. -/
theorem references_operation (left right : Expr) (op : Token) :
    (operation left op right).references = left.references ++ right.references := by
  unfold operation
  split <;> rfl

/-- A type that is no class uses no name. -/
theorem references_plainType {k : Kind} {t : TypeName} (h : plainType? k = some t) :
    t.references = [] := by
  unfold plainType? at h
  split at h <;> cases h <;> rfl

/-- The uses of names in a phrase are numbered in the order in which they are read. -/
theorem Derives.numbered {rule : ElseRule} {m m' : Mark} {p : Phrase} (h : Derives rule m p m') :
    Numbered m.nextId p.references m'.nextId := by
  -- Phrases that follow each other use numbers that follow each other.
  induction h with
  | declarationsNil | heritageNone | methodsNil | parameterListNil | typeAfterNone
  | initializerNone | firstNone | optionalNone | argumentListNil | constant => exact .nil
  | heritageSome | typeNamed | this | super | name => exact .single
  | typePlain hword =>
    rw [Phrase.references, references_plainType hword]
    exact .nil
  | declarationsCons _ _ ihs ihss => exact ihs.append ihss
  | methodsCons _ _ ihdecl ihdecls => exact ihdecl.append ihdecls
  | classDeclaration _ _ _ _ _ _ ihsuper ihdecls => exact ihsuper.append ihdecls
  | function _ _ _ _ _ _ _ ihparams ihreturns ihbody =>
    exact (ihparams.append ihreturns).append ihbody
  | parametersOne _ _ _ ih => simpa [Phrase.references] using ih
  | parametersCons _ _ _ _ _ ihtype ihps => exact ihtype.append ihps
  | binding _ _ _ _ _ ihtype ihe => exact ihtype.append ihe
  | forStatement _ _ _ _ _ _ _ _ ihfirst ihtest ihstep ihbody =>
    -- The step is read before the body, and stands after it in the loop.
    exact (ihfirst.append (ihtest.append (ihstep.append ihbody))).perm
      (references_desugared _ _ _ _ _)
  | ifStatement _ _ _ ihtest ihyes => exact ihtest.append ihyes
  | ifElseStatement _ _ _ _ _ _ ihtest ihyes ihno => exact ihtest.append (ihyes.append ihno)
  | whileStatement _ _ _ ihtest ihbody => exact ihtest.append ihbody
  | assign _ _ _ ih => exact Numbered.single.append ih
  | set _ _ _ _ _ ihobject ihvalue => exact ihobject.append ihvalue
  | choice _ _ _ _ _ ihtest ihyes ihno => exact ihtest.append (ihyes.append ihno)
  | operation _ _ _ ihleft ihright =>
    rw [Phrase.references, references_operation]
    exact ihleft.append ihright
  | call _ _ _ _ _ ihcallee ihargs => exact ihcallee.append ihargs
  | argumentsOne _ ih => simpa [Phrase.references, Expr.referencesAll] using ih
  | argumentsCons _ _ _ ihe ihes => exact ihe.append ihes
  | block _ _ _ ih | functionDeclaration _ _ ih | variableDeclaration _ _ ih
  | statementDeclaration _ ih | parameterListSome _ ih | typeAfterSome _ _ ih
  | initializerSome _ _ ih | returnStatement _ _ _ ih | blockStatement _ ih
  | expressionStatement _ _ ih | firstVariable _ _ ih | firstExpression _ _ ih
  | condition _ _ _ ih | optionalSome _ ih | plainExpression _ ih | plainTernary _ ih
  | operand _ ih | tightest _ ih | signed _ _ ih | plainUnary _ ih | plainCall _ ih | get _ _ _ ih
  | argumentListSome _ ih | grouping _ _ _ ih => exact ih

end Grammar

/-! ### Spelling -/

/-- A text that is read as a name: letters, digits and underscores, no digit first, no keyword. -/
def IsName (text : String) : Prop :=
  (∃ c rest, text.toList = c :: rest ∧ isWordStart c = true ∧ ∀ d ∈ rest, isWordPart d = true) ∧
    Keyword.ofWord? text = none

/-- The text is one that a token of the kind is written as. Nothing is said of the texts of
    numbers. -/
def Kind.Spells (text : String) : Kind → Prop
  | .symbol s => text = String.ofList s.spelling
  | .keyword k => text = k.spelling
  | .identifier => IsName text
  | .string body => '"' ∉ body.toList
  | .number _ => True
  | .endOfInput => True

theorem Keyword.spelling_of_ofWord? {word : String} {k : Keyword} (h : ofWord? word = some k) :
    k.spelling = word := by
  have hk := List.find?_some h
  simpa using hk

namespace Piece

/-- A piece that is a token has a text of its kind. -/
def Spelt (p : Piece) : Prop := ∀ kind, p.shape = .token kind → kind.Spells (String.ofList p.text)

/-- A word is spelt as its text. -/
theorem spelt_word {c : Char} (hc : isWordStart c = true) (rest : List Char) :
    (word c rest).Spelt := by
  unfold word
  simp only
  split
  · next k hk =>
    rintro kind ⟨rfl⟩
    exact (Keyword.spelling_of_ofWord? hk).symm
  · next hk =>
    rintro kind ⟨rfl⟩
    refine ⟨⟨c, rest.takeWhile isWordPart, String.toList_ofList, hc, ?_⟩, hk⟩
    exact List.all_eq_true.mp List.all_takeWhile

/-- A string is spelt with its quotes. -/
theorem spelt_string (rest : List Char) : (string rest).Spelt := by
  unfold string
  simp only
  split
  · rintro kind ⟨rfl⟩
    show '"' ∉ _
    rw [String.toList_ofList]
    exact not_mem_takeWhile '"' rest
  · rintro kind ⟨⟩

/-- A symbol is spelt as its text. -/
theorem spelt_symbol (c : Char) (rest : List Char) : (symbol c rest).Spelt := by
  unfold symbol
  simp only
  split
  · split
    · next s hs =>
      rintro kind ⟨rfl⟩
      exact congrArg String.ofList (Symbol.spelling_ofPair? hs).symm
    · split
      · next s hs =>
        rintro kind ⟨rfl⟩
        exact congrArg String.ofList (Symbol.spelling_ofChar? hs).symm
      · rintro kind ⟨⟩
  · split
    · next s hs =>
      rintro kind ⟨rfl⟩
      exact congrArg String.ofList (Symbol.spelling_ofChar? hs).symm
    · rintro kind ⟨⟩

theorem spelt_front (c : Char) (rest : List Char) : (front c rest).Spelt := by
  unfold front
  split
  · rintro kind ⟨⟩
  · split
    · exact spelt_string rest
    · split
      · rintro kind ⟨rfl⟩
        trivial
      · split
        · next hword => exact spelt_word hword rest
        · split
          · rintro kind ⟨⟩
          · unfold blockComment
            split <;> rintro kind ⟨⟩
          · exact spelt_symbol c rest

end Piece

/-- Every scanned token has a text of its kind. -/
theorem spells_of_scan {source : String} {tokens : List Token} (h : scan source = .ok tokens) :
    ∀ t ∈ tokens, t.kind.Spells t.lexeme := by
  intro t ht
  rcases exists_front_of_scan h ht with ⟨hkind, -⟩ | ⟨c, rest, hshape, hlexeme⟩
  · rw [hkind]
    trivial
  · rw [hlexeme]
    exact Piece.spelt_front c rest t.kind hshape

/-- A word is a keyword exactly if it is spelt like one. -/
def Token.WellSpelt (t : Token) : Prop :=
  match t.kind with
  | .identifier => Keyword.ofWord? t.lexeme = none
  | .keyword k => t.lexeme = k.spelling
  | _ => True

theorem Token.WellSpelt.plain {t : Token} (h : t.WellSpelt) (ht : t.kind = .identifier) :
    t.asName.Plain := by
  unfold WellSpelt at h
  rw [ht] at h
  have hthis : Keyword.ofWord? thisName = some .kwThis := by decide
  have hsuper : Keyword.ofWord? superName = some .kwSuper := by decide
  constructor
  · intro heq
    rw [show t.lexeme = thisName from heq, hthis] at h
    cases h
  · intro heq
    rw [show t.lexeme = superName from heq, hsuper] at h
    cases h

/-- A keyword is written as it is spelt. -/
theorem Token.WellSpelt.lexeme_eq {t : Token} {k : Keyword} (h : t.WellSpelt)
    (ht : t.kind = .keyword k) : t.lexeme = k.spelling := by
  unfold WellSpelt at h
  rw [ht] at h
  exact h

/-- A piece that is a word is a keyword exactly if it is spelt like one. -/
def Piece.WellSpelt (p : Piece) : Prop :=
  match p.shape with
  | .token kind => ∀ pos, Token.WellSpelt ⟨kind, String.ofList p.text, pos⟩
  | _ => True

theorem Piece.Spelt.wellSpelt {p : Piece} (h : p.Spelt) : p.WellSpelt := by
  unfold WellSpelt
  split
  · next kind hshape =>
    intro pos
    have hspells := h kind hshape
    cases kind with
    | identifier => exact hspells.2
    | keyword k => exact hspells
    | symbol | string | number | endOfInput => trivial
  · trivial

/-- Every scanned token is well spelt. -/
theorem wellSpelt_of_scan {source : String} {tokens : List Token} (h : scan source = .ok tokens) :
    ∀ t ∈ tokens, t.WellSpelt := by
  intro t ht
  rcases exists_front_of_scan h ht with ⟨hkind, -⟩ | ⟨c, rest, hshape, hlexeme⟩
  · unfold Token.WellSpelt
    rw [hkind]
    trivial
  · have hpiece := (Piece.spelt_front c rest).wellSpelt
    unfold Piece.WellSpelt at hpiece
    rw [hshape] at hpiece
    have ht := hpiece t.pos
    rwa [← hlexeme] at ht

/-! ### Well-formed trees -/

/-- The rule that well-formed trees obey. -/
def TreeRule.wellFormed : TreeRule where
  name := Name.Plain
  receiver name := name.text = thisName
  superclass name := name.text = superName
  unary operator := operator.kind ∈ unaryOperators
  binary operator := operator.kind ∈ binaryOperators
  logical _ := True
  literal _ := True
  position _ := True
  branch s := s.declared? = none

theorem TreeRule.wellFormed_lawful : TreeRule.wellFormed.Lawful where
  literal_true := trivial
  branch _ h := h

/-- A token as it is spelt fits the rule. -/
theorem Token.WellSpelt.fits {t : Token} (h : t.WellSpelt) : TreeRule.wellFormed.Fits t where
  name := h.plain
  receiver := h.lexeme_eq
  superclass := h.lexeme_eq
  unary hkind := hkind
  binary hkind := hkind
  logical _ := trivial
  literal _ _ := trivial
  position := trivial

mutual

theorem Expr.wellFormed_of_obeys : ∀ e : Expr, e.Obeys .wellFormed → e.WellFormed
  | .literal _, _ => trivial
  | .grouping inner, h => inner.wellFormed_of_obeys h
  | .unary _ operand, h => ⟨h.1, operand.wellFormed_of_obeys h.2⟩
  | .binary left _ right, h =>
    ⟨h.1, left.wellFormed_of_obeys h.2.1, right.wellFormed_of_obeys h.2.2⟩
  | .logical left _ right, h => ⟨left.wellFormed_of_obeys h.2.1, right.wellFormed_of_obeys h.2.2⟩
  | .ternary condition _ yes no, h =>
    ⟨condition.wellFormed_of_obeys h.2.1, yes.wellFormed_of_obeys h.2.2.1,
      no.wellFormed_of_obeys h.2.2.2⟩
  | .var _, h => h
  | .assign _ value, h => ⟨h.1, value.wellFormed_of_obeys h.2⟩
  | .call callee _ arguments, h =>
    ⟨callee.wellFormed_of_obeys h.2.1, Expr.allWellFormed_of_obey arguments h.2.2⟩
  | .get object _, h => object.wellFormed_of_obeys h.2
  | .set object _ value, h => ⟨object.wellFormed_of_obeys h.2.1, value.wellFormed_of_obeys h.2.2⟩
  | .this _, h => h
  | .super _ _, h => h.1

theorem Expr.allWellFormed_of_obey : ∀ es : List Expr, Expr.AllObey .wellFormed es →
    Expr.AllWellFormed es
  | [], _ => trivial
  | e :: es, h => ⟨e.wellFormed_of_obeys h.1, Expr.allWellFormed_of_obey es h.2⟩

end

mutual

theorem Stmt.wellFormed_of_obeys : ∀ s : Stmt, s.Obeys .wellFormed → s.WellFormed
  | .expression e, h => e.wellFormed_of_obeys h
  | .val _ _ _, h => ⟨h.1, h.2.1, fun e he => e.wellFormed_of_obeys (h.2.2 e he)⟩
  | .block body, h => Stmt.allWellFormed_of_obey body h
  | .ifThen _ condition yes, h =>
    ⟨condition.wellFormed_of_obeys h.2.1, yes.wellFormed_of_obeys h.2.2.1, h.2.2.2⟩
  | .ifElse _ condition yes no, h =>
    ⟨condition.wellFormed_of_obeys h.2.1, ⟨yes.wellFormed_of_obeys h.2.2.1.1, h.2.2.1.2⟩,
      no.wellFormed_of_obeys h.2.2.2.1, h.2.2.2.2⟩
  | .whileLoop _ condition body, h =>
    ⟨condition.wellFormed_of_obeys h.2.1, body.wellFormed_of_obeys h.2.2.1, h.2.2.2⟩
  | .funDecl decl, h => decl.wellFormed_of_obeys h
  | .ret _ _, h => fun e he => e.wellFormed_of_obeys (h.2 e he)
  | .classDecl _ _ decls, h => ⟨h.1, h.2.1, FunctionDecl.allWellFormed_of_obey decls h.2.2⟩

theorem Stmt.allWellFormed_of_obey : ∀ ss : List Stmt, Stmt.AllObey .wellFormed ss →
    Stmt.AllWellFormed ss
  | [], _ => trivial
  | s :: ss, h => ⟨s.wellFormed_of_obeys h.1, Stmt.allWellFormed_of_obey ss h.2⟩

theorem FunctionDecl.wellFormed_of_obeys : ∀ decl : FunctionDecl, decl.Obeys .wellFormed →
    decl.WellFormed
  | ⟨_, _, _, body⟩, h => ⟨h.1, h.2.1, h.2.2.1, Stmt.allWellFormed_of_obey body h.2.2.2⟩

/-- Functions that obey the rule are well formed. -/
theorem FunctionDecl.allWellFormed_of_obey : ∀ decls : List FunctionDecl,
    FunctionDecl.AllObey .wellFormed decls → FunctionDecl.AllWellFormed decls
  | [], _ => trivial
  | decl :: decls, h =>
    ⟨decl.wellFormed_of_obeys h.1, FunctionDecl.allWellFormed_of_obey decls h.2⟩

end

namespace Grammar

/-- The tree of a phrase is well formed. -/
def Phrase.WellFormed : Phrase → Prop
  | .declarations ss | .block ss => Stmt.AllWellFormed ss
  | .declaration s | .binding s => s.WellFormed
  | .statement s _ => s.WellFormed ∧ s.declared? = none
  | .heritage superclass => ∀ ref ∈ superclass, ref.name.Plain
  | .methods decls => FunctionDecl.AllWellFormed decls
  | .function decl => decl.WellFormed
  | .parameterList ps | .parameters ps => ∀ p ∈ ps, p.WellFormed
  | .type t => t.WellFormed
  | .typeAfter _ t => ∀ u ∈ t, u.WellFormed
  | .initializer e | .optional e => ∀ f ∈ e, f.WellFormed
  | .firstClause s => ∀ u ∈ s, u.WellFormed
  | .binary levels e => levels ⊆ operators → e.WellFormed
  | .condition e | .expression e | .ternary e | .unary e | .call e | .primary e => e.WellFormed
  | .argumentList es | .arguments es => Expr.AllWellFormed es

/-- Phrases of well-spelt tokens have well-formed trees. -/
theorem Derives.wellFormed {rule : ElseRule} {m m' : Mark} {p : Phrase} (h : Derives rule m p m')
    (hm : ∀ t ∈ m.ahead, t.WellSpelt) : p.WellFormed := by
  have hobeys := (h.obeys TreeRule.wellFormed_lawful fun t ht => (hm t ht).fits).1
  cases p with
  | declarations ss | block ss => exact Stmt.allWellFormed_of_obey ss hobeys
  | declaration s | binding s => exact s.wellFormed_of_obeys hobeys
  | statement s dangling => exact ⟨s.wellFormed_of_obeys hobeys.1, hobeys.2⟩
  | heritage | parameterList | parameters | type | typeAfter => exact hobeys
  | methods decls => exact FunctionDecl.allWellFormed_of_obey decls hobeys
  | function decl => exact decl.wellFormed_of_obeys hobeys
  | initializer e | optional e => exact fun f hf => f.wellFormed_of_obeys (hobeys f hf)
  | firstClause s => exact fun u hu => u.wellFormed_of_obeys (hobeys u hu)
  | binary levels e => exact fun hlevels => e.wellFormed_of_obeys (hobeys hlevels)
  | condition e | expression e | ternary e | unary e | call e | primary e =>
    exact e.wellFormed_of_obeys hobeys
  | argumentList es | arguments es => exact Expr.allWellFormed_of_obey es hobeys

end Grammar

/-! ### Source texts -/

/-- The uses of names in a program that is read are numbered from zero. -/
theorem numbered_of_parse {tokens : List Token} {p : Program} (h : parse tokens = .ok p) :
    ∃ n, Numbered 0 (Stmt.referencesAll p) n := by
  obtain ⟨n, hn⟩ := reads_of_parse h
  exact ⟨n, hn.numbered⟩

/-- **Numbers tell uses of names apart.** The uses of names in a program that is read, at any depth,
    have the numbers from zero up to how many there are, each once. So a distance that is noted for
    one use is found at that use, and leaves what the table says about every other use. -/
theorem parse_numbers_references {tokens : List Token} {p : Program} (h : parse tokens = .ok p) :
    ((Stmt.referencesAll p).map Reference.id).Perm (List.range (Stmt.referencesAll p).length) ∧
      ((Stmt.referencesAll p).map Reference.id).Nodup ∧
      ∀ (i j : Fin (Stmt.referencesAll p).length) (table : Distances) (distance : Nat),
        (table.note ((Stmt.referencesAll p).get i).id distance).get?
            ((Stmt.referencesAll p).get j).id
          = if i = j then some distance else table.get? ((Stmt.referencesAll p).get j).id := by
  obtain ⟨n, hn⟩ := numbered_of_parse h
  have hperm := hn.2
  -- There are as many numbers as uses, so the last number is known.
  have hlength : (Stmt.referencesAll p).length = n := by
    have := hperm.length_eq
    simpa using this
  rw [Nat.sub_zero, ← List.range_eq_range', ← hlength] at hperm
  refine ⟨hperm, hn.nodup, ?_⟩
  intro i j table distance
  have hids : ((Stmt.referencesAll p).get i).id = ((Stmt.referencesAll p).get j).id ↔ i = j := by
    constructor
    · intro heq
      have hsame := List.inj_on_of_nodup_map hn.nodup (List.get_mem _ i) (List.get_mem _ j) heq
      exact (hn.nodup.of_map _).get_inj_iff.mp hsame
    · intro heq
      rw [heq]
  simp only [Distances.get?_note, hids]

/-- A program with a superclass, the receiver, types that name a class, and a loop with `for`, whose
    step has lower numbers than the body that runs before it. -/
theorem parse_numbers_references_for :
    ∃ tokens p, scan
        "class A \x7b m(a: A) -> A \x7b return a; \x7d \x7d
        class B < A \x7b m(a: A) -> A \x7b this.a = super.m; return a; \x7d \x7d
        for (val i: B = B(); i == i; i = i.m(i)) println(i);" = .ok tokens ∧
      parse tokens = .ok p ∧ (Stmt.referencesAll p).length = 18 ∧
      ((Stmt.referencesAll p).map Reference.id).Perm (List.range (Stmt.referencesAll p).length) ∧
      ((Stmt.referencesAll p).map Reference.id).Nodup ∧
      ∀ (i j : Fin (Stmt.referencesAll p).length) (table : Distances) (distance : Nat),
        (table.note ((Stmt.referencesAll p).get i).id distance).get?
            ((Stmt.referencesAll p).get j).id
          = if i = j then some distance else table.get? ((Stmt.referencesAll p).get j).id := by
  have hread : (scan
        "class A \x7b m(a: A) -> A \x7b return a; \x7d \x7d
        class B < A \x7b m(a: A) -> A \x7b this.a = super.m; return a; \x7d \x7d
        for (val i: B = B(); i == i; i = i.m(i)) println(i);").toOption.any (fun tokens =>
      (parse tokens).toOption.any fun p => (Stmt.referencesAll p).length == 18) = true := by
    decide +kernel
  obtain ⟨tokens, hscan, hread⟩ := exists_ok_of_any hread
  obtain ⟨p, hparse, hlength⟩ := exists_ok_of_any hread
  exact ⟨tokens, p, hscan, hparse, by simpa using hlength, parse_numbers_references hparse⟩

namespace Source

variable {source : String} {p : Program}

/-- A source text is a program if its tokens are. -/
theorem program_eq_ok (h : program source = .ok p) :
    ∃ tokens, scan source = .ok tokens ∧ parse tokens = .ok p := by
  obtain ⟨tokens, hscan, hparse⟩ := except_bind_eq_ok.mp h
  exact ⟨tokens, mapError_eq_ok.mp hscan, mapError_eq_ok.mp hparse⟩

theorem program_wellFormed (h : program source = .ok p) : Stmt.AllWellFormed p := by
  obtain ⟨tokens, hscan, hparse⟩ := program_eq_ok h
  obtain ⟨n, hn⟩ := reads_of_parse hparse
  apply hn.wellFormed
  intro t ht
  exact wellSpelt_of_scan hscan t ((List.takeWhile_sublist _).subset ht)

theorem program_nodup (h : program source = .ok p) :
    ((Stmt.referencesAll p).map Reference.id).Nodup := by
  obtain ⟨tokens, -, hparse⟩ := program_eq_ok h
  obtain ⟨n, hn⟩ := numbered_of_parse hparse
  exact hn.nodup

end Source

end ClassScript
