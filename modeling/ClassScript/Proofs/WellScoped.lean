import ClassScript.Proofs.Scoping

namespace ClassScript

/-!
# Scoping without a walk

When the names of a program are used as they may be: said by the frames around each part and the
names that are declared in them earlier in the text, with no table and no state of declarations.

A block and a function body are a frame each, and the parameters of a function belong to the frame
of its body. The methods of a class stand in a frame for the receiver, and that one in a frame for
the superclass if there is one. A name counts as declared behind the types in its own declaration.

* `Context`: the frames around a part of a program;
* `Expr.WellScoped`, `Stmt.WellScoped`: the rules for the parts;
* `Program.WellScoped`: the rules for a program;
* `Program.uses`: each use of a name, with the frames around it.
-/

/-! ### Contexts -/

/-- The frames around a part of a program: the names that are declared earlier in each of the local
    frames, innermost first, and among the globals. -/
structure Context where
  locals : List (List String)
  globals : List String

namespace Context

/-- The names of the frame that a declaration goes to. -/
def here (Γ : Context) : List String := Γ.locals.headD Γ.globals

/-- The context behind a declaration of `x`. -/
def add (Γ : Context) (x : String) : Context :=
  match Γ.locals with
  | [] => { Γ with globals := Γ.globals ++ [x] }
  | names :: outer => { Γ with locals := (names ++ [x]) :: outer }

/-- The context in a further frame, with the given names in it. -/
def inside (Γ : Context) (names : List String) : Context :=
  { Γ with locals := names :: Γ.locals }

/-- Some frame around declares `x`. -/
def Declares (Γ : Context) (x : String) : Prop :=
  (∃ names ∈ Γ.locals, x ∈ names) ∨ x ∈ Γ.globals

/-- How many frames lie between a use of `x` and the innermost frame that declares it, if that is a
    local one. -/
def distance? (Γ : Context) (x : String) : Option Nat :=
  Γ.locals.findIdx? fun names => decide (x ∈ names)

/-- The context in the methods of a class. -/
def inMethods (Γ : Context) (derived : Bool) : Context :=
  (if derived then Γ.inside [superName] else Γ).inside [thisName]

/-- Before the first statement the built-in functions are declared. -/
def initial : Context := ⟨[], Builtin.all.map Builtin.name⟩

end Context

/-- The context behind a statement. -/
def Stmt.extend (s : Stmt) (Γ : Context) : Context :=
  match s.declared? with
  | some x => Γ.add x
  | none => Γ

/-- The names that statements declare in the frame that they stand in. -/
def Stmt.declarations (ss : List Stmt) : List String := ss.filterMap Stmt.declared?

/-! ### The rules -/

mutual

/-- The receiver is used only inside methods, and the superclass only inside methods of a class that
    has one. -/
def Expr.Allowed (enclosure : Enclosure) : Expr → Prop
  | .literal _ => True
  | .grouping inner => inner.Allowed enclosure
  | .unary _ operand => operand.Allowed enclosure
  | .binary left _ right => left.Allowed enclosure ∧ right.Allowed enclosure
  | .logical left _ right => left.Allowed enclosure ∧ right.Allowed enclosure
  | .ternary condition _ yes no =>
    condition.Allowed enclosure ∧ yes.Allowed enclosure ∧ no.Allowed enclosure
  | .var _ => True
  | .assign _ value => value.Allowed enclosure
  | .call callee _ arguments => callee.Allowed enclosure ∧ Expr.AllAllowed enclosure arguments
  | .get object _ => object.Allowed enclosure
  | .set object _ value => object.Allowed enclosure ∧ value.Allowed enclosure
  | .this _ => enclosure ≠ .outside
  | .super _ _ => enclosure = .inSubclass

/-- The same for expressions in order. -/
def Expr.AllAllowed (enclosure : Enclosure) : List Expr → Prop
  | [] => True
  | e :: es => e.Allowed enclosure ∧ Expr.AllAllowed enclosure es

end

/-- The ordinary names among the uses are declared. -/
def AllDeclared (Γ : Context) (refs : List Reference) : Prop :=
  ∀ ref ∈ refs, ref.name.Plain → Γ.Declares ref.name.text

/-- An expression uses names as it may. -/
def Expr.WellScoped (enclosure : Enclosure) (Γ : Context) (e : Expr) : Prop :=
  e.Allowed enclosure ∧ AllDeclared Γ e.references

mutual

/-- A statement uses and declares names as it may. -/
def Stmt.WellScoped (around : Surroundings) : Stmt → Context → Prop
  | .expression e, Γ => e.WellScoped around.enclosure Γ
  | .val name type initializer, Γ =>
    (∀ t ∈ type, AllDeclared Γ t.references) ∧
      ∀ e ∈ initializer, e.WellScoped around.enclosure Γ ∧
        ∀ ref ∈ e.references, ref.name.text ≠ name.text
  | .block body, Γ =>
    (Stmt.declarations body).Nodup ∧ Stmt.AllWellScoped around body (Γ.inside [])
  | .ifThen _ condition yes, Γ =>
    condition.WellScoped around.enclosure Γ ∧ yes.WellScoped around Γ
  | .ifElse _ condition yes no, Γ =>
    condition.WellScoped around.enclosure Γ ∧ yes.WellScoped around Γ ∧ no.WellScoped around Γ
  | .whileLoop _ condition body, Γ =>
    condition.WellScoped around.enclosure Γ ∧ body.WellScoped around Γ
  | .funDecl decl, Γ =>
    AllDeclared Γ decl.typeReferences ∧
      decl.WellScoped { around with body := .function } (Γ.add decl.name.text)
  | .ret _ value, Γ =>
    around.body ≠ .topLevel ∧ (value.isSome → around.body ≠ .initializer) ∧
      ∀ e ∈ value, e.WellScoped around.enclosure Γ
  | .classDecl name superclass decls, Γ =>
    Γ.locals = [] ∧ (∀ ref ∈ superclass, ref.name.text ≠ name.text) ∧
      AllDeclared Γ superclass.toList ∧
      (∀ decl ∈ decls, AllDeclared (Γ.add name.text) decl.typeReferences) ∧
      FunctionDecl.AllWellScoped { around with enclosure := Resolution.enclosureOf superclass }
        decls ((Γ.add name.text).inMethods superclass.isSome)

/-- Statements in order use and declare names as they may. -/
def Stmt.AllWellScoped (around : Surroundings) : List Stmt → Context → Prop
  | [], _ => True
  | s :: ss, Γ => s.WellScoped around Γ ∧ Stmt.AllWellScoped around ss (s.extend Γ)

/-- The parameters and the body of a function, which share a frame. -/
def FunctionDecl.WellScoped (around : Surroundings) : FunctionDecl → Context → Prop
  | ⟨_, params, _, body⟩, Γ =>
    ((params.map fun p => p.name.text) ++ Stmt.declarations body).Nodup ∧
      Stmt.AllWellScoped around body (Γ.inside (params.map fun p => p.name.text))

/-- The methods of a class; one with the name of constructors returns no value. -/
def FunctionDecl.AllWellScoped (around : Surroundings) : List FunctionDecl → Context → Prop
  | [], _ => True
  | decl :: decls, Γ =>
    decl.WellScoped { around with body := Resolution.methodBody decl.name } Γ ∧
      FunctionDecl.AllWellScoped around decls Γ

end

/-- A program uses and declares names as it may. The built-in functions are declared before it. -/
def Program.WellScoped (program : Program) : Prop :=
  (Context.initial.globals ++ Stmt.declarations program).Nodup ∧
    Stmt.AllWellScoped ⟨.topLevel, .outside⟩ program .initial

/-! ### Uses with their frames -/

/-- A use of a name, with the frames around it. -/
structure Use where
  ref : Reference
  context : Context

/-- How many frames lie between a use and the declaration, if that is in a local frame. -/
def Use.distance? (use : Use) : Option Nat := use.context.distance? use.ref.name.text

/-- Uses at one place. -/
def usesAt (Γ : Context) (refs : List Reference) : List Use := refs.map fun ref => ⟨ref, Γ⟩

mutual

/-- The uses in a statement. -/
def Stmt.uses : Stmt → Context → List Use
  | .expression e, Γ => usesAt Γ e.references
  | .val _ type initializer, Γ =>
    usesAt Γ (type.elim [] TypeName.references) ++ usesAt Γ (initializer.elim [] Expr.references)
  | .block body, Γ => Stmt.usesAll body (Γ.inside [])
  | .ifThen _ condition yes, Γ => usesAt Γ condition.references ++ yes.uses Γ
  | .ifElse _ condition yes no, Γ =>
    usesAt Γ condition.references ++ (yes.uses Γ ++ no.uses Γ)
  | .whileLoop _ condition body, Γ => usesAt Γ condition.references ++ body.uses Γ
  | .funDecl decl, Γ => usesAt Γ decl.typeReferences ++ decl.uses (Γ.add decl.name.text)
  | .ret _ value, Γ => usesAt Γ (value.elim [] Expr.references)
  | .classDecl name superclass decls, Γ =>
    usesAt Γ superclass.toList ++
      (usesAt (Γ.add name.text) (decls.flatMap FunctionDecl.typeReferences) ++
        FunctionDecl.usesAll decls ((Γ.add name.text).inMethods superclass.isSome))

/-- The uses in statements in order. -/
def Stmt.usesAll : List Stmt → Context → List Use
  | [], _ => []
  | s :: ss, Γ => s.uses Γ ++ Stmt.usesAll ss (s.extend Γ)

/-- The uses in the body of a function. -/
def FunctionDecl.uses : FunctionDecl → Context → List Use
  | ⟨_, params, _, body⟩, Γ => Stmt.usesAll body (Γ.inside (params.map fun p => p.name.text))

/-- The uses in the bodies of methods. -/
def FunctionDecl.usesAll : List FunctionDecl → Context → List Use
  | [], _ => []
  | decl :: decls, Γ => decl.uses Γ ++ FunctionDecl.usesAll decls Γ

end

/-- The uses in a program. -/
def Program.uses (program : Program) : List Use := Stmt.usesAll program .initial

end ClassScript
