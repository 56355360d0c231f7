import ClassScript.Builtin
import ClassScript.Distances
import ClassScript.Program
import ClassScript.Scope

namespace ClassScript

/-!
# Resolution of names

One walk over a program that finds, for each use of a name, the frame that binds it. Blocks and
function bodies open frames; parameters share the frame of the body; the methods of a class stand
inside a frame for the receiver, and inside one for the superclass if there is one. The first
misuse of a name ends the walk.

* `ScopeFault`: misuses of names;
* `Resolution.reference`: looks a use of a name up and records its distance;
* `Resolution.expr`, `Resolution.stmt`: the walk;
* `resolve`: the table of distances of a program.
-/

/-- Misuses of names. -/
inductive ScopeFault where
  | alreadyDeclared
  | readInInitializer
  | undefined
  | returnOutside
  | returnFromInitializer
  | localClass
  | selfInheritance
  | thisOutside
  | superOutside
  | superWithoutSuperclass
deriving DecidableEq

/-- The wording of a misuse. -/
def ScopeFault.message : ScopeFault → String
  | alreadyDeclared => "Already a variable with this name in this scope"
  | readInInitializer => "Can't read local variable in its own initializer"
  | undefined => "Undefined variable"
  | returnOutside => "Can't return from top-level code"
  | returnFromInitializer => "Can't return a value from an initializer"
  | localClass => "Class declared in local scope"
  | selfInheritance => "Class can't inherit from itself"
  | thisOutside => "'this' outside of a class"
  | superOutside => "'super' outside of class"
  | superWithoutSuperclass => "'super' in a class with no superclass"

/-- How far the declaration of a name has come. -/
inductive Readiness where
  /-- The name is taken, but its initializer is still being walked. -/
  | declared
  /-- The name may be used. -/
  | defined
deriving DecidableEq

/-- The kind of function body that a statement stands in. -/
inductive Body where
  | topLevel
  | function
  | method
  | initializer
deriving DecidableEq

/-- The kind of class that a statement stands in. -/
inductive Enclosure where
  | outside
  | inClass
  | inSubclass
deriving DecidableEq

/-- What surrounds the statement at hand. -/
structure Surroundings where
  body : Body
  enclosure : Enclosure
deriving DecidableEq

/-- The frames and the table at a point of the walk. -/
structure Resolution where
  scopes : Scopes Readiness
  table : Distances

namespace Resolution

/-- The result of a step of the walk. -/
abbrev Result (α : Type) := Except (Located ScopeFault) α

/-- Before the first statement the built-in functions are the globals. -/
def initial : Resolution :=
  ⟨Builtin.all.foldl (fun s b => s.declareGlobal b.name .defined) .empty, .empty⟩

/-- The table after a use of a name: the innermost binding has to be ready for use, and the distance
    is recorded if it is a local one. -/
def reference (scopes : Scopes Readiness) (ref : Reference) (table : Distances) :
    Result Distances :=
  match scopes.find? ref.name.text with
  | none => .error ⟨.undefined, ref.name.pos⟩
  | some place =>
    if scopes.get? place ref.name.text = some .declared then
      .error ⟨.readInInitializer, ref.name.pos⟩
    else
      match place with
      | .frame distance => .ok (table.note ref.id distance)
      -- A use without an entry is one of a global.
      | .global => .ok table

/-- The scopes with `name` taken in the innermost frame, where it has to be new. -/
def declare (scopes : Scopes Readiness) (name : Name) : Result (Scopes Readiness) :=
  if scopes.declaredHere name.text then .error ⟨.alreadyDeclared, name.pos⟩
  else .ok (scopes.declare name.text .declared)

/-- The scopes with `name` ready for use. -/
def define (scopes : Scopes Readiness) (name : Name) : Scopes Readiness :=
  scopes.declare name.text .defined

/-- The scopes with a new name that is ready for use at once. -/
def introduce (scopes : Scopes Readiness) (name : Name) : Result (Scopes Readiness) := do
  let scopes ← declare scopes name
  return define scopes name

/-- The table after a type as it is written. -/
def typeName (scopes : Scopes Readiness) (type : TypeName) (table : Distances) :
    Result Distances :=
  match type with
  | .named ref => reference scopes ref table
  | _ => .ok table

/-- The table after the types of a function: those of the parameters, then that of the result. -/
def signature (scopes : Scopes Readiness) (decl : FunctionDecl) (table : Distances) :
    Result Distances := do
  let table ← decl.params.foldlM (fun table p => typeName scopes p.type table) table
  match decl.returns with
  | some type => typeName scopes type table
  | none => return table

/-! ### Expressions -/

mutual

/-- The table after an expression. Expressions bind no names. -/
def expr (around : Surroundings) (scopes : Scopes Readiness) :
    Expr → Distances → Result Distances
  | .literal _, table => .ok table
  | .grouping inner, table => expr around scopes inner table
  | .unary _ operand, table => expr around scopes operand table
  | .binary left _ right, table => do
    let table ← expr around scopes left table
    expr around scopes right table
  | .logical left _ right, table => do
    let table ← expr around scopes left table
    expr around scopes right table
  | .ternary condition _ yes no, table => do
    let table ← expr around scopes condition table
    let table ← expr around scopes yes table
    expr around scopes no table
  | .var ref, table => reference scopes ref table
  | .assign target value, table => do
    -- The value is walked before the target is looked up.
    let table ← expr around scopes value table
    reference scopes target table
  | .call callee _ arguments, table => do
    let table ← expr around scopes callee table
    exprs around scopes arguments table
  | .get object _, table => expr around scopes object table
  | .set object _ value, table => do
    let table ← expr around scopes object table
    expr around scopes value table
  | .this ref, table =>
    match around.enclosure with
    | .outside => .error ⟨.thisOutside, ref.name.pos⟩
    | _ => reference scopes ref table
  | .super keyword _, table =>
    match around.enclosure with
    | .outside => .error ⟨.superOutside, keyword.name.pos⟩
    | .inClass => .error ⟨.superWithoutSuperclass, keyword.name.pos⟩
    | .inSubclass => reference scopes keyword table

/-- The table after expressions in order. -/
def exprs (around : Surroundings) (scopes : Scopes Readiness) :
    List Expr → Distances → Result Distances
  | [], table => .ok table
  | e :: es, table => do
    let table ← expr around scopes e table
    exprs around scopes es table

end

/-! ### Statements -/

/-- The scopes for the methods of a class: a frame for the receiver, inside one for the superclass
    if there is one. -/
def classScopes (scopes : Scopes Readiness) (derived : Bool) : Scopes Readiness :=
  let outer := if derived then scopes.openFrame.declare superName .defined else scopes
  outer.openFrame.declare thisName .defined

/-- The kind of body that a method with the given name has. -/
def methodBody (name : Name) : Body :=
  if name.text = constructorName then .initializer else .method

mutual

/-- The walk over a statement. The frames that it opens are closed again after it. -/
def stmt (around : Surroundings) : Stmt → Resolution → Result Resolution
  | .expression e, r => do
    let table ← expr around r.scopes e r.table
    return { r with table }
  | .val name type initializer, r => do
    let table ←
      match type with
      | some type => typeName r.scopes type r.table
      | none => pure r.table
    -- The annotation does not see the name; the initializer sees it as not yet ready.
    let scopes ← declare r.scopes name
    let table ←
      match initializer with
      | some e => expr around scopes e table
      | none => pure table
    return ⟨define scopes name, table⟩
  | .block body, r => do
    let inner ← stmts around body { r with scopes := r.scopes.openFrame }
    return { r with table := inner.table }
  | .ifThen _ condition yes, r => do
    let table ← expr around r.scopes condition r.table
    stmt around yes { r with table }
  | .ifElse _ condition yes no, r => do
    let table ← expr around r.scopes condition r.table
    let r ← stmt around yes { r with table }
    stmt around no r
  | .whileLoop _ condition body, r => do
    let table ← expr around r.scopes condition r.table
    stmt around body { r with table }
  | .funDecl decl, r => do
    let table ← signature r.scopes decl r.table
    -- The types do not see the name of the function; the body does.
    let scopes ← introduce r.scopes decl.name
    let table ← function { around with body := .function } decl scopes table
    return ⟨scopes, table⟩
  | .ret keyword value, r =>
    match around.body, value with
    | .topLevel, _ => .error ⟨.returnOutside, keyword⟩
    | .initializer, some _ => .error ⟨.returnFromInitializer, keyword⟩
    | _, some e => do
      let table ← expr around r.scopes e r.table
      return { r with table }
    | _, none => .ok r
  | .classDecl name superclass decls, r => do
    if !r.scopes.isGlobal then .error ⟨.localClass, name.pos⟩
    -- The types of the methods may name the class itself.
    let scopes ← introduce r.scopes name
    let table ←
      match superclass with
      | some ref =>
        if ref.name.text = name.text then .error ⟨.selfInheritance, ref.name.pos⟩
        else reference scopes ref r.table
      | none => pure r.table
    -- The types of all methods come before the body of the first.
    let table ← decls.foldlM (fun table decl => signature scopes decl table) table
    let enclosure := if superclass.isSome then .inSubclass else .inClass
    let table ←
      methods { around with enclosure } decls (classScopes scopes superclass.isSome) table
    return ⟨scopes, table⟩

/-- The walk over statements in order. -/
def stmts (around : Surroundings) : List Stmt → Resolution → Result Resolution
  | [], r => .ok r
  | s :: ss, r => do
    let r ← stmt around s r
    stmts around ss r

/-- The table after the parameters and the body of a function, which share a frame. -/
def function (around : Surroundings) :
    FunctionDecl → Scopes Readiness → Distances → Result Distances
  | ⟨_, params, _, body⟩, scopes, table => do
    let scopes ← params.foldlM (fun scopes p => introduce scopes p.name) scopes.openFrame
    let inner ← stmts around body ⟨scopes, table⟩
    return inner.table

/-- The table after the methods of a class. -/
def methods (around : Surroundings) :
    List FunctionDecl → Scopes Readiness → Distances → Result Distances
  | [], _, table => .ok table
  | decl :: decls, scopes, table => do
    let table ← function { around with body := methodBody decl.name } decl scopes table
    methods around decls scopes table

end

end Resolution

/-- The table of distances of a program, or the first misuse of a name in it. -/
def resolve (program : Program) : Except (Located ScopeFault) Distances := do
  let r ← Resolution.stmts ⟨.topLevel, .outside⟩ program .initial
  return r.table

end ClassScript
