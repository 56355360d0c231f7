import ClassScript.Builtin
import ClassScript.Distances
import ClassScript.Program
import ClassScript.Scope

namespace ClassScript

/-!
# Type checking

One walk over a program that gives each expression a static type. The walk opens the same frames as
resolution does, and every use of a name is compared with the table of distances: the two have to
agree on the frame that binds it. The first violation ends the walk.

Classes are kept in a table, the latest first. A class knows its superclass by number, and looking a
method up goes on in the part of the table before the class, so a superclass is always older.

* `TypeFault`: violations;
* `ClassTable.findMethod?`, `ClassTable.inherits`: the class hierarchy;
* `Typing.lookUp`: the type of a use of a name;
* `Typing.typeOf`: the type of an expression;
* `Typing.stmt`: the walk over statements;
* `typecheck`: whether a program fits a table of distances.
-/

/-- Violations of the typing rules. -/
inductive TypeFault where
  | initializer (name : String) (declared actual : StaticType)
  | condition (actual : StaticType)
  | returnOutside
  | returned (actual declared : StaticType)
  | superclass (actual : StaticType)
  | noClass (name : String) (actual : StaticType)
  | notBoolean
  | negateNotNumber
  | logicalLeft
  | logicalRight
  | ternaryCondition
  | ternaryBranches (yes no : StaticType)
  | assignFixed (name : String) (actual : StaticType)
  | assigned (declared actual : StaticType)
  | property (className name : String)
  | assignMethod (name : String)
  | superNoClass
  | superMethod (className name : String)
  | operandTypes (left right : StaticType)
  | leftNotNumber (operator : String)
  | rightNotNumber (operator : String)
  | arguments (signature : Signature)
  | constructorArguments (className : String)
  | notCallable (actual : StaticType)
  | undefined (name : String)
  | scopeMismatch (name : String) (recorded : Option Nat) (found : Place)
  | notInstance (actual : StaticType)

/-- A recorded distance in messages. -/
def recordedText : Option Nat → String
  | some distance => "Some(" ++ toString distance ++ ")"
  | none => "None"

/-- A place in messages. -/
def Place.render : Place → String
  | frame distance => "Local(" ++ toString distance ++ ")"
  | global => "Global"

/-- The wording of a violation. -/
def TypeFault.message : TypeFault → String
  | initializer name declared actual =>
    "Variable '" ++ name ++ "' of type '" ++ declared.render ++ "' cannot be initialized with '"
      ++ actual.render ++ "'"
  | condition actual => "Condition must be a Boolean, got '" ++ actual.render ++ "'"
  | returnOutside => "Can't return from top-level code"
  | returned actual declared =>
    "Return type '" ++ actual.render ++ "' does not match declared return type '"
      ++ declared.render ++ "'"
  | superclass actual => "Superclass must be a class, got '" ++ actual.render ++ "'"
  | noClass name actual =>
    "Type '" ++ name ++ "' does not name a class (found '" ++ actual.render ++ "')"
  | notBoolean => "Unary '!' requires a Boolean"
  | negateNotNumber => "Unary '-' requires a Number"
  | logicalLeft => "Left expression is not a Boolean"
  | logicalRight => "Right expression is not a Boolean"
  | ternaryCondition => "Ternary condition is not a Boolean"
  | ternaryBranches yes no =>
    "Ternary branches have different types: '" ++ yes.render ++ "' and '" ++ no.render ++ "'"
  | assignFixed name actual =>
    "Cannot assign to '" ++ name ++ "' of type '" ++ actual.render ++ "'"
  | assigned declared actual =>
    "Variable of type '" ++ declared.render ++ "' does not match assignment type '"
      ++ actual.render ++ "'"
  | property className name =>
    "Class '" ++ className ++ "' does not have property '" ++ name ++ "'"
  | assignMethod name => "Cannot assign to method '" ++ name ++ "'"
  | superNoClass => "Superclass is not a class"
  | superMethod className name =>
    "Superclass '" ++ className ++ "' does not have method '" ++ name ++ "'"
  | operandTypes left right =>
    "Left, type '" ++ left.render ++ "', does not match that of right, type '" ++ right.render
      ++ "'"
  | leftNotNumber operator => "Left of operator '" ++ operator ++ "' is not a Number"
  | rightNotNumber operator => "Right of operator '" ++ operator ++ "' is not a Number"
  | arguments signature =>
    "Arguments do not match the parameters of '" ++ signature.name ++ "': expected "
      ++ signature.render
  | constructorArguments className =>
    "Arguments do not match the constructor of class '" ++ className ++ "'"
  | notCallable actual => "Expression of type '" ++ actual.render ++ "' is not callable"
  | undefined name => "Undefined variable '" ++ name ++ "'"
  | scopeMismatch name recorded found =>
    "Scope mismatch for '" ++ name ++ "': resolved at " ++ recordedText recorded ++ ", found at "
      ++ found.render
  | notInstance actual =>
    "Object of type '" ++ actual.render ++ "' is not an instance of a class"

/-! ### Classes -/

/-- A class as far as types go. -/
structure ClassInfo where
  name : String
  superclass : Option ClassId
  methods : Bindings Signature

/-- The classes declared so far, the latest first. The number of a class is the count of classes
    before it. -/
abbrev ClassTable := List ClassInfo

namespace ClassTable

/-- The method `name` of the class with the given number, or of its nearest ancestor that has
    one. -/
def findMethod? (name : String) : ClassTable → Nat → Option Signature
  | [], _ => none
  | info :: older, index =>
    if index = older.length then
      match info.methods.find? name with
      | some method => some method
      | none =>
        match info.superclass with
        -- A superclass is declared before its class, so it is among the older ones.
        | some superclass => findMethod? name older superclass.index
        | none => none
    else findMethod? name older index

/-- Whether a class is the other one or descends from it; classes are given by number. -/
def inherits (ancestor : Nat) : ClassTable → Nat → Bool
  | [], index => index == ancestor
  | info :: older, index =>
    index == ancestor ||
      if index = older.length then
        match info.superclass with
        | some superclass => inherits ancestor older superclass.index
        | none => false
      else inherits ancestor older index

/-- The table with the methods of its latest class set. -/
def setMethods (methods : Bindings Signature) : ClassTable → ClassTable
  | [] => []
  | info :: older => { info with methods } :: older

end ClassTable

/-! ### The walk -/

/-- What surrounds the statement at hand. -/
structure TypeContext where
  /-- The table that every use of a name is compared with. -/
  table : Distances
  /-- What the function at hand has to return. -/
  returns : Option StaticType
  /-- The class whose methods are at hand. -/
  current : Option ClassId

/-- The frames and the classes at a point of the walk. -/
structure Typing where
  scopes : Scopes StaticType
  classes : ClassTable

namespace Typing

/-- The result of a step of the walk. -/
abbrev Result (α : Type) := Except (Located TypeFault) α

/-- Before the first statement the built-in functions are the globals, and there is no class. -/
def initial : Typing :=
  ⟨Builtin.all.foldl (fun s b => s.declareGlobal b.name (.function b.signature)) .empty, []⟩

/-- Binds a name in the innermost frame. -/
def declare (t : Typing) (name : String) (type : StaticType) : Typing :=
  { t with scopes := t.scopes.declare name type }

/-- The type of a use of a name. The place where the walk finds the name has to be the one that the
    table of distances records. -/
def lookUp (context : TypeContext) (t : Typing) (ref : Reference) : Result StaticType :=
  let name := ref.name.text
  let recorded := context.table.get? ref.id
  let undefined := ⟨.undefined name, ref.name.pos⟩
  match t.scopes.find? name with
  | none => .error undefined
  | some found =>
    let agrees :=
      match recorded, found with
      | some distance, .frame d => distance == d
      -- Globals are the uses without a recorded distance.
      | none, .global => true
      | _, _ => false
    if agrees then
      match t.scopes.get? found name with
      | some type => .ok type
      | none => .error undefined
    else .error ⟨.scopeMismatch name recorded found, ref.name.pos⟩

/-- The type that an annotation stands for. The name of a class stands for its instances. -/
def annotated (context : TypeContext) (t : Typing) : TypeName → Result StaticType
  | .boolean => .ok .boolean
  | .number => .ok .number
  | .string => .ok .string
  | .void => .ok .void
  | .named ref => do
    match ← lookUp context t ref with
    | .classType id => return .instanceType id
    | other => .error ⟨.noClass ref.name.text other, ref.name.pos⟩

/-- The type of a function, from its annotations. Without one it returns nothing. -/
def signature (context : TypeContext) (t : Typing) (decl : FunctionDecl) : Result Signature := do
  let params ← decl.params.mapM fun p => annotated context t p.type
  let returns ←
    match decl.returns with
    | some type => annotated context t type
    | none => pure .void
  return ⟨decl.name.text, params, returns⟩

/-! ### Expressions -/

/-- The type of a unary operation; an operator other than `!` is taken for a minus. -/
def unary (operator : Token) (operand : StaticType) : Result StaticType :=
  match operator.kind with
  | .symbol .bang =>
    if operand.isBoolean then .ok .boolean else .error ⟨.notBoolean, operator.pos⟩
  | _ => if operand.isNumber then .ok .number else .error ⟨.negateNotNumber, operator.pos⟩

/-- The type of a binary operation. Both sides of an equality have to be compatible, and both sides
    of any other operator have to be numbers. -/
def binary (operator : Token) (left right : StaticType) : Result StaticType :=
  if operator.kind = .symbol .equalEqual ∨ operator.kind = .symbol .bangEqual then
    if left.compatible right then .ok .boolean
    else .error ⟨.operandTypes left right, operator.pos⟩
  else if !left.isNumber then .error ⟨.leftNotNumber operator.lexeme, operator.pos⟩
  else if !right.isNumber then .error ⟨.rightNotNumber operator.lexeme, operator.pos⟩
  else
    match operator.kind with
    | .symbol .greater => .ok .boolean
    | .symbol .greaterEqual => .ok .boolean
    | .symbol .less => .ok .boolean
    | .symbol .lessEqual => .ok .boolean
    | _ => .ok .number

/-- The type of a call. A class takes the arguments of its nearest constructor, or none. What is
    generic may be a function, and then the call may give anything. -/
def call (t : Typing) (paren : Position) (callee : StaticType) (arguments : List StaticType) :
    Result StaticType :=
  match callee with
  | .function s =>
    if s.accepts arguments then .ok s.returns else .error ⟨.arguments s, paren⟩
  | .classType id =>
    let accepted :=
      match ClassTable.findMethod? constructorName t.classes id.index with
      | some s => s.accepts arguments
      | none => arguments.isEmpty
    if accepted then .ok (.instanceType id) else .error ⟨.constructorArguments id.name, paren⟩
  | .generic tags =>
    if tags.contains .function then .ok .any else .error ⟨.notCallable callee, paren⟩
  | _ => .error ⟨.notCallable callee, paren⟩

/-- The class of an object, which has to be an instance. -/
def instanceClass (object : StaticType) (name : Name) : Result ClassId :=
  match object with
  | .instanceType id => .ok id
  | other => .error ⟨.notInstance other, name.pos⟩

/-- The type of a property. Methods are known everywhere; inside the methods of the class or of its
    descendants any other name is a field, which may hold anything. -/
def property (context : TypeContext) (t : Typing) (id : ClassId) (name : Name) :
    Result StaticType :=
  match ClassTable.findMethod? name.text t.classes id.index with
  | some method => .ok (.function method)
  | none =>
    let inside :=
      match context.current with
      | some current => ClassTable.inherits id.index t.classes current.index
      | none => false
    if inside then .ok .any else .error ⟨.property id.name name.text, name.pos⟩

mutual

/-- The type of an expression. -/
def typeOf (context : TypeContext) (t : Typing) : Expr → Result StaticType
  | .literal (.number _) => .ok .number
  | .literal (.string _) => .ok .string
  | .literal (.boolean _) => .ok .boolean
  | .literal .null => .ok .void
  | .grouping inner => typeOf context t inner
  | .unary operator operand => do
    let operand ← typeOf context t operand
    unary operator operand
  | .binary left operator right => do
    let left ← typeOf context t left
    let right ← typeOf context t right
    binary operator left right
  | .logical left operator right => do
    let left ← typeOf context t left
    let right ← typeOf context t right
    -- Both sides have a type before either is refused.
    if !left.isBoolean then .error ⟨.logicalLeft, operator.pos⟩
    else if !right.isBoolean then .error ⟨.logicalRight, operator.pos⟩
    else return .boolean
  | .ternary condition question yes no => do
    let condition ← typeOf context t condition
    if !condition.isBoolean then .error ⟨.ternaryCondition, question⟩
    else
      let yes ← typeOf context t yes
      let no ← typeOf context t no
      -- Of two compatible types that of the first branch stands, be it the wider one or not.
      if yes.compatible no then return yes else .error ⟨.ternaryBranches yes no, question⟩
  | .var ref => lookUp context t ref
  | .assign target value => do
    let value ← typeOf context t value
    let type ← lookUp context t target
    match type with
    | .function _ => .error ⟨.assignFixed target.name.text type, target.name.pos⟩
    | .classType _ => .error ⟨.assignFixed target.name.text type, target.name.pos⟩
    | _ =>
      -- The type is that of the value and not that of the variable.
      if type.compatible value then return value
      else .error ⟨.assigned type value, target.name.pos⟩
  | .call callee paren arguments => do
    let callee ← typeOf context t callee
    let arguments ← typesOf context t arguments
    call t paren callee arguments
  | .get object name => do
    let object ← typeOf context t object
    let id ← instanceClass object name
    property context t id name
  | .set object name value => do
    let object ← typeOf context t object
    let id ← instanceClass object name
    match ClassTable.findMethod? name.text t.classes id.index with
    | some _ => .error ⟨.assignMethod name.text, name.pos⟩
    -- Fields are not declared: any name that is no method may be set, from anywhere.
    | none => typeOf context t value
  | .this ref => lookUp context t ref
  | .super keyword method => do
    match ← lookUp context t keyword with
    | .classType id =>
      match ClassTable.findMethod? method.text t.classes id.index with
      | some s => return .function s
      | none => .error ⟨.superMethod id.name method.text, method.pos⟩
    | _ => .error ⟨.superNoClass, keyword.name.pos⟩

/-- The types of expressions in order. -/
def typesOf (context : TypeContext) (t : Typing) : List Expr → Result (List StaticType)
  | [] => .ok []
  | e :: es => do
    let type ← typeOf context t e
    let types ← typesOf context t es
    return type :: types

end

/-! ### Statements -/

/-- Checks a condition; `keyword` is where a violation is reported. -/
def condition (context : TypeContext) (t : Typing) (keyword : Position) (e : Expr) :
    Result Unit := do
  let type ← typeOf context t e
  if type.isBoolean then return () else .error ⟨.condition type, keyword⟩

/-- The type of a declared variable: the annotation, which the initializer has to fit, or else the
    type of the initializer. -/
def declaredType (context : TypeContext) (t : Typing) (name : Name) (type : Option TypeName)
    (initializer : Option Expr) : Result StaticType := do
  let declared ← type.mapM (annotated context t)
  let inferred ← initializer.mapM (typeOf context t)
  match declared, inferred with
  | some declared, some inferred =>
    if declared.compatible inferred then return declared
    else .error ⟨.initializer name.text declared inferred, name.pos⟩
  | some type, none => return type
  | none, some type => return type
  | none, none => return .void

/-- The class that a superclass names. -/
def superclassId (context : TypeContext) (t : Typing) (ref : Reference) : Result ClassId := do
  match ← lookUp context t ref with
  | .classType id => return id
  | other => .error ⟨.superclass other, ref.name.pos⟩

/-- The scopes for the methods of a class: a frame for the receiver, inside one for the superclass
    if there is one. -/
def classScopes (scopes : Scopes StaticType) (id : ClassId) (superclass : Option ClassId) :
    Scopes StaticType :=
  let outer :=
    match superclass with
    | some superclass => scopes.openFrame.declare superName (.classType superclass)
    | none => scopes
  outer.openFrame.declare thisName (.instanceType id)

/-- The types of methods in order. -/
def signatures (context : TypeContext) (t : Typing) (decls : List FunctionDecl) :
    Result (List Signature) :=
  decls.mapM fun decl => signature context t decl

mutual

/-- The walk over a statement. The frames that it opens are closed again after it. -/
def stmt (context : TypeContext) : Stmt → Typing → Result Typing
  | .expression e, t => do
    let _ ← typeOf context t e
    return t
  | .val name type initializer, t => do
    let type ← declaredType context t name type initializer
    return t.declare name.text type
  | .block body, t => do
    let inner ← stmts context body { t with scopes := t.scopes.openFrame }
    return { inner with scopes := t.scopes }
  | .ifThen keyword e yes, t => do
    condition context t keyword e
    stmt context yes t
  | .ifElse keyword e yes no, t => do
    condition context t keyword e
    let t ← stmt context yes t
    stmt context no t
  | .whileLoop keyword e body, t => do
    condition context t keyword e
    stmt context body t
  | .funDecl decl, t => do
    let s ← signature context t decl
    -- The body sees the function itself.
    function context decl s (t.declare decl.name.text (.function s))
  | .ret keyword value, t => do
    let actual ←
      match value with
      | some e => typeOf context t e
      | none => pure .void
    match context.returns with
    | none => .error ⟨.returnOutside, keyword⟩
    | some expected =>
      if expected.compatible actual then return t else .error ⟨.returned actual expected, keyword⟩
  | .classDecl name superclass decls, t => do
    let superclass ← superclass.mapM (superclassId context t)
    let id : ClassId := ⟨t.classes.length, name.text⟩
    -- While the types of the methods are read, the class has none yet; their bodies are walked with
    -- all of them known.
    let t : Typing := ⟨t.scopes, ⟨name.text, superclass, .empty⟩ :: t.classes⟩
    let t := t.declare name.text (.classType id)
    let ss ← signatures context t decls
    let known := Bindings.ofList (ss.map fun s => (s.name, s))
    let inner : Typing :=
      ⟨classScopes t.scopes id superclass, ClassTable.setMethods known t.classes⟩
    let inner ← methods { context with current := some id } decls ss inner
    return { inner with scopes := t.scopes }

/-- The walk over statements in order. -/
def stmts (context : TypeContext) : List Stmt → Typing → Result Typing
  | [], t => .ok t
  | s :: ss, t => do
    let t ← stmt context s t
    stmts context ss t

/-- The walk over the body of a function, in a frame with its parameters. -/
def function (context : TypeContext) : FunctionDecl → Signature → Typing → Result Typing
  | ⟨_, params, _, body⟩, s, t => do
    let scopes := (params.zip s.params).foldl
      (fun scopes (p, type) => scopes.declare p.name.text type) t.scopes.openFrame
    let inner ← stmts { context with returns := some s.returns } body { t with scopes }
    return { inner with scopes := t.scopes }

/-- The walk over the methods of a class and their types. -/
def methods (context : TypeContext) :
    List FunctionDecl → List Signature → Typing → Result Typing
  | decl :: decls, s :: ss, t => do
    let t ← function context decl s t
    methods context decls ss t
  | _, _, t => .ok t

end

end Typing

/-- Checks a program against a table of distances. -/
def typecheck (table : Distances) (program : Program) : Except (Located TypeFault) Unit := do
  let _ ← Typing.stmts ⟨table, none, none⟩ program .initial
  return ()

end ClassScript
