import ClassScript.Token

namespace ClassScript

/-!
# Programs

The tree of a program. Names carry the position at which they are written, and a use of a name also
carries an identity, so that two uses of one name can be told apart. Where only the place of a
keyword or a bracket matters later, the tree keeps its position.

* `Expr`: expressions;
* `Stmt`, `FunctionDecl`: statements and functions, which contain each other;
* `Program`: a list of statements.
-/

/-- A name as it is written. -/
structure Name where
  text : String
  pos : Position
deriving DecidableEq

/-- A use of a name. No two uses in one program have the same identity. -/
structure Reference where
  id : Nat
  name : Name
deriving DecidableEq

/-- A constant. -/
inductive Literal where
  | number (value : Float)
  | string (text : String)
  | boolean (value : Bool)
  | null
deriving DecidableEq

/-- A type as it is written. -/
inductive TypeName where
  | boolean
  | number
  | string
  | void
  /-- The name of a class, for its instances. -/
  | named (ref : Reference)
deriving DecidableEq

/-- A parameter of a function. -/
structure Param where
  name : Name
  type : TypeName
deriving DecidableEq

/-- Expressions. -/
inductive Expr where
  | literal (value : Literal)
  | grouping (inner : Expr)
  | unary (operator : Token) (operand : Expr)
  | binary (left : Expr) (operator : Token) (right : Expr)
  /-- `and` and `or`, which may leave their right side alone. -/
  | logical (left : Expr) (operator : Token) (right : Expr)
  /-- `condition ? yes : no`, with the position of the question mark. -/
  | ternary (condition : Expr) (question : Position) (yes no : Expr)
  | var (ref : Reference)
  | assign (target : Reference) (value : Expr)
  /-- A call, with the position of the closing parenthesis. -/
  | call (callee : Expr) (paren : Position) (arguments : List Expr)
  | get (object : Expr) (name : Name)
  | set (object : Expr) (name : Name) (value : Expr)
  | this (ref : Reference)
  | super (keyword : Reference) (method : Name)

mutual

/-- Statements. -/
inductive Stmt where
  | expression (e : Expr)
  | val (name : Name) (type : Option TypeName) (initializer : Option Expr)
  | block (body : List Stmt)
  | ifThen (keyword : Position) (condition : Expr) (yes : Stmt)
  | ifElse (keyword : Position) (condition : Expr) (yes no : Stmt)
  | whileLoop (keyword : Position) (condition : Expr) (body : Stmt)
  | funDecl (decl : FunctionDecl)
  | ret (keyword : Position) (value : Option Expr)
  | classDecl (name : Name) (superclass : Option Reference) (methods : List FunctionDecl)

/-- A function or a method. Without an annotation it returns nothing. -/
structure FunctionDecl where
  name : Name
  params : List Param
  returns : Option TypeName
  body : List Stmt

end

/-- A program. -/
abbrev Program := List Stmt

/-- The name under which the receiver of a method is bound. -/
def thisName : String := "this"

/-- The name under which the superclass is bound for the methods of a class. -/
def superName : String := "super"

/-- The name of the method that sets up a new instance. -/
def constructorName : String := "constructor"

end ClassScript
