import ClassScript.Builtin
import ClassScript.Heap
import ClassScript.Number.Layout
import ClassScript.Program

namespace ClassScript

/-!
# Values

What expressions evaluate to. Functions, classes and instances have an identity of their own, by
which they are compared. A function and a class never change; the fields of an instance are kept by
the machine.

* `Closure`: a function with the frame it was declared in;
* `Class`: a class, with its superclass inside it;
* `Value`, `Value.equals`, `Value.render`: values, their equality and their text.
-/

/-- A function or method with the frame that its free names are looked up from. -/
structure Closure where
  decl : FunctionDecl
  frame : FrameId
  /-- The function sets up new instances: a call gives the instance, whatever the body returns. -/
  isInitializer : Bool

/-- How many arguments a function takes. -/
def Closure.arity (c : Closure) : Nat := c.decl.params.length

/-- A class. -/
structure Class where
  identity : Nat
  name : String
  superclass : Option Class
  methods : Bindings Closure

namespace Class

/-- The method `name` of the class, or of its nearest ancestor that has one. -/
def findMethod? (name : String) : Class → Option Closure
  | ⟨_, _, superclass, methods⟩ =>
    match methods.find? name, superclass with
    | some method, _ => some method
    | none, some superclass => superclass.findMethod? name
    | none, none => none

theorem findMethod?_eq (name : String) (c : Class) :
    c.findMethod? name = (c.methods.find? name).or (c.superclass.bind (findMethod? name)) := by
  obtain ⟨identity, ownName, superclass, methods⟩ := c
  show _ = (methods.find? name).or (superclass.bind (findMethod? name))
  conv => lhs; unfold findMethod?
  cases methods.find? name <;> cases superclass <;> rfl

/-- The method that sets up new instances. -/
def initializer? (c : Class) : Option Closure := c.findMethod? constructorName

/-- How many arguments making an instance takes. -/
def arity (c : Class) : Nat := (c.initializer?.map Closure.arity).getD 0

end Class

/-- An instance, by its number, and its class. -/
structure Instance where
  index : Nat
  cls : Class

/-- The values of the language. -/
inductive Value where
  | boolean (value : Bool)
  | number (value : Float)
  | string (text : String)
  | void
  | builtin (b : Builtin)
  /-- A function with its identity. -/
  | function (identity : Nat) (closure : Closure)
  | classValue (cls : Class)
  | instanceValue (object : Instance)

namespace Value

/-- The kind of a value. -/
def tag : Value → Tag
  | boolean _ => .boolean
  | number _ => .number
  | string _ => .string
  | void => .void
  | builtin _ => .function
  | function _ _ => .function
  | classValue _ => .classTag
  | instanceValue _ => .instanceTag

/-- Whether two values are equal. Values of different kinds never are; functions, classes and
    instances are compared by identity. -/
def equals : Value → Value → Bool
  | boolean a, boolean b => a == b
  | number a, number b => a == b
  | string a, string b => a == b
  | void, void => true
  | builtin a, builtin b => a == b
  | function a _, function b _ => a == b
  | classValue a, classValue b => a.identity == b.identity
  | instanceValue a, instanceValue b => a.index == b.index
  | _, _ => false

/-- The text of a value. -/
def render : Value → String
  | boolean true => "true"
  | boolean false => "false"
  | number value => Number.compact value
  | string text => text
  | void => "Void"
  | builtin b => "<built-in " ++ b.name ++ ">"
  | function _ closure => closure.decl.name.text
  | classValue cls => cls.name
  | instanceValue object => "<" ++ object.cls.name ++ " instance>"

/-- The value of a constant. -/
def ofLiteral : Literal → Value
  | .number value => .number value
  | .string text => .string text
  | .boolean value => .boolean value
  | .null => .void

end Value

end ClassScript
