namespace ClassScript

/-!
# Static types

The types that expressions are given before a program runs. Classes are known by their number in the
table of classes; two classes with the same members are different types. A generic type stands for
any type whose tag it lists.

* `Tag`: the kinds of values, and of types;
* `StaticType`, `Signature`: types, and the types of functions;
* `StaticType.compatible`, `Signature.accepts`: which type may stand where another is asked for.
-/

/-- The kinds of values. -/
inductive Tag where
  | boolean
  | number
  | string
  | void
  | function
  | classTag
  | instanceTag
deriving DecidableEq

namespace Tag

/-- Every tag. -/
def all : List Tag := [boolean, number, string, void, function, classTag, instanceTag]

/-- The word for a tag. -/
def name : Tag → String
  | boolean => "Boolean"
  | number => "Number"
  | string => "String"
  | void => "Void"
  | function => "Function"
  | classTag => "Class"
  | instanceTag => "Instance"

/-- The tag with the given word. -/
def ofName? (name : String) : Option Tag :=
  all.find? fun tag => tag.name == name

end Tag

/-- A class, by its number in the table of classes. The name is for messages only. -/
structure ClassId where
  index : Nat
  name : String
deriving DecidableEq

mutual

/-- The type of an expression or of a name. -/
inductive StaticType where
  | boolean
  | number
  | string
  | void
  | function (signature : Signature)
  /-- The class itself, which its name is bound to. -/
  | classType (id : ClassId)
  /-- The instances of a class. -/
  | instanceType (id : ClassId)
  /-- Any type whose tag is listed. -/
  | generic (tags : List Tag)

/-- The type of a function. -/
structure Signature where
  name : String
  params : List StaticType
  returns : StaticType

end

namespace StaticType

/-- The type that admits every tag. -/
def any : StaticType := .generic Tag.all

/-- The tag of a type; a generic type has none. -/
def tag? : StaticType → Option Tag
  | boolean => some .boolean
  | number => some .number
  | string => some .string
  | void => some .void
  | function _ => some .function
  | classType _ => some .classTag
  | instanceType _ => some .instanceTag
  | generic _ => none

/-- Whether the tag of a type is one of `tags`. -/
def hasTagIn (tags : List Tag) (t : StaticType) : Bool :=
  t.tag?.any fun tag => tags.contains tag

end StaticType

/-! ### Compatibility -/

mutual

/-- Whether two types may stand for each other. A generic type goes with every type whose tag it
    lists, and with a generic type that lists one of its tags. Functions are compared by what they
    return and by their parameters, classes by their number, and all else by tag. -/
def StaticType.compatible : StaticType → StaticType → Bool
  | .generic tags, .generic others => tags.any fun tag => others.contains tag
  | .generic tags, t => t.hasTagIn tags
  | t, .generic tags => t.hasTagIn tags
  | .function a, .function b => a.compatible b
  | .classType a, .classType b => a.index == b.index
  | .instanceType a, .instanceType b => a.index == b.index
  | a, b => a.tag? == b.tag?

/-- Whether what two functions return and what they take is compatible. -/
def Signature.compatible : Signature → Signature → Bool
  | ⟨_, params, returns⟩, b =>
    returns.compatible b.returns && StaticType.compatibleAll params b.params

/-- Whether two lists have the same length and are compatible place by place. -/
def StaticType.compatibleAll : List StaticType → List StaticType → Bool
  | [], [] => true
  | a :: as, b :: bs => a.compatible b && StaticType.compatibleAll as bs
  | _, _ => false

end

/-- Whether a function takes arguments of the given types. -/
def Signature.accepts (s : Signature) (arguments : List StaticType) : Bool :=
  StaticType.compatibleAll s.params arguments

namespace StaticType

/-- Whether a number may stand for a value of this type. -/
def isNumber (t : StaticType) : Bool := t.compatible .number

/-- Whether a Boolean may stand for a value of this type. -/
def isBoolean (t : StaticType) : Bool := t.compatible .boolean

end StaticType

/-! ### Equality -/

mutual

/-- Whether two types are the same. The name of a function counts, and classes are the same if their
    numbers are. -/
def StaticType.same : StaticType → StaticType → Bool
  | .generic tags, .generic others => tags == others
  | .function a, .function b => a.same b
  | .classType a, .classType b => a.index == b.index
  | .instanceType a, .instanceType b => a.index == b.index
  | .boolean, .boolean => true
  | .number, .number => true
  | .string, .string => true
  | .void, .void => true
  | _, _ => false

/-- Whether two functions have the same name and type. -/
def Signature.same : Signature → Signature → Bool
  | ⟨name, params, returns⟩, b =>
    name == b.name && returns.same b.returns && StaticType.sameAll params b.params

/-- Whether two lists hold the same types. -/
def StaticType.sameAll : List StaticType → List StaticType → Bool
  | [], [] => true
  | a :: as, b :: bs => a.same b && StaticType.sameAll as bs
  | _, _ => false

end

/-! ### Text -/

mutual

/-- The text of a type in messages. A generic type with as many tags as there are is any type. -/
def StaticType.render : StaticType → String
  | .boolean => "Boolean"
  | .number => "Number"
  | .string => "String"
  | .void => "Void"
  | .function s => s.render
  | .classType id => "class " ++ id.name
  | .instanceType id => id.name
  | .generic tags =>
    if tags.length = Tag.all.length then "Any"
    else String.intercalate " | " (tags.map Tag.name)

/-- The text of the type of a function; its name does not show. -/
def Signature.render : Signature → String
  | ⟨_, params, returns⟩ =>
    "(" ++ String.intercalate ", " (StaticType.renderEach params) ++ ") -> " ++ returns.render

/-- The texts of types. -/
def StaticType.renderEach : List StaticType → List String
  | [] => []
  | t :: ts => t.render :: StaticType.renderEach ts

end

end ClassScript
