import ClassScript.StaticType

namespace ClassScript

/-!
# Built-in functions

The functions that every program knows: their names and types. Resolution, typing and the machine
all take their globals from `Builtin.all`.
-/

/-- The built-in functions. -/
inductive Builtin where
  | abs
  | len
  | charAt
  | print
  | println
deriving DecidableEq

namespace Builtin

/-- Every built-in function. -/
def all : List Builtin := [abs, len, charAt, print, println]

/-- The name of a built-in function. -/
def name : Builtin → String
  | abs => "abs"
  | len => "len"
  | charAt => "charAt"
  | print => "print"
  | println => "println"

/-- The type of a built-in function. Only printing takes values of any kind. -/
def signature : Builtin → Signature
  | abs => ⟨"abs", [.number], .number⟩
  | len => ⟨"len", [.string], .number⟩
  | charAt => ⟨"charAt", [.string, .number], .string⟩
  | print => ⟨"print", [.any], .void⟩
  | println => ⟨"println", [.any], .void⟩

/-- How many arguments a built-in function takes. -/
def arity (b : Builtin) : Nat := b.signature.params.length

end Builtin

end ClassScript
