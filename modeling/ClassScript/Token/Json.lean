import ClassScript.Token

namespace ClassScript

/-!
# Tokens as JSON text

A token list is written as an indented JSON array, two blanks a level, with a fixed order of the
fields of a token.

* `Json.number`: how a number is written;
* `Json.quoted`: how a text is written;
* `Json.tokens`: the array.
-/

namespace Json

/-- The exponent of the leading digit of a decimal. -/
def leading (d : Number.Decimal) : Int :=
  d.exponent + ((Number.digitsOf d.digits).length - 1 : Nat)

/-- A decimal with one digit before the point and a signed power of ten. -/
def exponential (d : Number.Decimal) : List Char :=
  let e := leading d
  let power := (if e < 0 then 'e' :: '-' :: [] else 'e' :: '+' :: []) ++ Number.digitsOf e.natAbs
  match Number.digitsOf d.digits with
  | first :: second :: more => first :: '.' :: second :: (more ++ power)
  | digits => digits ++ power

/-- A decimal without an exponent and with at least one digit after the point. -/
def pointed (d : Number.Decimal) : List Char :=
  if 0 ≤ d.exponent then d.positional ++ ['.', '0'] else d.positional

/-- The shortest digits of a number, a tie going to the even digit: without an exponent from
    `10 ^ -5` up to below `10 ^ 16`, else with one. What is not finite has no number in JSON. -/
def number (x : Float) : String :=
  match Number.Parts.of x with
  | .finite negative a =>
    let d := a.shortest .toEven
    let text := if d.digits = 0 ∨ -5 ≤ leading d ∧ leading d < 16 then pointed d else exponential d
    Number.withSign negative (String.ofList text)
  | _ => "null"

/-- A hexadecimal digit. -/
def hexDigit (n : Nat) : Char := Nat.digitChar n

/-- A character inside quotes: quote, backslash and control characters are escaped. -/
def escape (c : Char) : List Char :=
  if c = '"' then ['\\', '"']
  else if c = '\\' then ['\\', '\\']
  else if c = '\x08' then ['\\', 'b']
  else if c = '\x0c' then ['\\', 'f']
  else if c = '\n' then ['\\', 'n']
  else if c = '\r' then ['\\', 'r']
  else if c = '\t' then ['\\', 't']
  else if c.toNat < 0x20 then
    ['\\', 'u', '0', '0', hexDigit (c.toNat / 16), hexDigit (c.toNat % 16)]
  else [c]

/-- A text in quotes. -/
def quoted (text : String) : String :=
  String.ofList ('"' :: (text.toList.flatMap escape ++ ['"']))

/-- A kind: its name, or an object of one field whose value is what the literal denotes. The object
    closes at the indentation of the field it is the value of. -/
def kind : Kind → String
  | .string text => "\x7b\n      \"STRING\": " ++ quoted text ++ "\n    \x7d"
  | .number value => "\x7b\n      \"NUMBER\": " ++ number value ++ "\n    \x7d"
  | k => quoted k.name

/-- A token, as an element of the array. -/
def token (t : Token) : String :=
  "  \x7b\n    \"token_type\": " ++ kind t.kind ++ ",\n    \"lexeme\": " ++ quoted t.lexeme
    ++ ",\n    \"line\": " ++ toString t.pos.line ++ ",\n    \"col\": " ++ toString t.pos.column
    ++ "\n  \x7d"

/-- A token list; the empty list is written without a line break. -/
def tokens : List Token → String
  | [] => "[]"
  | ts => "[\n" ++ String.intercalate ",\n" (ts.map token) ++ "\n]"

end Json

end ClassScript
