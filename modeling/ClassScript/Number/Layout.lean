import ClassScript.Number.Shortest

namespace ClassScript.Number

/-!
# Numbers as text

* `positional`: the shortest digits with the point where it belongs, never an exponent;
* `compact`: an integer below `10 ^ 15` in size as that integer, anything else positionally;
* `exactWhole?`: every digit of an integer, with its sign.
-/

/-- The digits of `n`, the first one not zero unless it is the only one. -/
def digitsOf (n : Nat) : List Char := Nat.toDigits 10 n

/-- A decimal written without an exponent; the fraction is left out if it is empty. -/
def Decimal.positional (d : Decimal) : List Char :=
  let ds := digitsOf d.digits
  let places := (-d.exponent).toNat
  if 0 ≤ d.exponent then
    if d.digits = 0 then ds else ds ++ List.replicate d.exponent.toNat '0'
  else if places < ds.length then
    ds.take (ds.length - places) ++ '.' :: ds.drop (ds.length - places)
  else
    '0' :: '.' :: (List.replicate (places - ds.length) '0' ++ ds)

/-- `text` behind a minus sign if `negative` is set. -/
def withSign (negative : Bool) (text : String) : String :=
  if negative then "-" ++ text else text

/-- The shortest digits of a number, positionally. A tie goes up, and zero keeps its sign. -/
def positional (x : Float) : String :=
  match Parts.of x with
  | .nan => "NaN"
  | .infinite negative => withSign negative "inf"
  | .finite negative a => withSign negative (String.ofList (a.shortest .up).positional)

/-- The text of an integer. -/
def ofInt (n : Int) : String :=
  withSign (n < 0) (String.ofList (digitsOf n.natAbs))

/-- The integer that a number is, if it is one and below `10 ^ 15` in size. -/
def small? (x : Float) : Option Int :=
  (whole? x).filter fun n => n.natAbs < Nat.pow 10 15

/-- An integer below `10 ^ 15` in size as that integer, so that both zeros read alike; any other
    number positionally. -/
def compact (x : Float) : String :=
  match small? x with
  | some n => ofInt n
  | none => positional x

/-- Every digit of an integer, with the sign of the number; nothing if it is no integer. -/
def exactWhole? (x : Float) : Option String :=
  match Parts.of x with
  | .finite negative a =>
    if a.isWhole then some (withSign negative (String.ofList (digitsOf a.floor))) else none
  | _ => none

end ClassScript.Number
