namespace ClassScript.Number

/-!
# Numbers as exact binary values

A number of the language is a binary64 value. A finite one is plus or minus `m * 2 ^ q` with natural
`m`, and what is exact about numbers (their digits, their integer part, their remainder) is computed
on `m` and `q` in exact arithmetic.

* `Magnitude`: a finite non-negative value `m * 2 ^ q`;
* `Parts.of`: sign and magnitude of a number, or which of the special values it is;
* `Parts.truncate`, `Parts.whole?`: the integer part, and the number itself if it is an integer.
-/

/-- The finite non-negative value `m * 2 ^ q`. -/
structure Magnitude where
  m : Nat
  q : Int
  /-- The gap to the next smaller number is half the gap to the next larger one. -/
  narrowBelow : Bool
deriving DecidableEq

/-- What a number is made of. -/
inductive Parts where
  | nan
  | infinite (negative : Bool)
  | finite (negative : Bool) (value : Magnitude)
deriving DecidableEq

namespace Parts

/-- The parts of the binary64 value with bit pattern `bits`: one bit of sign, eleven of exponent
    and fifty-two of fraction. -/
def ofBits (bits : UInt64) : Parts :=
  let negative := bits >>> 63 == 1
  let e := ((bits >>> 52) &&& 0x7FF).toNat
  let f := (bits &&& 0xFFFFFFFFFFFFF).toNat
  if e = 0x7FF then
    if f = 0 then .infinite negative else .nan
  else if e = 0 then .finite negative ⟨f, -1074, false⟩
  else .finite negative ⟨Nat.pow 2 52 + f, (e : Int) - 1075, f == 0 && 1 < e⟩

/-- The parts of a number. -/
def of (x : Float) : Parts := ofBits x.toBits

end Parts

namespace Magnitude

/-- The largest integer that is at most `m * 2 ^ q`. -/
def floor (x : Magnitude) : Nat :=
  if 0 ≤ x.q then x.m * Nat.pow 2 x.q.toNat else x.m / Nat.pow 2 (-x.q).toNat

/-- Whether `m * 2 ^ q` is an integer. -/
def isWhole (x : Magnitude) : Bool :=
  0 ≤ x.q || x.m % Nat.pow 2 (-x.q).toNat == 0

end Magnitude

/-- `n` with its sign set. -/
def signed (negative : Bool) (n : Nat) : Int :=
  if negative then -(n : Int) else n

namespace Parts

/-- A finite number cut toward zero to an integer. -/
def truncate? : Parts → Option Int
  | .finite negative x => some (signed negative x.floor)
  | _ => none

/-- The integer that the number is, if it is one. Both zeros are the integer zero. -/
def whole? : Parts → Option Int
  | .finite negative x => if x.isWhole then some (signed negative x.floor) else none
  | _ => none

end Parts

/-- The integer that a number is, if it is one. -/
def whole? (x : Float) : Option Int := (Parts.of x).whole?

/-- A number cut toward zero, if it is finite. -/
def truncate? (x : Float) : Option Int := (Parts.of x).truncate?

end ClassScript.Number
