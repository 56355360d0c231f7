import ClassScript.Number.Binary

namespace ClassScript.Number

/-!
# Remainder and power

Addition, subtraction, multiplication, division and comparison are those of binary64. The two
operations here have rules of their own.

* `remainder`: what is left of the dividend after whole multiples of the divisor, without rounding;
* `truncated`: a number cut toward zero;
* `power`: both sides are cut to integers of 32 bits before the power is taken.
-/

/-- The number `m * 2 ^ q`, for `m` below `2 ^ 53` and a value that binary64 holds exactly. The
    search moves bits from the exponent into `m` until it has its leading place. -/
def bitsOf : Nat → Nat → Int → UInt64
  | fuel + 1, m, q =>
    if m < Nat.pow 2 52 ∧ -1074 < q then bitsOf fuel (2 * m) (q - 1)
    else if m < Nat.pow 2 52 then m.toUInt64
    else ((q + 1075).toNat * Nat.pow 2 52 + (m - Nat.pow 2 52)).toUInt64
  | 0, m, _ => m.toUInt64

/-- The number `m * 2 ^ q` with its sign set. -/
def ofParts (negative : Bool) (m : Nat) (q : Int) : Float :=
  let bits := bitsOf 64 m q
  Float.ofBits (if negative then bits ||| 0x8000000000000000 else bits)

/-- What is left of `x` after whole multiples of `y` toward zero. It has the sign of `x`, and it is
    exact. There is no remainder of an infinite dividend or of a zero divisor. -/
def remainder (x y : Float) : Float :=
  match Parts.of x, Parts.of y with
  | .finite negative a, .finite _ b =>
    if b.m = 0 then 0.0 / 0.0
    else if a.m = 0 then x
    else
      let q := min a.q b.q
      let r := (a.m * Nat.pow 2 (a.q - q).toNat) % (b.m * Nat.pow 2 (b.q - q).toNat)
      ofParts negative r q
  | .finite _ _, .infinite _ => x
  | _, _ => 0.0 / 0.0

/-- A number cut toward zero, as a number; zero keeps the sign, and what is not finite stays. -/
def truncated (x : Float) : Float :=
  match Parts.of x with
  | .finite negative a => if a.isWhole then x else ofParts negative a.floor 0
  | _ => x

/-- A number cut toward zero to an integer of 32 bits: out of range it is the nearest bound, and
    not-a-number gives zero. -/
def toInt32 (x : Float) : Int :=
  match Parts.of x with
  | .nan => 0
  | .infinite negative => if negative then -Int.pow 2 31 else Int.pow 2 31 - 1
  | .finite negative a => max (-Int.pow 2 31) (min (Int.pow 2 31 - 1) (signed negative a.floor))

/-- The power of the integer parts of both sides. -/
def power (x y : Float) : Float :=
  Float.pow (Float.ofInt (toInt32 x)) (Float.ofInt (toInt32 y))

end ClassScript.Number
