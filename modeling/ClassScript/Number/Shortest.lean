import ClassScript.Number.Binary

namespace ClassScript.Number

/-!
# The fewest digits that read back

Every decimal in an interval around a number reads back as that number: the interval ends halfway to
the two neighbours, and its ends belong to it exactly when `m` is even. Among the decimals of that
interval with the fewest digits, the one nearest to the number is chosen.

* `Decimal`: digits and a power of ten;
* `Magnitude.readsBack`: membership in the interval, by exact comparison of naturals;
* `Magnitude.shortest`: the chosen decimal.
-/

/-- The value `digits * 10 ^ exponent`. -/
structure Decimal where
  digits : Nat
  exponent : Int
deriving DecidableEq

/-- Where an exact tie between two nearest decimals goes. -/
inductive Tie where
  | up
  | toEven
deriving DecidableEq

/-- Compares `a * 10 ^ i` with `n * 2 ^ j`, exactly. -/
def compareScaled (a : Nat) (i : Int) (n : Nat) (j : Int) : Ordering :=
  compare (a * Nat.pow 10 i.toNat * Nat.pow 2 (-j).toNat)
    (n * Nat.pow 2 j.toNat * Nat.pow 10 (-i).toNat)

namespace Magnitude

/-- Whether `d` lies in the interval of the decimals that read back as `x`. -/
def readsBack (x : Magnitude) (d : Decimal) : Bool :=
  let low := if x.narrowBelow then 4 * x.m - 1 else 4 * x.m - 2
  let ends := x.m % 2 == 0
  let atLow := compareScaled d.digits d.exponent low (x.q - 2)
  let atHigh := compareScaled d.digits d.exponent (4 * x.m + 2) (x.q - 2)
  (atLow == .gt || (ends && atLow == .eq)) && (atHigh == .lt || (ends && atHigh == .eq))

/-- The largest multiple of `10 ^ g` that is at most `x`, as a count of `10 ^ g`. -/
def gridFloor (x : Magnitude) (g : Int) : Nat :=
  (x.m * Nat.pow 2 x.q.toNat * Nat.pow 10 (-g).toNat) /
    (Nat.pow 2 (-x.q).toNat * Nat.pow 10 g.toNat)

/-- The decimal with unit `10 ^ g` that reads back as `x` and is nearest to it, if there is one. -/
def onGrid? (tie : Tie) (x : Magnitude) (g : Int) : Option Decimal :=
  let n := x.gridFloor g
  let below : Decimal := ⟨n, g⟩
  let above : Decimal := ⟨n + 1, g⟩
  match x.readsBack below, x.readsBack above with
  | true, true =>
    match compareScaled (2 * n + 1) g (2 * x.m) x.q, tie with
    | .gt, _ => some below
    | .lt, _ => some above
    | .eq, .up => some above
    | .eq, .toEven => some (if n % 2 = 0 then below else above)
  | true, false => some below
  | false, true => some above
  | false, false => none

/-- The least `k` with `x < 10 ^ k`, for a positive `x`: the binary length bounds it from below, and
    the bound is at most three too small. -/
def scale (x : Magnitude) : Int :=
  let k := ((x.m.log2 : Int) + x.q) * 30103 / 100000
  ([k, k + 1, k + 2].find? fun k => compareScaled 1 k x.m x.q == .gt).getD (k + 3)

end Magnitude

/-- A decimal without its trailing zeros; `fuel` bounds their number. -/
def Decimal.strip : Nat → Decimal → Decimal
  | fuel + 1, d =>
    if d.digits ≠ 0 ∧ d.digits % 10 = 0 then strip fuel ⟨d.digits / 10, d.exponent + 1⟩ else d
  | 0, d => d

/-- The decimal with the fewest digits that reads back as `x`, nearest to `x` among those. Seventeen
    digits always suffice; were none found, the exact value would stand. -/
def Magnitude.shortest (tie : Tie) (x : Magnitude) : Decimal :=
  if x.m = 0 then ⟨0, 0⟩
  else
    let k := x.scale
    let hit := (List.range 17).findSome? fun n => x.onGrid? tie (k - (n + 1 : Nat))
    match hit with
    | some d => d.strip 18
    | none => ⟨x.m * Nat.pow 2 x.q.toNat * Nat.pow 5 (-x.q).toNat, min x.q 0⟩

end ClassScript.Number
