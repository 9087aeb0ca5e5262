import Cdr.Real.FloatFormat

/-! The shortest decimal that reads back as a given binary number.  Every real in an interval around
a number rounds to it; the search tries the grids of one digit, two digits and so on, and takes the
first that has a point in the interval. -/

namespace Cdr.Real

/-- The decimal `digits * 10 ^ scale`. -/
structure Decimal where
  digits : Nat
  scale : Int
deriving DecidableEq, Repr

/-- The order of `a * 10 ^ i` and `b * 2 ^ j`. -/
def compareScaled (a : Nat) (i : Int) (b : Nat) (j : Int) : Ordering :=
  compare (a * 10 ^ i.toNat * 2 ^ (-j).toNat) (b * 2 ^ j.toNat * 10 ^ (-i).toNat)

/-- The decimal lies in the interval of the reals that round to `m * 2 ^ q`.  The ends belong to it
when `m` is even; `narrowBelow` says that the number below is only half as far as the one above. -/
def roundsTo (m : Nat) (q : Int) (narrowBelow : Bool) (d : Decimal) : Bool :=
  let low := compareScaled d.digits d.scale (if narrowBelow then 4 * m - 1 else 4 * m - 2) (q - 2)
  let high := compareScaled d.digits d.scale (4 * m + 2) (q - 2)
  let closed := m % 2 == 0
  (low == .gt || (closed && low == .eq)) && (high == .lt || (closed && high == .eq))

/-- The decimals just below and just above `m * 2 ^ q` on the grid of `10 ^ k`. -/
def neighbours (m : Nat) (q k : Int) : Decimal × Decimal :=
  let below := m * 2 ^ q.toNat * 10 ^ (-k).toNat / (2 ^ (-q).toNat * 10 ^ k.toNat)
  (⟨below, k⟩, ⟨below + 1, k⟩)

/-- The point of the grid of `10 ^ k` nearest to `m * 2 ^ q` that rounds to it, if there is one. -/
def onGrid (m : Nat) (q : Int) (narrowBelow : Bool) (k : Int) : Option Decimal :=
  let (below, above) := neighbours m q k
  match roundsTo m q narrowBelow below, roundsTo m q narrowBelow above with
  | true, true =>
    match compareScaled (2 * below.digits + 1) k (2 * m) q with
    | .lt => some above
    | .gt => some below
    | .eq => some (if below.digits % 2 = 0 then below else above)
  | true, false => some below
  | false, true => some above
  | false, false => none

/-- An exponent that is greater than that of the leading digit of `m * 2 ^ q`, by two at most. -/
def leadingScale (m : Nat) (q : Int) : Int :=
  ((m.log2 : Int) + q) * 30103 / 100000 + 2

/-- The shortest decimal that rounds to a finite positive number of sixty-four bits. -/
def shortest (x : Finite) : Decimal :=
  let narrowBelow :=
    x.significand == 2 ^ 52 && decide (FloatFormat.double.leastScale < x.scale)
  let top := leadingScale x.significand x.scale
  let grids := (List.range 20).map fun (n : Nat) => top - n
  (grids.findSome? (onGrid x.significand x.scale narrowBelow)).getD
    ⟨x.significand * 2 ^ x.scale.toNat * 5 ^ (-x.scale).toNat, min x.scale 0⟩

end Cdr.Real
