/-!
# The shortest decimal that reads back

A positive number of a binary format is read back from every decimal that lies in an interval
around it. The shortest such decimal is found by walking down the decimal grids, the multiples of
a power of ten, from one that is coarser than the number: the first grid with a point in the
interval is the coarsest, since each grid contains the coarser ones. On that grid only the two
neighbours of the number have to be tried. If both lie in the interval the nearer one is taken,
and the upper one when the number lies halfway.

All arithmetic is on natural numbers over a common denominator, so nothing is rounded on the way.
-/

namespace RangeSets.Decimal

/-- A positive number and the interval of numbers that are read back as it, over one denominator. -/
structure ReadBack where
  low : Nat
  value : Nat
  high : Nat
  denominator : Nat
  /-- The two ends of the interval are read back as the number too. -/
  closed : Bool

namespace ReadBack

/-- The same numbers measured in units of `10 ^ k`. -/
def inUnits (r : ReadBack) : Int → ReadBack
  | .ofNat n => { r with denominator := r.denominator * Nat.pow 10 n }
  | .negSucc n =>
      { r with
        low := r.low * Nat.pow 10 (n + 1)
        value := r.value * Nat.pow 10 (n + 1)
        high := r.high * Nat.pow 10 (n + 1) }

/-- Whether the whole number `n` is read back as the number. -/
def accepts (r : ReadBack) (n : Nat) : Bool :=
  let m := n * r.denominator
  if r.closed then r.low ≤ m && m ≤ r.high else r.low < m && m < r.high

/-- The whole number next to the number that is read back as it, if one of the two neighbours is. -/
def neighbour? (r : ReadBack) : Option Nat :=
  let below := r.value / r.denominator
  let rest := r.value % r.denominator
  match r.accepts below, r.accepts (below + 1) with
  | true, true => some (if 2 * rest < r.denominator then below else below + 1)
  | true, false => some below
  | false, true => some (below + 1)
  | false, false => none

/-- The first grid below `10 ^ (k + 1)` with a hit, within a number of grids. The result `(d, k)`
stands for `d * 10 ^ k`. -/
def descend (r : ReadBack) : Nat → Int → Nat × Int
  | 0, k => ((r.inUnits k).value / (r.inUnits k).denominator, k)
  | grids + 1, k =>
      match (r.inUnits k).neighbour? with
      | some d => (d, k)
      | none => r.descend grids (k - 1)

/-- The exponent of the leading decimal digit of the number. -/
def leadingExponent (r : ReadBack) : Int :=
  let places := r.denominator.log2 + 1
  (Nat.toDigits 10 (r.value * Nat.pow 10 places / r.denominator)).length - 1 - places

/-- The shortest decimal `d * 10 ^ k` that is read back as the number. The first grid tried is
coarser than the number, and 17 digits suffice for the formats in use. -/
def shortest (r : ReadBack) : Nat × Int := r.descend 19 (r.leadingExponent + 1)

end ReadBack

end RangeSets.Decimal
