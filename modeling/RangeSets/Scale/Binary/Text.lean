import RangeSets.Decimal.Shortest
import RangeSets.Decimal.Style
import RangeSets.Scale.Binary.Basic
/-!
# The text of a floating point number

A number is written with the fewest digits that read back as the same number of the same format.
Infinities have a word of their own, and so has a pattern that is no number.
-/

namespace RangeSets

/-- A positive finite magnitude in the interval of the numbers that round to it: halfway to either
neighbour, the ends included when the significand is even. The neighbour below a power of two is
nearer than the one above it. -/
def Precision.readBack (p : Precision) (m : Nat) : Decimal.ReadBack :=
  let c := p.significand m
  let lowGap := if c = p.exponentWeight ∧ p.shift m ≠ 0 then 1 else 2
  let scale := Nat.pow 2 (p.shift m)
  ⟨(4 * c - lowGap) * scale, 4 * c * scale, (4 * c + 2) * scale, Nat.pow 2 (p.unitExponent + 2),
    c % 2 = 0⟩

namespace Binary

variable {p : Precision}

/-- Numbers from a ten thousandth up to, not including, ten to the sixteenth are written out. -/
def style : Decimal.Style := ⟨-4, 15⟩

/-- The text of a number. A pattern that is no number has no sign in it. -/
def text (x : Binary p) : String :=
  if x.isNaN then "NaN"
  else
    let digits :=
      if x.magnitude = p.infinity then "inf".toList
      else if x.magnitude = 0 then "0.0".toList
      else
        let (d, k) := (p.readBack x.magnitude).shortest
        style.write d k
    String.ofList (if x.isNegative then '-' :: digits else digits)

instance : ToString (Binary p) := ⟨text⟩

end Binary

end RangeSets
