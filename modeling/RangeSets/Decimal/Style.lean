/-!
# Writing decimals

A decimal is written out around its point while the exponent of its leading digit stays within a
span, and with an exponent beyond it.
-/

namespace RangeSets.Decimal

/-- The lowest and the highest exponent of the leading digit for which a number is written out. -/
structure Style where
  lowestPlain : Int
  highestPlain : Int

namespace Style

/-- Digits around a point, with at least one digit on either side. -/
def plain (digits : List Char) (exponent : Int) : List Char :=
  if exponent < 0 then
    '0' :: '.' :: List.replicate (-exponent - 1).toNat '0' ++ digits
  else
    let whole := exponent.toNat + 1
    let fraction := digits.drop whole
    digits.take whole ++ List.replicate (whole - digits.length) '0' ++
      '.' :: (if fraction = [] then ['0'] else fraction)

/-- Digits with an exponent, and a point only if there is more than one digit. -/
def scientific (digits : List Char) (exponent : Int) : List Char :=
  let rest := digits.drop 1
  digits.take 1 ++ (if rest = [] then [] else '.' :: rest) ++ 'e' :: (toString exponent).toList

/-- The text of the positive number `d * 10 ^ k`. -/
def write (style : Style) (d : Nat) (k : Int) : List Char :=
  let digits := Nat.toDigits 10 d
  let exponent := k + digits.length - 1
  if style.lowestPlain ≤ exponent ∧ exponent ≤ style.highestPlain then plain digits exponent
  else scientific digits exponent

end Style

end RangeSets.Decimal
