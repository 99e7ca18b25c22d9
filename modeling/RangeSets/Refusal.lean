/-!
# Refusals

A refusal turns a request down and leaves everything as it was. It says why, and its message says
so in words.
-/

namespace RangeSets

/-- Why a request was turned down. -/
inductive Refusal (α : Type) where
  /-- The bounds of a range are not in order. -/
  | unordered (lo hi : α)
  /-- A range of more than one value was to go into a set of single points. -/
  | notSingle (lo hi : α)
  /-- A value is not in the universe of a set. -/
  | outside (value lo hi : α)
  /-- A universe holds more values than can be told apart. -/
  | tooWide (lo hi : α)
  deriving DecidableEq

/-- The largest number of values in the universe of a point set. -/
def widestUniverse : Nat := Nat.pow 2 32

def Refusal.message {α : Type} [ToString α] : Refusal α → String
  | unordered lo hi =>
      "invalid range [" ++ toString lo ++ ", " ++ toString hi ++
        "]: the lower bound exceeds the upper bound"
  | notSingle lo hi =>
      "cannot insert the range [" ++ toString lo ++ ", " ++ toString hi ++
        "] into a sparse set, only single values are supported"
  | outside value lo hi =>
      "value " ++ toString value ++ " lies outside the universe [" ++ toString lo ++ ", " ++
        toString hi ++ "]"
  | tooWide lo hi =>
      "the universe [" ++ toString lo ++ ", " ++ toString hi ++ "] holds more than " ++
        toString widestUniverse ++ " values"

end RangeSets
