/-!
# Scales of numbers

A scale is a type of numbers that stand in one line, each with a nearest neighbour above and
below. Every number that can be compared at all has a rank, a whole number, and the comparisons
are the comparisons of ranks. Two values may share a rank, as the two zeros of a floating point
format do, and a value without a rank compares with nothing, not even with itself.

The laws are fields of the class: a step up raises the rank by exactly one until the top is
reached, so no rank between the bottom and the top is left out and "adjacent" means that nothing
lies between. All that the set types know about numbers is in this class.
-/

namespace RangeSets

/-- A line of comparable numbers with a nearest neighbour on either side. -/
class Scale (α : Type) extends LE α, LT α where
  decidableLE : DecidableLE α
  decidableLT : DecidableLT α
  /-- The least value above the given one, or the value itself when there is none. -/
  next : α → α
  /-- The greatest value below the given one, or the value itself when there is none. -/
  prev : α → α
  bottom : α
  top : α
  isFinite : α → Bool
  /-- The place of a value in the line; `none` for a value that compares with nothing. -/
  rank : α → Option Int
  /-- The largest number of values that is ever reported, on a scale whose values are counted. -/
  capacity : Option Nat
  le_iff_rank : ∀ a b : α, a ≤ b ↔ ∃ i j, rank a = some i ∧ rank b = some j ∧ i ≤ j
  lt_iff_rank : ∀ a b : α, a < b ↔ ∃ i j, rank a = some i ∧ rank b = some j ∧ i < j
  rank_bottom : ∃ i, rank bottom = some i ∧ ∀ a j, rank a = some j → i ≤ j
  rank_top : ∃ i, rank top = some i ∧ ∀ a j, rank a = some j → j ≤ i
  rank_next : ∀ a i, rank a = some i → a < top → rank (next a) = some (i + 1)
  next_eq_self : ∀ a, ¬ a < top → next a = a
  rank_prev : ∀ a i, rank a = some i → bottom < a → rank (prev a) = some (i - 1)
  prev_eq_self : ∀ a, ¬ bottom < a → prev a = a

namespace Scale

variable {α : Type} [Scale α]

instance : DecidableLE α := decidableLE
instance : DecidableLT α := decidableLT

/-- Two values are the same number. A value that compares with nothing is not the same as itself. -/
def Same (a b : α) : Prop := a ≤ b ∧ b ≤ a

instance (a b : α) : Decidable (Same a b) := inferInstanceAs (Decidable (_ ∧ _))

def Adjacent (a b : α) : Prop := a < b ∧ Same (next a) b

instance (a b : α) : Decidable (Adjacent a b) := inferInstanceAs (Decidable (_ ∧ _))

/-- The lower of two values, the first of them when they are the same number. -/
def lowerOf (a b : α) : α := if b < a then b else a

/-- The higher of two values, the first of them when they are the same number. -/
def higherOf (a b : α) : α := if a < b then b else a

/-- The number of values from `lo` to `hi`, both included, held down to the capacity of the scale.
There is none on a scale whose values are not counted or for bounds that are not in order. -/
def count? (lo hi : α) : Option Nat := do
  let most ← capacity α
  let i ← rank lo
  let j ← rank hi
  if i ≤ j then some (min (j - i + 1).toNat most) else none

end Scale

/-- How many values lie between two bounds, as far as that is told apart. -/
inductive Extent where
  | empty
  | single
  | many
  deriving DecidableEq, Repr

/-- The extent of the values from `lo` to `hi`. Bounds that do not compare enclose nothing. -/
def Extent.ofBounds {α : Type} [Scale α] (lo hi : α) : Extent :=
  if Scale.Same lo hi then .single else if lo < hi then .many else .empty

end RangeSets
