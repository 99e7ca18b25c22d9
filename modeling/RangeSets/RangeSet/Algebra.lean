import RangeSets.RangeSet.Mutation
/-!
# The algebra of range sets

Every operation goes over the ranges of one operand and adds them to a copy of the other, or removes
them from it. The copy keeps the slots it was made from.
-/

namespace RangeSets.RangeSet

variable {α : Type} [Scale α]

/-- The set of all values of the given ranges. -/
def ofSpans (ranges : List (Span α)) : RangeSet α := (empty.extend ranges).1

def union (s t : RangeSet α) : RangeSet α := (s.extend t.spans).1

def difference (s t : RangeSet α) : RangeSet α := (s.removeEach t.spans).1

def intersection (s t : RangeSet α) : RangeSet α := s.difference (s.difference t)

def complement (s : RangeSet α) : RangeSet α := whole.difference s

end RangeSets.RangeSet
