import RangeSets.Worth
/-!
# Faults

A fault ends the work: there is no result to go on with. It says why it arose, and its message
says so in words.
-/

namespace RangeSets

/-- Why the work ended. -/
inductive Fault where
  /-- A set was to be built from bounds that are not in order. -/
  | unorderedBounds
  /-- The sum of a stored worth and an added one is no worth. -/
  | sum (stored added : Worth)
  /-- The difference of two worths is no worth. -/
  | difference (left right : Worth)
  /-- The negation of a worth is no worth. -/
  | negation (worth : Worth)
  deriving DecidableEq

def Fault.message : Fault → String
  | unorderedBounds =>
      "Cannot build an interval set from an invalid range. " ++
        "Use IntervalSet::new() for an empty set."
  | sum stored added =>
      "Worth overflow: " ++ toString stored ++ " + " ++ toString added ++ " does not fit in an i32."
  | difference left right =>
      "Worth overflow: " ++ toString left ++ " - " ++ toString right ++ " does not fit in an i32."
  | negation worth =>
      "Worth overflow: the negation of " ++ toString worth ++ " does not fit in an i32."

/-- A worth that is not there is a fault. -/
def Worth.orFault (worth? : Option Worth) (fault : Fault) : Except Fault Worth :=
  match worth? with
  | some worth => .ok worth
  | none => .error fault

end RangeSets
