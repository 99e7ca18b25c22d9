import RangeSets.Scale.Fixed
/-!
# Worths

A worth is what a value counts for. Worths are whole numbers of 32 bits with a sign, and their sums,
differences and negations are either exact or not there at all.
-/

namespace RangeSets

def worthFormat : IntegerFormat where
  signed := true
  bits := 32

/-- What a value counts for. -/
abbrev Worth := Fixed worthFormat

namespace Worth

def zero : Worth := ⟨0, by decide, by decide⟩

def add? (a b : Worth) : Option Worth := Fixed.ofInt? (a.val + b.val)

def sub? (a b : Worth) : Option Worth := Fixed.ofInt? (a.val - b.val)

def neg? (a : Worth) : Option Worth := Fixed.ofInt? (-a.val)

def min (a b : Worth) : Worth := if b.val < a.val then b else a

def max (a b : Worth) : Worth := if a.val < b.val then b else a

end Worth

end RangeSets
