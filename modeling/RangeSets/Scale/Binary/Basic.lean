import RangeSets.Scale.Binary.Precision
/-!
# Binary floating point numbers

A number is a pattern of bits: a sign, an exponent field and a fraction field. Numbers are
compared by the units that they stand for, with sign. The two zeros are therefore the same number,
and a pattern that is no number compares with nothing.

A step to a neighbour adds one to the pattern or takes one away, except at the zeros, where the
step leads to the least number of either sign.
-/

namespace RangeSets

/-- A binary floating point number, as its pattern of bits. -/
structure Binary (p : Precision) where
  bits : BitVec p.width
  deriving DecidableEq

namespace Binary

variable {p : Precision}

def isNegative (x : Binary p) : Bool := p.signWeight ≤ x.bits.toNat

/-- The pattern without its sign. -/
def magnitude (x : Binary p) : Nat := x.bits.toNat % p.signWeight

def isNaN (x : Binary p) : Bool := p.infinity < x.magnitude

def isFinite (x : Binary p) : Bool := x.magnitude < p.infinity

def ofMagnitude (negative : Bool) (m : Nat) : Binary p :=
  ⟨BitVec.ofNat p.width (if negative then p.signWeight + m else m)⟩

/-- How many units a pattern stands for, with its sign. -/
def units (x : Binary p) : Int :=
  if x.isNegative then -(p.units x.magnitude) else p.units x.magnitude

instance : LE (Binary p) :=
  ⟨fun x y => x.isNaN = false ∧ y.isNaN = false ∧ x.units ≤ y.units⟩

instance : LT (Binary p) :=
  ⟨fun x y => x.isNaN = false ∧ y.isNaN = false ∧ x.units < y.units⟩

instance : DecidableLE (Binary p) := fun x y =>
  inferInstanceAs (Decidable (x.isNaN = false ∧ y.isNaN = false ∧ x.units ≤ y.units))

instance : DecidableLT (Binary p) := fun x y =>
  inferInstanceAs (Decidable (x.isNaN = false ∧ y.isNaN = false ∧ x.units < y.units))

theorem le_iff {x y : Binary p} :
    x ≤ y ↔ x.isNaN = false ∧ y.isNaN = false ∧ x.units ≤ y.units := Iff.rfl

theorem lt_iff {x y : Binary p} :
    x < y ↔ x.isNaN = false ∧ y.isNaN = false ∧ x.units < y.units := Iff.rfl

def bottom : Binary p := ofMagnitude true p.infinity

def top : Binary p := ofMagnitude false p.infinity

/-- The least number above: from either zero the least positive number, from any other number the
pattern one further from zero or one nearer to it. -/
def next (x : Binary p) : Binary p :=
  if x.isNaN || x == top then x
  else if x.magnitude = 0 then ofMagnitude false 1
  else if x.isNegative then ⟨x.bits - 1⟩
  else ⟨x.bits + 1⟩

/-- The greatest number below: from either zero the greatest negative number. -/
def prev (x : Binary p) : Binary p :=
  if x.isNaN || x == bottom then x
  else if x.magnitude = 0 then ofMagnitude true 1
  else if x.isNegative then ⟨x.bits + 1⟩
  else ⟨x.bits - 1⟩

end Binary

end RangeSets
