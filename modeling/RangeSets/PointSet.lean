import RangeSets.Change
import RangeSets.Refusal
import RangeSets.Scale.Fixed
/-!
# Point sets

A point set holds single numbers of a universe, a range of whole numbers that is fixed when the
set is made. A number is kept as its offset from the lower end of the universe, and the offsets
ascend. Numbers go in one at a time; ranges of numbers may be taken out, and each longest run that
was taken out is told as one change.
-/

namespace RangeSets

open Scale

/-- A set of numbers of the universe from `lower` to `upper`. -/
structure PointSet (f : IntegerFormat) where
  lower : Fixed f
  upper : Fixed f
  offsets : List Nat
  deriving DecidableEq

namespace PointSet

variable {f : IntegerFormat}

def widthOf (lower upper : Fixed f) : Int := upper.val - lower.val + 1

def emptyOver (lower upper : Fixed f) : Except (Refusal (Fixed f)) (PointSet f) :=
  if upper < lower then .error (.unordered lower upper)
  else if widestUniverse < widthOf lower upper then .error (.tooWide lower upper)
  else .ok ⟨lower, upper, []⟩

def fullOver (lower upper : Fixed f) : Except (Refusal (Fixed f)) (PointSet f) := do
  let s ← emptyOver lower upper
  return { s with offsets := List.range (widthOf lower upper).toNat }

def offset? (s : PointSet f) (v : Fixed f) : Option Nat :=
  if v < s.lower ∨ s.upper < v then none else some (v.val - s.lower.val).toNat

def value? (s : PointSet f) (n : Nat) : Option (Fixed f) := Fixed.ofInt? (s.lower.val + n)

def values (s : PointSet f) : List (Fixed f) := s.offsets.filterMap s.value?

def count (s : PointSet f) : Nat := s.offsets.length

def Contains (s : PointSet f) (v : Fixed f) : Prop := ∃ n ∈ s.offset? v, n ∈ s.offsets

instance (s : PointSet f) (v : Fixed f) : Decidable (s.Contains v) :=
  match h : s.offset? v with
  | none => isFalse fun ⟨n, hn, _⟩ => by rw [h] at hn; cases hn
  | some n =>
      if hmem : n ∈ s.offsets then isTrue ⟨n, h, hmem⟩
      else isFalse fun ⟨m, hm, hmem'⟩ => by
        rw [h] at hm
        cases hm
        exact hmem hmem'

/-- The least value, or the highest number of the format for the empty set. -/
def min (s : PointSet f) : Fixed f := (s.offsets.head?.bind s.value?).getD top

/-- The greatest value, or the lowest number of the format for the empty set. -/
def max (s : PointSet f) : Fixed f := (s.offsets.getLast?.bind s.value?).getD bottom

def above? (s : PointSet f) (v : Fixed f) : Option (Fixed f) :=
  (s.offsets.find? fun n : Nat => v.val - s.lower.val < n).bind s.value?

def below? (s : PointSet f) (v : Fixed f) : Option (Fixed f) :=
  (s.offsets.takeWhile fun n : Nat => n < v.val - s.lower.val).getLast?.bind s.value?

/-- Puts an offset in its place in an ascending list. -/
def insertOffset (n : Nat) : List Nat → List Nat
  | [] => [n]
  | m :: rest => if n < m then n :: m :: rest else m :: insertOffset n rest

def add (s : PointSet f) (v : Fixed f) :
    Except (Refusal (Fixed f)) (PointSet f × List (Change (Fixed f))) :=
  match s.offset? v with
  | none => .error (.outside v s.lower s.upper)
  | some n =>
      if n ∈ s.offsets then .ok (s, [])
      else .ok ({ s with offsets := insertOffset n s.offsets }, [.gained ⟨v, v⟩])

/-- Adds the range from `lo` to `hi`, which may hold one value at most. -/
def addBetween (s : PointSet f) (lo hi : Fixed f) :
    Except (Refusal (Fixed f)) (PointSet f × List (Change (Fixed f))) :=
  if hi < lo then .ok (s, [])
  else if lo ≠ hi then .error (.notSingle lo hi)
  else s.add lo

/-- The longest runs of consecutive numbers in an ascending list, each by its first and its last. -/
def runs : List Nat → List (Nat × Nat)
  | [] => []
  | n :: rest =>
      match runs rest with
      | (first, last) :: more =>
          if n + 1 = first then (n, last) :: more else (n, n) :: (first, last) :: more
      | [] => [(n, n)]

def spanOfRun? (s : PointSet f) (run : Nat × Nat) : Option (Span (Fixed f)) := do
  return ⟨← s.value? run.1, ← s.value? run.2⟩

/-- Removes the values from `lo` to `hi`, as far as they lie in the universe. -/
def removeBetween (s : PointSet f) (lo hi : Fixed f) : PointSet f × List (Change (Fixed f)) :=
  let lo := if lo < s.lower then s.lower else lo
  let hi := if s.upper < hi then s.upper else hi
  match s.offset? lo, s.offset? hi with
  | some first, some last =>
      let within := fun n => first ≤ n ∧ n ≤ last
      ({ s with offsets := s.offsets.filter fun n => ¬ within n },
        ((runs (s.offsets.filter fun n => within n)).filterMap s.spanOfRun?).map .lost)
  | _, _ => (s, [])

def remove (s : PointSet f) (v : Fixed f) : PointSet f × List (Change (Fixed f)) :=
  s.removeBetween v v

def clear (s : PointSet f) : PointSet f × List (Change (Fixed f)) :=
  s.removeBetween s.lower s.upper

/-- Two sets have the same values, whatever their universes. -/
def Same (s t : PointSet f) : Prop := s.values = t.values

instance (s t : PointSet f) : Decidable (s.Same t) := inferInstanceAs (Decidable (_ = _))

instance : ToString (PointSet f) := ⟨fun s => braced (s.values.map toString)⟩

end PointSet

end RangeSets
