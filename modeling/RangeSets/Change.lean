import RangeSets.Span
/-!
# Changes and trails

A change of a set tells one run of values that the set gained or lost. A trail writes down the
changes it hears of, each under the tag of the set that it came from, so that one trail can serve
many sets. Taking the changes out of a trail empties it, and what was taken last can be undone on
a set.
-/

namespace RangeSets

/-- A run of values that a set gained or lost. -/
inductive Change (α : Type) where
  | gained (run : Span α)
  | lost (run : Span α)
  deriving DecidableEq

namespace Change

variable {α : Type}

def run : Change α → Span α
  | gained s => s
  | lost s => s

def inverse : Change α → Change α
  | gained s => lost s
  | lost s => gained s

/-- Two changes of one direction over the same numbers. -/
def Same [Scale α] : Change α → Change α → Prop
  | gained s, gained t => s.Same t
  | lost s, lost t => s.Same t
  | _, _ => False

end Change

structure Event (α : Type) where
  tag : Int
  change : Change α
  deriving DecidableEq

/-- Where the changes of a set are told: the tag that they are told under, and the name of the
trail. -/
structure Watch where
  tag : Int
  trail : String
  deriving DecidableEq

/-- The events heard so far, and the events taken out last. -/
@[ext]
structure Trail (α : Type) where
  heard : List (Event α)
  taken : List (Event α)
  deriving DecidableEq

namespace Trail

variable {α : Type}

def empty : Trail α := ⟨[], []⟩

/-- The trail after it heard of changes of the set with this tag. -/
def hear (t : Trail α) (tag : Int) (changes : List (Change α)) : Trail α :=
  { t with heard := t.heard ++ changes.map fun c => ⟨tag, c⟩ }

def take (t : Trail α) : Trail α := ⟨[], t.heard⟩

end Trail

end RangeSets
