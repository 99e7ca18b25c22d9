import RangeSets.Change
import RangeSets.RangeSet.Basic
/-!
# Changing a range set

A mutation is planned before it is made: the ranges are cut at the ends of the range that is added
or removed, and from the cut follow both the edits of the chain and the runs of values gained or
lost. The changes are told in ascending order, one for every longest run.

A range whose bounds are not in order holds no value, so adding or removing it does nothing.
-/

namespace RangeSets

open Scale

namespace RangeSet

variable {α : Type}

/-- The edits that a mutation makes, in order, and the changes that it tells. -/
structure Plan (α : Type) where
  edits : List (Edit α Unit)
  changes : List (Change α)

def Plan.nothing : Plan α := ⟨[], []⟩

def perform (s : RangeSet α) (plan : Plan α) : RangeSet α × List (Change α) :=
  (⟨s.chain.applyAll plan.edits⟩, plan.changes)

variable [Scale α]

/-- The runs between `lo` and `hi` that the touched ranges leave out. -/
def gaps (lo hi : α) : List (Entry α Unit) → List (Span α)
  | [] => [⟨lo, hi⟩]
  | e :: rest =>
      let gap := if lo < e.lo then [⟨lo, prev e.lo⟩] else []
      if e.hi < hi then gap ++ gaps (next e.hi) hi rest else gap

/-- The lower end of a range joined with the first range that it touches. -/
def joinedLo (lo : α) (touched : List (Entry α Unit)) : α :=
  match touched.head? with
  | some e => lowerOf lo e.lo
  | none => lo

/-- The upper end of a range joined with the last range that it touches. -/
def joinedHi (hi : α) (touched : List (Entry α Unit)) : α :=
  match touched.getLast? with
  | some e => higherOf e.hi hi
  | none => hi

/-- The edits that put in a range joined with all that it touches. A range that touches none goes
before the first one above it; otherwise the touched ranges are given back first, and the joined
range goes after the last one below. -/
def joinEdits (cut : Cut α Unit) (lo hi : α) : List (Edit α Unit) :=
  match cut.touched with
  | [] => [.placeBefore (cut.above.head?.map Entry.slot) lo hi ()]
  | touched =>
      touched.map (fun e => .retire e.slot) ++
        [.placeAfter (cut.below.getLast?.map Entry.slot) lo hi ()]

/-- The plan to add the values from `lo` to `hi`. Neighbours that the joined range comes right
next to are taken into it and given back. -/
def addPlan (s : RangeSet α) (lo hi : α) : Plan α :=
  if lo ≤ hi then
    let cut := Cut.of lo hi s.entries
    let first := joinedLo lo cut.touched
    let last := joinedHi hi cut.touched
    let lower? := cut.below.getLast?.filter fun e => Adjacent e.hi first
    let upper? := cut.above.head?.filter fun e => Adjacent last e.lo
    { edits :=
        joinEdits cut ((lower?.map Entry.lo).getD first) ((upper?.map Entry.hi).getD last) ++
          (lower?.toList ++ upper?.toList).map fun e => .retire e.slot
      changes := (gaps lo hi cut.touched).map .gained }
  else .nothing

/-- The edits that take the values from `lo` to `hi` out of a range that they touch. -/
def carveEdits (lo hi : α) (e : Entry α Unit) : List (Edit α Unit) :=
  if e.lo < lo then
    .setHi e.slot (prev lo) ::
      if hi < e.hi then [.placeAfter (some e.slot) (next hi) e.hi ()] else []
  else if hi < e.hi then [.setLo e.slot (next hi)]
  else [.retire e.slot]

/-- The plan to remove the values from `lo` to `hi`. -/
def removePlan (s : RangeSet α) (lo hi : α) : Plan α :=
  if lo ≤ hi then
    let touched := (Cut.of lo hi s.entries).touched
    { edits := touched.flatMap (carveEdits lo hi)
      changes := touched.map fun e => .lost ⟨higherOf e.lo lo, lowerOf e.hi hi⟩ }
  else .nothing

def add (s : RangeSet α) (lo hi : α) : RangeSet α × List (Change α) := s.perform (s.addPlan lo hi)

def remove (s : RangeSet α) (lo hi : α) : RangeSet α × List (Change α) :=
  s.perform (s.removePlan lo hi)

def removeFrom (s : RangeSet α) (v : α) : RangeSet α × List (Change α) :=
  if s.IsEmpty then (s, []) else s.remove v s.max

def removeAbove (s : RangeSet α) (v : α) : RangeSet α × List (Change α) :=
  if v < s.max then s.remove (next v) s.max else (s, [])

def removeUpTo (s : RangeSet α) (v : α) : RangeSet α × List (Change α) :=
  if s.IsEmpty then (s, []) else s.remove s.min v

def removeBelow (s : RangeSet α) (v : α) : RangeSet α × List (Change α) :=
  if s.min < v then s.remove s.min (prev v) else (s, [])

def clear (s : RangeSet α) : RangeSet α × List (Change α) :=
  s.perform ⟨[.clear], s.spans.map .lost⟩

def inTurn {β : Type} (f : RangeSet α → β → RangeSet α × List (Change α)) (s : RangeSet α) :
    List β → RangeSet α × List (Change α)
  | [] => (s, [])
  | x :: xs =>
      let (after, changes) := f s x
      let (final, later) := inTurn f after xs
      (final, changes ++ later)

def extend (s : RangeSet α) (ranges : List (Span α)) : RangeSet α × List (Change α) :=
  inTurn (fun s r => s.add r.lo r.hi) s ranges

def removeEach (s : RangeSet α) (ranges : List (Span α)) : RangeSet α × List (Change α) :=
  inTurn (fun s r => s.remove r.lo r.hi) s ranges

def redo (s : RangeSet α) : Change α → RangeSet α × List (Change α)
  | .gained r => s.add r.lo r.hi
  | .lost r => s.remove r.lo r.hi

def undo (s : RangeSet α) (change : Change α) : RangeSet α × List (Change α) :=
  s.redo change.inverse

/-- Takes changes back, the latest first. -/
def undoAll (s : RangeSet α) (changes : List (Change α)) : RangeSet α × List (Change α) :=
  inTurn undo s changes.reverse

end RangeSet

inductive Mutation (α : Type) where
  | add (lo hi : α)
  | remove (lo hi : α)
  | removeFrom (v : α)
  | removeAbove (v : α)
  | removeUpTo (v : α)
  | removeBelow (v : α)
  | clear
  | extend (ranges : List (Span α))
  | undo (change : Change α)
  | undoAll (changes : List (Change α))
  deriving DecidableEq

namespace RangeSet

variable {α : Type} [Scale α]

/-- The set after a mutation, and the changes that it tells. -/
def mutate (s : RangeSet α) : Mutation α → RangeSet α × List (Change α)
  | .add lo hi => s.add lo hi
  | .remove lo hi => s.remove lo hi
  | .removeFrom v => s.removeFrom v
  | .removeAbove v => s.removeAbove v
  | .removeUpTo v => s.removeUpTo v
  | .removeBelow v => s.removeBelow v
  | .clear => s.clear
  | .extend ranges => s.extend ranges
  | .undo change => s.undo change
  | .undoAll changes => s.undoAll changes

end RangeSet

end RangeSets
