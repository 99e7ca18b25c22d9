import RangeSets.Chain.Entry
import RangeSets.Fault
import RangeSets.Refusal
/-!
# Range sets

A range set is a set of numbers kept as a chain of ranges. The ranges ascend, and between one and
the next at least one number is missing, so that a set has one list of ranges only. This module
has the type and the questions that can be asked of a set.
-/

namespace RangeSets

open Scale

/-- A set of numbers, as a chain of ranges. -/
structure RangeSet (α : Type) where
  chain : Chain α
  deriving DecidableEq

/-- How much of a range belongs to a set. -/
inductive Coverage where
  | all
  | part
  | nothing
  deriving DecidableEq

namespace RangeSet

variable {α : Type}

def empty : RangeSet α := ⟨Chain.empty⟩

/-- The set of the values from `lo` to `hi`, which the caller knows to be in order. -/
def ofRange (lo hi : α) : RangeSet α := ⟨Chain.empty.placeAfter none lo hi⟩

/-- The ranges with their slots, in ascending order. -/
def entries (s : RangeSet α) : List (Entry α Unit) := s.chain.entries

def spans (s : RangeSet α) : List (Span α) := s.entries.map Entry.span

def count (s : RangeSet α) : Nat := s.chain.size

def IsEmpty (s : RangeSet α) : Prop := s.chain.head = none

instance (s : RangeSet α) : Decidable s.IsEmpty := inferInstanceAs (Decidable (_ = none))

variable [Scale α]

/-- The set of the values from `lo` to `hi`, or a refusal if they are not in order. -/
def tryRange (lo hi : α) : Except (Refusal α) (RangeSet α) :=
  if lo ≤ hi then .ok (ofRange lo hi) else .error (.unordered lo hi)

/-- The set of the values from `lo` to `hi`, which have to be in order. -/
def requireRange (lo hi : α) : Except Fault (RangeSet α) :=
  if lo ≤ hi then .ok (ofRange lo hi) else .error .unorderedBounds

def whole : RangeSet α := ofRange bottom top

/-- The least value, or the top of the scale for the empty set. -/
def min (s : RangeSet α) : α := (s.chain.first?.map Span.lo).getD top

/-- The greatest value, or the bottom of the scale for the empty set. -/
def max (s : RangeSet α) : α := (s.chain.last?.map Span.hi).getD bottom

/-- The least span with all the values in it. -/
def hull (s : RangeSet α) : Span α := if s.IsEmpty then Span.empty else ⟨s.min, s.max⟩

/-- Whether the set holds no value, one or many. -/
def extent (s : RangeSet α) : Extent :=
  if s.IsEmpty then .empty else Extent.ofBounds s.min s.max

def position (s : RangeSet α) (v : α) : Position := Position.of v s.entries

/-- The slot of the range that a value lies in. -/
def slot? (s : RangeSet α) (v : α) : Option Nat :=
  match s.position v with
  | .inside i => some i
  | _ => none

def Contains (s : RangeSet α) (v : α) : Prop := (s.slot? v).isSome

instance (s : RangeSet α) (v : α) : Decidable (s.Contains v) :=
  inferInstanceAs (Decidable ((s.slot? v).isSome = true))

/-- The least value of the set above a value. -/
def above? (s : RangeSet α) (v : α) : Option α :=
  match s.position v with
  | .inside i =>
      match s.chain.span? i with
      | some e => if v < e.hi then some (next v) else (s.chain.spanAfter? i).map Span.lo
      | none => none
  | .before i => (s.chain.span? i).map Span.lo
  | .pastEnd => none

/-- The greatest value of the set below a value. -/
def below? (s : RangeSet α) (v : α) : Option α :=
  match s.position v with
  | .inside i =>
      match s.chain.span? i with
      | some e => if e.lo < v then some (prev v) else (s.chain.spanBefore? i).map Span.hi
      | none => none
  | .before i => (s.chain.spanBefore? i).map Span.hi
  | .pastEnd => (s.chain.last?.map Span.hi).filter fun hi => hi < v

/-- How much of the range from `lo` to `hi` belongs to the set. Nothing of a range that is empty
does. -/
def coverage (s : RangeSet α) (lo hi : α) : Coverage :=
  if lo ≤ hi then
    match s.position lo with
    | .inside i =>
        match s.chain.span? i with
        | some e => if hi ≤ e.hi then .all else .part
        | none => .nothing
    | .before i =>
        match s.chain.span? i with
        | some e => if e.lo ≤ hi then .part else .nothing
        | none => .nothing
    | .pastEnd => .nothing
  else .nothing

/-- The number of values, held down to the capacity of the scale; `none` where values are not
counted. -/
def cardinality? (s : RangeSet α) : Option Nat := do
  let most ← capacity α
  s.spans.foldlM (fun total e => (count? e.lo e.hi).map fun n => Nat.min (total + n) most) 0

/-- The set counts as empty: it has no values where values are counted, and no range elsewhere. -/
def hasNone (s : RangeSet α) : Bool :=
  match s.cardinality? with
  | some n => n = 0
  | none => s.IsEmpty

/-- The set counts as a single value, by its count where values are counted and by its extent
elsewhere. -/
def hasOne (s : RangeSet α) : Bool :=
  match s.cardinality? with
  | some n => n = 1
  | none => s.extent = .single

/-- Two sets have equally many ranges, and the same ones. -/
def Same (s t : RangeSet α) : Prop := s.count = t.count ∧ Span.SameAll s.spans t.spans

instance (s t : RangeSet α) : Decidable (s.Same t) := inferInstanceAs (Decidable (_ ∧ _))

instance [ToString α] : ToString (RangeSet α) := ⟨fun s => braced (s.spans.map toString)⟩

end RangeSet

end RangeSets
