import RangeSets.RangeSet.Algebra
/-!
# Worth maps

A worth map gives every number a worth. The numbers of a worth other than zero are kept as a chain
of ranges, with the worth of each range in a table by the number of its slot; all others have worth
zero. The ranges ascend, and neighbours that come right after one another differ in worth.

Questions about a range go through its pieces: the range is cut wherever the worth may change, and
a piece between two ranges of the chain has worth zero.
-/

namespace RangeSets

open Scale

/-- Numbers with a worth, as a chain of ranges and the worths of its slots. -/
structure WorthMap (α : Type) where
  chain : Chain α
  worths : Array Worth
  deriving DecidableEq

structure Piece (α : Type) where
  lo : α
  hi : α
  worth : Worth
  deriving DecidableEq

def Piece.span {α : Type} (piece : Piece α) : Span α := ⟨piece.lo, piece.hi⟩

namespace WorthMap

variable {α : Type}

def empty : WorthMap α := ⟨Chain.empty, #[]⟩

def worthOf (m : WorthMap α) (i : Nat) : Worth := m.worths.getD i Worth.zero

def entries (m : WorthMap α) : List (Entry α Worth) :=
  m.chain.entries.map fun e => ⟨e.slot, e.lo, e.hi, m.worthOf e.slot⟩

/-- The ranges with their worths, in ascending order. -/
def ranges (m : WorthMap α) : List (Piece α) := m.entries.map fun e => ⟨e.lo, e.hi, e.label⟩

def count (m : WorthMap α) : Nat := m.chain.size

def IsEmpty (m : WorthMap α) : Prop := m.chain.head = none

instance (m : WorthMap α) : Decidable m.IsEmpty := inferInstanceAs (Decidable (_ = none))

variable [Scale α]

/-- The least value of a worth other than zero, or the top of the scale when there is none. -/
def min (m : WorthMap α) : α := (m.chain.first?.map Span.lo).getD top

/-- The greatest value of a worth other than zero, or the bottom of the scale when there is none. -/
def max (m : WorthMap α) : α := (m.chain.last?.map Span.hi).getD bottom

/-- The slot of the range that a value lies in. -/
def slot? (m : WorthMap α) (v : α) : Option Nat :=
  match Position.of v m.entries with
  | .inside i => some i
  | _ => none

def Contains (m : WorthMap α) (v : α) : Prop := (m.slot? v).isSome

instance (m : WorthMap α) (v : α) : Decidable (m.Contains v) :=
  inferInstanceAs (Decidable ((m.slot? v).isSome = true))

def worth (m : WorthMap α) (v : α) : Worth := ((m.slot? v).map m.worthOf).getD Worth.zero

/-- The values of a worth other than zero. -/
def support (m : WorthMap α) : RangeSet α := .ofSpans (m.ranges.map Piece.span)

/-- The pieces from `lo` to `hi` that entries cut out, none of which ends below `lo`. -/
def piecesAmong (lo hi : α) : List (Entry α Worth) → List (Piece α)
  | [] => [⟨lo, hi, Worth.zero⟩]
  | e :: rest =>
      if hi < e.lo then [⟨lo, hi, Worth.zero⟩]
      else
        let gap := if lo < e.lo then [⟨lo, prev e.lo, Worth.zero⟩] else []
        gap ++
          if e.hi < hi then ⟨higherOf lo e.lo, e.hi, e.label⟩ :: piecesAmong (next e.hi) hi rest
          else [⟨higherOf lo e.lo, hi, e.label⟩]

/-- The range from `lo` to `hi`, cut into pieces of one worth. -/
def pieces (m : WorthMap α) (lo hi : α) : List (Piece α) :=
  if lo ≤ hi then piecesAmong lo hi (m.entries.dropWhile fun e => e.EndsBelow lo) else []

/-- The least worth from `lo` to `hi`; zero if there is no value. -/
def minWorth (m : WorthMap α) (lo hi : α) : Worth :=
  match (m.pieces lo hi).map Piece.worth with
  | [] => Worth.zero
  | w :: ws => ws.foldl Worth.min w

/-- The greatest worth from `lo` to `hi`; zero if there is no value. -/
def maxWorth (m : WorthMap α) (lo hi : α) : Worth :=
  match (m.pieces lo hi).map Piece.worth with
  | [] => Worth.zero
  | w :: ws => ws.foldl Worth.max w

def withWorth (m : WorthMap α) (lo hi : α) (worth : Worth) : RangeSet α :=
  .ofSpans (((m.pieces lo hi).filter fun piece => piece.worth = worth).map Piece.span)

def withMinWorth (m : WorthMap α) (lo hi : α) : RangeSet α :=
  m.withWorth lo hi (m.minWorth lo hi)

def withMaxWorth (m : WorthMap α) (lo hi : α) : RangeSet α :=
  m.withWorth lo hi (m.maxWorth lo hi)

/-- The values from `lo` to `hi` of a worth other than zero. -/
def supportWithin (m : WorthMap α) (lo hi : α) : RangeSet α :=
  .ofSpans (((m.pieces lo hi).filter fun piece => piece.worth ≠ Worth.zero).map Piece.span)

/-- The differences between the worth of each piece of `m` and an extreme worth of `n` on that
piece, over the least span that holds the ranges of both. -/
def differences (m n : WorthMap α) (extreme : α → α → Worth) : Except Fault (List Worth) :=
  (m.pieces (lowerOf m.min n.min) (higherOf m.max n.max)).mapM fun piece =>
    let other := extreme piece.lo piece.hi
    Worth.orFault (Worth.sub? piece.worth other) (.difference piece.worth other)

/-- The least difference between the worths in `m` and in `n`, over the least span that holds the
ranges of both. -/
def minDifference (m n : WorthMap α) : Except Fault Worth :=
  if m.IsEmpty ∧ n.IsEmpty then .ok Worth.zero
  else do
    match ← m.differences n n.maxWorth with
    | [] => return Worth.zero
    | d :: ds => return ds.foldl Worth.min d

/-- The greatest difference between the worths in `m` and in `n`, over the least span that holds the
ranges of both. -/
def maxDifference (m n : WorthMap α) : Except Fault Worth :=
  if m.IsEmpty ∧ n.IsEmpty then .ok Worth.zero
  else do
    match ← m.differences n n.minWorth with
    | [] => return Worth.zero
    | d :: ds => return ds.foldl Worth.max d

/-- Two maps have equally many ranges, and the same ones with the same worths. -/
def Same (m n : WorthMap α) : Prop :=
  m.count = n.count ∧
    Span.SameAll (m.ranges.map Piece.span) (n.ranges.map Piece.span) ∧
    m.ranges.map Piece.worth = n.ranges.map Piece.worth

instance (m n : WorthMap α) : Decidable (m.Same n) := inferInstanceAs (Decidable (_ ∧ _))

instance [ToString α] : ToString (WorthMap α) :=
  ⟨fun m => braced (m.ranges.map fun piece => toString piece.span ++ ": " ++ toString piece.worth)⟩

end WorthMap

end RangeSets
