import RangeSets.WorthMap.Basic
/-!
# Changing a worth map

Adding a worth to a range takes three passes over the chain. The first spreads the worth: ranges
that stick out of the range are cut at its ends, gaps get a range of their own, and the worth is
added to what lies inside. The second gives back the ranges that came to worth zero, and the third
joins neighbours of one worth that come right after one another. The last two start at the range
before the first one that was touched, and go no further than the first range above.

The changes that are told are those of the support: first the runs of values whose worth came to
zero, then the runs of values whose worth left zero.
-/

namespace RangeSets

open Scale

namespace WorthMap

variable {α : Type}

/-- The map with another worth in a slot. The table is first brought up to one worth for every slot
of the chain. -/
def setWorth (m : WorthMap α) (i : Nat) (worth : Worth) : WorthMap α :=
  let missing := Array.replicate (m.chain.slots.size - m.worths.size) Worth.zero
  { m with worths := (m.worths ++ missing).setIfInBounds i worth }

/-- The map after an edit. What is put in the chain takes its label to the table. -/
def apply (m : WorthMap α) (edit : Edit α Worth) : WorthMap α :=
  let after := { m with chain := m.chain.apply edit }
  match edit with
  | .placeAfter _ _ _ worth | .placeBefore _ _ _ worth => after.setWorth m.chain.nextSlot worth
  | .setLabel i worth => { after with worths := m.worths.setIfInBounds i worth }
  | .clear => { after with worths := #[] }
  | .retire _ | .setLo _ _ | .setHi _ _ => after

def applyAll (m : WorthMap α) (edits : List (Edit α Worth)) : WorthMap α := edits.foldl apply m

variable [Scale α]

/-- The edits that add a worth to the values from `lo` to `hi`, which the touched entries do not end
below, with the slot of the first range above. The first sum that is no worth is a fault. -/
def spreadEdits (above? : Option Nat) (hi : α) (added : Worth) :
    α → List (Entry α Worth) → Except Fault (List (Edit α Worth))
  | lo, [] => .ok [.placeBefore above? lo hi added]
  | lo, e :: rest => do
      let gap := if lo < e.lo then [.placeBefore (some e.slot) lo (prev e.lo) added] else []
      let lo := if lo < e.lo then e.lo else lo
      let head :=
        if e.lo < lo then
          [.placeBefore (some e.slot) e.lo (prev lo) e.label, .setLo e.slot lo]
        else []
      let tail :=
        if hi < e.hi then
          [.placeAfter (some e.slot) (next hi) e.hi e.label, .setHi e.slot hi]
        else []
      let sum ← Worth.orFault (Worth.add? e.label added) (.sum e.label added)
      let edits := gap ++ head ++ tail ++ [.setLabel e.slot sum]
      if hi ≤ e.hi then return edits
      else return edits ++ (← spreadEdits above? hi added (next e.hi) rest)

/-- The entries before a slot, and those from the slot on. Without a slot all entries are in the
second list. -/
def splitAtSlot (slot? : Option Nat) (entries : List (Entry α Worth)) :
    List (Entry α Worth) × List (Entry α Worth) :=
  match slot? with
  | some i => entries.span fun e => e.slot ≠ i
  | none => ([], entries)

/-- The edits that give back the entries of worth zero, up to the first entry above `hi`. -/
def pruneEdits (hi : α) (entries : List (Entry α Worth)) : List (Edit α Worth) :=
  ((entries.takeWhile fun e => ¬ hi < e.lo).filter fun e => e.label = Worth.zero).map fun e =>
    .retire e.slot

/-- The edits that join entries with the entry before them where they come right after it and have
its worth, up to and including the first entry above `hi`. -/
def joinEdits (hi : α) : Option (Entry α Worth) → List (Entry α Worth) → List (Edit α Worth)
  | _, [] => []
  | before?, e :: rest =>
      match before?.filter fun b => Adjacent b.hi e.lo ∧ b.label = e.label with
      | some b =>
          [.setHi b.slot e.hi, .retire e.slot] ++
            if hi < e.lo then [] else joinEdits hi (some { b with hi := e.hi }) rest
      | none => if hi < e.lo then [] else joinEdits hi (some e) rest

/-- The map without the ranges of worth zero from a slot on, up to `hi`. -/
def prune (m : WorthMap α) (slot? : Option Nat) (hi : α) : WorthMap α :=
  m.applyAll (pruneEdits hi (splitAtSlot slot? m.entries).2)

/-- The map with equal neighbours joined from a slot on, up to `hi`. -/
def join (m : WorthMap α) (slot? : Option Nat) (hi : α) : WorthMap α :=
  let (before, within) := splitAtSlot slot? m.entries
  m.applyAll (joinEdits hi before.getLast? within)

/-- How the support from `lo` to `hi` changed from one map to another. -/
def supportChanges (old new : WorthMap α) (lo hi : α) : List (Change α) :=
  let before := old.supportWithin lo hi
  let after := new.supportWithin lo hi
  ((before.difference after).spans.map .lost) ++ ((after.difference before).spans.map .gained)

def add (m : WorthMap α) (lo hi : α) (worth : Worth) :
    Except Fault (WorthMap α × List (Change α)) :=
  if lo ≤ hi ∧ worth ≠ Worth.zero then do
    let cut := Cut.of lo hi m.entries
    let below? := cut.below.getLast?.map Entry.slot
    let edits ← spreadEdits (cut.above.head?.map Entry.slot) hi worth lo cut.touched
    let after := ((m.applyAll edits).prune below? hi).join below? hi
    return (after, m.supportChanges after lo hi)
  else .ok (m, [])

/-- Takes a worth away from every value from `lo` to `hi`. A worth that cannot be negated is a
fault, whatever the range. -/
def remove (m : WorthMap α) (lo hi : α) (worth : Worth) :
    Except Fault (WorthMap α × List (Change α)) := do
  m.add lo hi (← Worth.orFault (Worth.neg? worth) (.negation worth))

def inTurn (f : WorthMap α → Piece α → Except Fault (WorthMap α × List (Change α)))
    (m : WorthMap α) : List (Piece α) → Except Fault (WorthMap α × List (Change α))
  | [] => .ok (m, [])
  | piece :: rest => do
      let (after, changes) ← f m piece
      let (final, later) ← inTurn f after rest
      return (final, changes ++ later)

def addMap (m n : WorthMap α) : Except Fault (WorthMap α × List (Change α)) :=
  inTurn (fun m piece => m.add piece.lo piece.hi piece.worth) m n.ranges

def removeMap (m n : WorthMap α) : Except Fault (WorthMap α × List (Change α)) :=
  inTurn (fun m piece => m.remove piece.lo piece.hi piece.worth) m n.ranges

def clear (m : WorthMap α) : WorthMap α × List (Change α) :=
  (m.apply .clear, m.support.spans.map .lost)

end WorthMap

end RangeSets
