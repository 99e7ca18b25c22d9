import RangeSets.Chain
import RangeSets.Span
/-!
# The entries of a chain

A chain is read by following the links from its head. `walk?` follows them strictly: it has no
answer when a link leads to a slot that is not there, or when the links do not come to an end
within as many steps as there are slots. On a chain that was built by edits of its own slots
neither happens, and `entries` is the list of its ranges in order.

The searches below are functions on that list. They decide by the first comparison that fails, so
they mean what they should on ranges that ascend.
-/

namespace RangeSets

open Scale

/-- A labelled range on a chain, with the number of its slot. A chain that is read by itself has
no labels to give. -/
structure Entry (α β : Type) where
  slot : Nat
  lo : α
  hi : α
  label : β
  deriving DecidableEq

def Entry.span {α β : Type} (e : Entry α β) : Span α := ⟨e.lo, e.hi⟩

namespace Chain

variable {α : Type}

/-- The entries from a slot on, within a number of steps. -/
def walk? (c : Chain α) : Nat → Option Nat → Option (List (Entry α Unit))
  | _, none => some []
  | 0, some _ => none
  | steps + 1, some i =>
      match c.slots[i]? with
      | none => none
      | some s => (c.walk? steps s.next).map (⟨i, s.lo, s.hi, ()⟩ :: ·)

def entries (c : Chain α) : List (Entry α Unit) := (c.walk? c.slots.size c.head).getD []

def span? (c : Chain α) (i : Nat) : Option (Span α) := c.slots[i]?.map fun s => ⟨s.lo, s.hi⟩

def spanAfter? (c : Chain α) (i : Nat) : Option (Span α) := (c.next? i).bind c.span?

def spanBefore? (c : Chain α) (i : Nat) : Option (Span α) := (c.prev? i).bind c.span?

/-- The first range, read through the head of the chain. -/
def first? (c : Chain α) : Option (Span α) := c.head.bind c.span?

/-- The last range, read through the tail of the chain. -/
def last? (c : Chain α) : Option (Span α) := c.tail.bind c.span?

end Chain

/-- Where a value stands in a chain of ascending ranges. -/
inductive Position where
  /-- In the range of this slot. -/
  | inside (slot : Nat)
  /-- Below the range of this slot and above the one before it. -/
  | before (slot : Nat)
  /-- Above all ranges, or not to be compared with them. -/
  | pastEnd
  deriving DecidableEq

variable {α β : Type} [Scale α]

def Position.of (v : α) : List (Entry α β) → Position
  | [] => .pastEnd
  | e :: rest =>
      if v < e.lo then .before e.slot
      else if v ≤ e.hi then .inside e.slot
      else Position.of v rest

/-- The entries that end below a range, those that meet it, and those above it. -/
structure Cut (α β : Type) where
  below : List (Entry α β)
  touched : List (Entry α β)
  above : List (Entry α β)

/-- An entry ends below a value: the value is neither below the entry nor in it. So it is also for a
value that compares with nothing, which stands past all entries. -/
def Entry.EndsBelow (v : α) (e : Entry α β) : Prop := ¬ v < e.lo ∧ ¬ v ≤ e.hi

instance (v : α) (e : Entry α β) : Decidable (e.EndsBelow v) :=
  inferInstanceAs (Decidable (_ ∧ _))

/-- Cuts entries at the ends of a range. -/
def Cut.of (lo hi : α) (entries : List (Entry α β)) : Cut α β :=
  let reached := entries.dropWhile fun e => e.EndsBelow lo
  { below := entries.takeWhile fun e => e.EndsBelow lo
    touched := reached.takeWhile fun e => ¬ hi < e.lo
    above := reached.dropWhile fun e => ¬ hi < e.lo }

end RangeSets
