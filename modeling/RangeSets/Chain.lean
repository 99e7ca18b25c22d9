/-!
# Chains of numbered slots

A chain keeps ranges in the order it is told to, each in a numbered slot with links to the slots
before and after it. A slot that is given back goes on a stack, threaded through the same link
that leads to the next slot of the chain, and the slot given back last is the first to be used
again. Only when no slot is spare does the number of slots grow.

The chain knows nothing of numbers or of their order, and it keeps nothing but bounds and links.
What else is to be known of a range stands in a table of its own, by the number of the slot. An
edit names the label of the range that it puts in, for whoever keeps such a table.
-/

namespace RangeSets

structure Slot (α : Type) where
  lo : α
  hi : α
  prev : Option Nat
  next : Option Nat
  deriving DecidableEq

/-- Slots linked in both directions, and the stack of spare slots. -/
structure Chain (α : Type) where
  slots : Array (Slot α)
  head : Option Nat
  tail : Option Nat
  /-- The slot that was given back last. -/
  spare : Option Nat
  size : Nat
  deriving DecidableEq

/-- One change of a chain. A place that is left out stands for the end that has no slot on it. -/
inductive Edit (α β : Type) where
  /-- Puts a range right after a slot, or in front of all. -/
  | placeAfter (slot? : Option Nat) (lo hi : α) (label : β)
  /-- Puts a range right before a slot, or behind all. -/
  | placeBefore (slot? : Option Nat) (lo hi : α) (label : β)
  /-- Gives a slot back. -/
  | retire (slot : Nat)
  | setLo (slot : Nat) (lo : α)
  | setHi (slot : Nat) (hi : α)
  | setLabel (slot : Nat) (label : β)
  /-- Forgets all slots, the spare ones too. -/
  | clear
  deriving DecidableEq

namespace Chain

variable {α β : Type}

def empty : Chain α := ⟨#[], none, none, none, 0⟩

def next? (c : Chain α) (i : Nat) : Option Nat := c.slots[i]?.bind (·.next)

def prev? (c : Chain α) (i : Nat) : Option Nat := c.slots[i]?.bind (·.prev)

def nextSlot (c : Chain α) : Nat := c.spare.getD c.slots.size

def modify (c : Chain α) (i : Nat) (f : Slot α → Slot α) : Chain α :=
  { c with slots := c.slots.modify i f }

/-- Lets `j?` follow slot `i?`, or lead the chain. -/
def setNext (c : Chain α) (i? j? : Option Nat) : Chain α :=
  match i? with
  | some i => c.modify i fun s => { s with next := j? }
  | none => { c with head := j? }

/-- Lets `j?` precede slot `i?`, or end the chain. -/
def setPrev (c : Chain α) (i? j? : Option Nat) : Chain α :=
  match i? with
  | some i => c.modify i fun s => { s with prev := j? }
  | none => { c with tail := j? }

/-- Fills the slot given back last, or a new one. -/
def fill (c : Chain α) (s : Slot α) : Chain α :=
  match c.spare with
  | some i => { c with slots := c.slots.setIfInBounds i s, spare := c.next? i }
  | none => { c with slots := c.slots.push s }

/-- Puts a range between two neighbouring places. -/
def placeBetween (c : Chain α) (prev? next? : Option Nat) (lo hi : α) : Chain α :=
  let filled := c.fill ⟨lo, hi, prev?, next?⟩
  let linked := (filled.setNext prev? (some c.nextSlot)).setPrev next? (some c.nextSlot)
  { linked with size := c.size + 1 }

def placeAfter (c : Chain α) (slot? : Option Nat) (lo hi : α) : Chain α :=
  c.placeBetween slot? (match slot? with | some i => c.next? i | none => c.head) lo hi

def placeBefore (c : Chain α) (slot? : Option Nat) (lo hi : α) : Chain α :=
  c.placeBetween (match slot? with | some i => c.prev? i | none => c.tail) slot? lo hi

/-- Takes slot `i` out of the chain and puts it on the stack of spare slots. -/
def retire (c : Chain α) (i : Nat) : Chain α :=
  let linked := (c.setNext (c.prev? i) (c.next? i)).setPrev (c.next? i) (c.prev? i)
  { linked.modify i fun s => { s with prev := none, next := c.spare } with
    spare := some i
    size := c.size - 1 }

/-- The chain after an edit. Labels are not kept here. -/
def apply (c : Chain α) : Edit α β → Chain α
  | .placeAfter slot? lo hi _ => c.placeAfter slot? lo hi
  | .placeBefore slot? lo hi _ => c.placeBefore slot? lo hi
  | .retire i => c.retire i
  | .setLo i lo => c.modify i fun s => { s with lo }
  | .setHi i hi => c.modify i fun s => { s with hi }
  | .setLabel _ _ => c
  | .clear => empty

def applyAll (c : Chain α) (edits : List (Edit α β)) : Chain α := edits.foldl apply c

end Chain

end RangeSets
