import RangeSets.Chain.Entry
/-!
# The layout of a chain

A layout is what a chain stands for: its entries in order, and the stack of its spare slots. A chain
has a layout when the links run through the entries forwards and backwards, the spare slots hang
together below the top of the stack, and each slot is on exactly one side, once.

The links are cut at a place between two entries. What stands before the place is fixed by the head
of the chain and by its own slots, what stands behind it by the tail and its own slots, and the two
sides meet in two links only. Splicing is then a matter of the two sides apart.
-/

namespace RangeSets

variable {α β : Type}

/-- The entries of a chain in order, and its spare slots from the top of the stack. -/
structure Layout (α β : Type) where
  entries : List (Entry α β)
  spares : List Nat

/-- The slot of the first entry, or what comes behind when there is none. -/
def firstSlot : List (Entry α β) → Option Nat → Option Nat
  | [], after? => after?
  | e :: _, _ => some e.slot

/-- The slot of the last entry, or what comes before when there is none. -/
def lastSlot : Option Nat → List (Entry α β) → Option Nat
  | before?, [] => before?
  | _, e :: rest => lastSlot (some e.slot) rest

@[simp] theorem firstSlot_nil (after? : Option Nat) :
    firstSlot ([] : List (Entry α β)) after? = after? := rfl

@[simp] theorem firstSlot_cons (e : Entry α β) (rest : List (Entry α β)) (after? : Option Nat) :
    firstSlot (e :: rest) after? = some e.slot := rfl

@[simp] theorem lastSlot_nil (before? : Option Nat) :
    lastSlot before? ([] : List (Entry α β)) = before? := rfl

@[simp] theorem lastSlot_cons (before? : Option Nat) (e : Entry α β) (rest : List (Entry α β)) :
    lastSlot before? (e :: rest) = lastSlot (some e.slot) rest := rfl

@[simp] theorem firstSlot_append (xs ys : List (Entry α β)) (after? : Option Nat) :
    firstSlot (xs ++ ys) after? = firstSlot xs (firstSlot ys after?) := by
  cases xs <;> rfl

@[simp] theorem lastSlot_append (before? : Option Nat) (xs ys : List (Entry α β)) :
    lastSlot before? (xs ++ ys) = lastSlot (lastSlot before? xs) ys := by
  induction xs generalizing before? with
  | nil => rfl
  | cons e rest ih => exact ih (some e.slot)

theorem firstSlot_eq_head? (xs : List (Entry α β)) :
    firstSlot xs none = xs.head?.map Entry.slot := by
  cases xs <;> rfl

theorem lastSlot_eq_getLast? (xs : List (Entry α β)) :
    lastSlot none xs = xs.getLast?.map Entry.slot := by
  rcases List.eq_nil_or_concat xs with rfl | ⟨ys, e, rfl⟩
  · rfl
  · simp

theorem mem_of_firstSlot {xs : List (Entry α β)} {i : Nat} (h : firstSlot xs none = some i) :
    i ∈ xs.map Entry.slot := by
  cases xs with
  | nil => simp at h
  | cons e rest =>
      rw [firstSlot_cons, Option.some.injEq] at h
      simp [h]

theorem mem_of_lastSlot {xs : List (Entry α β)} {i : Nat} (h : lastSlot none xs = some i) :
    i ∈ xs.map Entry.slot := by
  rcases List.eq_nil_or_concat xs with rfl | ⟨ys, e, rfl⟩
  · simp at h
  · simp only [List.concat_eq_append, lastSlot_append, lastSlot_cons, lastSlot_nil,
      Option.some.injEq] at h
    simp [h]

namespace Chain

/-! ### Links through entries -/

/-- The slots of the entries hold their bounds and link to each other, with `before?` in front and
`after?` behind. -/
def Linked (c : Chain α) : Option Nat → List (Entry α β) → Option Nat → Prop
  | _, [], _ => True
  | before?, e :: rest, after? =>
      c.slots[e.slot]? = some ⟨e.lo, e.hi, before?, firstSlot rest after?⟩ ∧
        c.Linked (some e.slot) rest after?

theorem linked_append {c : Chain α} {before? after? : Option Nat} {xs ys : List (Entry α β)} :
    c.Linked before? (xs ++ ys) after? ↔
      c.Linked before? xs (firstSlot ys after?) ∧ c.Linked (lastSlot before? xs) ys after? := by
  induction xs generalizing before? with
  | nil => simp [Linked]
  | cons e rest ih => simp [Linked, ih, and_assoc]

theorem Linked.congr {c d : Chain α} {before? after? : Option Nat} {xs : List (Entry α β)}
    (h : c.Linked before? xs after?)
    (hslots : ∀ i ∈ xs.map Entry.slot, d.slots[i]? = c.slots[i]?) :
    d.Linked before? xs after? := by
  induction xs generalizing before? with
  | nil => trivial
  | cons e rest ih =>
      obtain ⟨hslot, hrest⟩ := h
      refine ⟨?_, ih hrest fun i hi => hslots i (List.mem_cons_of_mem _ hi)⟩
      rw [hslots e.slot (by simp), hslot]

/-- The entries lead from the head of the chain up to `after?`. -/
def LeadsTo (c : Chain α) (xs : List (Entry α β)) (after? : Option Nat) : Prop :=
  c.head = firstSlot xs after? ∧ c.Linked none xs after?

/-- The entries lead from `before?` to the tail of the chain. -/
def EndsFrom (c : Chain α) (before? : Option Nat) (ys : List (Entry α β)) : Prop :=
  c.tail = lastSlot before? ys ∧ c.Linked before? ys none

/-- The entries lead from the head of the chain to its tail. -/
def Threads (c : Chain α) (es : List (Entry α β)) : Prop :=
  c.head = firstSlot es none ∧ c.tail = lastSlot none es ∧ c.Linked none es none

theorem threads_append {c : Chain α} {xs ys : List (Entry α β)} :
    c.Threads (xs ++ ys) ↔
      c.LeadsTo xs (firstSlot ys none) ∧ c.EndsFrom (lastSlot none xs) ys := by
  rw [Threads, LeadsTo, EndsFrom, linked_append, firstSlot_append, lastSlot_append]
  constructor
  · rintro ⟨hhead, htail, hxs, hys⟩
    exact ⟨⟨hhead, hxs⟩, htail, hys⟩
  · rintro ⟨⟨hhead, hxs⟩, htail, hys⟩
    exact ⟨hhead, htail, hxs, hys⟩

theorem LeadsTo.congr {c d : Chain α} {xs : List (Entry α β)} {after? : Option Nat}
    (h : c.LeadsTo xs after?) (hhead : d.head = c.head)
    (hslots : ∀ i ∈ xs.map Entry.slot, d.slots[i]? = c.slots[i]?) : d.LeadsTo xs after? :=
  ⟨hhead.trans h.1, h.2.congr hslots⟩

theorem EndsFrom.congr {c d : Chain α} {ys : List (Entry α β)} {before? : Option Nat}
    (h : c.EndsFrom before? ys) (htail : d.tail = c.tail)
    (hslots : ∀ i ∈ ys.map Entry.slot, d.slots[i]? = c.slots[i]?) : d.EndsFrom before? ys :=
  ⟨htail.trans h.1, h.2.congr hslots⟩

/-! ### Spare slots -/

/-- The spare slots hang together from `top?`. -/
def Stacked (c : Chain α) : Option Nat → List Nat → Prop
  | top?, [] => top? = none
  | top?, i :: rest => top? = some i ∧ c.Stacked (c.next? i) rest

theorem next?_congr {c d : Chain α} {i : Nat} (h : d.slots[i]? = c.slots[i]?) :
    d.next? i = c.next? i := by
  rw [next?, next?, h]

theorem Stacked.congr {c d : Chain α} {top? : Option Nat} {spares : List Nat}
    (h : c.Stacked top? spares) (hslots : ∀ i ∈ spares, d.slots[i]? = c.slots[i]?) :
    d.Stacked top? spares := by
  induction spares generalizing top? with
  | nil => exact h
  | cons i rest ih =>
      obtain ⟨htop, hrest⟩ := h
      refine ⟨htop, ?_⟩
      rw [next?_congr (hslots i (by simp))]
      exact ih hrest fun j hj => hslots j (List.mem_cons_of_mem _ hj)

theorem Stacked.top? {c : Chain α} {top? : Option Nat} {spares : List Nat}
    (h : c.Stacked top? spares) : top? = spares.head? := by
  cases spares with
  | nil => exact h
  | cons i rest => exact h.1

/-! ### Chains with a layout -/

/-- A chain stands for a layout. -/
structure Holds (c : Chain α) (p : Layout α β) : Prop where
  threads : c.Threads p.entries
  stacked : c.Stacked c.spare p.spares
  size_eq : c.size = p.entries.length
  /-- Each slot is on the chain or spare, and only once. -/
  slots_perm : (p.entries.map Entry.slot ++ p.spares).Perm (List.range c.slots.size)

namespace Holds

variable {c : Chain α} {p : Layout α β}

theorem nodup (h : c.Holds p) : (p.entries.map Entry.slot ++ p.spares).Nodup :=
  h.slots_perm.nodup_iff.mpr List.nodup_range

theorem mem_iff (h : c.Holds p) {i : Nat} :
    i ∈ p.entries.map Entry.slot ++ p.spares ↔ i < c.slots.size := by
  rw [h.slots_perm.mem_iff, List.mem_range]

theorem slots_size (h : c.Holds p) : c.slots.size = p.entries.length + p.spares.length := by
  have := h.slots_perm.length_eq
  simpa using this.symm

theorem spare_eq (h : c.Holds p) : c.spare = p.spares.head? := h.stacked.top?

end Holds

theorem holds_empty : (empty : Chain α).Holds (⟨[], []⟩ : Layout α β) where
  threads := ⟨rfl, rfl, trivial⟩
  stacked := rfl
  size_eq := rfl
  slots_perm := List.Perm.refl _

end Chain

end RangeSets
