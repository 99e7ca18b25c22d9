import RangeSets.Proofs.Chain.Consistent
import RangeSets.Proofs.Fault
/-!
# Chains, access by access

The edits of a chain again, with nothing taken for granted. Each access names the slot that it reads or
writes, and it comes to a breach when there is no such slot. A slot that is given back has to be the
head of the chain when it has no slot before it, and the tail when it has none behind it, and there has
to be a range to be given back. On a chain with a layout none of these checks fails, and what comes of
the accesses is the edit.
-/

namespace RangeSets

/-- What goes wrong when slots, worths or links are not what they should be. -/
inductive Breach where
  /-- A slot is read or written that is not there. -/
  | noSlot (i : Nat)
  /-- A worth is read or written that is not there. -/
  | noWorth (i : Nat)
  /-- A slot is given back that has none before it and is not the head. -/
  | notHead (i : Nat)
  /-- A slot is given back that has none behind it and is not the tail. -/
  | notTail (i : Nat)
  /-- A range is given back when there is none. -/
  | noneLeft
  /-- The values of a range are counted whose bounds are not in order. -/
  | disordered
  /-- A loop takes more steps than there are slots. -/
  | endless
  deriving DecidableEq

/-- Why work that is done access by access ends without a result. -/
inductive Stop where
  | breach (breach : Breach)
  | fault (fault : Fault)
  deriving DecidableEq

namespace Stepwise

variable {α β : Type}

def require (p : Prop) [Decidable p] (breach : Breach) : Except Stop Unit :=
  if p then .ok () else .error (.breach breach)

theorem require_of {p : Prop} [Decidable p] (h : p) (breach : Breach) :
    require p breach = .ok () := if_pos h

/-! ### Accesses -/

def readSlot (c : Chain α) (i : Nat) : Except Stop (Slot α) :=
  match c.slots[i]? with
  | some s => .ok s
  | none => .error (.breach (.noSlot i))

def writeSlot (c : Chain α) (i : Nat) (f : Slot α → Slot α) : Except Stop (Chain α) := do
  let _ ← readSlot c i
  return c.modify i f

/-- Lets `j?` follow slot `i?`, or lead the chain. -/
def linkNext (c : Chain α) (i? j? : Option Nat) : Except Stop (Chain α) :=
  match i? with
  | some i => writeSlot c i fun s => { s with next := j? }
  | none => .ok { c with head := j? }

/-- Lets `j?` precede slot `i?`, or end the chain. -/
def linkPrev (c : Chain α) (i? j? : Option Nat) : Except Stop (Chain α) :=
  match i? with
  | some i => writeSlot c i fun s => { s with prev := j? }
  | none => .ok { c with tail := j? }

/-- Puts a range without links in the slot given back last, or in a new one. -/
def allocate (c : Chain α) (lo hi : α) : Except Stop (Chain α × Nat) :=
  match c.spare with
  | some i => do
      let s ← readSlot c i
      let slots := c.slots.setIfInBounds i ⟨lo, hi, none, none⟩
      return ({ c with slots, spare := s.next }, i)
  | none => .ok ({ c with slots := c.slots.push ⟨lo, hi, none, none⟩ }, c.slots.size)

/-- Links a slot in between two neighbouring places. -/
def link (c : Chain α) (i : Nat) (prev? next? : Option Nat) : Except Stop (Chain α) := do
  let placed ← writeSlot c i fun s => { s with prev := prev?, next := next? }
  let led ← linkNext placed prev? (some i)
  let linked ← linkPrev led next? (some i)
  return { linked with size := linked.size + 1 }

/-- What comes behind a slot, or first. -/
def following (c : Chain α) : Option Nat → Except Stop (Option Nat)
  | some i => (readSlot c i).map Slot.next
  | none => .ok c.head

/-- What comes before a slot, or last. -/
def preceding (c : Chain α) : Option Nat → Except Stop (Option Nat)
  | some i => (readSlot c i).map Slot.prev
  | none => .ok c.tail

/-- Puts a range right after a slot, or in front of all, and says in which slot. -/
def insertAfter (c : Chain α) (slot? : Option Nat) (lo hi : α) : Except Stop (Chain α × Nat) := do
  let next? ← following c slot?
  let (filled, i) ← allocate c lo hi
  let linked ← link filled i slot? next?
  return (linked, i)

/-- Puts a range right before a slot, or behind all, and says in which slot. -/
def insertBefore (c : Chain α) (slot? : Option Nat) (lo hi : α) : Except Stop (Chain α × Nat) := do
  let prev? ← preceding c slot?
  let (filled, i) ← allocate c lo hi
  let linked ← link filled i prev? slot?
  return (linked, i)

/-- Takes a slot out of the chain and puts it on the stack of spare slots. -/
def release (c : Chain α) (i : Nat) : Except Stop (Chain α) := do
  let s ← readSlot c i
  require (s.prev = none → c.head = some i) (.notHead i)
  let led ← linkNext c s.prev s.next
  require (s.next = none → led.tail = some i) (.notTail i)
  let linked ← linkPrev led s.next s.prev
  let given ← writeSlot linked i fun t => { t with prev := none, next := linked.spare }
  require (given.size ≠ 0) .noneLeft
  return { given with spare := some i, size := given.size - 1 }

/-! ### What the accesses come to -/

section Accesses

variable {c : Chain α} {i : Nat} {i? : Option Nat}

theorem readSlot_eq {s : Slot α} (h : c.slots[i]? = some s) : readSlot c i = .ok s := by
  rw [readSlot, h]

theorem writeSlot_eq (h : i < c.slots.size) (f : Slot α → Slot α) :
    writeSlot c i f = .ok (c.modify i f) := by
  rw [writeSlot, readSlot_eq (Array.getElem?_eq_getElem h)]
  rfl

theorem linkNext_eq (h : ∀ i, i? = some i → i < c.slots.size) (j? : Option Nat) :
    linkNext c i? j? = .ok (c.setNext i? j?) := by
  cases i? with
  | none => rfl
  | some i => exact writeSlot_eq (h i rfl) _

theorem linkPrev_eq (h : ∀ i, i? = some i → i < c.slots.size) (j? : Option Nat) :
    linkPrev c i? j? = .ok (c.setPrev i? j?) := by
  cases i? with
  | none => rfl
  | some i => exact writeSlot_eq (h i rfl) _

theorem allocate_eq (h : ∀ i, c.spare = some i → i < c.slots.size) (lo hi : α) :
    allocate c lo hi = .ok (c.fill ⟨lo, hi, none, none⟩, c.nextSlot) := by
  cases hspare : c.spare with
  | none => simp only [allocate, Chain.fill, Chain.nextSlot, hspare, Option.getD_none]
  | some i =>
      have hslot := Array.getElem?_eq_getElem (h i hspare)
      simp only [allocate, Chain.fill, Chain.nextSlot, hspare, readSlot_eq hslot, ok_bind,
        Chain.next?, hslot, Option.bind_some, Option.getD_some]
      rfl

theorem link_eq {prev? next? : Option Nat} (hi : i < c.slots.size)
    (hprev : ∀ j, prev? = some j → j < c.slots.size)
    (hnext : ∀ j, next? = some j → j < c.slots.size) :
    link c i prev? next? = .ok
      { ((c.modify i fun s => { s with prev := prev?, next := next? }).setNext prev?
          (some i)).setPrev next? (some i) with size := c.size + 1 } := by
  rw [link, writeSlot_eq hi]
  simp only [ok_bind]
  rw [linkNext_eq (by simpa using hprev)]
  simp only [ok_bind]
  rw [linkPrev_eq (by simpa using hnext)]
  have hsize : ((c.modify i fun s => { s with prev := prev?, next := next? }).setNext prev?
      (some i) |>.setPrev next? (some i)).size = c.size := by
    cases prev? <;> cases next? <;> rfl
  simp only [ok_bind, hsize]
  rfl

theorem size_fill (c : Chain α) (s : Slot α) : (c.fill s).size = c.size := by
  rw [Chain.fill]
  split <;> rfl

theorem slots_size_le_fill (c : Chain α) (s : Slot α) : c.slots.size ≤ (c.fill s).slots.size := by
  rw [Chain.fill]
  split <;> simp

theorem nextSlot_lt_fill (h : ∀ i, c.spare = some i → i < c.slots.size) (s : Slot α) :
    c.nextSlot < (c.fill s).slots.size := by
  have hslot := Chain.slots_fill_nextSlot c s h
  exact (Array.getElem?_eq_some_iff.mp hslot).1

end Accesses

end Stepwise

/-! ### Chains with a layout -/

namespace Chain.Holds

open Stepwise

variable {α β : Type} {c : Chain α} {xs ys : List (Entry α β)} {e : Entry α β} {spares : List Nat}

theorem readSlot_eq (h : c.Holds ⟨xs ++ e :: ys, spares⟩) :
    readSlot c e.slot = .ok ⟨e.lo, e.hi, lastSlot none xs, firstSlot ys none⟩ :=
  Stepwise.readSlot_eq h.slots_entry

theorem slot_lt (h : c.Holds ⟨xs ++ e :: ys, spares⟩) : e.slot < c.slots.size :=
  h.mem_iff.mp (by simp)

theorem lt_of_lastSlot (h : c.Holds ⟨xs ++ ys, spares⟩) {i : Nat} (hi : lastSlot none xs = some i) :
    i < c.slots.size :=
  h.mem_iff.mp (by simp [List.mem_map.mp (mem_of_lastSlot hi)])

theorem lt_of_firstSlot (h : c.Holds ⟨xs ++ ys, spares⟩) {i : Nat}
    (hi : firstSlot ys none = some i) : i < c.slots.size :=
  h.mem_iff.mp (by simp [List.mem_map.mp (mem_of_firstSlot hi)])

theorem following_eq (h : c.Holds ⟨xs ++ ys, spares⟩) :
    following c (lastSlot none xs) = .ok (firstSlot ys none) := by
  rcases List.eq_nil_or_concat xs with rfl | ⟨zs, d, rfl⟩
  · exact congrArg Except.ok h.threads.1
  · rw [List.concat_eq_append, List.append_assoc] at h
    rw [List.concat_eq_append, lastSlot_append, lastSlot_cons, lastSlot_nil, following,
      h.readSlot_eq]
    rfl

theorem preceding_eq (h : c.Holds ⟨xs ++ ys, spares⟩) :
    preceding c (firstSlot ys none) = .ok (lastSlot none xs) := by
  cases ys with
  | nil =>
      have htail := h.threads.2.1
      rw [List.append_nil] at htail
      exact congrArg Except.ok htail
  | cons d rest =>
      rw [firstSlot_cons, preceding, h.readSlot_eq]
      rfl

theorem insertBetween_eq (h : c.Holds ⟨xs ++ ys, spares⟩) (lo hi : α) :
    (do let (filled, i) ← allocate c lo hi
        let linked ← link filled i (lastSlot none xs) (firstSlot ys none)
        return (linked, i)) =
      (.ok (c.placeBetween (lastSlot none xs) (firstSlot ys none) lo hi, c.nextSlot) :
        Except Stop (Chain α × Nat)) := by
  have hspare : ∀ i, c.spare = some i → i < c.slots.size := fun i hi => h.spare_lt hi
  have hgrows := slots_size_le_fill c ⟨lo, hi, none, none⟩
  rw [allocate_eq hspare]
  simp only [ok_bind]
  rw [link_eq (nextSlot_lt_fill hspare _)
    (fun i hi => Nat.lt_of_lt_of_le (h.lt_of_lastSlot hi) hgrows)
    (fun i hi => Nat.lt_of_lt_of_le (h.lt_of_firstSlot hi) hgrows), modify_fill _ _ _ hspare, size_fill]
  rfl

theorem insertAfter_eq (h : c.Holds ⟨xs ++ ys, spares⟩) (lo hi : α) :
    insertAfter c (lastSlot none xs) lo hi =
      .ok (c.placeAfter (lastSlot none xs) lo hi, c.nextSlot) := by
  rw [insertAfter, h.following_eq, h.placeAfter_eq]
  exact h.insertBetween_eq lo hi

theorem insertBefore_eq (h : c.Holds ⟨xs ++ ys, spares⟩) (lo hi : α) :
    insertBefore c (firstSlot ys none) lo hi =
      .ok (c.placeBefore (firstSlot ys none) lo hi, c.nextSlot) := by
  rw [insertBefore, h.preceding_eq, h.placeBefore_eq]
  exact h.insertBetween_eq lo hi

theorem release_eq (h : c.Holds ⟨xs ++ e :: ys, spares⟩) :
    release c e.slot = .ok (c.retire e.slot) := by
  have hprev : c.prev? e.slot = lastSlot none xs := by simp [Chain.prev?, h.slots_entry]
  have hnext : c.next? e.slot = firstSlot ys none := by simp [Chain.next?, h.slots_entry]
  have hhead : lastSlot none xs = none → c.head = some e.slot := by
    intro hnone
    have hempty : xs = [] := by
      rcases List.eq_nil_or_concat xs with rfl | ⟨zs, d, rfl⟩
      · rfl
      · simp at hnone
    rw [h.threads.1, hempty]
    rfl
  have htail : firstSlot ys none = none → c.tail = some e.slot := by
    intro hnone
    have hempty : ys = [] := by
      cases ys with
      | nil => rfl
      | cons d rest => cases hnone
    rw [h.threads.2.1, hempty]
    simp
  have hsize : c.size ≠ 0 := by
    rw [h.size_eq]
    simp
  have hbefore : c.Holds ⟨xs ++ ([e] ++ ys), spares⟩ := h
  have hbehind : c.Holds ⟨(xs ++ [e]) ++ ys, spares⟩ := by simpa using h
  rw [release, h.readSlot_eq, Chain.retire, hprev, hnext]
  simp only [ok_bind]
  rw [require_of hhead, linkNext_eq fun i hi => hbefore.lt_of_lastSlot hi]
  simp only [ok_bind]
  rw [require_of (by simpa using htail),
    linkPrev_eq fun i hi => by simpa using hbehind.lt_of_firstSlot hi]
  simp only [ok_bind]
  rw [writeSlot_eq (by simpa using h.slot_lt)]
  simp only [ok_bind]
  have hkept : (((c.setNext (lastSlot none xs) (firstSlot ys none)).setPrev (firstSlot ys none)
      (lastSlot none xs)).modify e.slot fun t => { t with prev := none, next := c.spare }).size =
      c.size := by
    cases lastSlot none xs <;> cases firstSlot ys none <;> rfl
  rw [spare_setPrev, spare_setNext, hkept, require_of hsize]
  rfl

/-- Without a layout the checks may fail: here no slot leads the chain. -/
example : release (⟨#[⟨1, 2, none, none⟩], none, none, none, 1⟩ : Chain Nat) 0 =
    .error (.breach (.notHead 0)) := rfl

end Chain.Holds

end RangeSets
