import RangeSets.Proofs.Chain.Growth
import RangeSets.Proofs.Stepwise.Chain
/-!
# Editing a chain and editing a list

A layout can be edited by itself, without any links: a range goes right after or right before an
entry of a list, an entry leaves the list and its slot goes on a stack, and a new entry takes the slot
on top of that stack. A chain does the same, however its edits follow one another, as long as each of
them names slots that are on the chain when its turn comes. Its links then read the list forwards and
backwards, its spare slots hang together like the stack, and access by access no check of it fails.
-/

namespace RangeSets

variable {α β : Type}

/-! ### Edits of a layout -/

/-- The slot that an edit names. -/
def Edit.slot? : Edit α β → Option Nat
  | placeAfter slot? _ _ _ | placeBefore slot? _ _ _ => slot?
  | retire i | setLo i _ | setHi i _ | setLabel i _ => some i
  | clear => none

namespace Layout

def empty : Layout α β := ⟨[], []⟩

/-- The entries with others in the place of the one in a slot. -/
def substitute (p : Layout α β) (i : Nat) (f : Entry α β → List (Entry α β)) : List (Entry α β) :=
  p.entries.flatMap fun e => if e.slot = i then f e else [e]

/-- The layout after an edit. Whatever is put in takes the slot on top of the stack, or a new one. -/
def edit (p : Layout α β) : Edit α β → Layout α β
  | .placeAfter none lo hi label => ⟨⟨p.nextSlot, lo, hi, label⟩ :: p.entries, p.spares.tail⟩
  | .placeAfter (some i) lo hi label =>
      ⟨p.substitute i fun e => [e, ⟨p.nextSlot, lo, hi, label⟩], p.spares.tail⟩
  | .placeBefore none lo hi label => ⟨p.entries ++ [⟨p.nextSlot, lo, hi, label⟩], p.spares.tail⟩
  | .placeBefore (some i) lo hi label =>
      ⟨p.substitute i fun e => [⟨p.nextSlot, lo, hi, label⟩, e], p.spares.tail⟩
  | .retire i => ⟨p.substitute i fun _ => [], i :: p.spares⟩
  | .setLo i lo => { p with entries := p.substitute i fun e => [{ e with lo }] }
  | .setHi i hi => { p with entries := p.substitute i fun e => [{ e with hi }] }
  | .setLabel i label => { p with entries := p.substitute i fun e => [{ e with label }] }
  | .clear => empty

def editAll (p : Layout α β) (edits : List (Edit α β)) : Layout α β := edits.foldl edit p

/-- The slot that an edit takes, if it puts a range in. -/
def slotFor? (p : Layout α β) (edit : Edit α β) : Option Nat :=
  if edit.places then some p.nextSlot else none

/-- The slots that edits take, one after another. -/
def slotsFor (p : Layout α β) : List (Edit α β) → List (Option Nat)
  | [] => []
  | edit :: rest => p.slotFor? edit :: (p.edit edit).slotsFor rest

variable {p : Layout α β}

/-- All entries but the one in the slot keep their places. -/
theorem substitute_split {xs ys : List (Entry α β)} {e : Entry α β} (hsplit : p.entries = xs ++ e :: ys)
    (hnodup : (p.entries.map Entry.slot).Nodup) (f : Entry α β → List (Entry α β)) :
    p.substitute e.slot f = xs ++ f e ++ ys := by
  have hothers : ∀ es : List (Entry α β), e.slot ∉ es.map Entry.slot →
      (es.flatMap fun d => if d.slot = e.slot then f d else [d]) = es := by
    intro es hes
    induction es with
    | nil => rfl
    | cons d rest ih =>
        rw [List.map_cons, List.mem_cons, not_or] at hes
        rw [List.flatMap_cons, if_neg (Ne.symm hes.1), ih hes.2, List.singleton_append]
  rw [hsplit, List.map_append, List.map_cons, List.nodup_append, List.nodup_cons] at hnodup
  obtain ⟨_, ⟨hys, _⟩, hne⟩ := hnodup
  have hxs : e.slot ∉ xs.map Entry.slot := fun hmem => hne e.slot hmem e.slot (by simp) rfl
  rw [substitute, hsplit, List.flatMap_append, List.flatMap_cons, if_pos rfl, hothers xs hxs,
    hothers ys hys, List.append_assoc]

/-- An edit that names slots of the layout makes a step of it. -/
theorem step_edit (hnodup : (p.entries.map Entry.slot).Nodup) {edit : Edit α β}
    (hlive : ∀ i ∈ edit.slot?, i ∈ p.entries.map Entry.slot) : Step p edit (p.edit edit) := by
  obtain ⟨entries, spares⟩ := p
  have hsplit : ∀ i, edit.slot? = some i →
      ∃ xs e ys, entries = xs ++ e :: ys ∧ e.slot = i ∧
        ∀ f, substitute ⟨entries, spares⟩ i f = xs ++ f e ++ ys := by
    intro i hi
    obtain ⟨e, he, rfl⟩ := List.mem_map.mp (hlive i hi)
    obtain ⟨xs, ys, hsplit⟩ := List.append_of_mem he
    exact ⟨xs, e, ys, hsplit, rfl, substitute_split hsplit hnodup⟩
  cases edit with
  | placeAfter slot? lo hi label =>
      cases slot? with
      | none => exact .placeAfter [] entries spares lo hi label
      | some i =>
          obtain ⟨xs, e, ys, rfl, rfl, hsubst⟩ := hsplit i rfl
          have hstep := Step.placeAfter (xs ++ [e]) ys spares lo hi label
          rw [Layout.edit, hsubst]
          simpa using hstep
  | placeBefore slot? lo hi label =>
      cases slot? with
      | none =>
          have hstep := Step.placeBefore entries [] spares lo hi label
          rwa [List.append_nil] at hstep
      | some i =>
          obtain ⟨xs, e, ys, rfl, rfl, hsubst⟩ := hsplit i rfl
          have hstep := Step.placeBefore xs (e :: ys) spares lo hi label
          rw [Layout.edit, hsubst]
          simpa using hstep
  | retire i =>
      obtain ⟨xs, e, ys, rfl, rfl, hsubst⟩ := hsplit i rfl
      rw [Layout.edit, hsubst, List.append_nil]
      exact .retire xs e ys spares
  | setLo i lo =>
      obtain ⟨xs, e, ys, rfl, rfl, hsubst⟩ := hsplit i rfl
      rw [Layout.edit, hsubst, List.append_assoc]
      exact .setLo xs e ys spares lo
  | setHi i hi =>
      obtain ⟨xs, e, ys, rfl, rfl, hsubst⟩ := hsplit i rfl
      rw [Layout.edit, hsubst, List.append_assoc]
      exact .setHi xs e ys spares hi
  | setLabel i label =>
      obtain ⟨xs, e, ys, rfl, rfl, hsubst⟩ := hsplit i rfl
      rw [Layout.edit, hsubst, List.append_assoc]
      exact .setLabel xs e ys spares label
  | clear => exact .clear _

end Layout

/-! ### Edits access by access -/

namespace Stepwise

/-- The chain after an edit, and the slot that the edit has taken. -/
def makeEdit (c : Chain α) : Edit α β → Except Stop (Chain α × Option Nat)
  | .placeAfter slot? lo hi _ => (insertAfter c slot? lo hi).map fun (d, i) => (d, some i)
  | .placeBefore slot? lo hi _ => (insertBefore c slot? lo hi).map fun (d, i) => (d, some i)
  | .retire i => (release c i).map fun d => (d, none)
  | .setLo i lo => (writeSlot c i fun s => { s with lo }).map fun d => (d, none)
  | .setHi i hi => (writeSlot c i fun s => { s with hi }).map fun d => (d, none)
  | .setLabel _ _ => .ok (c, none)
  | .clear => .ok (.empty, none)

/-- The chain after edits, the first one made first, and the slots that they have taken. -/
def makeEdits (c : Chain α) : List (Edit α β) → Except Stop (Chain α × List (Option Nat))
  | [] => .ok (c, [])
  | edit :: rest => do
      let (d, slot?) ← makeEdit c edit
      let (after, slots) ← makeEdits d rest
      return (after, slot? :: slots)

end Stepwise

namespace Chain

open Stepwise

variable {c : Chain α} {p q : Layout α β} {edit : Edit α β} {edits : List (Edit α β)}

theorem Holds.makeEdit_eq (h : c.Holds p) (hstep : Layout.Step p edit q) :
    makeEdit c edit = .ok (c.apply edit, p.slotFor? edit) := by
  cases hstep with
  | placeAfter xs ys spares lo hi label =>
      rw [makeEdit, h.insertAfter_eq, h.nextSlot_eq]
      rfl
  | placeBefore xs ys spares lo hi label =>
      rw [makeEdit, h.insertBefore_eq, h.nextSlot_eq]
      rfl
  | retire xs e ys spares =>
      rw [makeEdit, h.release_eq]
      rfl
  | setLo xs e ys spares lo =>
      rw [makeEdit, writeSlot_eq h.slot_lt]
      rfl
  | setHi xs e ys spares hi =>
      rw [makeEdit, writeSlot_eq h.slot_lt]
      rfl
  | setLabel | clear => rfl

/-! ### Edits in turn -/

/-- Each edit names slots that are on the chain when its turn comes. -/
def Allows (c : Chain α) : List (Edit α β) → Prop
  | [] => True
  | edit :: rest => (∀ i ∈ edit.slot?, i ∈ c.live) ∧ (c.apply edit).Allows rest

instance decidableAllows : (c : Chain α) → (edits : List (Edit α β)) → Decidable (c.Allows edits)
  | _, [] => inferInstanceAs (Decidable True)
  | c, edit :: rest =>
      have := decidableAllows (c.apply edit) rest
      inferInstanceAs (Decidable ((∀ i ∈ edit.slot?, i ∈ c.live) ∧ (c.apply edit).Allows rest))

/-- Edits that a chain allows are steps of its layout. They come to no breach, and they take the slots
that the layout says. -/
theorem Holds.makeEdits_eq (h : c.Holds p) (hallows : c.Allows edits) :
    Layout.Steps p edits (p.editAll edits) ∧
      makeEdits c edits = .ok (c.applyAll edits, p.slotsFor edits) := by
  induction edits generalizing c p with
  | nil => exact ⟨.nil p, rfl⟩
  | cons edit rest ih =>
      obtain ⟨hlive, hrest⟩ := hallows
      rw [h.live_eq] at hlive
      have hstep := Layout.step_edit (List.nodup_append.mp h.nodup).1 hlive
      obtain ⟨hsteps, hmade⟩ := ih (h.step hstep) hrest
      refine ⟨.cons hstep hsteps, ?_⟩
      rw [makeEdits, h.makeEdit_eq hstep]
      simp only [ok_bind, hmade]
      rfl

/-! ### Reading a chain both ways -/

/-- The entries from a slot back to the first one, within a number of steps. -/
def walkBack? (c : Chain α) : Nat → Option Nat → Option (List (Entry α Unit))
  | _, none => some []
  | 0, some _ => none
  | steps + 1, some i =>
      match c.slots[i]? with
      | none => none
      | some s => (c.walkBack? steps s.prev).map (⟨i, s.lo, s.hi, ()⟩ :: ·)

/-- Walking back through entries, what is left of the walk goes on from the place before them. -/
theorem walkBack?_of_linked {before? after? : Option Nat} {xs : List (Entry α β)}
    (h : c.Linked before? xs after?) (steps : Nat) :
    c.walkBack? (xs.length + steps) (lastSlot before? xs) =
      (c.walkBack? steps before?).map ((xs.map Entry.bare).reverse ++ ·) := by
  induction xs generalizing before? steps with
  | nil => simp
  | cons e rest ih =>
      obtain ⟨hslot, hrest⟩ := h
      have hback := ih hrest (steps + 1)
      rw [List.length_cons, lastSlot_cons, Nat.add_right_comm, Nat.add_assoc, hback, walkBack?, hslot,
        List.map_cons, List.reverse_cons, Option.map_map]
      congr 1
      funext found
      exact List.append_cons ..

/-- The links of a chain read the entries of a layout forwards and backwards, its spare slots hang
together like those of the layout, and there is no other slot. -/
structure Reads (c : Chain α) (p : Layout α β) : Prop where
  forwards : c.walk? c.slots.size c.head = some (p.entries.map Entry.bare)
  backwards : c.walkBack? c.slots.size c.tail = some (p.entries.map Entry.bare).reverse
  stacked : c.Stacked c.spare p.spares
  size_eq : c.size = p.entries.length
  slots_size : c.slots.size = p.entries.length + p.spares.length
  /-- Each slot is on the chain or spare, and only once. -/
  slots_once : (p.entries.map Entry.slot ++ p.spares).Perm (List.range c.slots.size)

theorem Holds.reads (h : c.Holds p) : c.Reads p where
  forwards := h.walk?_head
  backwards := by
    rw [h.threads.2.1, h.slots_size, walkBack?_of_linked h.threads.2.2]
    cases p.spares.length <;> simp [walkBack?]
  stacked := h.stacked
  size_eq := h.size_eq
  slots_size := h.slots_size
  slots_once := h.slots_perm

/-- A chain follows the layout that is edited beside it, whatever edits there are: each of them is a
step of the layout, takes the slot that the layout says, and comes to no breach, and the chain reads
the layout at the end. -/
theorem edits_follow_layout (edits : List (Edit α β)) (h : (empty : Chain α).Allows edits) :
    Layout.Steps .empty edits (Layout.empty.editAll edits) ∧
      makeEdits empty edits = .ok (empty.applyAll edits, Layout.empty.slotsFor edits) ∧
      (empty.applyAll edits).Reads (Layout.empty.editAll edits) := by
  have hempty : (empty : Chain α).Holds (Layout.empty : Layout α β) := holds_empty
  obtain ⟨hsteps, hmade⟩ := hempty.makeEdits_eq h
  exact ⟨hsteps, hmade, (hempty.steps hsteps).reads⟩

/-- Ranges put in at both ends and in between, with slots given back from the front, from the end
and at last the only one, and taken again. -/
def shuffle : List (Edit Nat Unit) :=
  [.placeBefore none 1 1 (), .placeBefore none 3 3 (), .placeAfter (some 1) 5 5 (), .retire 1,
    .retire 0, .placeAfter none 0 0 (), .placeBefore (some 2) 4 4 (), .setHi 1 6, .retire 0,
    .retire 2, .retire 1, .placeAfter none 8 9 ()]

theorem shuffle_follows :
    (empty : Chain Nat).Allows shuffle ∧
      makeEdits (empty : Chain Nat) shuffle = .ok (empty.applyAll shuffle,
        [some 0, some 1, some 2, none, none, some 0, some 1, none, none, none, none, some 1]) ∧
      (empty.applyAll shuffle).Reads (⟨[⟨1, 8, 9, ()⟩], [2, 0]⟩ : Layout Nat Unit) := by
  have hallows : (empty : Chain Nat).Allows shuffle := by decide
  obtain ⟨_, hmade, hreads⟩ := edits_follow_layout shuffle hallows
  exact ⟨hallows, hmade, hreads⟩

end Chain

end RangeSets
