import RangeSets.Proofs.Chain.Splice
/-!
# Consistent chains

What a chain with a layout looks like from outside. Following the links from the head comes to an
end and reads the entries in order; a link forwards has its link backwards and the other way round;
head and tail are the two ends; the size is the number of entries; and every slot is on the chain or
on the stack of spare slots, on one of them and once.
-/

namespace RangeSets

variable {α β : Type}

def Entry.bare (e : Entry α β) : Entry α Unit := ⟨e.slot, e.lo, e.hi, ()⟩

theorem Entry.map_bare_unit (es : List (Entry α Unit)) : es.map Entry.bare = es := by
  induction es with
  | nil => rfl
  | cons e rest ih => rw [List.map_cons, ih]; rfl

namespace Chain

def live (c : Chain α) : List Nat := c.entries.map Entry.slot

/-- The links, the size and the spare slots of a chain agree. -/
structure Consistent (c : Chain α) : Prop where
  walk : c.walk? c.slots.size c.head = some c.entries
  head_eq : c.head = c.live.head?
  tail_eq : c.tail = c.live.getLast?
  prev_head : ∀ i, c.head = some i → c.prev? i = none
  next_tail : ∀ i, c.tail = some i → c.next? i = none
  prev_next : ∀ i ∈ c.live, ∀ j, c.next? i = some j → j ∈ c.live ∧ c.prev? j = some i
  next_prev : ∀ i ∈ c.live, ∀ j, c.prev? i = some j → j ∈ c.live ∧ c.next? j = some i
  size_eq : c.size = c.live.length
  /-- Each slot is on the chain or spare, and only once. -/
  slots_once : ∃ spares, c.Stacked c.spare spares ∧
    (c.live ++ spares).Perm (List.range c.slots.size)

theorem walk?_of_linked {c : Chain α} {es : List (Entry α β)} {before? : Option Nat} {steps : Nat}
    (h : c.Linked before? es none) (hsteps : es.length ≤ steps) :
    c.walk? steps (firstSlot es none) = some (es.map Entry.bare) := by
  induction es generalizing before? steps with
  | nil => simp [walk?]
  | cons e rest ih =>
      obtain ⟨hslot, hrest⟩ := h
      cases steps with
      | zero => simp at hsteps
      | succ steps =>
          have hwalk := ih hrest (by simpa using hsteps)
          simp only [firstSlot_cons, walk?, hslot, hwalk, Option.map_some, List.map_cons]
          rfl

namespace Holds

variable {c : Chain α} {p : Layout α β}

theorem walk?_head (h : c.Holds p) :
    c.walk? c.slots.size c.head = some (p.entries.map Entry.bare) := by
  rw [h.threads.1]
  apply walk?_of_linked h.threads.2.2
  rw [h.slots_size]
  omega

theorem entries_eq (h : c.Holds p) : c.entries = p.entries.map Entry.bare := by
  rw [Chain.entries, h.walk?_head, Option.getD_some]

theorem live_eq (h : c.Holds p) : c.live = p.entries.map Entry.slot := by
  rw [live, h.entries_eq, List.map_map]
  rfl

theorem span?_eq (h : c.Holds p) {e : Entry α β} (he : e ∈ p.entries) :
    c.span? e.slot = some e.span := by
  obtain ⟨entries, spares⟩ := p
  obtain ⟨xs, ys, rfl⟩ := List.append_of_mem he
  rw [span?, h.slots_entry]
  rfl

theorem first?_eq (h : c.Holds p) : c.first? = p.entries.head?.map Entry.span := by
  rw [first?, h.threads.1, firstSlot_eq_head?]
  cases hhead : p.entries.head? with
  | none => rfl
  | some e => exact h.span?_eq (List.mem_of_head? hhead)

theorem last?_eq (h : c.Holds p) : c.last? = p.entries.getLast?.map Entry.span := by
  rw [last?, h.threads.2.1, lastSlot_eq_getLast?]
  cases hlast : p.entries.getLast? with
  | none => rfl
  | some e => exact h.span?_eq (List.mem_of_getLast? hlast)

theorem exists_entry (h : c.Holds p) {i : Nat} (hi : i ∈ c.live) :
    ∃ xs e ys, p.entries = xs ++ e :: ys ∧ e.slot = i := by
  rw [h.live_eq, List.mem_map] at hi
  obtain ⟨e, hmem, hslot⟩ := hi
  obtain ⟨xs, ys, hsplit⟩ := List.append_of_mem hmem
  exact ⟨xs, e, ys, hsplit, hslot⟩

theorem links_of_split (h : c.Holds p) {xs ys : List (Entry α β)} {e : Entry α β}
    (hsplit : p.entries = xs ++ e :: ys) :
    c.prev? e.slot = lastSlot none xs ∧ c.next? e.slot = firstSlot ys none := by
  obtain ⟨entries, spares⟩ := p
  cases hsplit
  simp [Chain.prev?, Chain.next?, h.slots_entry]

theorem prev_next (h : c.Holds p) {i j : Nat} (hi : i ∈ c.live) (hj : c.next? i = some j) :
    j ∈ c.live ∧ c.prev? j = some i := by
  obtain ⟨xs, e, ys, hsplit, rfl⟩ := h.exists_entry hi
  rw [(h.links_of_split hsplit).2] at hj
  cases ys with
  | nil => simp at hj
  | cons f rest =>
      obtain rfl : f.slot = j := Option.some.inj hj
      have hnext : p.entries = (xs ++ [e]) ++ f :: rest := by simpa using hsplit
      refine ⟨?_, ?_⟩
      · simp [h.live_eq, hsplit]
      · simp [(h.links_of_split hnext).1]

theorem next_prev (h : c.Holds p) {i j : Nat} (hi : i ∈ c.live) (hj : c.prev? i = some j) :
    j ∈ c.live ∧ c.next? j = some i := by
  obtain ⟨xs, e, ys, hsplit, rfl⟩ := h.exists_entry hi
  rw [(h.links_of_split hsplit).1] at hj
  rcases List.eq_nil_or_concat xs with rfl | ⟨zs, d, rfl⟩
  · simp at hj
  · obtain rfl : d.slot = j := by simpa using hj
    have hprev : p.entries = zs ++ d :: e :: ys := by simpa using hsplit
    refine ⟨?_, ?_⟩
    · simp [h.live_eq, hprev]
    · simp [(h.links_of_split hprev).2]

theorem consistent (h : c.Holds p) : c.Consistent where
  walk := by rw [h.walk?_head, h.entries_eq]
  head_eq := by rw [h.live_eq, h.threads.1, firstSlot_eq_head?, List.head?_map]
  tail_eq := by rw [h.live_eq, h.threads.2.1, lastSlot_eq_getLast?, List.getLast?_map]
  prev_head := by
    intro i hi
    rw [h.threads.1] at hi
    cases hentries : p.entries with
    | nil => simp [hentries] at hi
    | cons e rest =>
        obtain rfl : e.slot = i := by simpa [hentries] using hi
        have hsplit : p.entries = [] ++ e :: rest := hentries
        exact (h.links_of_split hsplit).1
  next_tail := by
    intro i hi
    rw [h.threads.2.1] at hi
    rcases List.eq_nil_or_concat p.entries with hentries | ⟨xs, e, hentries⟩
    · simp [hentries] at hi
    · rw [List.concat_eq_append] at hentries
      obtain rfl : e.slot = i := by simpa [hentries] using hi
      exact (h.links_of_split hentries).2
  prev_next _ hi _ hj := h.prev_next hi hj
  next_prev _ hi _ hj := h.next_prev hi hj
  size_eq := by rw [h.size_eq, h.live_eq, List.length_map]
  slots_once := ⟨p.spares, h.stacked, by rw [h.live_eq]; exact h.slots_perm⟩

end Holds

end Chain

end RangeSets
