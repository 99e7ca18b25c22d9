import RangeSets.Proofs.Search
import RangeSets.Proofs.Stepwise.Chain
/-!
# Searching a chain, access by access

The loops that only read. Each of them goes from slot to slot by the links and gives up after as many
steps as there are slots. The entries of a chain with a layout are no more than that, so that every loop
comes to its end, and what it finds is what is found in the list of entries.
-/

namespace RangeSets

open Scale

namespace Stepwise

variable {α β : Type}

/-- The ranges from a slot on, with their slots. -/
def walkFrom (c : Chain α) : Nat → Option Nat → Except Stop (List (Entry α Unit))
  | _, none => .ok []
  | 0, some _ => .error (.breach .endless)
  | steps + 1, some i => do
      let s ← readSlot c i
      let rest ← walkFrom c steps s.next
      return ⟨i, s.lo, s.hi, ()⟩ :: rest

def walk (c : Chain α) : Except Stop (List (Entry α Unit)) := walkFrom c c.slots.size c.head

def readSpan (c : Chain α) (i : Nat) : Except Stop (Span α) :=
  (readSlot c i).map fun s => ⟨s.lo, s.hi⟩

/-- The bounds of the range in a slot that may be left out. -/
def readSpan? (c : Chain α) (i? : Option Nat) : Except Stop (Option (Span α)) :=
  match i? with
  | some i => (readSpan c i).map some
  | none => .ok none

theorem walkFrom_eq {c : Chain α} {es : List (Entry α β)} {before? : Option Nat} {steps : Nat}
    (h : c.Linked before? es none) (hsteps : es.length ≤ steps) :
    walkFrom c steps (firstSlot es none) = .ok (es.map Entry.bare) := by
  induction es generalizing before? steps with
  | nil => rw [firstSlot_nil, walkFrom]; rfl
  | cons e rest ih =>
      obtain ⟨hslot, hrest⟩ := h
      cases steps with
      | zero => simp at hsteps
      | succ steps =>
          rw [firstSlot_cons, walkFrom, readSlot_eq hslot]
          simp only [ok_bind, ih hrest (by simpa using hsteps)]
          rfl

variable [Scale α]

/-- Where a value stands among the ranges from a slot on. -/
def locateFrom (c : Chain α) (v : α) : Nat → Option Nat → Except Stop Position
  | _, none => .ok .pastEnd
  | 0, some _ => .error (.breach .endless)
  | steps + 1, some i => do
      let s ← readSlot c i
      if v < s.lo then return .before i
      else if v ≤ s.hi then return .inside i
      else locateFrom c v steps s.next

def locate (c : Chain α) (v : α) : Except Stop Position := locateFrom c v c.slots.size c.head

/-- The slot of the first range that does not end below a value. -/
def firstReaching (c : Chain α) (v : α) : Except Stop (Option Nat) := do
  match ← locate c v with
  | .inside i | .before i => return some i
  | .pastEnd => return none

def readLeast (c : Chain α) : Except Stop α :=
  match c.head with
  | some i => (readSlot c i).map Slot.lo
  | none => .ok top

def readGreatest (c : Chain α) : Except Stop α :=
  match c.tail with
  | some i => (readSlot c i).map Slot.hi
  | none => .ok bottom

/-! ### What is found -/

theorem locateFrom_eq {c : Chain α} {es : List (Entry α β)} {before? : Option Nat} {steps : Nat}
    (h : c.Linked before? es none) (hsteps : es.length ≤ steps) (v : α) :
    locateFrom c v steps (firstSlot es none) = .ok (Position.of v es) := by
  induction es generalizing before? steps with
  | nil => rw [firstSlot_nil, locateFrom]; rfl
  | cons e rest ih =>
      obtain ⟨hslot, hrest⟩ := h
      cases steps with
      | zero => simp at hsteps
      | succ steps =>
          rw [firstSlot_cons, locateFrom, readSlot_eq hslot, Position.of]
          simp only [ok_bind]
          split
          · rfl
          · split
            · rfl
            · exact ih hrest (by simpa using hsteps)

/-- The slot that a value lies in or comes before is that of the first entry not below it. -/
theorem firstSlot_dropWhile (v : α) (es : List (Entry α β)) :
    firstSlot (es.dropWhile fun e => e.EndsBelow v) none =
      match Position.of v es with
      | .inside i | .before i => some i
      | .pastEnd => none := by
  induction es with
  | nil => rfl
  | cons e rest ih =>
      rw [List.dropWhile_cons, Position.of]
      by_cases hlt : v < e.lo
      · have hnot : ¬ e.EndsBelow v := fun h => h.1 hlt
        simp [hlt, hnot]
      · by_cases hle : v ≤ e.hi
        · have hnot : ¬ e.EndsBelow v := fun h => h.2 hle
          simp [hlt, hle, hnot]
        · have hends : e.EndsBelow v := ⟨hlt, hle⟩
          simp [hlt, hle, hends, ih]

end Stepwise

namespace Chain.Holds

open Stepwise

variable {α β : Type} {c : Chain α} {p : Layout α β}

theorem length_le (h : c.Holds p) : p.entries.length ≤ c.slots.size := by
  rw [h.slots_size]
  omega

theorem walk_eq (h : c.Holds p) : walk c = .ok c.entries := by
  rw [walk, h.threads.1, walkFrom_eq h.threads.2.2 h.length_le, h.entries_eq]

theorem readSpan_eq (h : c.Holds p) {e : Entry α β} (he : e ∈ p.entries) :
    readSpan c e.slot = .ok e.span := by
  obtain ⟨entries, spares⟩ := p
  obtain ⟨xs, ys, rfl⟩ := List.append_of_mem he
  rw [readSpan, h.readSlot_eq]
  rfl

theorem readSpan?_eq (h : c.Holds p) (e? : Option (Entry α β))
    (he : ∀ e, e? = some e → e ∈ p.entries) :
    readSpan? c (e?.map Entry.slot) = .ok ((e?.map Entry.slot).bind c.span?) := by
  cases e? with
  | none => rfl
  | some e =>
      have hmem := he e rfl
      rw [Option.map_some, Option.bind_some, h.span?_eq hmem, readSpan?, h.readSpan_eq hmem]
      rfl

variable [Scale α]

theorem locate_eq (h : c.Holds p) (v : α) : locate c v = .ok (Position.of v p.entries) := by
  rw [locate, h.threads.1, locateFrom_eq h.threads.2.2 h.length_le]

theorem firstReaching_eq (h : c.Holds p) (v : α) :
    firstReaching c v = .ok (firstSlot (p.entries.dropWhile fun e => e.EndsBelow v) none) := by
  rw [firstReaching, h.locate_eq, firstSlot_dropWhile]
  simp only [ok_bind]
  cases Position.of v p.entries <;> rfl

theorem readLeast_eq (h : c.Holds p) :
    readLeast c = .ok ((c.first?.map Span.lo).getD top) := by
  rw [readLeast, h.first?_eq, h.threads.1]
  obtain ⟨entries, spares⟩ := p
  cases entries with
  | nil => rfl
  | cons e rest =>
      have hfirst : c.Holds ⟨[] ++ e :: rest, spares⟩ := h
      simp only [firstSlot_cons, hfirst.readSlot_eq]
      rfl

theorem readGreatest_eq (h : c.Holds p) :
    readGreatest c = .ok ((c.last?.map Span.hi).getD bottom) := by
  rw [readGreatest, h.last?_eq, h.threads.2.1]
  obtain ⟨entries, spares⟩ := p
  rcases List.eq_nil_or_concat entries with rfl | ⟨xs, e, rfl⟩
  · rfl
  · rw [List.concat_eq_append] at h ⊢
    simp only [lastSlot_append, lastSlot_cons, lastSlot_nil, h.readSlot_eq, List.getLast?_append,
      List.getLast?_singleton, Option.some_or]
    rfl

end Chain.Holds

end RangeSets
