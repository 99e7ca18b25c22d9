import RangeSets.Proofs.Chain.Splice
/-!
# How many slots a chain has

A chain gets a new slot only when a range is put in and no slot is spare. All slots then have a range on
them, so that a chain never has more slots than it had before or than it has ranges while it is edited.
Between two uses a list of edits may have given slots back; how many ranges there were in between is
bounded by how many were put in.
-/

namespace RangeSets

variable {α β : Type}

/-- The edit puts a range in. -/
def Edit.places : Edit α β → Bool
  | placeAfter _ _ _ _ | placeBefore _ _ _ _ => true
  | _ => false

namespace Layout

/-- The number of slots, those with a range on them and the spare ones. -/
def slotCount (p : Layout α β) : Nat := p.entries.length + p.spares.length

variable {p q : Layout α β} {edit : Edit α β} {edits : List (Edit α β)}

/-- What an edit that puts a range in makes of the numbers: there is a new slot only when all slots are
taken. -/
theorem Step.slotCount_of_places (h : Step p edit q) (hplaces : edit.places = true) :
    q.entries.length = p.entries.length + 1 ∧
      q.slotCount = max p.slotCount (p.entries.length + 1) := by
  have hcounts : ∀ (xs ys : List (Entry α β)) (e : Entry α β) (spares : List Nat),
      (xs ++ e :: ys).length = (xs ++ ys).length + 1 ∧
        slotCount ⟨xs ++ e :: ys, spares.tail⟩ =
          max (slotCount ⟨xs ++ ys, spares⟩) ((xs ++ ys).length + 1) := by
    intro xs ys e spares
    cases spares <;> simp [slotCount] <;> omega
  cases h with
  | placeAfter xs ys spares lo hi label => exact hcounts xs ys _ spares
  | placeBefore xs ys spares lo hi label => exact hcounts xs ys _ spares
  | retire | setLo | setHi | setLabel | clear => cases hplaces

theorem Step.slotCount_of_not_places (h : Step p edit q) (hplaces : edit.places = false) :
    q.entries.length ≤ p.entries.length ∧ q.slotCount ≤ p.slotCount := by
  cases h with
  | placeAfter | placeBefore => cases hplaces
  | retire xs e ys spares => simp [slotCount]; omega
  | setLo | setHi | setLabel => simp [slotCount]
  | clear => simp [slotCount]

/-- Edits that put in a number of ranges leave no more slots than there were, or than the ranges and that
number. -/
theorem Steps.slotCount_le (h : Steps p edits q) :
    q.slotCount ≤ max p.slotCount (p.entries.length + edits.countP Edit.places) := by
  induction h with
  | nil p => exact Nat.le_max_left ..
  | @cons p q r edit edits hstep _ ih =>
      rw [List.countP_cons]
      cases hplaces : edit.places with
      | true =>
          obtain ⟨hentries, hslots⟩ := hstep.slotCount_of_places hplaces
          simp only [if_true]
          omega
      | false =>
          obtain ⟨hentries, hslots⟩ := hstep.slotCount_of_not_places hplaces
          simp only [Bool.false_eq_true, if_false]
          omega

end Layout

theorem Chain.Holds.slots_size_le {c : Chain α} {p q : Layout α β} {edits : List (Edit α β)}
    (h : c.Holds p) (hsteps : Layout.Steps p edits q) :
    (c.applyAll edits).slots.size ≤
      max c.slots.size (c.size + edits.countP Edit.places) := by
  rw [(h.steps hsteps).slots_size, h.slots_size, h.size_eq]
  exact hsteps.slotCount_le

end RangeSets
