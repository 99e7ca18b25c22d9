import RangeSets.Proofs.Chain.Consistent
import RangeSets.WorthMap.Mutation
/-!
# The table of worths

The labels of the entries of a worth map stand in its table, by the numbers of their slots. The table
has one worth for every slot of the chain. A slot that is used again is given its new worth when the
range is put in, so that no entry ever shows a worth that was left behind.
-/

namespace RangeSets.WorthMap

variable {α : Type}

/-- The chain of a map has a layout, and the labels of the layout stand in the table. -/
structure Holds (m : WorthMap α) (p : Layout α Worth) : Prop where
  chain : m.chain.Holds p
  size_eq : m.worths.size = m.chain.slots.size
  worths_eq : ∀ e ∈ p.entries, m.worths[e.slot]? = some e.label

theorem holds_empty : (empty : WorthMap α).Holds ⟨[], []⟩ :=
  ⟨Chain.holds_empty, rfl, by simp⟩

namespace Holds

variable {m : WorthMap α} {p q : Layout α Worth}

theorem worthOf_eq (h : m.Holds p) {e : Entry α Worth} (he : e ∈ p.entries) :
    m.worthOf e.slot = e.label := by
  rw [worthOf, Array.getD_eq_getD_getElem?, h.worths_eq e he, Option.getD_some]

theorem entries_eq (h : m.Holds p) : m.entries = p.entries := by
  rw [entries, h.chain.entries_eq, List.map_map]
  refine (List.map_congr_left fun e he => ?_).trans (List.map_id _)
  have hworth := h.worthOf_eq he
  simp only [Function.comp_apply, Entry.bare, hworth, id_eq]

/-- Edits that keep the number of slots and put no label where there was another. -/
theorem of_labels (h : m.Holds p) {c : Chain α} (hc : c.Holds q)
    (hsize : q.entries.length + q.spares.length = p.entries.length + p.spares.length)
    (hlabels : ∀ e ∈ q.entries, ∃ d ∈ p.entries, d.slot = e.slot ∧ d.label = e.label) :
    ({ m with chain := c } : WorthMap α).Holds q := by
  refine ⟨hc, ?_, fun e he => ?_⟩
  · rw [h.size_eq, h.chain.slots_size, hc.slots_size, hsize]
  · obtain ⟨d, hd, hslot, hlabel⟩ := hlabels e he
    rw [← hslot, ← hlabel]
    exact h.worths_eq d hd

theorem setWorth {xs ys : List (Entry α Worth)} {spares : List Nat} (h : m.Holds p)
    {c : Chain α} {e : Entry α Worth} (hc : c.Holds ⟨xs ++ e :: ys, spares⟩)
    (hsize : m.chain.slots.size ≤ c.slots.size) (hkept : ∀ d ∈ xs ++ ys, d ∈ p.entries)
    (hnew : e.slot ∉ (xs ++ ys).map Entry.slot) :
    (({ m with chain := c } : WorthMap α).setWorth e.slot e.label).Holds
      ⟨xs ++ e :: ys, spares⟩ := by
  have hlt : e.slot < c.slots.size := hc.mem_iff.mp (by simp)
  have hmissing : m.worths.size + (c.slots.size - m.worths.size) = c.slots.size := by
    rw [h.size_eq]
    omega
  refine ⟨hc, ?_, fun d hd => ?_⟩
  · simp [WorthMap.setWorth, hmissing]
  · have hcases : d = e ∨ d ∈ xs ++ ys := by
      simp only [List.mem_append, List.mem_cons] at hd ⊢
      grind
    rcases hcases with rfl | hd
    · simp [WorthMap.setWorth, hmissing, hlt]
    · have hne : e.slot ≠ d.slot := fun heq => hnew (heq ▸ List.mem_map_of_mem hd)
      have hworth := h.worths_eq d (hkept d hd)
      simp only [WorthMap.setWorth, Array.getElem?_setIfInBounds_ne hne]
      rw [Array.getElem?_append_left, hworth]
      exact (Array.getElem?_eq_some_iff.mp hworth).1

theorem setLabel {xs ys : List (Entry α Worth)} {e : Entry α Worth} {spares : List Nat}
    (h : m.Holds ⟨xs ++ e :: ys, spares⟩) (label : Worth) :
    ({ m with worths := m.worths.setIfInBounds e.slot label } : WorthMap α).Holds
      ⟨xs ++ { e with label } :: ys, spares⟩ := by
  have hlt : e.slot < m.worths.size := by
    rw [h.size_eq]
    exact h.chain.mem_iff.mp (by simp)
  have hnodup := h.chain.slots_perm_retired.nodup_iff.mpr List.nodup_range
  rw [List.nodup_append] at hnodup
  refine ⟨h.chain.relabel label, by simpa using h.size_eq, fun d hd => ?_⟩
  have hcases : d = { e with label } ∨ d ∈ xs ++ ys := by
    simp only [List.mem_append, List.mem_cons] at hd ⊢
    grind
  rcases hcases with rfl | hd
  · simp [hlt]
  · have hne : d.slot ≠ e.slot :=
      hnodup.2.2 d.slot (List.mem_map_of_mem hd) e.slot (by simp)
    rw [Array.getElem?_setIfInBounds_ne hne.symm]
    refine h.worths_eq d ?_
    simp only [List.mem_append, List.mem_cons] at hd ⊢
    grind

theorem step {edit : Edit α Worth} (h : m.Holds p) (hstep : Layout.Step p edit q) :
    (m.apply edit).Holds q := by
  have hchain := h.chain.step hstep
  have hnext := h.chain.nextSlot_eq
  have hnew := h.chain.nextSlot_not_mem
  have hsize := h.chain.slots_size
  cases hstep with
  | placeAfter xs ys spares lo hi label =>
      rw [← hnext] at hchain hnew ⊢
      refine h.setWorth hchain ?_ (fun _ hd => hd) hnew
      rw [hchain.slots_size, hsize]
      simp
      omega
  | placeBefore xs ys spares lo hi label =>
      rw [← hnext] at hchain hnew ⊢
      refine h.setWorth hchain ?_ (fun _ hd => hd) hnew
      rw [hchain.slots_size, hsize]
      simp
      omega
  | retire xs e ys spares =>
      refine h.of_labels hchain ?_ fun d hd => ⟨d, ?_, rfl, rfl⟩
      · simp
        omega
      · simp only [List.mem_append, List.mem_cons] at hd ⊢
        grind
  | setLo xs e ys spares lo =>
      refine h.of_labels hchain (by simp) fun d hd => ?_
      simp only [List.mem_append, List.mem_cons] at hd ⊢
      grind
  | setHi xs e ys spares hi =>
      refine h.of_labels hchain (by simp) fun d hd => ?_
      simp only [List.mem_append, List.mem_cons] at hd ⊢
      grind
  | setLabel xs e ys spares label => exact h.setLabel label
  | clear => exact holds_empty

theorem steps {edits : List (Edit α Worth)} (h : m.Holds p) (hsteps : Layout.Steps p edits q) :
    (m.applyAll edits).Holds q := by
  induction hsteps generalizing m with
  | nil => exact h
  | cons hstep _ ih => exact ih (h.step hstep)

end Holds

end RangeSets.WorthMap
