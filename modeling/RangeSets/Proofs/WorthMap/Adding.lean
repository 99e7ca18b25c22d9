import RangeSets.Proofs.WorthMap.Spreading
import RangeSets.Proofs.WorthMap.Tidying
/-!
# Adding a worth

The three passes in a row. After the first one the blocks stand in order and have the weights that
are asked for; the entries below the range and those above it are the old ones. After the second one
no worth is zero, and after the third one the blocks ascend. Neither of the two changes a weight.
-/

namespace RangeSets.WorthMap

open Scale Layout

variable {α : Type} [Scale α] {lo hi : α} {added : Worth}

/-- What an addition that came to no fault did: nothing, or the three passes. -/
theorem add_cases {m after : WorthMap α} {changes : List (Change α)}
    (h : m.add lo hi added = .ok (after, changes)) :
    (¬ (lo ≤ hi ∧ added ≠ Worth.zero) ∧ after = m) ∨
      (lo ≤ hi ∧ added ≠ Worth.zero ∧ ∃ edits,
        spreadEdits ((Cut.of lo hi m.entries).above.head?.map Entry.slot) hi added lo
          (Cut.of lo hi m.entries).touched = .ok edits ∧
        after = ((m.applyAll edits).prune
          ((Cut.of lo hi m.entries).below.getLast?.map Entry.slot) hi).join
          ((Cut.of lo hi m.entries).below.getLast?.map Entry.slot) hi) := by
  unfold add at h
  split at h
  · rename_i hdoes
    obtain ⟨edits, hspread, hafter⟩ := exists_of_bind_eq_ok h
    cases hafter
    exact .inr ⟨hdoes.1, hdoes.2, edits, hspread, rfl⟩
  · rename_i hnot
    cases h
    exact .inl ⟨hnot, rfl⟩

/-- The entries after the first pass. -/
structure Passed (lo hi : α) (added : Worth) (cut : Cut α Worth) (ins outs : List (Entry α Worth)) :
    Prop where
  spread : Spread lo hi added (cut.touched.map Entry.block) (ins.map Entry.block)
    (outs.map Entry.block)
  fits : cut.Fits lo hi (cut.below ++ cut.touched ++ cut.above)
  ascending : Ascending ((cut.below ++ cut.touched ++ cut.above).map Entry.block)
  nonzero : ∀ e ∈ cut.below ++ cut.touched ++ cut.above, e.label ≠ Worth.zero

namespace Passed

variable {cut : Cut α Worth} {ins outs : List (Entry α Worth)}

theorem lt_made (h : Passed lo hi added cut ins outs) {e : Entry α Worth} (he : e ∈ cut.below) :
    ∀ c ∈ (ins ++ outs).map Entry.block, place e.hi < place c.lo := by
  have hasc := h.ascending
  rw [List.append_assoc, List.map_append, List.map_append] at hasc
  have hacross := (ascending_append.mp hasc).2.2 e.block (List.mem_map_of_mem he)
  intro c hc
  rw [List.map_append] at hc
  refine h.spread.le_lo c hc _ (h.fits.below e he) fun t ht => ?_
  exact (hacross t (List.mem_append_left _ ht)).1

/-- What sticks out above the range stands to the entries above as the touched entry did. -/
theorem apart_above (h : Passed lo hi added cut ins outs) :
    ∀ c ∈ outs.map Entry.block, ∀ a ∈ cut.above.map Entry.block, c.Apart a := by
  have hasc := h.ascending
  rw [List.map_append, List.map_append] at hasc
  intro c hc a ha
  obtain ⟨t, ht, hhi, hlabel⟩ := h.spread.outs_end c hc
  have hapart := (ascending_append.mp hasc).2.2 t (List.mem_append_right _ ht) a ha
  rwa [Block.Apart, hhi, hlabel]

theorem ascending_above (h : Passed lo hi added cut ins outs) :
    Ascending ((outs ++ cut.above).map Entry.block) := by
  have hasc := h.ascending
  rw [List.map_append] at hasc ⊢
  exact ascending_append.mpr
    ⟨h.spread.outs_ascending, (ascending_append.mp hasc).2.1, h.apart_above⟩

theorem ordered (h : Passed lo hi added cut ins outs) :
    Ordered ((cut.below ++ (ins ++ outs ++ cut.above)).map Entry.block) := by
  have hasc := h.ascending
  rw [List.append_assoc, List.map_append, List.map_append] at hasc
  obtain ⟨hbelow, htouched, hacross⟩ := ascending_append.mp hasc
  obtain ⟨_, habove, _⟩ := ascending_append.mp htouched
  have hmade := h.spread.ordered
  rw [← List.map_append] at hmade
  rw [List.map_append, List.map_append]
  refine ordered_append.mpr ⟨hbelow.ordered, ordered_append.mpr ⟨hmade, habove.ordered, ?_⟩, ?_⟩
  · intro c hc a ha
    rw [List.map_append] at hc
    rcases List.mem_append.mp hc with hc | hc
    · obtain ⟨e, he, rfl⟩ := List.mem_map.mp ha
      have := h.spread.ins_le c hc
      have := h.fits.above e he
      simp only [Entry.lo_block]
      omega
    · exact (h.apart_above c hc a ha).1
  · intro b hb c hc
    obtain ⟨e, he, rfl⟩ := List.mem_map.mp hb
    rcases List.mem_append.mp hc with hc | hc
    · exact h.lt_made he c hc
    · exact (hacross e.block hb c (List.mem_append_right _ hc)).1

theorem ins_lo_le (h : Passed lo hi added cut ins outs) : ∀ e ∈ ins, place e.lo ≤ place hi := by
  intro e he
  have hmem : e.block ∈ ins.map Entry.block := List.mem_map_of_mem he
  have hproper := (le_iff.mp (h.spread.ordered.proper e.block (List.mem_append_left _ hmem))).2.2
  have hend := h.spread.ins_le e.block hmem
  simp only [Entry.lo_block, Entry.hi_block] at hproper hend
  omega

theorem nonzero_above (h : Passed lo hi added cut ins outs) :
    ∀ e ∈ ins ++ outs ++ cut.above, place hi < place e.lo → e.label ≠ Worth.zero := by
  intro e he hlt
  rcases List.mem_append.mp he with he | he
  · rcases List.mem_append.mp he with he | he
    · have := h.ins_lo_le e he
      omega
    · obtain ⟨t, ht, _, hlabel⟩ := h.spread.outs_end e.block (List.mem_map_of_mem he)
      obtain ⟨d, hd, rfl⟩ := List.mem_map.mp ht
      rw [Entry.label_block, Entry.label_block] at hlabel
      rw [hlabel]
      exact h.nonzero d (by simp [hd])
  · exact h.nonzero e (by simp [he])

theorem weight_eq (h : Passed lo hi added cut ins outs) (v : α) :
    weight v ((cut.below ++ (ins ++ outs ++ cut.above)).map Entry.block) =
      weight v ((cut.below ++ cut.touched ++ cut.above).map Entry.block) +
        if lo ≤ v ∧ v ≤ hi then added.val else 0 := by
  have hspread := h.spread.weight_eq v
  simp only [List.map_append, weight_append] at hspread ⊢
  omega

end Passed

/-- After the second pass no entry has worth zero. -/
theorem Passed.exists_pruned {cut : Cut α Worth} {ins outs : List (Entry α Worth)}
    (h : Passed lo hi added cut ins outs) (hhi : Comparable hi) {m : WorthMap α} {spares : List Nat}
    (hm : m.Holds ⟨cut.below ++ (ins ++ outs ++ cut.above), spares⟩) :
    ∃ spares', (m.prune (cut.below.getLast?.map Entry.slot) hi).Holds
      ⟨cut.below ++ (ins ++ outs ++ cut.above).filter fun e => e.label ≠ Worth.zero, spares'⟩ :=
  hm.prune hhi h.ordered (fun e he => h.nonzero e (by simp [he])) h.nonzero_above

/-- The second and the third pass bring the entries after the first one into the form in which maps
are kept. -/
theorem Passed.exists_tidied {cut : Cut α Worth} {ins outs : List (Entry α Worth)}
    (h : Passed lo hi added cut ins outs) (hle : lo ≤ hi) {m : WorthMap α} {spares : List Nat}
    (hm : m.Holds ⟨cut.below ++ (ins ++ outs ++ cut.above), spares⟩) :
    ∃ q, ((m.prune (cut.below.getLast?.map Entry.slot) hi).join
        (cut.below.getLast?.map Entry.slot) hi).Represents q ∧
      ∀ v, weight v q.blocks = weight v ((cut.below ++ cut.touched ++ cut.above).map Entry.block) +
        if lo ≤ v ∧ v ≤ hi then added.val else 0 := by
  have hlohi := (le_iff.mp hle).2.2
  have hbelow : ∀ e ∈ cut.below, e.label ≠ Worth.zero := fun e he => h.nonzero e (by simp [he])
  have hasc := h.ascending
  rw [List.append_assoc, List.map_append] at hasc
  have hbelowAsc := (ascending_append.mp hasc).1
  obtain ⟨spares', hpruned⟩ := h.exists_pruned (le_iff.mp hle).2.1 hm
  have hfilter : (cut.below ++ (ins ++ outs ++ cut.above).filter fun e => e.label ≠ Worth.zero) =
      (cut.below ++ (ins ++ outs ++ cut.above)).filter fun e => e.label ≠ Worth.zero := by
    conv => rhs; rw [List.filter_append]
    rw [List.filter_eq_self.mpr fun e he => decide_eq_true (hbelow e he)]
  have hordered : Ordered ((cut.below ++ (ins ++ outs ++ cut.above).filter fun e =>
      e.label ≠ Worth.zero).map Entry.block) := by
    rw [hfilter]
    exact h.ordered.sublist (List.filter_sublist.map _)
  have hsettled : SettledAbove hi ((ins ++ outs ++ cut.above).filter fun e =>
      e.label ≠ Worth.zero) := by
    rw [List.append_assoc, List.filter_append]
    refine settledAbove_append (fun e he => h.ins_lo_le e (List.mem_filter.mp he).1) ?_
    exact h.ascending_above.sublist (List.filter_sublist.map _)
  have hbelowLo : ∀ e ∈ cut.below, ¬ hi < e.lo := by
    intro e he hlt
    have hproper := (le_iff.mp (hbelowAsc.proper e.block (List.mem_map_of_mem he))).2.2
    have := h.fits.below e he
    have := (lt_iff.mp hlt).2.2
    simp only [Entry.lo_block, Entry.hi_block] at hproper
    omega
  obtain ⟨es', spares'', hjoined, htidied⟩ := hpruned.join hordered hbelowAsc hbelowLo hsettled
  refine ⟨⟨es', spares''⟩, ⟨hjoined, htidied.ascending, fun b hb => ?_⟩, fun v => ?_⟩
  · obtain ⟨c, hc, rfl⟩ := List.mem_map.mp hb
    obtain ⟨e, he, hlabel⟩ := htidied.labels c hc
    rw [hfilter] at he
    rw [Entry.label_block, hlabel]
    exact of_decide_eq_true (List.mem_filter.mp he).2
  · rw [← h.weight_eq v, ← weight_filter_nonzero, ← hfilter]
    exact htidied.weight_eq v

/-- What the first pass makes of the entries of a map. -/
theorem Represents.exists_passed {m : WorthMap α} {p : Layout α Worth} (h : m.Represents p)
    (hle : lo ≤ hi) {cut : Cut α Worth} (hfits : cut.Fits lo hi p.entries)
    {edits : List (Edit α Worth)}
    (hspread : spreadEdits (cut.above.head?.map Entry.slot) hi added lo cut.touched = .ok edits) :
    ∃ ins outs spares, (m.applyAll edits).Holds
        ⟨cut.below ++ (ins ++ outs ++ cut.above), spares⟩ ∧ Passed lo hi added cut ins outs := by
  obtain ⟨es, spares⟩ := p
  obtain rfl : es = cut.below ++ cut.touched ++ cut.above := hfits.entries_eq
  rw [← firstSlot_eq_head?] at hspread
  obtain ⟨ins, outs, spares', hsteps, hmade⟩ :=
    exists_spread (hfits.ordered_touched h.ascending.ordered) hle hfits.touched hspread cut.below
      spares
  have hholds := h.holds
  rw [List.append_assoc] at hholds
  exact ⟨ins, outs, spares', hholds.steps hsteps, hmade, hfits, h.ascending,
    fun e he => h.nonzero e.block (List.mem_map_of_mem he)⟩

/-- Adding a worth keeps the form of a map, and it raises the weight of every value of the range by
the worth and no other weight. -/
theorem Represents.add {m after : WorthMap α} {changes : List (Change α)} {p : Layout α Worth}
    (h : m.Represents p) (hadd : m.add lo hi added = .ok (after, changes)) :
    ∃ q, after.Represents q ∧
      ∀ v, weight v q.blocks = weight v p.blocks + if lo ≤ v ∧ v ≤ hi then added.val else 0 := by
  rcases add_cases hadd with ⟨hnot, rfl⟩ | ⟨hle, _, edits, hspread, rfl⟩
  · refine ⟨p, h, fun v => ?_⟩
    by_cases hv : lo ≤ v ∧ v ≤ hi
    · have hzero : added = Worth.zero := by
        by_cases hle : lo ≤ hi
        · exact Classical.not_not.mp fun hne => hnot ⟨hle, hne⟩
        · exact absurd hv (not_between hle v)
      rw [if_pos hv, hzero]
      exact (Int.add_zero _).symm
    · rw [if_neg hv, Int.add_zero]
  · rw [h.holds.entries_eq] at hspread ⊢
    have hfits := Cut.of_fits h.ascending.ordered hle
    generalize Cut.of lo hi p.entries = cut at hfits hspread ⊢
    obtain ⟨ins, outs, spares, hpassed, hentries⟩ := h.exists_passed hle hfits hspread
    rw [Layout.blocks, hfits.entries_eq]
    exact hentries.exists_tidied hle hpassed

end RangeSets.WorthMap
