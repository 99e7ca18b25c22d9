import RangeSets.Proofs.Chain.Determined
import RangeSets.Proofs.RangeSet.Algebra
import RangeSets.Proofs.RangeSet.Trimming
import RangeSets.Proofs.Scale.Stepping
/-!
# Updates that have nothing to change

A removal of values that do not belong to the set touches no range and makes no edit. An addition of
values that all belong to the set does make edits: they lie in one range, which is given back and put in
again, joined with what was added. That range is the only one touched, no neighbour comes right next to
it, and it goes back into the slot that was given back last, its own. So the set is the set that it was,
slot by slot, but for a bound that is a zero with the other sign.
-/

namespace RangeSets

open Scale

namespace RangeSet

variable {α : Type} [Scale α] {s : RangeSet α} {p : Layout α Unit} {lo hi : α}

/-! ### Bounds without a value between them -/

/-- Bounds that are not in order enclose nothing, and an addition or removal of nothing is none. -/
theorem idle_of_not_le (s : RangeSet α) (hle : ¬ lo ≤ hi) :
    s.add lo hi = (s, []) ∧ s.remove lo hi = (s, []) := by
  rw [add, addPlan, if_neg hle, remove, removePlan, if_neg hle]
  exact ⟨rfl, rfl⟩

/-! ### Adding what is there already -/

/-- A range of values that all belong to the set touches the one range that it lies in. -/
theorem Represents.touched_eq_singleton (h : s.Represents p) {cut : Cut α Unit}
    (hfits : cut.Fits lo hi p.entries) (hle : lo ≤ hi)
    (hall : ∀ v, lo ≤ v ∧ v ≤ hi → s.Contains v) :
    ∃ e, cut.touched = [e] ∧ place e.lo ≤ place lo ∧ place hi ≤ place e.hi := by
  obtain ⟨r, hr, hreachLo, hreachHi⟩ := (Sound.decomposes_spans ⟨p, h⟩).within (t := ⟨lo, hi⟩) hle hall
  rw [h.spans_eq] at hr
  obtain ⟨e, he, rfl⟩ := List.mem_map.mp hr
  simp only [Entry.span] at hreachLo hreachHi
  have hlohi := (le_iff.mp hle).2.2
  have htouched : e ∈ cut.touched := by
    rw [hfits.entries_eq] at he
    simp only [List.mem_append] at he
    rcases he with (he | he) | he
    · have := hfits.below e he
      omega
    · exact he
    · have := hfits.above e he
      omega
  exact ⟨e, hfits.touched_eq_singleton h.ascending.ordered htouched hreachLo hreachHi, hreachLo,
    hreachHi⟩

theorem lower?_eq_none {first : α} {below : List (Entry α Unit)}
    (h : ∀ d ∈ below, place d.hi + 1 ≠ place first) : lower? first below = none := by
  rw [lower?, Option.filter_eq_none_iff]
  intro d hd hadjacent
  exact h d (List.mem_of_getLast? hd) (adjacent_iff.mp (of_decide_eq_true hadjacent)).2.2

theorem upper?_eq_none {last : α} {above : List (Entry α Unit)}
    (h : ∀ d ∈ above, place last + 1 ≠ place d.lo) : upper? last above = none := by
  rw [upper?, Option.filter_eq_none_iff]
  intro d hd hadjacent
  exact h d (List.mem_of_head? hd) (adjacent_iff.mp (of_decide_eq_true hadjacent)).2.2

/-- The plan for values that all belong to the set: their range is given back and put in again, and
nothing is told. -/
theorem Represents.addPlan_covered (h : s.Represents p) (hle : lo ≤ hi)
    (hall : ∀ v, lo ≤ v ∧ v ≤ hi → s.Contains v) :
    ∃ xs e ys, p.entries = xs ++ e :: ys ∧ Scale.Same (lowerOf lo e.lo) e.lo ∧
      s.addPlan lo hi =
        ⟨[.retire e.slot, .placeAfter (lastSlot none xs) (lowerOf lo e.lo) e.hi ()], []⟩ := by
  rw [addPlan, if_pos hle, h.entries_eq]
  have hfits := Cut.of_fits h.ascending.ordered hle
  generalize Cut.of lo hi p.entries = cut at hfits ⊢
  obtain ⟨hlo, hhi, _⟩ := le_iff.mp hle
  obtain ⟨e, htouched, hreachLo, hreachHi⟩ := h.touched_eq_singleton hfits hle hall
  obtain ⟨below, touched, above⟩ := cut
  obtain rfl : touched = [e] := htouched
  have hsplit : p.entries = below ++ e :: above := by simpa using hfits.entries_eq
  obtain ⟨heLo, heHi, _⟩ := le_iff.mp (h.proper e (by simp [hsplit]))
  have hfirst : place (lowerOf lo e.lo) = place e.lo := by
    rw [place_lowerOf hlo heLo]
    omega
  have hlast : higherOf e.hi hi = e.hi := if_neg fun hlt => by
    have := (lt_iff.mp hlt).2.2
    omega
  have hgaps : gaps lo hi [e] = [] := by
    rw [gaps_cons, runBefore, if_neg, if_neg, List.nil_append]
    · rw [lt_iff_place heHi hhi]
      omega
    · rw [lt_iff_place hlo heLo]
      omega
  -- what stands next to the range was apart from it before
  have hasc := h.ascending
  rw [Layout.blocks, hsplit, List.map_append, ascending_append] at hasc
  obtain ⟨_, hrest, hacross⟩ := hasc
  have hlower : lower? (lowerOf lo e.lo) below = none := lower?_eq_none fun d hd => by
    have := Block.apart_unit.mp (hacross d.block (List.mem_map_of_mem hd) e.block (by simp))
    simp only [Entry.hi_block, Entry.lo_block] at this
    omega
  have hupper : upper? e.hi above = none := upper?_eq_none fun d hd => by
    have := Block.apart_unit.mp
      ((List.pairwise_cons.mp hrest.apart).1 d.block (List.mem_map_of_mem hd))
    simp only [Entry.hi_block, Entry.lo_block] at this
    omega
  refine ⟨below, e, above, hsplit, Scale.same_iff.mpr ⟨comparable_lowerOf hlo heLo, heLo, hfirst⟩, ?_⟩
  change Plan.mk (joinEdits ⟨below, [e], above⟩ (least (lowerOf lo e.lo) below)
      (most (higherOf e.hi hi) above) ++ ((lower? (lowerOf lo e.lo) below).toList ++
        (upper? (higherOf e.hi hi) above).toList).map fun e => .retire e.slot)
    ((gaps lo hi [e]).map .gained) = _
  rw [hlast, least, most, hlower, hupper, hgaps, lastSlot_eq_getLast?]
  rfl

/-- An addition of values that all belong to the set leaves all slots and links as they were, and all
bounds but one, which is set to the same number. -/
theorem Sound.add_idle (h : s.Sound) (hall : ∀ v, lo ≤ v ∧ v ≤ hi → s.Contains v) :
    ∃ after, s.add lo hi = (after, []) ∧
      after.chain.Matches (fun a b => a = b ∨ Scale.Same a b) s.chain := by
  by_cases hle : lo ≤ hi
  · obtain ⟨p, hp⟩ := h
    obtain ⟨xs, e, ys, hsplit, hsame, hplan⟩ := hp.addPlan_covered hle hall
    have hholds : s.chain.Holds ⟨xs ++ e :: ys, p.spares⟩ := hsplit ▸ hp.holds
    refine ⟨_, by rw [RangeSet.add, hplan, perform], ?_⟩
    show ((s.chain.retire e.slot).placeAfter (lastSlot none xs) (lowerOf lo e.lo) e.hi).Matches _ _
    rw [hholds.placeAfter_retire]
    exact Chain.matches_modify (fun _ => .inl rfl) hholds.slots_entry (.inr hsame) (.inl rfl)
  · exact ⟨s, (idle_of_not_le s hle).1, rfl, rfl, rfl, rfl, fun i => by
      cases s.chain.slots[i]? with
      | none => exact .none
      | some t => exact .some ⟨.inl rfl, .inl rfl, rfl, rfl⟩⟩

/-! ### Nothing to change, nothing changed -/

/-- An addition that tells nothing found all values of its range in the set. -/
theorem Sound.contains_of_add_tells_nothing (h : s.Sound) (htold : (s.add lo hi).2 = []) {v : α}
    (hv : lo ≤ v ∧ v ≤ hi) : s.Contains v := by
  obtain ⟨runs, hruns, hchanges⟩ := h.add_changes lo hi
  obtain rfl : runs = [] := List.map_eq_nil_iff.mp (hchanges.symm.trans htold)
  by_contra hout
  obtain ⟨r, hr, _⟩ := (hruns.mem_iff v).mp ⟨hv, hout⟩
  cases hr

/-- A removal that tells nothing found no value of its range in the set. -/
theorem Sound.not_contains_of_remove_tells_nothing (h : s.Sound) (htold : (s.remove lo hi).2 = [])
    {v : α} (hv : lo ≤ v ∧ v ≤ hi) : ¬ s.Contains v := by
  obtain ⟨runs, hruns, hchanges⟩ := h.remove_changes lo hi
  obtain rfl : runs = [] := List.map_eq_nil_iff.mp (hchanges.symm.trans htold)
  intro hin
  obtain ⟨r, hr, _⟩ := (hruns.mem_iff v).mp ⟨hv, hin⟩
  cases hr

theorem Sound.remove_idle_iff (h : s.Sound) :
    s.remove lo hi = (s, []) ↔ ∀ v, lo ≤ v ∧ v ≤ hi → ¬ s.Contains v :=
  ⟨fun hidle _ => h.not_contains_of_remove_tells_nothing (by rw [hidle]),
    fun hnone => h.remove_eq_self fun v hv hbetween => hnone v hbetween hv⟩

/-- An addition or a removal leaves a set as it was, slot by slot with the spare ones, and tells nothing,
exactly when it has no value to change: all values of its range belong to the set already, or none do. A
range whose bounds are not in order has no values. On a floating point scale an addition may leave a
bound that is a zero with the other sign, and nothing else. -/
theorem idle_iff_nothing_to_change :
    (∀ (f : IntegerFormat) (s : RangeSet (Fixed f)), s.Reachable → ∀ lo hi,
      (s.add lo hi = (s, []) ↔ ∀ v, lo ≤ v ∧ v ≤ hi → s.Contains v) ∧
      (s.remove lo hi = (s, []) ↔ ∀ v, lo ≤ v ∧ v ≤ hi → ¬ s.Contains v)) ∧
    ∀ (p : Precision) (s : RangeSet (Binary p)), s.Reachable → ∀ lo hi,
      ((∃ after, s.add lo hi = (after, []) ∧
          after.chain.Matches (fun x y => x = y ∨ (x.magnitude = 0 ∧ y.magnitude = 0)) s.chain) ↔
        ∀ v, lo ≤ v ∧ v ≤ hi → s.Contains v) ∧
      (s.remove lo hi = (s, []) ↔ ∀ v, lo ≤ v ∧ v ≤ hi → ¬ s.Contains v) := by
  refine ⟨fun f s hs lo hi => ⟨⟨fun hidle v => ?_, fun hall => ?_⟩, hs.sound.remove_idle_iff⟩,
    fun p s hs lo hi => ⟨⟨fun ⟨after, hidle, _⟩ v => ?_, fun hall => ?_⟩, hs.sound.remove_idle_iff⟩⟩
  · exact hs.sound.contains_of_add_tells_nothing (by rw [hidle])
  · obtain ⟨⟨chain⟩, hadd, hmatches⟩ := hs.sound.add_idle hall
    obtain rfl : chain = s.chain := (hmatches.imp fun _ _ h => h.elim id Fixed.eq_of_same).eq
    exact hadd
  · exact hs.sound.contains_of_add_tells_nothing (by rw [hidle])
  · obtain ⟨after, hadd, hmatches⟩ := hs.sound.add_idle hall
    exact ⟨after, hadd, hmatches.imp fun _ _ h => h.elim .inl Binary.eq_or_zeros_of_same⟩

theorem idle_within_a_range_and_at_zero :
    (gapped.Reachable ∧ (∀ v, .ofInt 30 ≤ v ∧ v ≤ .ofInt 40 → gapped.Contains v) ∧
      ∀ v, .ofInt 12 ≤ v ∧ v ≤ .ofInt 20 → ¬ gapped.Contains v) ∧
    fromZero.Reachable ∧ (fromZero.add ⟨0x80000000⟩ top).1 ≠ fromZero ∧
      ∃ after, fromZero.add ⟨0x80000000⟩ top = (after, []) ∧
        after.chain.Matches (fun x y => x = y ∨ (x.magnitude = 0 ∧ y.magnitude = 0))
          fromZero.chain := by
  have hgapped : gapped.Reachable := .mutate _ .whole
  have hfrom : fromZero.Reachable := .ofSpans _
  have hzeros : Scale.Alike (⟨0x80000000⟩ : Binary .single) ⟨0⟩ := by decide +kernel
  have hall : ∀ v, ⟨0x80000000⟩ ≤ v ∧ v ≤ top → fromZero.Contains v := fun v hv =>
    (contains_ofSpans _ v).mpr ⟨_, List.mem_singleton_self _, (hzeros.le_iff (.refl v)).mp hv.1, hv.2⟩
  obtain ⟨hfixed, hbinary⟩ := idle_iff_nothing_to_change
  exact ⟨⟨hgapped, (hfixed _ _ hgapped _ _).1.mp (by decide +kernel),
    (hfixed _ _ hgapped _ _).2.mp (by decide +kernel)⟩, hfrom, by decide +kernel,
    (hbinary _ _ hfrom _ _).1.mpr hall⟩

end RangeSet

end RangeSets
