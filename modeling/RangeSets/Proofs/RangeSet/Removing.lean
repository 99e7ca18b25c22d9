import RangeSets.Proofs.RangeSet.Contents
import RangeSets.RangeSet.Mutation
/-!
# Removing a range

A range that is removed is carved out of every range that it touches. What is left of such a range
lies inside it, so the blocks stay in order and apart, whatever becomes of their neighbours.
-/

namespace RangeSets.RangeSet

open Scale Layout

variable {α : Type}

/-! ### The edits of a removal -/

theorem steps_carveEdits [Scale α] (lo hi : α) (xs : List (Entry α Unit)) (e : Entry α Unit)
    (ys : List (Entry α Unit)) (spares : List Nat) :
    ∃ es rest, Steps ⟨xs ++ e :: ys, spares⟩ (carveEdits lo hi e) ⟨xs ++ es ++ ys, rest⟩ ∧
      es.map Entry.block = e.block.below lo ++ e.block.above hi := by
  by_cases hbelow : e.lo < lo
  · rw [carveEdits, if_pos hbelow, Block.below_of_lt hbelow]
    have hcut := Step.setHi xs e ys spares (prev lo)
    by_cases habove : hi < e.hi
    · rw [if_pos habove, Block.above_of_lt habove]
      obtain ⟨n, hplaced⟩ :=
        Step.placeAfter_entry xs { e with hi := prev lo } ys spares (next hi) e.hi ()
      exact ⟨_, _, .cons hcut hplaced.single, rfl⟩
    · rw [if_neg habove, Block.above_of_not_lt habove]
      exact ⟨[{ e with hi := prev lo }], spares, by simpa using hcut.single, rfl⟩
  · rw [carveEdits, if_neg hbelow, Block.below_of_not_lt hbelow]
    by_cases habove : hi < e.hi
    · rw [if_pos habove, Block.above_of_lt habove]
      have hcut := Step.setLo xs e ys spares (next hi)
      exact ⟨[{ e with lo := next hi }], spares, by simpa using hcut.single, rfl⟩
    · rw [if_neg habove, Block.above_of_not_lt habove]
      exact ⟨[], _, by simpa using (Step.retire xs e ys spares).single, rfl⟩

/-! ### What is left of a block -/

variable [Scale α] {lo hi : α}

/-- What is left of a touched block is in order and inside the block, and it holds the values of the
block that are not between the bounds. -/
structure Leftover (lo hi : α) (b : Block α Unit) (bs : List (Block α Unit)) : Prop where
  ascending : Ascending bs
  within : ∀ c ∈ bs, place b.lo ≤ place c.lo ∧ place c.hi ≤ place b.hi
  covered : ∀ v, Covered bs v ↔ b.Contains v ∧ ¬ (lo ≤ v ∧ v ≤ hi)

theorem leftover_carved {b : Block α Unit} (hle : lo ≤ hi) (hb : b.lo ≤ b.hi)
    (htouch : place lo ≤ place b.hi ∧ place b.lo ≤ place hi) :
    Leftover lo hi b (b.below lo ++ b.above hi) := by
  obtain ⟨hlo, hhi, hlohi⟩ := le_iff.mp hle
  refine ⟨?_, ?_, fun v => ?_⟩
  · refine ascending_append.mpr ⟨b.ascending_below lo, b.ascending_above hi, fun c hc d hd => ?_⟩
    have hbelow := Block.place_of_mem_below hc
    have habove := Block.place_of_mem_above hd
    exact Block.apart_unit.mpr (by omega)
  · intro c hc
    rcases List.mem_append.mp hc with hc | hc
    · have := Block.place_of_mem_below hc
      omega
    · have := Block.place_of_mem_above hc
      omega
  · rw [covered_append, Block.covered_below hb hlo htouch.1, Block.covered_above hb hhi htouch.2]
    by_cases hv : Comparable v
    · rw [← and_or_left, lt_iff_place hv hlo, lt_iff_place hhi hv, le_iff_place hlo hv,
        le_iff_place hv hhi]
      exact and_congr_right fun _ => by omega
    · have : ¬ b.Contains v := fun h => hv h.comparable
      simp [this]

theorem Leftover.ascending_around {b : Block α Unit} {xs bs ys : List (Block α Unit)}
    (hleft : Leftover lo hi b bs) (h : Ascending (xs ++ b :: ys)) : Ascending (xs ++ (bs ++ ys)) := by
  obtain ⟨hxs, hbys, hxsApart⟩ := ascending_append.mp h
  have hysApart := (List.pairwise_cons.mp hbys.apart).1
  have hys : Ascending ys := hbys.sublist (List.sublist_cons_self ..)
  refine ascending_append.mpr ⟨hxs, ascending_append.mpr ⟨hleft.ascending, hys, ?_⟩, ?_⟩
  · intro c hc y hy
    have hgap := Block.apart_unit.mp (hysApart y hy)
    have := hleft.within c hc
    exact Block.apart_unit.mpr (by omega)
  · intro x hx c hc
    rcases List.mem_append.mp hc with hc | hc
    · have hgap := Block.apart_unit.mp (hxsApart x hx b (by simp))
      have := hleft.within c hc
      exact Block.apart_unit.mpr (by omega)
    · exact hxsApart x hx c (List.mem_cons_of_mem _ hc)

/-! ### The set without the range -/

theorem exists_carved (hle : lo ≤ hi) (xs ts ys : List (Entry α Unit)) (spares : List Nat)
    (hasc : Ascending ((xs ++ (ts ++ ys)).map Entry.block))
    (htouch : ∀ t ∈ ts, place lo ≤ place t.hi ∧ place t.lo ≤ place hi) :
    ∃ es rest, Steps ⟨xs ++ (ts ++ ys), spares⟩ (ts.flatMap (carveEdits lo hi))
        ⟨xs ++ (es ++ ys), rest⟩ ∧
      Ascending ((xs ++ (es ++ ys)).map Entry.block) ∧
      ∀ v, Covered (es.map Entry.block) v ↔
        Covered (ts.map Entry.block) v ∧ ¬ (lo ≤ v ∧ v ≤ hi) := by
  induction ts generalizing xs spares with
  | nil => exact ⟨[], spares, .nil _, hasc, by simp⟩
  | cons t rest ih =>
      have hproper : t.lo ≤ t.hi := hasc.proper t.block (by simp)
      have hleft := leftover_carved (b := t.block) hle hproper (htouch t (by simp))
      obtain ⟨es, spares', hsteps, hes⟩ := steps_carveEdits lo hi xs t (rest ++ ys) spares
      rw [← hes] at hleft
      simp only [List.map_append, List.map_cons, List.cons_append] at hasc
      have hcarved := hleft.ascending_around hasc
      simp only [← List.map_append] at hcarved
      obtain ⟨ds, spares'', hrest, hfinal, hcovered⟩ := ih (xs ++ es) spares' (by simpa using hcarved)
        fun d hd => htouch d (List.mem_cons_of_mem _ hd)
      refine ⟨es ++ ds, spares'', ?_, ?_, fun v => ?_⟩
      · simp only [List.append_assoc, List.cons_append, List.flatMap_cons] at hsteps hrest ⊢
        exact hsteps.append hrest
      · simpa using hfinal
      · rw [List.map_append, covered_append, hcovered, hleft.covered, List.map_cons, covered_cons,
          or_and_right]

/-- The edits of a removal are steps of the layout. They keep the order of the blocks, and remove exactly
the values of the range. -/
theorem Represents.removePlan_steps {s : RangeSet α} {p : Layout α Unit} (h : s.Represents p)
    (hle : lo ≤ hi) :
    ∃ q, Steps p (s.removePlan lo hi).edits q ∧ Ascending q.blocks ∧
      ∀ v, Covered q.blocks v ↔ Covered p.blocks v ∧ ¬ (lo ≤ v ∧ v ≤ hi) := by
  rw [removePlan, if_pos hle, h.entries_eq]
  have hfits := Cut.of_fits h.ascending.ordered hle
  generalize Cut.of lo hi p.entries = cut at hfits ⊢
  obtain ⟨es, spares⟩ := p
  obtain rfl : es = cut.below ++ cut.touched ++ cut.above := hfits.entries_eq
  rw [List.append_assoc] at h ⊢
  obtain ⟨es, rest, hsteps, hasc, hcovered⟩ :=
    exists_carved hle cut.below cut.touched cut.above spares h.ascending hfits.touched
  refine ⟨⟨_, rest⟩, hsteps, hasc, fun v => ?_⟩
  have hkept := hfits.not_between (v := v)
  simp only [Layout.blocks, List.map_append, covered_append, hcovered] at hkept ⊢
  grind

/-- Removing a range keeps the order of the blocks, and it removes exactly the values of the
range. -/
theorem Represents.remove {s : RangeSet α} {p : Layout α Unit} (h : s.Represents p)
    (hle : lo ≤ hi) :
    ∃ q, (s.remove lo hi).1.Represents q ∧
      ∀ v, Covered q.blocks v ↔ Covered p.blocks v ∧ ¬ (lo ≤ v ∧ v ≤ hi) := by
  obtain ⟨q, hsteps, hasc, hcovered⟩ := h.removePlan_steps hle
  exact ⟨q, ⟨h.holds.steps hsteps, hasc⟩, hcovered⟩

end RangeSets.RangeSet
