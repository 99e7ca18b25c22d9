import RangeSets.Proofs.Chain.Consistent
import RangeSets.Proofs.Search
import RangeSets.RangeSet.Basic
/-!
# What a range set stands for

A range set represents a layout when its chain has that layout and the blocks ascend. All that is
asked of the set can then be answered from the blocks: a value belongs to the set when one of them
holds it.
-/

namespace RangeSets.RangeSet

open Scale

variable {α : Type} [Scale α]

/-- The chain of a set has a layout with ascending blocks. -/
structure Represents (s : RangeSet α) (p : Layout α Unit) : Prop where
  holds : s.chain.Holds p
  ascending : Ascending p.blocks

namespace Represents

variable {s : RangeSet α} {p : Layout α Unit}

theorem entries_eq (h : s.Represents p) : s.entries = p.entries := by
  rw [entries, h.holds.entries_eq, Entry.map_bare_unit]

theorem spans_eq (h : s.Represents p) : s.spans = p.entries.map Entry.span := by
  rw [spans, h.entries_eq]

theorem contains_iff (h : s.Represents p) (v : α) : s.Contains v ↔ Covered p.blocks v := by
  rw [Layout.blocks, ← Position.inside_iff h.ascending.ordered, Contains, slot?, position, h.entries_eq]
  split
  · rename_i i hi
    simp [hi]
  · rename_i hother
    simp only [Option.isSome_none, Bool.false_eq_true, false_iff, not_exists]
    exact hother

end Represents

theorem represents_empty : (empty : RangeSet α).Represents ⟨[], []⟩ :=
  ⟨Chain.holds_empty, Ascending.nil⟩

theorem represents_ofRange {lo hi : α} (hle : lo ≤ hi) :
    (ofRange lo hi).Represents ⟨[⟨0, lo, hi, ()⟩], []⟩ := by
  refine ⟨?_, ascending_singleton hle⟩
  exact Chain.holds_empty.step (Layout.Step.placeAfter [] [] [] lo hi ())

theorem contains_ofRange {lo hi v : α} (hle : lo ≤ hi) :
    (ofRange lo hi).Contains v ↔ lo ≤ v ∧ v ≤ hi := by
  rw [(represents_ofRange hle).contains_iff]
  exact covered_singleton

end RangeSets.RangeSet
