import RangeSets.Proofs.Equality
import RangeSets.Scale.Binary.Laws
/-!
# Set operations

A union adds the ranges of one set to another, a difference removes them, an intersection is a
difference of a difference, and a complement is what the ranges of a set leave of the whole line. So
each operation is the one of its name on the values that the sets hold. A value that compares with
nothing is in no set, and so not in a complement either: the line has no place for it.

Sound sets are the same when they hold the same values, so the laws of the operations are those of
"and", "or" and "not".
-/

namespace RangeSets

open Scale

variable {α : Type} [Scale α]

namespace RangeSet

variable {s t u : RangeSet α}

/-! ### The values of the results -/

theorem Sound.contains_removeEach (h : s.Sound) (ranges : List (Span α)) (v : α) :
    (s.removeEach ranges).1.Contains v ↔ s.Contains v ∧ ∀ r ∈ ranges, ¬ r.Contains v := by
  induction ranges generalizing s with
  | nil => simp [RangeSet.removeEach, inTurn]
  | cons r rest ih =>
      obtain ⟨hsound, hcontains⟩ := h.remove r.lo r.hi
      have hrest := ih hsound
      rw [hcontains, and_assoc] at hrest
      rw [List.forall_mem_cons]
      exact hrest

theorem contains_whole (v : α) : (whole : RangeSet α).Contains v ↔ Comparable v := by
  rw [whole, contains_ofRange bottom_le_top]
  constructor
  · intro h
    exact (le_iff.mp h.1).2.1
  · intro hv
    exact ⟨(le_iff_place comparable_bottom hv).mpr (place_bottom_le hv),
      (le_iff_place hv comparable_top).mpr (place_le_top hv)⟩

theorem sound_whole : (whole : RangeSet α).Sound := sound_ofRange bottom_le_top

theorem Sound.union (hs : s.Sound) (t : RangeSet α) : (s.union t).Sound := hs.extend t.spans

theorem Sound.difference (hs : s.Sound) (t : RangeSet α) : (s.difference t).Sound :=
  hs.removeEach t.spans

theorem Sound.intersection (hs : s.Sound) (t : RangeSet α) : (s.intersection t).Sound :=
  hs.difference _

theorem sound_complement (s : RangeSet α) : s.complement.Sound := sound_whole.difference s

theorem Sound.contains_union (hs : s.Sound) (ht : t.Sound) (v : α) :
    (s.union t).Contains v ↔ s.Contains v ∨ t.Contains v := by
  rw [RangeSet.union, hs.contains_extend, ht.decomposes_spans.mem_iff]

theorem Sound.contains_difference (hs : s.Sound) (ht : t.Sound) (v : α) :
    (s.difference t).Contains v ↔ s.Contains v ∧ ¬ t.Contains v := by
  rw [RangeSet.difference, hs.contains_removeEach, ht.decomposes_spans.mem_iff]
  simp only [not_exists, not_and]

theorem Sound.contains_intersection (hs : s.Sound) (ht : t.Sound) (v : α) :
    (s.intersection t).Contains v ↔ s.Contains v ∧ t.Contains v := by
  rw [RangeSet.intersection, hs.contains_difference (hs.difference t),
    hs.contains_difference ht, not_and_not_right]
  exact and_congr_right fun hv => ⟨fun h => h hv, fun h _ => h⟩

theorem Sound.contains_complement (hs : s.Sound) (v : α) :
    s.complement.Contains v ↔ Comparable v ∧ ¬ s.Contains v := by
  rw [RangeSet.complement, sound_whole.contains_difference hs, contains_whole]

/-! ### The laws -/

theorem Sound.union_comm (hs : s.Sound) (ht : t.Sound) : (s.union t).Same (t.union s) := by
  rw [(hs.union t).same_iff (ht.union s)]
  intro v
  rw [hs.contains_union ht, ht.contains_union hs, or_comm]

theorem Sound.intersection_comm (hs : s.Sound) (ht : t.Sound) :
    (s.intersection t).Same (t.intersection s) := by
  rw [(hs.intersection t).same_iff (ht.intersection s)]
  intro v
  rw [hs.contains_intersection ht, ht.contains_intersection hs, and_comm]

theorem Sound.union_assoc (hs : s.Sound) (ht : t.Sound) (hu : u.Sound) :
    ((s.union t).union u).Same (s.union (t.union u)) := by
  have hst := hs.union t
  have htu := ht.union u
  rw [(hst.union u).same_iff (hs.union _)]
  intro v
  rw [hst.contains_union hu, hs.contains_union ht, hs.contains_union htu, ht.contains_union hu,
    or_assoc]

theorem Sound.intersection_assoc (hs : s.Sound) (ht : t.Sound) (hu : u.Sound) :
    ((s.intersection t).intersection u).Same (s.intersection (t.intersection u)) := by
  have hst := hs.intersection t
  have htu := ht.intersection u
  rw [(hst.intersection u).same_iff (hs.intersection _)]
  intro v
  rw [hst.contains_intersection hu, hs.contains_intersection ht, hs.contains_intersection htu,
    ht.contains_intersection hu, and_assoc]

theorem Sound.complement_complement (hs : s.Sound) : s.complement.complement.Same s := by
  have hc := sound_complement s
  rw [(sound_complement _).same_iff hs]
  intro v
  rw [hc.contains_complement, hs.contains_complement, not_and_not_right]
  exact ⟨fun h => h.2 h.1, fun hv => ⟨hs.comparable hv, fun _ => hv⟩⟩

theorem Sound.difference_eq (hs : s.Sound) (ht : t.Sound) :
    (s.difference t).Same (s.intersection t.complement) := by
  have hc := sound_complement t
  rw [(hs.difference t).same_iff (hs.intersection _)]
  intro v
  rw [hs.contains_difference ht, hs.contains_intersection hc, ht.contains_complement]
  exact and_congr_right fun hv => (and_iff_right (hs.comparable hv)).symm

theorem Sound.complement_union (hs : s.Sound) (ht : t.Sound) :
    (s.union t).complement.Same (s.complement.intersection t.complement) := by
  have hsc := sound_complement s
  have htc := sound_complement t
  rw [(sound_complement _).same_iff (hsc.intersection _)]
  intro v
  rw [(hs.union t).contains_complement, hs.contains_union ht, hsc.contains_intersection htc,
    hs.contains_complement, ht.contains_complement, not_or, and_and_left]

theorem Sound.complement_intersection (hs : s.Sound) (ht : t.Sound) :
    (s.intersection t).complement.Same (s.complement.union t.complement) := by
  have hsc := sound_complement s
  have htc := sound_complement t
  rw [(sound_complement _).same_iff (hsc.union _)]
  intro v
  rw [(hs.intersection t).contains_complement, hs.contains_intersection ht,
    hsc.contains_union htc, hs.contains_complement, ht.contains_complement, not_and_or, and_or_left]

/-! ### Two sets that share a zero -/

/-- All numbers up to zero, which is written with a sign, from negative infinity on. -/
def upToZero : RangeSet (Binary .single) := .ofSpans [⟨bottom, ⟨0x80000000⟩⟩]

/-- All numbers from zero on, which is written without a sign, up to infinity. -/
def fromZero : RangeSet (Binary .single) := .ofSpans [⟨⟨0⟩, top⟩]

end RangeSet

end RangeSets
