import RangeSets.Proofs.RangeSet.Changes
import RangeSets.Proofs.RangeSet.Neighbours
/-!
# Removing one side of a set

Four mutations remove the values on one side of a bound, with the bound or without it. Each of them
removes a range from the bound, or from the step past it, to the end of the set on that side. All
values of the set lie between its ends, so of them the range holds just those on the side. A step past
the bound is made only where a value of the set lies beyond it, so it never stays where it is.

The ends of an empty set are those of the scale, each in place of the other, and nothing compares with
a bound that has no place; then no value is on the side, nothing changes and nothing is told.
-/

namespace RangeSets

open Scale

variable {α : Type}

/-! ### Sides of a bound -/

/-- The values on one side of a bound, with the bound or without it. -/
inductive Cutoff (α : Type) where
  | atLeast (v : α)
  | above (v : α)
  | atMost (v : α)
  | below (v : α)

namespace Cutoff

def bound : Cutoff α → α
  | atLeast v | above v | atMost v | below v => v

/-- The mutation that removes the values on the side. -/
def toMutation : Cutoff α → Mutation α
  | atLeast v => .removeFrom v
  | above v => .removeAbove v
  | atMost v => .removeUpTo v
  | below v => .removeBelow v

variable [Scale α]

/-- The value is on the side. -/
def Takes : Cutoff α → α → Prop
  | atLeast v, u => v ≤ u
  | above v, u => v < u
  | atMost v, u => u ≤ v
  | below v, u => u < v

theorem Takes.comparable {c : Cutoff α} {u : α} (h : c.Takes u) : Comparable c.bound := by
  cases c with
  | atLeast v => exact (le_iff.mp h).1
  | above v => exact (lt_iff.mp h).1
  | atMost v => exact (le_iff.mp h).2.1
  | below v => exact (lt_iff.mp h).2.1

end Cutoff

namespace RangeSet

variable [Scale α] {s : RangeSet α} {lo hi u : α}

/-! ### Removing what is not there -/

/-- The removal of a range that holds no value of the set leaves the set as it is, slots and all. -/
theorem Sound.remove_eq_self (h : s.Sound) (hnone : ∀ u, s.Contains u → ¬ (lo ≤ u ∧ u ≤ hi)) :
    s.remove lo hi = (s, []) := by
  obtain ⟨runs, hruns, htold⟩ := h.remove_changes lo hi
  obtain rfl := hruns.eq_nil fun u hu => hnone u hu.2 hu.1
  by_cases hle : lo ≤ hi
  · rw [RangeSet.remove, removePlan, if_pos hle] at htold ⊢
    have htouched : (Cut.of lo hi s.entries).touched = [] := List.map_eq_nil_iff.mp htold
    rw [htouched]
    rfl
  · rw [RangeSet.remove, removePlan, if_neg hle]
    rfl

/-! ### The range that is removed -/

theorem Sound.between_ends (h : s.Sound) (hu : s.Contains u) : s.min ≤ u ∧ u ≤ s.max :=
  ⟨(h.min_spec.least ⟨u, hu⟩).2 u hu, (h.max_spec.greatest ⟨u, hu⟩).2 u hu⟩

/-- Either no value of the set is on the side and the set stays as it is, or a range is removed that
holds, of the values of the set, just those on the side. -/
theorem Sound.trim_cases (h : s.Sound) (c : Cutoff α) :
    (s.mutate c.toMutation = (s, []) ∧ ∀ u, s.Contains u → ¬ c.Takes u) ∨
      ∃ lo hi, s.mutate c.toMutation = s.remove lo hi ∧
        ∀ u, s.Contains u → (lo ≤ u ∧ u ≤ hi ↔ c.Takes u) := by
  -- One bound of the range is an end of the set, which no value of the set is beyond, so the other one
  -- decides alone.
  cases c with
  | atLeast v =>
      by_cases hempty : s.IsEmpty
      · exact .inl ⟨if_pos hempty, fun u hu => absurd hu (h.isEmpty_iff.mp hempty u)⟩
      · exact .inr ⟨v, s.max, if_neg hempty, fun u hu => and_iff_left (h.between_ends hu).2⟩
  | above v =>
      by_cases hlt : v < s.max
      · refine .inr ⟨next v, s.max, if_pos hlt, fun u hu => ?_⟩
        rw [and_iff_left (h.between_ends hu).2]
        exact next_le_iff hlt u
      · exact .inl ⟨if_neg hlt, fun u hu habove =>
          hlt (lt_le_trans habove (h.between_ends hu).2)⟩
  | atMost v =>
      by_cases hempty : s.IsEmpty
      · exact .inl ⟨if_pos hempty, fun u hu => absurd hu (h.isEmpty_iff.mp hempty u)⟩
      · exact .inr ⟨s.min, v, if_neg hempty, fun u hu => and_iff_right (h.between_ends hu).1⟩
  | below v =>
      by_cases hlt : s.min < v
      · refine .inr ⟨s.min, prev v, if_pos hlt, fun u hu => ?_⟩
        rw [and_iff_right (h.between_ends hu).1]
        exact le_prev_iff hlt u
      · exact .inl ⟨if_neg hlt, fun u hu hbelow =>
          hlt (le_lt_trans (h.between_ends hu).1 hbelow)⟩

/-! ### What is left and what is told -/

theorem Sound.contains_trim (h : s.Sound) (c : Cutoff α) (u : α) :
    (s.mutate c.toMutation).1.Contains u ↔ s.Contains u ∧ ¬ c.Takes u := by
  cases h.trim_cases c with
  | inl hkept =>
      rw [hkept.1]
      exact (and_iff_left_of_imp (hkept.2 u)).symm
  | inr hremoved =>
      obtain ⟨lo, hi, heq, htakes⟩ := hremoved
      rw [heq, (h.remove lo hi).2]
      exact and_congr_right fun hu => not_congr (htakes u hu)

theorem Sound.trim_changes (h : s.Sound) (c : Cutoff α) :
    ∃ runs, Decomposes (fun u => s.Contains u ∧ c.Takes u) runs ∧
      (s.mutate c.toMutation).2 = runs.map .lost := by
  cases h.trim_cases c with
  | inl hkept => exact ⟨[], .nil fun u hu => hkept.2 u hu.1 hu.2, by rw [hkept.1]; rfl⟩
  | inr hremoved =>
      obtain ⟨lo, hi, heq, htakes⟩ := hremoved
      obtain ⟨runs, hruns, htold⟩ := h.remove_changes lo hi
      refine ⟨runs, hruns.congr fun u => ?_, by rw [heq, htold]⟩
      rw [and_comm]
      exact and_congr_right (htakes u)

theorem Sound.trim_eq_self (h : s.Sound) {c : Cutoff α} (hnone : ∀ u, s.Contains u → ¬ c.Takes u) :
    s.mutate c.toMutation = (s, []) := by
  cases h.trim_cases c with
  | inl hkept => exact hkept.1
  | inr hremoved =>
      obtain ⟨lo, hi, heq, htakes⟩ := hremoved
      rw [heq]
      exact h.remove_eq_self fun u hu hbetween => hnone u hu ((htakes u hu).mp hbetween)

/-- When one side of a watched set is removed, the set keeps exactly its other values, and its trail
hears of each longest run of the values on the side once, in ascending order and under the tag of the
watch. The set stays as it is, and nothing is heard, when it is empty, when the bound compares with
nothing and, whatever the bound, when no value of the set is on the side. -/
theorem trims_take_one_side {store : Store α} {name : String} {watch : Watch}
    (hget : store.sets.get? name = some ⟨s, some watch⟩) (hs : s.Reachable) (c : Cutoff α) :
    (∀ u, (s.mutate c.toMutation).1.Contains u ↔ s.Contains u ∧ ¬ c.Takes u) ∧
      (store.changeSet name fun s => s.mutate c.toMutation).sets.get? name =
        some ⟨(s.mutate c.toMutation).1, some watch⟩ ∧
      (∃ runs, LongestRuns (fun u => s.Contains u ∧ c.Takes u) runs ∧
        store.trails.Heard (store.changeSet name fun s => s.mutate c.toMutation).trails watch
          (runs.map .lost)) ∧
      (s.IsEmpty ∨ ¬ Comparable c.bound ∨ (∀ u, s.Contains u → ¬ c.Takes u) →
        s.mutate c.toMutation = (s, []) ∧
          store.trails.Heard (store.changeSet name fun s => s.mutate c.toMutation).trails watch
            []) := by
  obtain ⟨hafter, hheard⟩ := Store.changeSet_of_get? hget fun s => s.mutate c.toMutation
  obtain ⟨runs, hruns, htold⟩ := hs.sound.trim_changes c
  refine ⟨hs.sound.contains_trim c, hafter, ⟨runs, hruns.longestRuns, htold ▸ hheard⟩,
    fun hcase => ?_⟩
  have hnone : ∀ u, s.Contains u → ¬ c.Takes u := by
    rcases hcase with hempty | hbound | hnone
    · exact fun u hu => absurd hu (hs.sound.isEmpty_iff.mp hempty u)
    · exact fun u _ htakes => hbound htakes.comparable
    · exact hnone
  have hself := hs.sound.trim_eq_self hnone
  exact ⟨hself, by rwa [hself] at hheard⟩

theorem gapped_trimmed :
    watchedGapped.sets.get? "gapped" = some ⟨gapped, some ⟨7, "log"⟩⟩ ∧ gapped.Reachable ∧
      ¬ (gapped.mutate (.removeUpTo (.ofInt 30))).1.Contains (.ofInt 30) ∧
      (gapped.mutate (.removeUpTo (.ofInt 30))).1.Contains (.ofInt 31) ∧
      (gapped.mutate (.removeUpTo (.ofInt 30))).2 =
        [.lost ⟨.ofInt (-128), .ofInt 9⟩, .lost ⟨.ofInt 21, .ofInt 30⟩] ∧
      gapped.mutate (.removeAbove (.ofInt 127)) = (gapped, []) := by
  have hget : watchedGapped.sets.get? "gapped" = some ⟨gapped, some ⟨7, "log"⟩⟩ := rfl
  have hs : gapped.Reachable := .mutate _ .whole
  have hcontains := (trims_take_one_side hget hs (.atMost (.ofInt 30))).1
  have hnone : ∀ u, gapped.Contains u → ¬ (Cutoff.above (.ofInt 127)).Takes u := by
    intro u _ habove
    exact absurd u.le_max (Int.not_le.mpr habove)
  have hkept := (trims_take_one_side hget hs (.above (.ofInt 127))).2.2.2 (.inr (.inr hnone))
  refine ⟨hget, hs, fun hin => ((hcontains _).mp hin).2 ?_, (hcontains _).mpr ⟨?_, ?_⟩, ?_, hkept.1⟩
  · exact Int.le_refl 30
  · decide
  · exact Int.not_le.mpr (by decide)
  · decide

end RangeSet

end RangeSets
