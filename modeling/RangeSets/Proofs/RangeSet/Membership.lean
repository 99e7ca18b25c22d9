import RangeSets.Proofs.RangeSet.Reachable
/-!
# Membership after a run of updates

An update covers the values that it is about: the values of the ranges that are added or removed, and
all values when the set is cleared. Whether a value belongs to a set after a run of updates is
decided by the last one that covers it; where none does, it stays as it was.
-/

namespace RangeSets

open Scale

variable {α : Type}

/-- The updates of a set that say which values they are about. -/
inductive Update (α : Type) where
  | add (lo hi : α)
  | remove (lo hi : α)
  | extend (ranges : List (Span α))
  | clear

namespace Update

def toMutation : Update α → Mutation α
  | add lo hi => .add lo hi
  | remove lo hi => .remove lo hi
  | extend ranges => .extend ranges
  | clear => .clear

def IsAddition : Update α → Prop
  | add _ _ | extend _ => True
  | remove _ _ | clear => False

def Covers [Scale α] (v : α) : Update α → Prop
  | add lo hi | remove lo hi => lo ≤ v ∧ v ≤ hi
  | extend ranges => ∃ r ∈ ranges, r.Contains v
  | clear => True

/-- The last update of a run that covers the value is an addition. -/
def LastAdds [Scale α] (us : List (Update α)) (v : α) : Prop :=
  ∃ earlier u later, us = earlier ++ u :: later ∧ u.Covers v ∧ u.IsAddition ∧
    ∀ w ∈ later, ¬ w.Covers v

variable [Scale α]

theorem not_lastAdds_nil (v : α) : ¬ LastAdds [] v := by
  intro h
  obtain ⟨earlier, u, later, hsplit, _⟩ := h
  simp at hsplit

theorem lastAdds_cons {u : Update α} {us : List (Update α)} {v : α} :
    LastAdds (u :: us) v ↔
      LastAdds us v ∨ ((∀ w ∈ us, ¬ w.Covers v) ∧ u.Covers v ∧ u.IsAddition) := by
  refine ⟨fun h => ?_, fun h => ?_⟩
  · obtain ⟨earlier, d, later, hsplit, hcovers, hadds, hlater⟩ := h
    cases earlier with
    | nil =>
        obtain ⟨rfl, rfl⟩ := List.cons.inj hsplit
        exact .inr ⟨hlater, hcovers, hadds⟩
    | cons e rest =>
        obtain ⟨rfl, hrest⟩ := List.cons.inj hsplit
        exact .inl ⟨rest, d, later, hrest, hcovers, hadds, hlater⟩
  · rcases h with ⟨earlier, d, later, hsplit, hlast⟩ | ⟨hlater, hcovers, hadds⟩
    · exact ⟨u :: earlier, d, later, by rw [hsplit, List.cons_append], hlast⟩
    · exact ⟨[], u, us, rfl, hcovers, hadds, hlater⟩

end Update

namespace RangeSet

variable [Scale α] {s : RangeSet α}

/-- The set after a run of updates, the first one made first. -/
def run (s : RangeSet α) (us : List (Update α)) : RangeSet α :=
  us.foldl (fun s u => (s.mutate u.toMutation).1) s

theorem not_contains_empty (v : α) : ¬ (empty : RangeSet α).Contains v := by
  rw [represents_empty.contains_iff]
  exact covered_nil v

theorem Sound.contains_extend (h : s.Sound) (ranges : List (Span α)) (v : α) :
    (s.extend ranges).1.Contains v ↔ s.Contains v ∨ ∃ r ∈ ranges, r.Contains v := by
  induction ranges generalizing s with
  | nil => simp [RangeSet.extend, inTurn]
  | cons r rest ih =>
      obtain ⟨hsound, hcontains⟩ := h.add r.lo r.hi
      have hrest := ih hsound
      rw [hcontains, or_assoc] at hrest
      simp only [List.mem_cons, exists_eq_or_imp]
      exact hrest

theorem Sound.contains_update (h : s.Sound) (u : Update α) (v : α) :
    (s.mutate u.toMutation).1.Contains v ↔
      (u.Covers v ∧ u.IsAddition) ∨ (¬ u.Covers v ∧ s.Contains v) := by
  cases u with
  | add lo hi =>
      have hadd := (h.add lo hi).2 v
      simp only [Update.toMutation, RangeSet.mutate, hadd, Update.Covers, Update.IsAddition]
      grind
  | remove lo hi =>
      have hremove := (h.remove lo hi).2 v
      simp only [Update.toMutation, RangeSet.mutate, hremove, Update.Covers, Update.IsAddition]
      grind
  | extend ranges =>
      have hextend := h.contains_extend ranges v
      simp only [Update.toMutation, RangeSet.mutate, hextend, Update.Covers, Update.IsAddition]
      grind
  | clear =>
      have hclear : ¬ s.clear.1.Contains v := not_contains_empty v
      simpa [Update.toMutation, RangeSet.mutate, Update.Covers, Update.IsAddition] using hclear

theorem Sound.contains_run (h : s.Sound) (us : List (Update α)) (v : α) :
    (s.run us).Contains v ↔
      Update.LastAdds us v ∨ ((∀ u ∈ us, ¬ u.Covers v) ∧ s.Contains v) := by
  induction us generalizing s with
  | nil => simp [run, Update.not_lastAdds_nil]
  | cons u rest ih =>
      have hrest := ih (h.mutate u.toMutation)
      rw [h.contains_update] at hrest
      rw [Update.lastAdds_cons]
      simp only [List.mem_cons, forall_eq_or_imp]
      refine hrest.trans ?_
      grind

theorem Sound.run (h : s.Sound) (us : List (Update α)) : (s.run us).Sound := by
  induction us generalizing s with
  | nil => exact h
  | cons u rest ih => exact ih (h.mutate u.toMutation)

theorem contains_ofSpans (ranges : List (Span α)) (v : α) :
    (ofSpans ranges).Contains v ↔ ∃ r ∈ ranges, r.Contains v := by
  rw [ofSpans, sound_empty.contains_extend]
  simp [not_contains_empty]

/-- After a run of updates a value belongs to a set exactly when the last update that covers it was
an addition, or none covers it and it belonged to the set before. Bounds that are not in order cover
nothing, and a value that compares with nothing never belongs to the set. -/
theorem membership_after_run (h : s.Reachable) (us : List (Update α)) (v : α) :
    ((s.run us).Contains v ↔
        Update.LastAdds us v ∨ ((∀ u ∈ us, ¬ u.Covers v) ∧ s.Contains v)) ∧
      (∀ lo hi, ¬ lo ≤ hi → ¬ (Update.add lo hi).Covers v ∧ ¬ (Update.remove lo hi).Covers v) ∧
      (¬ Comparable v → ¬ (s.run us).Contains v) ∧
      (∀ lo hi, ((s.run us).add lo hi).1.Contains v ↔
        (s.run us).Contains v ∨ (lo ≤ v ∧ v ≤ hi)) ∧
      (∀ lo hi, ((s.run us).remove lo hi).1.Contains v ↔
        (s.run us).Contains v ∧ ¬ (lo ≤ v ∧ v ≤ hi)) ∧
      ∀ ranges, (ofSpans ranges).Contains v ↔ ∃ r ∈ ranges, r.Contains v := by
  have hrun := h.sound.run us
  refine ⟨h.sound.contains_run us v, fun lo hi hle => ?_, fun hv hcontains => ?_, ?_, ?_, ?_⟩
  · exact ⟨not_between hle v, not_between hle v⟩
  · exact hv (hrun.comparable hcontains)
  · exact fun lo hi => (hrun.add lo hi).2 v
  · exact fun lo hi => (hrun.remove lo hi).2 v
  · exact fun ranges => contains_ofSpans ranges v

theorem membership_gapped : gapped.Reachable ∧
    (gapped.run [.add (.ofInt 12) (.ofInt 14), .remove (.ofInt 13) (.ofInt 13)]).Contains
      (.ofInt 12) := by
  have hgapped : gapped.Reachable := .mutate _ .whole
  refine ⟨hgapped, (membership_after_run hgapped _ _).1.mpr (.inl ⟨[], _, _, rfl, ?_, trivial, ?_⟩)⟩
  · exact ⟨by decide, by decide⟩
  · intro w hw
    obtain rfl := List.mem_singleton.mp hw
    intro hcovers
    exact absurd hcovers.1 (by decide)

end RangeSet

end RangeSets
