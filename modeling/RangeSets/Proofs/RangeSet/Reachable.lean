import RangeSets.Proofs.RangeSet.Adding
import RangeSets.Proofs.RangeSet.Removing
import RangeSets.RangeSet.Algebra
/-!
# The range sets that can be reached

A range set is sound when it represents some layout. Every way to build a set gives a sound one, and
every mutation leaves it sound: all of them come down to adding ranges, removing ranges and
forgetting all ranges. So a set that is reached in whatever way has a consistent chain, and its
ranges are in order with something missing between one and the next.
-/

namespace RangeSets.RangeSet

open Scale

variable {α : Type}

/-! ### One change after another -/

/-- A relation between sets and what they are changed to, with the changes that are told, that holds of
doing nothing, and of one thing after another when it holds of both. -/
structure Composes (R : RangeSet α → RangeSet α × List (Change α) → Prop) : Prop where
  keep : ∀ s, R s (s, [])
  follow : ∀ s r q, R s r → R r.1 q → R s (q.1, r.2 ++ q.2)

section Composes

variable {R : RangeSet α → RangeSet α × List (Change α) → Prop}

theorem Composes.inTurn {β : Type} (h : Composes R)
    {f : RangeSet α → β → RangeSet α × List (Change α)} (hf : ∀ s x, R s (f s x)) (s : RangeSet α)
    (xs : List β) : R s (inTurn f s xs) := by
  induction xs generalizing s with
  | nil => exact h.keep s
  | cons x rest ih => exact h.follow _ _ _ (hf s x) (ih _)

/-- Every mutation comes down to adding ranges, removing ranges and forgetting all ranges. -/
theorem Composes.mutate [Scale α] (h : Composes R) (hadd : ∀ s lo hi, R s (s.add lo hi))
    (hremove : ∀ s lo hi, R s (s.remove lo hi)) (hclear : ∀ s, R s s.clear) (s : RangeSet α)
    (mutation : Mutation α) : R s (s.mutate mutation) := by
  have hundo : ∀ (s : RangeSet α) (change : Change α), R s (s.undo change) := by
    intro s change
    cases change with
    | gained r => exact hremove s r.lo r.hi
    | lost r => exact hadd s r.lo r.hi
  cases mutation with
  | add lo hi => exact hadd s lo hi
  | remove lo hi => exact hremove s lo hi
  | removeFrom v =>
      simp only [RangeSet.mutate, removeFrom]
      split
      · exact h.keep s
      · exact hremove s v s.max
  | removeAbove v =>
      simp only [RangeSet.mutate, removeAbove]
      split
      · exact hremove s (Scale.next v) s.max
      · exact h.keep s
  | removeUpTo v =>
      simp only [RangeSet.mutate, removeUpTo]
      split
      · exact h.keep s
      · exact hremove s s.min v
  | removeBelow v =>
      simp only [RangeSet.mutate, removeBelow]
      split
      · exact hremove s s.min (Scale.prev v)
      · exact h.keep s
  | clear => exact hclear s
  | extend ranges => exact h.inTurn (fun s r => hadd s r.lo r.hi) s ranges
  | undo change => exact hundo s change
  | undoAll changes => exact h.inTurn hundo s changes.reverse

end Composes

/-- What every mutation keeps is kept from the first set on. -/
theorem composes_kept (P : RangeSet α → Prop) : Composes fun s r => P s → P r.1 where
  keep _ hs := hs
  follow _ _ _ hfirst hlater hs := hlater (hfirst hs)

/-- What every mutation of a list keeps, all of them keep in turn. -/
theorem inTurn_induction {β : Type} {P : RangeSet α → Prop}
    {s : RangeSet α} {f : RangeSet α → β → RangeSet α × List (Change α)} (hf : ∀ s x, P s → P (f s x).1)
    (h : P s) (xs : List β) : P (inTurn f s xs).1 :=
  (composes_kept P).inTurn hf s xs h

variable [Scale α]

/-! ### Sound sets -/

/-- The chain of the set keeps blocks in ascending order. -/
def Sound (s : RangeSet α) : Prop := ∃ p, s.Represents p

variable {s : RangeSet α} {lo hi v : α}

theorem Sound.comparable (h : s.Sound) (hv : s.Contains v) : Comparable v := by
  obtain ⟨p, hp⟩ := h
  exact ((hp.contains_iff v).mp hv).comparable

theorem sound_empty : (empty : RangeSet α).Sound := ⟨_, represents_empty⟩

theorem sound_ofRange (hle : lo ≤ hi) : (ofRange lo hi).Sound := ⟨_, represents_ofRange hle⟩

/-- Adding a range adds its values, which are none when the bounds are not in order. -/
theorem Sound.add (h : s.Sound) (lo hi : α) :
    (s.add lo hi).1.Sound ∧
      ∀ v, (s.add lo hi).1.Contains v ↔ s.Contains v ∨ (lo ≤ v ∧ v ≤ hi) := by
  obtain ⟨p, hp⟩ := h
  by_cases hle : lo ≤ hi
  · obtain ⟨q, hq, hcovered⟩ := hp.add hle
    refine ⟨⟨q, hq⟩, fun v => ?_⟩
    rw [hq.contains_iff, hp.contains_iff, hcovered]
  · have hsame : (s.add lo hi).1 = s := by
      rw [RangeSet.add, addPlan, if_neg hle]
      rfl
    rw [hsame]
    exact ⟨⟨p, hp⟩, fun v => by simp [not_between hle v]⟩

theorem Sound.remove (h : s.Sound) (lo hi : α) :
    (s.remove lo hi).1.Sound ∧
      ∀ v, (s.remove lo hi).1.Contains v ↔ s.Contains v ∧ ¬ (lo ≤ v ∧ v ≤ hi) := by
  obtain ⟨p, hp⟩ := h
  by_cases hle : lo ≤ hi
  · obtain ⟨q, hq, hcovered⟩ := hp.remove hle
    refine ⟨⟨q, hq⟩, fun v => ?_⟩
    rw [hq.contains_iff, hp.contains_iff, hcovered]
  · have hsame : (s.remove lo hi).1 = s := by
      rw [RangeSet.remove, removePlan, if_neg hle]
      rfl
    rw [hsame]
    exact ⟨⟨p, hp⟩, fun v => by simp [not_between hle v]⟩

theorem sound_clear (s : RangeSet α) : s.clear.1.Sound := sound_empty

theorem Sound.extend (h : s.Sound) (ranges : List (Span α)) : (s.extend ranges).1.Sound :=
  inTurn_induction (fun _ r hs => (hs.add r.lo r.hi).1) h ranges

theorem Sound.removeEach (h : s.Sound) (ranges : List (Span α)) : (s.removeEach ranges).1.Sound :=
  inTurn_induction (fun _ r hs => (hs.remove r.lo r.hi).1) h ranges

theorem Sound.undo (h : s.Sound) (change : Change α) : (s.undo change).1.Sound := by
  cases change with
  | gained r => exact (h.remove r.lo r.hi).1
  | lost r => exact (h.add r.lo r.hi).1

theorem Sound.mutate (h : s.Sound) (mutation : Mutation α) : (s.mutate mutation).1.Sound :=
  (composes_kept Sound).mutate (fun _ lo hi hs => (hs.add lo hi).1)
    (fun _ lo hi hs => (hs.remove lo hi).1) (fun s _ => sound_clear s) s mutation h

/-! ### Reachable sets -/

/-- The sets that come from building sets, combining them and changing them. A copy of a set has the
same slots, so it is the set itself. -/
inductive Reachable : RangeSet α → Prop
  | empty : Reachable empty
  | tryRange {lo hi : α} {s : RangeSet α} : RangeSet.tryRange lo hi = .ok s → Reachable s
  | requireRange {lo hi : α} {s : RangeSet α} : RangeSet.requireRange lo hi = .ok s → Reachable s
  | whole : Reachable whole
  | ofSpans (ranges : List (Span α)) : Reachable (ofSpans ranges)
  | union {s t : RangeSet α} : Reachable s → Reachable t → Reachable (s.union t)
  | intersection {s t : RangeSet α} : Reachable s → Reachable t → Reachable (s.intersection t)
  | difference {s t : RangeSet α} : Reachable s → Reachable t → Reachable (s.difference t)
  | complement {s : RangeSet α} : Reachable s → Reachable s.complement
  | mutate {s : RangeSet α} (mutation : Mutation α) :
      Reachable s → Reachable (s.mutate mutation).1

theorem Reachable.sound (h : s.Reachable) : s.Sound := by
  induction h with
  | empty => exact sound_empty
  | @tryRange lo hi s hs =>
      by_cases hle : lo ≤ hi
      · rw [RangeSet.tryRange, if_pos hle] at hs
        cases hs
        exact sound_ofRange hle
      · rw [RangeSet.tryRange, if_neg hle] at hs
        cases hs
  | @requireRange lo hi s hs =>
      by_cases hle : lo ≤ hi
      · rw [RangeSet.requireRange, if_pos hle] at hs
        cases hs
        exact sound_ofRange hle
      · rw [RangeSet.requireRange, if_neg hle] at hs
        cases hs
  | whole => exact sound_ofRange bottom_le_top
  | ofSpans ranges => exact sound_empty.extend ranges
  | union _ _ hs _ => exact hs.extend _
  | intersection _ _ hs _ => exact hs.removeEach _
  | difference _ _ hs _ => exact hs.removeEach _
  | complement _ _ => exact (sound_ofRange bottom_le_top).removeEach _
  | mutate mutation _ hs => exact hs.mutate mutation

/-! ### The invariant -/

/-- What is kept by a set between one use and the next. -/
structure Invariant (s : RangeSet α) : Prop where
  consistent : s.chain.Consistent
  proper : ∀ r ∈ s.spans, r.lo ≤ r.hi
  /-- Each range ends below every later one, and does not come right before it. -/
  apart : s.spans.Pairwise fun r t => r.hi < t.lo ∧ ¬ Scale.Same (next r.hi) t.lo

theorem Represents.invariant {p : Layout α Unit} (h : s.Represents p) : s.Invariant where
  consistent := h.holds.consistent
  proper := by
    intro r hr
    rw [h.spans_eq] at hr
    obtain ⟨e, he, rfl⟩ := List.mem_map.mp hr
    exact h.ascending.proper e.block (List.mem_map_of_mem he)
  apart := by
    rw [h.spans_eq, List.pairwise_map]
    have hapart := h.ascending.apart
    rw [Layout.blocks, List.pairwise_map] at hapart
    refine hapart.imp_of_mem fun {d e} hd he hgap => ?_
    obtain ⟨_, hhi, _⟩ := le_iff.mp (h.ascending.proper d.block (List.mem_map_of_mem hd))
    obtain ⟨hlo, _, _⟩ := le_iff.mp (h.ascending.proper e.block (List.mem_map_of_mem he))
    have hplace := Block.apart_unit.mp hgap
    simp only [Entry.hi_block, Entry.lo_block] at hhi hlo hplace
    have hnext := place_next hhi
    simp only [Entry.span, same_iff, lt_iff_place hhi hlo]
    omega

theorem Sound.invariant (h : s.Sound) : s.Invariant := by
  obtain ⟨p, hp⟩ := h
  exact hp.invariant

/-- Every set that can be reached keeps the invariant. -/
theorem invariant_of_reachable (h : s.Reachable) : s.Invariant := by
  obtain ⟨p, hp⟩ := h.sound
  exact hp.invariant

/-- All octets but those from 10 to 20. -/
def gapped : RangeSet Octet := (whole.mutate (.remove (.ofInt 10) (.ofInt 20))).1

theorem invariant_gapped : gapped.Reachable ∧ gapped.count = 2 ∧ gapped.Invariant :=
  ⟨.mutate _ .whole, by decide, invariant_of_reachable (.mutate _ .whole)⟩

end RangeSets.RangeSet
