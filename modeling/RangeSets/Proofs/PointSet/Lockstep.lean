import RangeSets.Proofs.PointSet.Updates
import RangeSets.Proofs.RangeSet.Changes
/-!
# Point sets and range sets in lockstep

A point set keeps one offset for each of its numbers, a range set keeps ranges in a chain. Begun with
the same numbers, and put through the same updates, they answer all questions alike and tell the same
changes.

All that the two have in common is which numbers they hold. That is enough: on whole numbers the answer
to each question is fixed by the numbers that the set holds, and so are the longest runs of the numbers
that an update adds or takes away.
-/

namespace RangeSets

open Scale

variable {f : IntegerFormat}

/-! ### Answers that are fixed by the numbers of a set -/

section Unique

variable {P : Fixed f → Prop} {a b v : Fixed f}

theorem LeastOrTop.unique (ha : LeastOrTop P a) (hb : LeastOrTop P b) : a = b :=
  Fixed.eq_of_same (ha.same hb)

theorem GreatestOrBottom.unique (ha : GreatestOrBottom P a) (hb : GreatestOrBottom P b) : a = b :=
  Fixed.eq_of_same (ha.same hb)

theorem Fixed.eq_of_rel {a? b? : Option (Fixed f)} (h : Option.Rel Same a? b?) : a? = b? := by
  cases h with
  | some hsame => rw [Fixed.eq_of_same hsame]
  | none => rfl

theorem LeastAbove.unique {a? b? : Option (Fixed f)} (ha : LeastAbove P v a?)
    (hb : LeastAbove P v b?) : a? = b? :=
  Fixed.eq_of_rel (LeastAbove.same (.refl v) ha hb)

theorem GreatestBelow.unique {a? b? : Option (Fixed f)} (ha : GreatestBelow P v a?)
    (hb : GreatestBelow P v b?) : a? = b? :=
  Fixed.eq_of_rel (GreatestBelow.same (.refl v) ha hb)

/-- Runs of whole numbers have no other bounds. -/
theorem Decomposes.eq {rs ts : List (Span (Fixed f))} (hr : Decomposes P rs) (ht : Decomposes P ts) :
    rs = ts := by
  rw [← List.forall₂_eq_eq_eq]
  refine (hr.unique ht).imp fun {r t} hsame => ?_
  cases r
  cases t
  exact congrArg₂ Span.mk (Fixed.eq_of_same hsame.1) (Fixed.eq_of_same hsame.2)

theorem changes_eq {told : Span (Fixed f) → Change (Fixed f)} {cs ds : List (Change (Fixed f))}
    (hcs : ∃ runs, Decomposes P runs ∧ cs = runs.map told)
    (hds : ∃ runs, Decomposes P runs ∧ ds = runs.map told) : cs = ds := by
  obtain ⟨rs, hrs, rfl⟩ := hcs
  obtain ⟨ts, hts, rfl⟩ := hds
  rw [hrs.eq hts]

end Unique

/-! ### Updates -/

/-- The updates that a point set and a range set have in common. -/
inductive PointUpdate (f : IntegerFormat) where
  | add (v : Fixed f)
  | addBetween (lo hi : Fixed f)
  | remove (v : Fixed f)
  | removeBetween (lo hi : Fixed f)
  | clear

/-- The update as it is made on a range set. -/
def PointUpdate.toMutation : PointUpdate f → Mutation (Fixed f)
  | add v => .add v v
  | addBetween lo hi => .add lo hi
  | remove v => .remove v v
  | removeBetween lo hi => .remove lo hi
  | clear => .clear

/-- The point set after an update, and the changes that it tells. -/
def PointSet.update (p : PointSet f) :
    PointUpdate f → Except (Refusal (Fixed f)) (PointSet f × List (Change (Fixed f)))
  | .add v => p.add v
  | .addBetween lo hi => p.addBetween lo hi
  | .remove v => .ok (p.remove v)
  | .removeBetween lo hi => .ok (p.removeBetween lo hi)
  | .clear => .ok p.clear

namespace PointStore

def update (points : PointStore f) (name : String) (u : PointUpdate f) :
    Except (Refusal (Fixed f)) (PointStore f) :=
  points.change name fun p => p.update u

/-- The store after updates of one set, the first one made first, if none is refused. -/
def updateAll (points : PointStore f) (name : String) (us : List (PointUpdate f)) :
    Except (Refusal (Fixed f)) (PointStore f) :=
  us.foldlM (fun points u => points.update name u) points

end PointStore

/-- The store after the same updates of a range set. -/
def Store.updateAll (ranges : Store (Fixed f)) (name : String) (us : List (PointUpdate f)) :
    Store (Fixed f) :=
  ranges.mutateAll name (us.map PointUpdate.toMutation)

theorem Store.updateAll_concat (ranges : Store (Fixed f)) (name : String) (us : List (PointUpdate f))
    (u : PointUpdate f) :
    ranges.updateAll name (us ++ [u]) =
      (ranges.updateAll name us).changeSet name fun s => s.mutate u.toMutation := by
  simp [updateAll, mutateAll]

namespace PointSet

/-! ### Sets with the same numbers -/

/-- All questions have the same answers from a point set and from a range set. The listed values of the
point set are those of the range set in ascending order, and the count is their number. -/
structure Alike (p : PointSet f) (s : RangeSet (Fixed f)) : Prop where
  contains_iff : ∀ v, p.Contains v ↔ s.Contains v
  count_eq_zero_iff : p.count = 0 ↔ s.IsEmpty
  min_eq : p.min = s.min
  max_eq : p.max = s.max
  above?_eq : ∀ v, p.above? v = s.above? v
  below?_eq : ∀ v, p.below? v = s.below? v
  mem_values : ∀ v, v ∈ p.values ↔ s.Contains v
  values_ascending : p.values.Pairwise (· < ·)
  count_eq : p.count = {v | s.Contains v}.ncard

/-- Sound sets that hold the same numbers. -/
structure Agrees (p : PointSet f) (s : RangeSet (Fixed f)) : Prop where
  points : p.Sound
  ranges : s.Sound
  contains_iff : ∀ v, p.Contains v ↔ s.Contains v

namespace Agrees

variable {p : PointSet f} {s : RangeSet (Fixed f)} {P : Fixed f → Prop}
  {points : PointSet f × List (Change (Fixed f))}
  {ranges : RangeSet (Fixed f) × List (Change (Fixed f))}

theorem contains_eq (h : p.Agrees s) : p.Contains = s.Contains :=
  funext fun v => propext (h.contains_iff v)

theorem alike (h : p.Agrees s) : p.Alike s where
  contains_iff := h.contains_iff
  count_eq_zero_iff := by rw [h.points.count_eq_zero_iff, h.ranges.isEmpty_iff, h.contains_eq]
  min_eq := (h.contains_eq ▸ h.points.min_spec).unique h.ranges.min_spec
  max_eq := (h.contains_eq ▸ h.points.max_spec).unique h.ranges.max_spec
  above?_eq v := (h.contains_eq ▸ h.points.above?_spec v).unique (h.ranges.above?_spec v)
  below?_eq v := (h.contains_eq ▸ h.points.below?_spec v).unique (h.ranges.below?_spec v)
  mem_values v := by rw [h.points.mem_values, h.contains_iff]
  values_ascending := h.points.values_ascending
  count_eq := by rw [h.points.count_eq_ncard, h.contains_eq]

theorem adds (h : p.Agrees s) (hpoints : p.Adds P points) (hsound : ranges.1.Sound)
    (hcontains : ∀ v, ranges.1.Contains v ↔ s.Contains v ∨ P v)
    (htold : ∃ runs, Decomposes (fun v => P v ∧ ¬ s.Contains v) runs ∧
      ranges.2 = runs.map .gained) : points.1.Agrees ranges.1 ∧ points.2 = ranges.2 := by
  have hpointsTold := hpoints.told
  rw [h.contains_eq] at hpointsTold
  refine ⟨⟨hpoints.sound, hsound, fun v => ?_⟩, changes_eq hpointsTold htold⟩
  rw [hpoints.contains_iff, hcontains, h.contains_iff]

theorem removes (h : p.Agrees s) (hpoints : p.Removes P points) (hsound : ranges.1.Sound)
    (hcontains : ∀ v, ranges.1.Contains v ↔ s.Contains v ∧ ¬ P v)
    (htold : ∃ runs, Decomposes (fun v => P v ∧ s.Contains v) runs ∧ ranges.2 = runs.map .lost) :
    points.1.Agrees ranges.1 ∧ points.2 = ranges.2 := by
  have hpointsTold := hpoints.told
  rw [h.contains_eq] at hpointsTold
  refine ⟨⟨hpoints.sound, hsound, fun v => ?_⟩, changes_eq hpointsTold htold⟩
  rw [hpoints.contains_iff, hcontains, h.contains_iff]

/-- Sets that hold the same numbers do so after an update, and tell the same changes of it. -/
theorem update (h : p.Agrees s) {u : PointUpdate f} (hok : p.update u = .ok points) :
    points.1.Agrees (s.mutate u.toMutation).1 ∧ points.2 = (s.mutate u.toMutation).2 := by
  cases u with
  | add v =>
      obtain ⟨hsound, hcontains⟩ := h.ranges.add v v
      exact h.adds (h.points.add hok) hsound hcontains (h.ranges.add_changes v v)
  | addBetween lo hi =>
      obtain ⟨hsound, hcontains⟩ := h.ranges.add lo hi
      exact h.adds (h.points.addBetween hok) hsound hcontains (h.ranges.add_changes lo hi)
  | remove v =>
      obtain ⟨hsound, hcontains⟩ := h.ranges.remove v v
      cases hok
      exact h.removes (h.points.removeBetween v v) hsound hcontains (h.ranges.remove_changes v v)
  | removeBetween lo hi =>
      obtain ⟨hsound, hcontains⟩ := h.ranges.remove lo hi
      cases hok
      exact h.removes (h.points.removeBetween lo hi) hsound hcontains (h.ranges.remove_changes lo hi)
  | clear =>
      cases hok
      have hnone : ∀ v, ¬ s.clear.1.Contains v := RangeSet.not_contains_empty
      exact h.removes h.points.clear (RangeSet.sound_clear s) (fun v => iff_of_false (hnone v) (by simp))
        ⟨s.spans, h.ranges.decomposes_spans.congr (by simp), rfl⟩

end Agrees

/-! ### Watched sets -/

/-- A point set and a range set are alike, and when each of them is watched under the same tag they stay
alike along every run of updates that are not refused: after each update they are alike again, and their
trails have heard the same events of it. -/
structure Lockstep (p : PointSet f) (s : RangeSet (Fixed f)) : Prop where
  alike : p.Alike s
  run {points mid after : PointStore f} {ranges : Store (Fixed f)} {pointName rangeName : String}
    {pointWatch rangeWatch : Watch} (us : List (PointUpdate f)) (u : PointUpdate f) :
    points.sets.get? pointName = some ⟨p, some pointWatch⟩ →
    ranges.sets.get? rangeName = some ⟨s, some rangeWatch⟩ →
    pointWatch.tag = rangeWatch.tag →
    points.updateAll pointName us = .ok mid → mid.update pointName u = .ok after →
    ∃ q t events,
      after.sets.value? pointName = some q ∧
      (ranges.updateAll rangeName (us ++ [u])).sets.value? rangeName = some t ∧
      q.Alike t ∧
      (after.trails.trail pointWatch.trail).heard =
        (mid.trails.trail pointWatch.trail).heard ++ events ∧
      ((ranges.updateAll rangeName (us ++ [u])).trails.trail rangeWatch.trail).heard =
        ((ranges.updateAll rangeName us).trails.trail rangeWatch.trail).heard ++ events

namespace Agrees

variable {p : PointSet f} {s : RangeSet (Fixed f)} {points after : PointStore f}
  {ranges : Store (Fixed f)} {pointName rangeName : String} {pointWatch rangeWatch : Watch}

theorem change (h : p.Agrees s) {u : PointUpdate f}
    (hpoints : points.sets.get? pointName = some ⟨p, some pointWatch⟩)
    (hranges : ranges.sets.get? rangeName = some ⟨s, some rangeWatch⟩)
    (hok : points.update pointName u = .ok after) :
    ∃ q t changes, q.Agrees t ∧ after.sets.get? pointName = some ⟨q, some pointWatch⟩ ∧
      (ranges.changeSet rangeName fun s => s.mutate u.toMutation).sets.get? rangeName =
        some ⟨t, some rangeWatch⟩ ∧
      points.trails.Heard after.trails pointWatch changes ∧
      ranges.trails.Heard (ranges.changeSet rangeName fun s => s.mutate u.toMutation).trails
        rangeWatch changes := by
  obtain ⟨q, changes, hresult, hafter, hheard⟩ := PointStore.change_of_get? hpoints hok
  obtain ⟨hchanged, htold⟩ := Store.changeSet_of_get? hranges fun s => s.mutate u.toMutation
  obtain ⟨hagrees, hsame⟩ := h.update hresult
  rw [← hsame] at htold
  exact ⟨q, _, changes, hagrees, hafter, hchanged, hheard, htold⟩

theorem updateAll (h : p.Agrees s)
    (hpoints : points.sets.get? pointName = some ⟨p, some pointWatch⟩)
    (hranges : ranges.sets.get? rangeName = some ⟨s, some rangeWatch⟩) {us : List (PointUpdate f)}
    (hok : points.updateAll pointName us = .ok after) :
    ∃ q t, q.Agrees t ∧ after.sets.get? pointName = some ⟨q, some pointWatch⟩ ∧
      (ranges.updateAll rangeName us).sets.get? rangeName = some ⟨t, some rangeWatch⟩ := by
  induction us generalizing p s points ranges with
  | nil =>
      cases hok
      exact ⟨p, s, h, hpoints, hranges⟩
  | cons u rest ih =>
      rw [PointStore.updateAll, List.foldlM_cons] at hok
      obtain ⟨mid, hmid, hrest⟩ := exists_of_bind_eq_ok hok
      obtain ⟨q, t, _, hagrees, hq, ht, _⟩ := h.change hpoints hranges hmid
      exact ih hagrees hq ht hrest

theorem lockstep (h : p.Agrees s) : p.Lockstep s := by
  refine ⟨h.alike, fun us u hpoints hranges htag hmid hafter => ?_⟩
  obtain ⟨q, t, hagrees, hq, ht⟩ := h.updateAll hpoints hranges hmid
  obtain ⟨q', t', changes, hagrees', hq', ht', hpointsHeard, hrangesHeard⟩ :=
    hagrees.change hq ht hafter
  rw [Store.updateAll_concat]
  refine ⟨q', t', _, ?_, ?_, hagrees'.alike, hpointsHeard.heard_eq, ?_⟩
  · rw [Shelf.value?, hq']
    rfl
  · rw [Shelf.value?, ht']
    rfl
  · rw [hrangesHeard.heard_eq, htag]

end Agrees

/-- An empty point set over a universe goes in lockstep with the empty range set, and one that is full
goes in lockstep with the set of that range. -/
theorem lockstep_of_universe (lo hi : Fixed f) (p : PointSet f) :
    (emptyOver lo hi = .ok p → p.Lockstep .empty) ∧
      (fullOver lo hi = .ok p → ∃ s, RangeSet.tryRange lo hi = .ok s ∧ p.Lockstep s) := by
  refine ⟨fun hok => ?_, fun hok => ?_⟩
  · obtain ⟨hsound, hnone⟩ := sound_emptyOver hok
    exact Agrees.lockstep ⟨hsound, RangeSet.sound_empty,
      fun v => iff_of_false (hnone v) (RangeSet.not_contains_empty v)⟩
  · obtain ⟨hsound, hall⟩ := sound_fullOver hok
    obtain ⟨hle, _⟩ := eq_of_fullOver hok
    refine ⟨RangeSet.ofRange lo hi, if_pos hle, Agrees.lockstep ⟨hsound, RangeSet.sound_ofRange hle,
      fun v => ?_⟩⟩
    rw [hall, RangeSet.contains_ofRange hle]

/-- No octet of those from -3 to 5. -/
def noOctets := PointSet.mk (.ofInt (-3) : Octet) (.ofInt 5) []

def watchedPoints := PointStore.mk ⟨[("points", ⟨noOctets, some ⟨7, "log"⟩⟩)]⟩ .empty

def watchedRanges : Store Octet :=
  ⟨⟨[("ranges", ⟨.empty, some ⟨7, "log"⟩⟩)]⟩, .empty, .empty⟩

theorem octets_in_lockstep :
    emptyOver (.ofInt (-3)) (.ofInt 5) = .ok noOctets ∧
      ∃ mid after q t,
        watchedPoints.updateAll "points" [.add (.ofInt 5), .add (.ofInt 4)] = .ok mid ∧
        mid.update "points" (.removeBetween (.ofInt (-90)) (.ofInt 4)) = .ok after ∧
        after.sets.value? "points" = some q ∧
        (watchedRanges.updateAll "ranges" ([.add (.ofInt 5), .add (.ofInt 4)] ++
          [.removeBetween (.ofInt (-90)) (.ofInt 4)])).sets.value? "ranges" = some t ∧
        q.Alike t ∧ q.count = 1 := by
  have hempty : emptyOver (.ofInt (-3)) (.ofInt 5) = .ok noOctets := rfl
  have hpoints : watchedPoints.sets.get? "points" = some ⟨noOctets, some ⟨7, "log"⟩⟩ := rfl
  have hranges : watchedRanges.sets.get? "ranges" = some ⟨.empty, some ⟨7, "log"⟩⟩ := rfl
  obtain ⟨mid, hmid⟩ : ∃ mid,
      watchedPoints.updateAll "points" [.add (.ofInt 5), .add (.ofInt 4)] = .ok mid := ⟨_, rfl⟩
  obtain ⟨after, hafter⟩ : ∃ after,
      mid.update "points" (.removeBetween (.ofInt (-90)) (.ofInt 4)) = .ok after := by
    cases hmid
    exact ⟨_, rfl⟩
  have hlockstep := (lockstep_of_universe _ _ _).1 hempty
  obtain ⟨q, t, _, hq, ht, halike, _⟩ := hlockstep.run _ _ hpoints hranges rfl hmid hafter
  refine ⟨hempty, mid, after, q, t, hmid, hafter, hq, ht, halike, ?_⟩
  cases hmid
  cases hafter
  cases hq
  rfl

end PointSet

end RangeSets
