import Mathlib.Logic.Equiv.Defs
import RangeSets.Proofs.PointSet.Refusals
import RangeSets.Proofs.Stepwise.Offsets
/-!
# Within the universe

The values of a universe and the offsets below its width are two lists of the same things. The work in
words goes from one to the other and back without a loss, also where the universe touches the lowest or
the highest number of 64 bits, so what is kept in a set never leads out of the universe: not when the
set answers, and not when it tells what it gained or lost.
-/

namespace RangeSets

open Scale

variable {f : IntegerFormat}

namespace PointSet

variable {s : PointSet f} {u : PointUpdate f} {v : Fixed f} {P : Fixed f → Prop}
  {result : PointSet f × List (Change (Fixed f))}

/-! ### Values and their offsets -/

/-- The values that a set may hold. -/
def InUniverse (s : PointSet f) (v : Fixed f) : Prop := s.lower ≤ v ∧ v ≤ s.upper

/-- How many values the universe has. -/
def width (s : PointSet f) : Nat := (widthOf s.lower s.upper).toNat

theorem inUniverse_iff : s.InUniverse v ↔ s.lower.val ≤ v.val ∧ v.val ≤ s.upper.val :=
  and_congr Fixed.le_iff Fixed.le_iff

theorem lt_width_iff {n : Nat} : n < s.width ↔ s.lower.val + n ≤ s.upper.val := by
  rw [width, widthOf]
  omega

/-- Each value of the universe has its offset below the width, and each of these offsets its value. -/
def indexEquiv (s : PointSet f) : {v // s.InUniverse v} ≃ Fin s.width where
  toFun v := ⟨(v.val.val - s.lower.val).toNat, by
    have := inUniverse_iff.mp v.property
    exact lt_width_iff.mpr (by omega)⟩
  invFun n :=
    have hwithin := lt_width_iff.mp n.isLt
    have hmin := s.lower.min_le
    have hmax := s.upper.le_max
    ⟨⟨s.lower.val + n, by omega, by omega⟩, inUniverse_iff.mpr ⟨by dsimp only; omega, hwithin⟩⟩
  left_inv v := by
    have := inUniverse_iff.mp v.property
    refine Subtype.ext (Fixed.ext ?_)
    dsimp only
    omega
  right_inv n := by
    refine Fin.ext ?_
    dsimp only
    omega

theorem offset?_eq_indexEquiv (v : {v // s.InUniverse v}) :
    s.offset? v.val = some (s.indexEquiv v).val := by
  have hv := inUniverse_iff.mp v.property
  refine offset?_eq_some_iff.mpr ⟨?_, hv.2⟩
  show v.val.val = s.lower.val + ((v.val.val - s.lower.val).toNat : Nat)
  omega

theorem value?_eq_indexEquiv (n : Fin s.width) : s.value? n = some (s.indexEquiv.symm n).val :=
  value?_eq_some_iff.mpr rfl

theorem offset?_eq_none_of_not_inUniverse (h : ¬ s.InUniverse v) : s.offset? v = none := by
  rw [inUniverse_iff] at h
  exact offset?_eq_none_iff.mpr (by omega)

/-- The words lead from the values of the universe to the offsets below its width, and back the same
way. A value outside has no offset. -/
structure Indexed (s : PointSet f) : Prop where
  width_eq : Stepwise.Points.width s.lower s.upper = .ok s.width
  offsetOf_eq : ∀ v, Stepwise.Points.offsetOf s v.val = .ok (some (s.indexEquiv v).val)
  offsetOf_outside : ∀ v, ¬ s.InUniverse v → Stepwise.Points.offsetOf s v = .ok none
  valueAt_eq : ∀ n : Fin s.width, Stepwise.Points.valueAt s n = .ok (s.indexEquiv.symm n).val

theorem Reachable.indexed (h : s.Reachable) (hbits : f.bits ≤ 64) : s.Indexed where
  width_eq := by
    have hmade : PointSet.emptyOver s.lower s.upper = .ok ⟨s.lower, s.upper, []⟩ :=
      emptyOver_eq_ok_iff.mpr ⟨h.accepts, rfl⟩
    rw [Stepwise.Points.width_eq hbits, hmade]
    rfl
  offsetOf_eq v := by rw [Stepwise.Points.offsetOf_eq hbits, offset?_eq_indexEquiv]
  offsetOf_outside v hout := by
    rw [Stepwise.Points.offsetOf_eq hbits, offset?_eq_none_of_not_inUniverse hout]
  valueAt_eq n := by
    obtain ⟨v, hvalue, hread⟩ := Stepwise.Points.valueAt_eq hbits (lt_width_iff.mp n.isLt)
    obtain rfl := Option.some.inj (hvalue.symm.trans (value?_eq_indexEquiv n))
    exact hread

/-! ### What is told -/

/-- The ends of a run are values of the universe. -/
def TellsWithin (s : PointSet f) (change : Change (Fixed f)) : Prop :=
  s.InUniverse change.run.lo ∧ s.InUniverse change.run.hi

/-- What is gained is in the set afterwards, and the universe is still the same. -/
theorem Adds.tellsWithin (h : s.Adds P result) (hlower : result.1.lower = s.lower)
    (hupper : result.1.upper = s.upper) : ∀ change ∈ result.2, s.TellsWithin change := by
  intro change hchange
  obtain ⟨runs, hruns, htold⟩ := h.told
  rw [htold] at hchange
  obtain ⟨r, hr, rfl⟩ := List.mem_map.mp hchange
  have hplace : ∀ v, P v → s.InUniverse v := fun v hv => by
    have hwithin := h.sound.between ((h.contains_iff v).mpr (.inr hv))
    rwa [hlower, hupper] at hwithin
  obtain ⟨hlo, hhi⟩ := hruns.ends hr
  exact ⟨hplace _ hlo.1, hplace _ hhi.1⟩

/-- What is lost was in the set before. -/
theorem Removes.tellsWithin (h : s.Removes P result) (hs : s.Sound) :
    ∀ change ∈ result.2, s.TellsWithin change := by
  intro change hchange
  obtain ⟨runs, hruns, htold⟩ := h.told
  rw [htold] at hchange
  obtain ⟨r, hr, rfl⟩ := List.mem_map.mp hchange
  obtain ⟨hlo, hhi⟩ := hruns.ends hr
  exact ⟨hs.between hlo.2, hs.between hhi.2⟩

theorem Sound.tellsWithin (h : s.Sound) (hok : s.update u = .ok result) :
    ∀ change ∈ result.2, s.TellsWithin change := by
  obtain ⟨hlower, hupper⟩ := update_universe hok
  cases u with
  | add v => exact (h.add hok).tellsWithin hlower hupper
  | addBetween lo hi => exact (h.addBetween hok).tellsWithin hlower hupper
  | remove v =>
      cases hok
      exact (h.removeBetween v v).tellsWithin h
  | removeBetween lo hi =>
      cases hok
      exact (h.removeBetween lo hi).tellsWithin h
  | clear =>
      cases hok
      exact h.clear.tellsWithin h

/-! ### What is answered -/

theorem Sound.inUniverse_of_mem_values (h : s.Sound) (hv : v ∈ s.values) : s.InUniverse v :=
  h.between (h.mem_values.mp hv)

theorem Sound.exists_contains (h : s.Sound) (hcount : s.count ≠ 0) : ∃ v, s.Contains v :=
  Classical.not_forall_not.mp (mt h.count_eq_zero_iff.mpr hcount)

theorem Sound.inUniverse_of_above? (h : s.Sound) {v w : Fixed f} (hw : s.above? v = some w) :
    s.InUniverse w := by
  have hspec := h.above?_spec v
  rw [hw] at hspec
  exact h.between hspec.1.1

theorem Sound.inUniverse_of_below? (h : s.Sound) {v w : Fixed f} (hw : s.below? v = some w) :
    s.InUniverse w := by
  have hspec := h.below?_spec v
  rw [hw] at hspec
  exact h.between hspec.1.1

/-- Nothing leads out of the universe: no offset that is kept, no answer, and nothing that is told.
The work in words comes to an end with each answer and each removal. -/
structure StaysInUniverse (s : PointSet f) : Prop where
  offset_lt_width : ∀ n ∈ s.offsets, n < s.width
  indexed : s.Indexed
  listed : Stepwise.Points.listValues s = .ok s.values ∧ ∀ v ∈ s.values, s.InUniverse v
  least : Stepwise.Points.least s = .ok s.min ∧ (s.count ≠ 0 → s.InUniverse s.min)
  greatest : Stepwise.Points.greatest s = .ok s.max ∧ (s.count ≠ 0 → s.InUniverse s.max)
  above : ∀ v, Stepwise.Points.nextAbove? s v = .ok (s.above? v) ∧
    ∀ w ∈ s.above? v, s.InUniverse w
  below : ∀ v, Stepwise.Points.nextBelow? s v = .ok (s.below? v) ∧
    ∀ w ∈ s.below? v, s.InUniverse w
  removed : ∀ lo hi, Stepwise.Points.removeBetween s lo hi = .ok (s.removeBetween lo hi)
  told : ∀ u result, s.update u = .ok result → ∀ change ∈ result.2, s.TellsWithin change

/-- On formats of up to 64 bits, a set that can be reached never leaves its universe. -/
theorem stays_in_universe (hbits : f.bits ≤ 64) (h : s.Reachable) : s.StaysInUniverse where
  offset_lt_width n hn := lt_width_iff.mpr (h.sound.within n hn)
  indexed := h.indexed hbits
  listed := ⟨h.sound.listValues_eq hbits, fun _ hv => h.sound.inUniverse_of_mem_values hv⟩
  least := ⟨h.sound.least_eq hbits, fun hcount =>
    h.sound.between (h.sound.min_spec.least (h.sound.exists_contains hcount)).1⟩
  greatest := ⟨h.sound.greatest_eq hbits, fun hcount =>
    h.sound.between (h.sound.max_spec.greatest (h.sound.exists_contains hcount)).1⟩
  above v := ⟨h.sound.nextAbove?_eq hbits v, fun _ hw => h.sound.inUniverse_of_above? hw⟩
  below v := ⟨h.sound.nextBelow?_eq hbits v, fun _ hw => h.sound.inUniverse_of_below? hw⟩
  removed := h.sound.removeBetween_eq hbits
  told _ _ hok := h.sound.tellsWithin hok

/-- The three highest whole numbers of 64 bits with a sign, all of them in the set. -/
def highestLongs := PointSet.mk (.ofInt 9223372036854775805 : Long) top [0, 1, 2]

/-- The highest offset leads to the highest number, and there is nothing beyond it. The whole set goes
out as one run, up to the highest number. -/
theorem highestLongs_stay :
    highestLongs.Reachable ∧
      Stepwise.Points.valueAt highestLongs 2 = .ok top ∧
      Stepwise.Points.greatest highestLongs = .ok top ∧
      Stepwise.Points.nextAbove? highestLongs top = .ok none ∧
      Stepwise.Points.removeBetween highestLongs bottom top =
        .ok (⟨highestLongs.lower, top, []⟩, [.lost ⟨highestLongs.lower, top⟩]) ∧
      highestLongs.TellsWithin (.lost ⟨highestLongs.lower, top⟩) := by
  have hreach : highestLongs.Reachable :=
    .fullOver (show fullOver (.ofInt 9223372036854775805) top = .ok highestLongs from rfl)
  have hstays := stays_in_universe (by decide) hreach
  have hremoved : highestLongs.removeBetween bottom top =
      (⟨highestLongs.lower, top, []⟩, [.lost ⟨highestLongs.lower, top⟩]) := by decide
  refine ⟨hreach, hstays.indexed.valueAt_eq ⟨2, by decide⟩, hstays.greatest.1,
    (hstays.above top).1, (hstays.removed _ _).trans (congrArg Except.ok hremoved), ?_⟩
  exact hstays.told (.removeBetween bottom top) _ (congrArg Except.ok hremoved) _ (by simp)

end PointSet

end RangeSets
