import RangeSets.Proofs.PointSet.Lockstep
import RangeSets.Proofs.Scale.Stepping
/-!
# Point sets that can be reached

A point set begins with a universe, empty or full, and is updated from there. No update changes the
universe, so a set that can be reached has one that was accepted, and its offsets stay within it.
-/

namespace RangeSets.PointSet

variable {f : IntegerFormat} {p q : PointSet f} {u : PointUpdate f} {lo hi v : Fixed f}
  {result : PointSet f × List (Change (Fixed f))} {refusal : Refusal (Fixed f)}

/-! ### Universes that are accepted -/

/-- The universe has its bounds in order, and no more values than can be told apart. -/
def Accepts (lo hi : Fixed f) : Prop := lo ≤ hi ∧ widthOf lo hi ≤ widestUniverse

theorem emptyOver_eq_ok_iff : emptyOver lo hi = .ok p ↔ Accepts lo hi ∧ p = ⟨lo, hi, []⟩ := by
  rw [emptyOver, Accepts, Fixed.le_iff_not_lt]
  split
  · simp [*]
  · split
    · rename_i hwide
      simp [Int.not_le.mpr hwide]
    · rename_i hwide
      simp [*, Int.not_lt.mp hwide, eq_comm]

theorem emptyOver_eq_error_iff : emptyOver lo hi = .error refusal ↔
    (hi < lo ∧ refusal = .unordered lo hi) ∨
      (lo ≤ hi ∧ widestUniverse < widthOf lo hi ∧ refusal = .tooWide lo hi) := by
  rw [emptyOver, Fixed.le_iff_not_lt]
  split
  · simp [*, eq_comm]
  · split <;> simp [*, eq_comm]

/-- A full set is refused just when the empty one is, and for the same reason. -/
theorem fullOver_eq : fullOver lo hi = (emptyOver lo hi).map fun _ =>
    ⟨lo, hi, List.range (widthOf lo hi).toNat⟩ := by
  rw [fullOver]
  cases hmade : emptyOver lo hi with
  | error refusal => rfl
  | ok s =>
      obtain ⟨_, rfl⟩ := eq_of_emptyOver hmade
      rfl

/-! ### Updates -/

theorem add_universe (hok : p.add v = .ok result) :
    result.1.lower = p.lower ∧ result.1.upper = p.upper := by
  rw [add] at hok
  split at hok
  · cases hok
  · split at hok <;> cases hok <;> exact ⟨rfl, rfl⟩

theorem removeBetween_universe (p : PointSet f) (lo hi : Fixed f) :
    (p.removeBetween lo hi).1.lower = p.lower ∧ (p.removeBetween lo hi).1.upper = p.upper := by
  unfold removeBetween
  dsimp only
  split <;> exact ⟨rfl, rfl⟩

/-- No update changes the universe. -/
theorem update_universe (hok : p.update u = .ok result) :
    result.1.lower = p.lower ∧ result.1.upper = p.upper := by
  cases u with
  | add v => exact add_universe hok
  | addBetween lo hi =>
      rw [update, addBetween] at hok
      split at hok
      · cases hok
        exact ⟨rfl, rfl⟩
      · split at hok
        · cases hok
        · exact add_universe hok
  | remove v =>
      cases hok
      exact p.removeBetween_universe v v
  | removeBetween lo hi =>
      cases hok
      exact p.removeBetween_universe lo hi
  | clear =>
      cases hok
      exact p.removeBetween_universe p.lower p.upper

theorem Sound.update (h : p.Sound) (hok : p.update u = .ok result) : result.1.Sound := by
  cases u with
  | add v => exact (h.add hok).sound
  | addBetween lo hi => exact (h.addBetween hok).sound
  | remove v =>
      cases hok
      exact (h.removeBetween v v).sound
  | removeBetween lo hi =>
      cases hok
      exact (h.removeBetween lo hi).sound
  | clear =>
      cases hok
      exact h.clear.sound

/-- The sets that come from making a universe and updating. A copy of a set has the same offsets, so
it is the set itself. -/
inductive Reachable : PointSet f → Prop
  | emptyOver {lo hi : Fixed f} {p : PointSet f} : emptyOver lo hi = .ok p → Reachable p
  | fullOver {lo hi : Fixed f} {p : PointSet f} : fullOver lo hi = .ok p → Reachable p
  | update {p q : PointSet f} {changes : List (Change (Fixed f))} (u : PointUpdate f) :
      Reachable p → p.update u = .ok (q, changes) → Reachable q

theorem Reachable.sound (h : p.Reachable) : p.Sound := by
  induction h with
  | emptyOver hok => exact (sound_emptyOver hok).1
  | fullOver hok => exact (sound_fullOver hok).1
  | update u _ hok hp => exact hp.update hok

/-- The universe of a set that can be reached was accepted. -/
theorem Reachable.accepts (h : p.Reachable) : Accepts p.lower p.upper := by
  induction h with
  | emptyOver hok =>
      obtain ⟨haccepts, rfl⟩ := emptyOver_eq_ok_iff.mp hok
      exact haccepts
  | fullOver hok =>
      rw [fullOver_eq] at hok
      obtain ⟨s, hs, rfl⟩ := exists_of_map_eq_ok hok
      exact (emptyOver_eq_ok_iff.mp hs).1
  | update u _ hok hp =>
      obtain ⟨hlower, hupper⟩ := update_universe hok
      rw [hlower, hupper]
      exact hp

end RangeSets.PointSet
