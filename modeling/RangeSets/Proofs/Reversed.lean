import RangeSets.Proofs.PointSet.Reachable
import RangeSets.Proofs.RangeSet.Idle
import RangeSets.Proofs.WorthMap.Merging
/-!
# Ranges whose bounds are out of order

A range whose bounds are out of order, or not both numbers, has no values, and adding or removing it is
ignored: what is kept stays the same, slot by slot, and nothing is told. A point set first moves the
bounds of a removal into its universe. The lower bound moves up and the upper one down, so that bounds out
of order stay out of order, wherever the universe is.

A map negates the worth that it takes away before it looks at the bounds. So the lowest worth, which has
no negative, comes to a fault even where there is nothing to take it away from.
-/

namespace RangeSets

open Scale Worth

variable {α : Type} [Scale α]

/-! ### Worth maps -/

namespace WorthMap

variable {m : WorthMap α} {lo hi : α} {worth : Worth}

theorem add_of_not_le (hle : ¬ lo ≤ hi) (m : WorthMap α) (worth : Worth) :
    m.add lo hi worth = .ok (m, []) := by
  rw [WorthMap.add, if_neg fun h => hle h.1]

theorem remove_of_not_le (hle : ¬ lo ≤ hi) (m : WorthMap α) (worth : Worth) :
    m.remove lo hi worth =
      if worth.val = worthFormat.min then .error (.negation worth) else .ok (m, []) := by
  split
  · rename_i hlow
    exact remove_lowest hlow lo hi m
  · rename_i hlow
    obtain ⟨negated, hval⟩ := exists_negated hlow
    rw [remove_eq_add hval, add_of_not_le hle]

/-- An addition leaves a map as it was for no other reason than that it has no values, or adds nothing. -/
theorem Sound.add_ignored_iff (hm : m.Sound) :
    m.add lo hi worth = .ok (m, []) ↔ ¬ lo ≤ hi ∨ worth = Worth.zero := by
  constructor
  · intro hignored
    by_contra hboth
    push Not at hboth
    obtain ⟨hle, hne⟩ := hboth
    have hlo : lo ≤ lo := (le_iff.mp hle).1
    have hsame := (hm.add hignored).2 lo
    rw [if_pos ⟨hlo, hle⟩] at hsame
    exact hne (Fixed.ext (show worth.val = 0 by omega))
  · intro hnothing
    rw [WorthMap.add, if_neg fun h => hnothing.elim (fun hle => hle h.1) h.2]

theorem Sound.remove_ignored_iff (hm : m.Sound) :
    m.remove lo hi worth = .ok (m, []) ↔
      worth.val ≠ worthFormat.min ∧ ¬ lo ≤ hi ∨ worth = Worth.zero := by
  by_cases hlow : worth.val = worthFormat.min
  · rw [remove_lowest hlow]
    refine iff_of_false (fun h => nomatch h) ?_
    rintro (⟨hne, _⟩ | rfl)
    · exact hne hlow
    · exact absurd hlow (by decide)
  · obtain ⟨negated, hval⟩ := exists_negated hlow
    have hzero : negated = Worth.zero ↔ worth = Worth.zero := by
      rw [Fixed.ext_iff, Fixed.ext_iff, hval]
      exact neg_eq_zero
    rw [remove_eq_add hval, hm.add_ignored_iff, hzero, and_iff_right hlow]

end WorthMap

/-! ### Point sets -/

namespace PointSet

variable {f : IntegerFormat} {lo hi : Fixed f}

theorem addBetween_of_not_le (hle : ¬ lo ≤ hi) (p : PointSet f) :
    p.addBetween lo hi = .ok (p, []) :=
  if_pos (Int.not_le.mp hle)

/-- Bounds that were moved into the universe are out of order when they were so before. -/
theorem clamped_of_not_le (hle : ¬ lo ≤ hi) (lower upper : Fixed f) :
    ¬ (if lo < lower then lower else lo) ≤ if upper < hi then upper else hi := by
  have hlo : (if lo < lower then lower else lo).val = Max.max lo.val lower.val :=
    place_higherOf lo.comparable lower.comparable
  have hhi : (if upper < hi then upper else hi).val = Min.min hi.val upper.val :=
    place_lowerOf hi.comparable upper.comparable
  rw [Fixed.le_iff] at hle ⊢
  omega

theorem removeBetween_of_not_le (hle : ¬ lo ≤ hi) (p : PointSet f) :
    p.removeBetween lo hi = (p, []) := by
  have hclamped := clamped_of_not_le hle p.lower p.upper
  unfold removeBetween
  dsimp only
  generalize (if lo < p.lower then p.lower else lo) = first at hclamped ⊢
  generalize (if p.upper < hi then p.upper else hi) = last at hclamped ⊢
  split
  · rename_i n m hn hm
    rw [offset?_eq_some_iff] at hn hm
    rw [Fixed.le_iff] at hclamped
    have hnone : ∀ k, ¬ (n ≤ k ∧ k ≤ m) := fun k => by omega
    simp [hnone, runs]
  · rfl

end PointSet

/-! ### All of them -/

/-- Additions and removals of a range whose bounds are out of order leave a range set, a worth map or a
point set as it was, and tell nothing. There is one exception: taking the lowest worth away from a map
comes to a fault whatever the bounds are, since that worth has no negative. Apart from such ranges only
the worth zero is ignored by a map. -/
theorem ranges_out_of_order_ignored :
    (∀ (s : RangeSet α) lo hi, ¬ lo ≤ hi → s.add lo hi = (s, []) ∧ s.remove lo hi = (s, [])) ∧
    (∀ (m : WorthMap α) lo hi worth, ¬ lo ≤ hi →
      m.add lo hi worth = .ok (m, []) ∧
      m.remove lo hi worth =
        if worth.val = worthFormat.min then .error (.negation worth) else .ok (m, [])) ∧
    (∀ m : WorthMap α, m.Reachable → ∀ lo hi worth,
      (m.add lo hi worth = .ok (m, []) ↔ ¬ lo ≤ hi ∨ worth = Worth.zero) ∧
      (m.remove lo hi worth = .ok (m, []) ↔
        worth.val ≠ worthFormat.min ∧ ¬ lo ≤ hi ∨ worth = Worth.zero)) ∧
    ∀ (f : IntegerFormat) (p : PointSet f) lo hi, ¬ lo ≤ hi →
      p.addBetween lo hi = .ok (p, []) ∧ p.removeBetween lo hi = (p, []) := by
  refine ⟨fun s lo hi hle => RangeSet.idle_of_not_le s hle, fun m lo hi worth hle => ?_,
    fun m hm lo hi worth => ?_, fun f p lo hi hle => ?_⟩
  · exact ⟨m.add_of_not_le hle worth, m.remove_of_not_le hle worth⟩
  · exact ⟨hm.sound.add_ignored_iff, hm.sound.remove_ignored_iff⟩
  · exact ⟨p.addBetween_of_not_le hle, p.removeBetween_of_not_le hle⟩

theorem reversed_octets_and_nan_ignored :
    RangeSet.gapped.add (.ofInt 20) (.ofInt 12) = (RangeSet.gapped, []) ∧
    RangeSet.fromZero.remove ⟨0x7fc00000⟩ top = (RangeSet.fromZero, []) ∧
    (WorthMap.dented.Reachable ∧
      WorthMap.dented.remove (.ofInt 2) (.ofInt 1) (.ofInt 5) = .ok (WorthMap.dented, []) ∧
      WorthMap.dented.add (.ofInt 1) (.ofInt 2) (.ofInt 5) ≠ .ok (WorthMap.dented, [])) ∧
    PointSet.noOctets.removeBetween (.ofInt 90) (.ofInt (-90)) = (PointSet.noOctets, []) := by
  obtain ⟨hsets, hmaps, honly, hpoints⟩ := ranges_out_of_order_ignored (α := Octet)
  obtain ⟨hfloats, _⟩ := ranges_out_of_order_ignored (α := Binary .single)
  refine ⟨(hsets _ _ _ (by decide)).1, (hfloats _ _ _ (by decide +kernel)).2,
    ⟨WorthMap.reachable_dented, (hmaps _ _ _ _ (by decide)).2, fun hignored => ?_⟩,
    (hpoints _ _ _ _ (by decide)).2⟩
  exact absurd ((honly _ WorthMap.reachable_dented _ _ _).1.mp hignored) (by decide)

/-- Taking the lowest worth away from nothing is not ignored. -/
theorem lowest_worth_not_ignored :
    (WorthMap.empty : WorthMap Octet).Reachable ∧ ¬ (.ofInt 5 : Octet) ≤ .ofInt 1 ∧
      (WorthMap.empty : WorthMap Octet).remove (.ofInt 5) (.ofInt 1) (.ofInt (-2147483648)) =
        .error (.negation (.ofInt (-2147483648))) :=
  ⟨.empty, by decide, WorthMap.remove_lowest rfl _ _ _⟩

end RangeSets
