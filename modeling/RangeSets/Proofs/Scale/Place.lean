import RangeSets.Scale.Fixed
/-!
# Comparing by place

A value that compares with itself has a place in the line, a whole number, and everything that the
scale says of such values is linear arithmetic on their places: the order, being the same number,
adjacency, the steps up and down. The other proofs take a comparison of values to its places and
leave the rest to arithmetic.

A value that does not compare with itself compares with nothing, so every comparison that holds
also says that both of its sides have a place.
-/

namespace RangeSets.Scale

variable {α : Type} [Scale α] {a b : α}

/-- A value that has a place in the line. -/
def Comparable (a : α) : Prop := a ≤ a

instance (a : α) : Decidable (Comparable a) := inferInstanceAs (Decidable (a ≤ a))

/-- The place of a value in the line. A value that compares with nothing has none, and counts as
zero. -/
def place (a : α) : Int := (rank a).getD 0

theorem comparable_iff : Comparable a ↔ rank a = some (place a) := by
  rw [Comparable, le_iff_rank]
  constructor
  · rintro ⟨i, _, hi, _, _⟩
    simp [place, hi]
  · intro h
    exact ⟨_, _, h, h, Int.le_refl _⟩

theorem comparable_of_rank {i : Int} (h : rank a = some i) : Comparable a ∧ place a = i := by
  have hplace : place a = i := by simp [place, h]
  exact ⟨comparable_iff.mpr (by rw [h, hplace]), hplace⟩

theorem le_iff : a ≤ b ↔ Comparable a ∧ Comparable b ∧ place a ≤ place b := by
  rw [le_iff_rank]
  constructor
  · rintro ⟨i, j, hi, hj, hij⟩
    obtain ⟨ha, rfl⟩ := comparable_of_rank hi
    obtain ⟨hb, rfl⟩ := comparable_of_rank hj
    exact ⟨ha, hb, hij⟩
  · rintro ⟨ha, hb, hab⟩
    exact ⟨_, _, comparable_iff.mp ha, comparable_iff.mp hb, hab⟩

theorem lt_iff : a < b ↔ Comparable a ∧ Comparable b ∧ place a < place b := by
  rw [lt_iff_rank]
  constructor
  · rintro ⟨i, j, hi, hj, hij⟩
    obtain ⟨ha, rfl⟩ := comparable_of_rank hi
    obtain ⟨hb, rfl⟩ := comparable_of_rank hj
    exact ⟨ha, hb, hij⟩
  · rintro ⟨ha, hb, hab⟩
    exact ⟨_, _, comparable_iff.mp ha, comparable_iff.mp hb, hab⟩

theorem le_iff_place (ha : Comparable a) (hb : Comparable b) : a ≤ b ↔ place a ≤ place b := by
  simp [le_iff, ha, hb]

theorem lt_iff_place (ha : Comparable a) (hb : Comparable b) : a < b ↔ place a < place b := by
  simp [lt_iff, ha, hb]

theorem lt_le_trans {c : α} (hab : a < b) (hbc : b ≤ c) : a < c := by
  obtain ⟨ha, _, hlt⟩ := lt_iff.mp hab
  obtain ⟨_, hc, hle⟩ := le_iff.mp hbc
  exact (lt_iff_place ha hc).mpr (by omega)

theorem le_lt_trans {c : α} (hab : a ≤ b) (hbc : b < c) : a < c := by
  obtain ⟨ha, _, hle⟩ := le_iff.mp hab
  obtain ⟨_, hc, hlt⟩ := lt_iff.mp hbc
  exact (lt_iff_place ha hc).mpr (by omega)

theorem not_between (h : ¬ a ≤ b) (v : α) : ¬ (a ≤ v ∧ v ≤ b) := by
  intro hbetween
  obtain ⟨ha, _, hle⟩ := le_iff.mp hbetween.1
  obtain ⟨_, hb, hge⟩ := le_iff.mp hbetween.2
  exact h ((le_iff_place ha hb).mpr (by omega))

/-- Two statements that only hold of a value with a place need to be compared for such a value only. -/
theorem iff_of_comparable {p q : Prop} (hp : p → Comparable a) (hq : q → Comparable a)
    (h : Comparable a → (p ↔ q)) : p ↔ q :=
  ⟨fun holds => (h (hp holds)).mp holds, fun holds => (h (hq holds)).mpr holds⟩

theorem same_iff : Same a b ↔ Comparable a ∧ Comparable b ∧ place a = place b := by
  rw [Same, le_iff, le_iff]
  constructor
  · rintro ⟨⟨ha, hb, hle⟩, _, _, hge⟩
    exact ⟨ha, hb, Int.le_antisymm hle hge⟩
  · rintro ⟨ha, hb, heq⟩
    exact ⟨⟨ha, hb, Int.le_of_eq heq⟩, hb, ha, Int.le_of_eq heq.symm⟩

/-! ### The ends of the line -/

theorem comparable_bottom : Comparable (bottom : α) := by
  obtain ⟨i, hi, _⟩ := rank_bottom (α := α)
  exact (comparable_of_rank hi).1

theorem comparable_top : Comparable (top : α) := by
  obtain ⟨i, hi, _⟩ := rank_top (α := α)
  exact (comparable_of_rank hi).1

theorem place_bottom_le (ha : Comparable a) : place (bottom : α) ≤ place a := by
  obtain ⟨i, hi, hleast⟩ := rank_bottom (α := α)
  rw [(comparable_of_rank hi).2]
  exact hleast a _ (comparable_iff.mp ha)

theorem place_le_top (ha : Comparable a) : place a ≤ place (top : α) := by
  obtain ⟨i, hi, hmost⟩ := rank_top (α := α)
  rw [(comparable_of_rank hi).2]
  exact hmost a _ (comparable_iff.mp ha)

theorem bottom_le_top : (bottom : α) ≤ top :=
  (le_iff_place comparable_bottom comparable_top).mpr (place_bottom_le comparable_top)

/-! ### Steps -/

theorem comparable_next (ha : Comparable a) : Comparable (next a) := by
  by_cases hlt : a < top
  · exact (comparable_of_rank (rank_next a _ (comparable_iff.mp ha) hlt)).1
  · rwa [next_eq_self a hlt]

theorem comparable_prev (ha : Comparable a) : Comparable (prev a) := by
  by_cases hlt : bottom < a
  · exact (comparable_of_rank (rank_prev a _ (comparable_iff.mp ha) hlt)).1
  · rwa [prev_eq_self a hlt]

/-- A step up goes one place on, except from the top. -/
theorem place_next (ha : Comparable a) :
    place (next a) = min (place a + 1) (place (top : α)) := by
  have htop := place_le_top ha
  have hiff := lt_iff_place ha comparable_top
  by_cases hlt : a < top
  · rw [(comparable_of_rank (rank_next a _ (comparable_iff.mp ha) hlt)).2]
    have := hiff.mp hlt
    omega
  · rw [next_eq_self a hlt]
    have := mt hiff.mpr hlt
    omega

/-- A step down goes one place back, except from the bottom. -/
theorem place_prev (ha : Comparable a) :
    place (prev a) = max (place a - 1) (place (bottom : α)) := by
  have hbottom := place_bottom_le ha
  have hiff := lt_iff_place comparable_bottom ha
  by_cases hlt : bottom < a
  · rw [(comparable_of_rank (rank_prev a _ (comparable_iff.mp ha) hlt)).2]
    have := hiff.mp hlt
    omega
  · rw [prev_eq_self a hlt]
    have := mt hiff.mpr hlt
    omega

theorem place_next_of_lt (h : a < b) : place (next a) = place a + 1 := by
  obtain ⟨ha, hb, hlt⟩ := lt_iff.mp h
  have := place_next ha
  have := place_le_top hb
  omega

theorem place_prev_of_lt (h : a < b) : place (prev b) = place b - 1 := by
  obtain ⟨ha, hb, hlt⟩ := lt_iff.mp h
  have := place_prev hb
  have := place_bottom_le ha
  omega

theorem next_le_iff (h : a < b) (c : α) : next a ≤ c ↔ a < c := by
  have ha := (lt_iff.mp h).1
  have hstep := place_next_of_lt h
  refine iff_of_comparable (fun hle => (le_iff.mp hle).2.1) (fun hlt => (lt_iff.mp hlt).2.1)
    fun hc => ?_
  rw [le_iff_place (comparable_next ha) hc, lt_iff_place ha hc]
  omega

theorem le_prev_iff (h : a < b) (c : α) : c ≤ prev b ↔ c < b := by
  have hb := (lt_iff.mp h).2.1
  have hstep := place_prev_of_lt h
  refine iff_of_comparable (fun hle => (le_iff.mp hle).1) (fun hlt => (lt_iff.mp hlt).1)
    fun hc => ?_
  rw [le_iff_place hc (comparable_prev hb), lt_iff_place hc hb]
  omega

theorem adjacent_iff : Adjacent a b ↔ Comparable a ∧ Comparable b ∧ place a + 1 = place b := by
  constructor
  · rintro ⟨hlt, hsame⟩
    obtain ⟨ha, hb, _⟩ := lt_iff.mp hlt
    obtain ⟨_, _, heq⟩ := same_iff.mp hsame
    rw [place_next_of_lt hlt] at heq
    exact ⟨ha, hb, heq⟩
  · rintro ⟨ha, hb, heq⟩
    have hlt : a < b := (lt_iff_place ha hb).mpr (by omega)
    refine ⟨hlt, same_iff.mpr ⟨comparable_next ha, hb, ?_⟩⟩
    rw [place_next_of_lt hlt, heq]

/-! ### The lower and the higher of two values -/

theorem comparable_lowerOf (ha : Comparable a) (hb : Comparable b) : Comparable (lowerOf a b) := by
  unfold lowerOf
  split <;> assumption

theorem comparable_higherOf (ha : Comparable a) (hb : Comparable b) :
    Comparable (higherOf a b) := by
  unfold higherOf
  split <;> assumption

theorem place_lowerOf (ha : Comparable a) (hb : Comparable b) :
    place (lowerOf a b) = min (place a) (place b) := by
  unfold lowerOf
  simp only [lt_iff_place hb ha]
  split <;> omega

theorem place_higherOf (ha : Comparable a) (hb : Comparable b) :
    place (higherOf a b) = max (place a) (place b) := by
  unfold higherOf
  simp only [lt_iff_place ha hb]
  split <;> omega

end RangeSets.Scale

namespace RangeSets

/-! ### Whole numbers by their value -/

namespace Fixed

variable {f : IntegerFormat}

/-- The number `n`, or the lowest one when `n` does not fit the format. -/
def ofInt (n : Int) : Fixed f := (ofInt? n).getD Scale.bottom

theorem comparable (a : Fixed f) : Scale.Comparable a := Int.le_refl a.val

theorem eq_of_same {a b : Fixed f} (h : Scale.Same a b) : a = b :=
  Fixed.ext (Int.le_antisymm h.1 h.2)

end Fixed

/-- Whole numbers of eight bits with a sign. -/
abbrev Octet := Fixed ⟨true, 8, by decide⟩

end RangeSets
