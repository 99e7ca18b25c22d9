import RangeSets.Scale
import RangeSets.Scale.Binary.Basic
/-!
# Floating point numbers as a scale

The rank of a number is its magnitude with its sign, so that both zeros have rank zero and the
infinities are the two ends. Comparing units is comparing ranks, and a step in the pattern is a
step in rank: it never carries into the sign and never leaves the range of the numbers.
-/

namespace RangeSets.Binary

variable {p : Precision}

/-- The magnitude of a pattern, with its sign. -/
def place (x : Binary p) : Int := if x.isNegative then -(x.magnitude : Int) else x.magnitude

theorem place_of_negative {x : Binary p} (h : x.isNegative = true) :
    x.place = -(x.magnitude : Int) := by
  rw [place, if_pos h]

theorem place_of_positive {x : Binary p} (h : x.isNegative = false) : x.place = x.magnitude := by
  rw [place, h]
  rfl

theorem place_of_zero {x : Binary p} (h : x.magnitude = 0) : x.place = 0 := by
  unfold place
  split <;> omega

theorem units_le_units_iff {x y : Binary p} : x.units ≤ y.units ↔ x.place ≤ y.place := by
  have hle := @Precision.units_le_units_iff p x.magnitude y.magnitude
  have hge := @Precision.units_le_units_iff p y.magnitude x.magnitude
  have hx := @Precision.units_eq_zero_iff p x.magnitude
  have hy := @Precision.units_eq_zero_iff p y.magnitude
  unfold units place
  split <;> split <;> omega

theorem units_lt_units_iff {x y : Binary p} : x.units < y.units ↔ x.place < y.place := by
  have := @units_le_units_iff p y x
  omega

/-! ### Patterns and magnitudes -/

theorem isNegative_iff {x : Binary p} : x.isNegative = true ↔ p.signWeight ≤ x.bits.toNat := by
  simp [isNegative]

theorem infinity_pos : 0 < p.infinity := by
  cases p <;> decide

theorem infinity_lt_signWeight : p.infinity < p.signWeight := by
  cases p <;> decide

theorem isNaN_eq_false_iff {x : Binary p} : x.isNaN = false ↔ x.magnitude ≤ p.infinity := by
  simp [isNaN]

theorem toNat_bits (x : Binary p) :
    x.bits.toNat = if x.isNegative then p.signWeight + x.magnitude else x.magnitude := by
  have hlt := x.bits.isLt
  simp only [isNegative_iff, magnitude]
  generalize x.bits.toNat = n at hlt
  split <;> rename_i h <;>
    cases p <;> simp only [Precision.width, Precision.signWeight] at hlt h ⊢ <;> omega

/-- A pattern is its sign and its magnitude. -/
theorem ext_iff_magnitude {x y : Binary p} :
    x = y ↔ x.isNegative = y.isNegative ∧ x.magnitude = y.magnitude := by
  constructor
  · rintro rfl
    exact ⟨rfl, rfl⟩
  · rintro ⟨hsign, hmag⟩
    have hx := toNat_bits x
    rw [hsign, hmag, ← toNat_bits y] at hx
    cases x
    cases y
    cases BitVec.eq_of_toNat_eq hx
    rfl

theorem isNegative_ofMagnitude (negative : Bool) {m : Nat} (h : m < p.signWeight) :
    (ofMagnitude negative m : Binary p).isNegative = negative := by
  unfold isNegative ofMagnitude
  cases p <;> cases negative <;>
    simp only [Precision.width, Precision.signWeight, BitVec.toNat_ofNat, decide_eq_true_eq,
      decide_eq_false_iff_not, if_true, Bool.false_eq_true, if_false] at h ⊢ <;> omega

theorem magnitude_ofMagnitude (negative : Bool) {m : Nat} (h : m < p.signWeight) :
    (ofMagnitude negative m : Binary p).magnitude = m := by
  unfold magnitude ofMagnitude
  cases p <;> cases negative <;>
    simp only [Precision.width, Precision.signWeight, BitVec.toNat_ofNat, if_true,
      Bool.false_eq_true, if_false] at h ⊢ <;> omega

/-- One more in the pattern keeps the sign and is one more in the magnitude. -/
theorem isNegative_succ {x : Binary p} (h : x.magnitude < p.infinity) :
    (⟨x.bits + 1⟩ : Binary p).isNegative = x.isNegative ∧
      (⟨x.bits + 1⟩ : Binary p).magnitude = x.magnitude + 1 := by
  have hlt := x.bits.isLt
  have hsum : (x.bits + 1).toNat = (x.bits.toNat + 1 % 2 ^ p.width) % 2 ^ p.width :=
    by
    simp [BitVec.toNat_add]
  rw [Bool.eq_iff_iff, isNegative_iff, isNegative_iff]
  unfold magnitude at *
  generalize (x.bits + 1).toNat = k at hsum ⊢
  generalize x.bits.toNat = n at *
  cases p <;>
    simp only [Precision.width, Precision.signWeight, Precision.infinity] at hlt hsum h ⊢ <;> omega

/-- One less in the pattern keeps the sign and is one less in the magnitude. -/
theorem isNegative_pred {x : Binary p} (h : x.magnitude ≠ 0) :
    (⟨x.bits - 1⟩ : Binary p).isNegative = x.isNegative ∧
      (⟨x.bits - 1⟩ : Binary p).magnitude + 1 = x.magnitude := by
  have hlt := x.bits.isLt
  have hdiff : (x.bits - 1).toNat =
      (2 ^ p.width - 1 % 2 ^ p.width + x.bits.toNat) % 2 ^ p.width :=
    by
    simp [BitVec.toNat_sub]
  rw [Bool.eq_iff_iff, isNegative_iff, isNegative_iff]
  unfold magnitude at *
  generalize (x.bits - 1).toNat = k at hdiff ⊢
  generalize x.bits.toNat = n at *
  cases p <;> simp only [Precision.width, Precision.signWeight] at hlt hdiff h ⊢ <;> omega

/-! ### The line of numbers -/

theorem eq_top_iff {x : Binary p} :
    x = top ↔ x.isNegative = false ∧ x.magnitude = p.infinity := by
  rw [ext_iff_magnitude, top, isNegative_ofMagnitude _ infinity_lt_signWeight,
    magnitude_ofMagnitude _ infinity_lt_signWeight]

theorem eq_bottom_iff {x : Binary p} :
    x = bottom ↔ x.isNegative = true ∧ x.magnitude = p.infinity := by
  rw [ext_iff_magnitude, bottom, isNegative_ofMagnitude _ infinity_lt_signWeight,
    magnitude_ofMagnitude _ infinity_lt_signWeight]

theorem place_top : (top : Binary p).place = p.infinity := by
  obtain ⟨hsign, hmag⟩ := eq_top_iff.mp (rfl : (top : Binary p) = top)
  simp [place, hsign, hmag]

theorem place_bottom : (bottom : Binary p).place = -p.infinity := by
  obtain ⟨hsign, hmag⟩ := eq_bottom_iff.mp (rfl : (bottom : Binary p) = bottom)
  simp [place, hsign, hmag]

theorem isNaN_top : (top : Binary p).isNaN = false :=
  isNaN_eq_false_iff.mpr (Nat.le_of_eq (eq_top_iff.mp rfl).2)

theorem isNaN_bottom : (bottom : Binary p).isNaN = false :=
  isNaN_eq_false_iff.mpr (Nat.le_of_eq (eq_bottom_iff.mp rfl).2)

theorem lt_top_iff {x : Binary p} : x < top ↔ x.isNaN = false ∧ x ≠ top := by
  have hpos := @infinity_pos p
  rw [lt_iff, units_lt_units_iff, place_top, isNaN_top, Ne, eq_top_iff, isNaN_eq_false_iff, place]
  cases x.isNegative <;> simp <;> omega

theorem bottom_lt_iff {x : Binary p} : bottom < x ↔ x.isNaN = false ∧ x ≠ bottom := by
  have hpos := @infinity_pos p
  rw [lt_iff, units_lt_units_iff, place_bottom, isNaN_bottom, Ne, eq_bottom_iff,
    isNaN_eq_false_iff, place]
  cases x.isNegative <;> simp <;> omega

/-- The place in line of a number; `none` for a pattern that is no number. -/
def rank (x : Binary p) : Option Int := if x.isNaN then none else some x.place

theorem rank_eq_some_iff {x : Binary p} {i : Int} :
    x.rank = some i ↔ x.isNaN = false ∧ x.place = i := by
  unfold rank
  cases x.isNaN <;> simp

theorem le_iff_rank {x y : Binary p} :
    x ≤ y ↔ ∃ i j, x.rank = some i ∧ y.rank = some j ∧ i ≤ j := by
  simp only [rank_eq_some_iff, le_iff, units_le_units_iff]
  constructor
  · rintro ⟨hx, hy, h⟩
    exact ⟨_, _, ⟨hx, rfl⟩, ⟨hy, rfl⟩, h⟩
  · rintro ⟨_, _, ⟨hx, rfl⟩, ⟨hy, rfl⟩, h⟩
    exact ⟨hx, hy, h⟩

theorem lt_iff_rank {x y : Binary p} :
    x < y ↔ ∃ i j, x.rank = some i ∧ y.rank = some j ∧ i < j := by
  simp only [rank_eq_some_iff, lt_iff, units_lt_units_iff]
  constructor
  · rintro ⟨hx, hy, h⟩
    exact ⟨_, _, ⟨hx, rfl⟩, ⟨hy, rfl⟩, h⟩
  · rintro ⟨_, _, ⟨hx, rfl⟩, ⟨hy, rfl⟩, h⟩
    exact ⟨hx, hy, h⟩

theorem place_next {x : Binary p} (h : x < top) :
    x.next.isNaN = false ∧ x.next.place = x.place + 1 := by
  obtain ⟨hnan, hne⟩ := lt_top_iff.mp h
  have hone : 1 < p.signWeight := by cases p <;> decide
  have hpos : 1 < p.infinity := by cases p <;> decide
  have hstep : x.next =
      if x.magnitude = 0 then ofMagnitude false 1
      else if x.isNegative then ⟨x.bits - 1⟩ else ⟨x.bits + 1⟩ := by
    unfold next
    rw [if_neg]
    simpa [hnan] using hne
  rw [isNaN_eq_false_iff] at hnan ⊢
  rw [hstep]
  by_cases hzero : x.magnitude = 0
  · rw [if_pos hzero, place_of_positive (isNegative_ofMagnitude _ hone),
      magnitude_ofMagnitude _ hone, place_of_zero hzero]
    exact ⟨by omega, rfl⟩
  · rw [if_neg hzero]
    cases hsign : x.isNegative with
    | true =>
        obtain ⟨hkeep, hless⟩ := isNegative_pred hzero
        rw [if_pos rfl, place_of_negative (hkeep.trans hsign), place_of_negative hsign]
        exact ⟨by omega, by omega⟩
    | false =>
        have hlt : x.magnitude < p.infinity := by
          rw [Ne, eq_top_iff, hsign] at hne
          have : x.magnitude ≠ p.infinity := fun heq => hne ⟨rfl, heq⟩
          omega
        obtain ⟨hkeep, hmore⟩ := isNegative_succ hlt
        rw [if_neg Bool.false_ne_true, place_of_positive (hkeep.trans hsign),
          place_of_positive hsign]
        exact ⟨by omega, by omega⟩

theorem place_prev {x : Binary p} (h : bottom < x) :
    x.prev.isNaN = false ∧ x.prev.place = x.place - 1 := by
  obtain ⟨hnan, hne⟩ := bottom_lt_iff.mp h
  have hone : 1 < p.signWeight := by cases p <;> decide
  have hpos : 1 < p.infinity := by cases p <;> decide
  have hstep : x.prev =
      if x.magnitude = 0 then ofMagnitude true 1
      else if x.isNegative then ⟨x.bits + 1⟩ else ⟨x.bits - 1⟩ := by
    unfold prev
    rw [if_neg]
    simpa [hnan] using hne
  rw [isNaN_eq_false_iff] at hnan ⊢
  rw [hstep]
  by_cases hzero : x.magnitude = 0
  · rw [if_pos hzero, place_of_negative (isNegative_ofMagnitude _ hone),
      magnitude_ofMagnitude _ hone, place_of_zero hzero]
    exact ⟨by omega, rfl⟩
  · rw [if_neg hzero]
    cases hsign : x.isNegative with
    | true =>
        have hlt : x.magnitude < p.infinity := by
          rw [Ne, eq_bottom_iff, hsign] at hne
          have : x.magnitude ≠ p.infinity := fun heq => hne ⟨rfl, heq⟩
          omega
        obtain ⟨hkeep, hmore⟩ := isNegative_succ hlt
        rw [if_pos rfl, place_of_negative (hkeep.trans hsign), place_of_negative hsign]
        exact ⟨by omega, by omega⟩
    | false =>
        obtain ⟨hkeep, hless⟩ := isNegative_pred hzero
        rw [if_neg Bool.false_ne_true, place_of_positive (hkeep.trans hsign),
          place_of_positive hsign]
        exact ⟨by omega, by omega⟩

theorem next_eq_self {x : Binary p} (h : ¬ x < top) : x.next = x := by
  rw [lt_top_iff] at h
  unfold next
  rw [if_pos]
  cases hnan : x.isNaN <;> simp_all

theorem prev_eq_self {x : Binary p} (h : ¬ bottom < x) : x.prev = x := by
  rw [bottom_lt_iff] at h
  unfold prev
  rw [if_pos]
  cases hnan : x.isNaN <;> simp_all

theorem place_bounds {x : Binary p} (h : x.isNaN = false) :
    -(p.infinity : Int) ≤ x.place ∧ x.place ≤ p.infinity := by
  rw [isNaN_eq_false_iff] at h
  unfold place
  split <;> omega

instance : Scale (Binary p) where
  decidableLE := inferInstance
  decidableLT := inferInstance
  next := next
  prev := prev
  bottom := bottom
  top := top
  isFinite := isFinite
  rank := rank
  capacity := none
  le_iff_rank _ _ := le_iff_rank
  lt_iff_rank _ _ := lt_iff_rank
  rank_bottom := ⟨-p.infinity, rank_eq_some_iff.mpr ⟨isNaN_bottom, place_bottom⟩, fun a j h => by
    obtain ⟨hnan, rfl⟩ := rank_eq_some_iff.mp h
    exact (place_bounds hnan).1⟩
  rank_top := ⟨p.infinity, rank_eq_some_iff.mpr ⟨isNaN_top, place_top⟩, fun a j h => by
    obtain ⟨hnan, rfl⟩ := rank_eq_some_iff.mp h
    exact (place_bounds hnan).2⟩
  rank_next a i h hlt := by
    obtain ⟨_, rfl⟩ := rank_eq_some_iff.mp h
    exact rank_eq_some_iff.mpr (place_next hlt)
  next_eq_self _ h := next_eq_self h
  rank_prev a i h hlt := by
    obtain ⟨_, rfl⟩ := rank_eq_some_iff.mp h
    exact rank_eq_some_iff.mpr (place_prev hlt)
  prev_eq_self _ h := prev_eq_self h

end RangeSets.Binary
