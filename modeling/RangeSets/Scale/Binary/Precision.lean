/-!
# Formats of binary floating point numbers

The magnitude of a bit pattern is the pattern without its sign. Every finite magnitude stands for
a whole number of units, the unit being the least positive number of the format. Greater
magnitudes stand for more units (`units_lt_units_iff`), so the numbers of a format stand in the
order of their magnitudes, and no number lies between those of two consecutive magnitudes.
-/

namespace RangeSets

/-- The two formats of binary floating point numbers. -/
inductive Precision where
  | single
  | double
  deriving DecidableEq

namespace Precision

def width : Precision → Nat
  | single => 32
  | double => 64

/-- The weight of the exponent field. The fraction is below it. -/
def exponentWeight : Precision → Nat
  | single => 0x800000
  | double => 0x10000000000000

/-- The weight of the sign bit. Magnitudes are below it. -/
def signWeight : Precision → Nat
  | single => 0x80000000
  | double => 0x8000000000000000

/-- The magnitude of the infinities. What lies above is no number. -/
def infinity : Precision → Nat
  | single => 0x7f800000
  | double => 0x7ff0000000000000

/-- The power of two, as a negated exponent, of the least positive number. -/
def unitExponent : Precision → Nat
  | single => 149
  | double => 1074

/-- The significand of a magnitude: the fraction, under a leading one unless the exponent field is
zero. -/
def significand (p : Precision) (m : Nat) : Nat :=
  if m / p.exponentWeight = 0 then m else p.exponentWeight + m % p.exponentWeight

/-- The power of two that scales the significand of a magnitude, in units. -/
def shift (p : Precision) (m : Nat) : Nat := m / p.exponentWeight - 1

/-- How many units a magnitude stands for. The infinities count as the power of two that follows the
greatest finite number. -/
def units (p : Precision) (m : Nat) : Nat := p.significand m * Nat.pow 2 (p.shift m)

theorem exponentWeight_pos (p : Precision) : 0 < p.exponentWeight := by
  cases p <;> decide

theorem units_zero (p : Precision) : p.units 0 = 0 := by
  cases p <;> rfl

theorem units_lt_units_succ (p : Precision) (m : Nat) : p.units m < p.units (m + 1) := by
  have hbase := p.exponentWeight_pos
  unfold units significand shift
  generalize p.exponentWeight = b at hbase
  have hm := Nat.div_add_mod m b
  have hr := Nat.mod_lt m hbase
  by_cases hlast : m % b + 1 < b
  · have hdiv : (m + 1) / b = m / b := by
      rw [← hm, Nat.add_assoc, Nat.mul_add_div hbase, Nat.mul_add_div hbase,
        Nat.div_eq_of_lt hlast, Nat.div_eq_of_lt hr]
    have hmod : (m + 1) % b = m % b + 1 := by
      conv => lhs; rw [← hm, Nat.add_assoc, Nat.mul_add_mod, Nat.mod_eq_of_lt hlast]
    rw [hdiv, hmod]
    apply Nat.mul_lt_mul_of_pos_right _ (Nat.pow_pos (by decide))
    split <;> omega
  · have hfull : m % b + 1 = b := by omega
    have hdiv : (m + 1) / b = m / b + 1 := by
      conv =>
        lhs
        rw [← hm, Nat.add_assoc, hfull, ← Nat.mul_succ, Nat.mul_div_cancel_left _ hbase]
    have hmod : (m + 1) % b = 0 := by
      conv => lhs; rw [← hm, Nat.add_assoc, hfull, ← Nat.mul_succ, Nat.mul_mod_right]
    rw [hdiv, hmod, if_neg (Nat.succ_ne_zero _), Nat.add_sub_cancel, Nat.add_zero]
    by_cases hlow : m / b = 0
    · rw [hlow] at hm
      rw [if_pos hlow, hlow]
      show m * 1 < b * 1
      omega
    · rw [if_neg hlow]
      obtain ⟨e, he⟩ := Nat.exists_eq_succ_of_ne_zero hlow
      have hdouble : Nat.pow 2 (e + 1) = 2 * Nat.pow 2 e := Nat.mul_comm _ _
      rw [he, Nat.succ_sub_one, hdouble, ← Nat.mul_assoc]
      apply Nat.mul_lt_mul_of_pos_right _ (Nat.pow_pos (by decide))
      omega

theorem units_lt_units (p : Precision) {m n : Nat} (h : m < n) : p.units m < p.units n := by
  induction n with
  | zero => omega
  | succ n ih =>
      rcases Nat.lt_succ_iff_lt_or_eq.mp h with hlt | rfl
      · exact Nat.lt_trans (ih hlt) (units_lt_units_succ p n)
      · exact units_lt_units_succ p m

/-- Greater magnitudes stand for more units, and only they do. -/
theorem units_lt_units_iff (p : Precision) {m n : Nat} : p.units m < p.units n ↔ m < n := by
  constructor
  · intro h
    rcases Nat.lt_trichotomy m n with hlt | rfl | hgt
    · exact hlt
    · omega
    · have := units_lt_units p hgt
      omega
  · exact units_lt_units p

theorem units_le_units_iff (p : Precision) {m n : Nat} : p.units m ≤ p.units n ↔ m ≤ n := by
  have := @units_lt_units_iff p n m
  omega

theorem units_eq_zero_iff (p : Precision) {m : Nat} : p.units m = 0 ↔ m = 0 := by
  have := @units_le_units_iff p m 0
  rw [units_zero] at this
  omega

end Precision

end RangeSets
