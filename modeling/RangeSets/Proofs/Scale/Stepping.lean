import RangeSets.Proofs.Scale.Place
import RangeSets.Scale.Binary.Laws
/-!
# Every step leads to the nearest value

On every scale a step goes to the nearest value that there is on its side: nothing lies between, and
the step back returns to the same number. Only the two ends of the line and a value that compares
with nothing stay where they are. Two values are therefore adjacent just when nothing lies between
them.

For floating point numbers the steps are told by the patterns as well. A step adds one to the
pattern of a number or takes one away, and neither ever carries out of the pattern. From a zero of
either sign it leads to the least magnitude with the sign of its direction.
-/

namespace RangeSets

namespace Scale

variable {α : Type} [Scale α] {a b : α}

/-- The first value is below the second one, and no value lies between them. -/
def Consecutive (a b : α) : Prop := a < b ∧ ∀ v, ¬ (a < v ∧ v < b)

theorem lt_top_of_not_same (ha : Comparable a) (h : ¬ Same a top) : a < top := by
  rw [same_iff] at h
  have hle := place_le_top ha
  have hne : place a ≠ place (top : α) := fun heq => h ⟨ha, comparable_top, heq⟩
  exact (lt_iff_place ha comparable_top).mpr (by omega)

theorem bottom_lt_of_not_same (ha : Comparable a) (h : ¬ Same a bottom) : bottom < a := by
  rw [same_iff] at h
  have hle := place_bottom_le ha
  have hne : place a ≠ place (bottom : α) := fun heq => h ⟨ha, comparable_bottom, heq⟩
  exact (lt_iff_place comparable_bottom ha).mpr (by omega)

theorem consecutive_of_place (ha : Comparable a) (hb : Comparable b) (h : place a + 1 = place b) :
    Consecutive a b := by
  refine ⟨(lt_iff_place ha hb).mpr (by omega), fun v hv => ?_⟩
  obtain ⟨_, _, hlow⟩ := lt_iff.mp hv.1
  obtain ⟨_, _, hhigh⟩ := lt_iff.mp hv.2
  omega

/-- The step up from a value is what would lie between it and a value further above. -/
theorem adjacent_iff_consecutive : Adjacent a b ↔ Consecutive a b := by
  rw [adjacent_iff]
  refine ⟨fun ⟨ha, hb, hplace⟩ => consecutive_of_place ha hb hplace, fun ⟨hlt, hbetween⟩ => ?_⟩
  obtain ⟨ha, hb, hplace⟩ := lt_iff.mp hlt
  have hstep := place_next_of_lt hlt
  have hnext := comparable_next ha
  refine ⟨ha, hb, Classical.byContradiction fun hfar => hbetween (next a) ⟨?_, ?_⟩⟩
  · exact (lt_iff_place ha hnext).mpr (by omega)
  · exact (lt_iff_place hnext hb).mpr (by omega)

/-- The steps from a value lead to the nearest value on either side and back again. They stay where
they are at the end that they would leave by, and at a value that compares with nothing. -/
structure Steps (a : α) : Prop where
  up : Comparable a → ¬ Same a top → Consecutive a (next a) ∧ Same (prev (next a)) a
  down : Comparable a → ¬ Same a bottom → Consecutive (prev a) a ∧ Same (next (prev a)) a
  top_stays : Same a top → next a = a
  bottom_stays : Same a bottom → prev a = a
  unordered_stays : ¬ Comparable a → next a = a ∧ prev a = a
  adjacent_iff : ∀ b, Adjacent a b ↔ Consecutive a b

theorem steps (a : α) : Steps a where
  up ha hne := by
    have hplace := place_next_of_lt (lt_top_of_not_same ha hne)
    have hnext := comparable_next ha
    have hstep := consecutive_of_place ha hnext hplace.symm
    refine ⟨hstep, same_iff.mpr ⟨comparable_prev hnext, ha, ?_⟩⟩
    rw [place_prev_of_lt hstep.1, hplace]
    omega
  down ha hne := by
    have hplace := place_prev_of_lt (bottom_lt_of_not_same ha hne)
    have hprev := comparable_prev ha
    have hstep : Consecutive (prev a) a := consecutive_of_place hprev ha (by omega)
    refine ⟨hstep, same_iff.mpr ⟨comparable_next hprev, ha, ?_⟩⟩
    rw [place_next_of_lt hstep.1, hplace]
    omega
  top_stays hsame := by
    obtain ⟨_, _, hplace⟩ := same_iff.mp hsame
    refine next_eq_self a fun hlt => ?_
    have := (lt_iff.mp hlt).2.2
    omega
  bottom_stays hsame := by
    obtain ⟨_, _, hplace⟩ := same_iff.mp hsame
    refine prev_eq_self a fun hlt => ?_
    have := (lt_iff.mp hlt).2.2
    omega
  unordered_stays hnone :=
    ⟨next_eq_self a fun hlt => hnone (lt_iff.mp hlt).1,
      prev_eq_self a fun hlt => hnone (lt_iff.mp hlt).2.1⟩
  adjacent_iff _ := adjacent_iff_consecutive

end Scale

theorem Fixed.le_iff_not_lt {f : IntegerFormat} {a b : Fixed f} : a ≤ b ↔ ¬ b < a := Int.not_lt.symm

theorem Fixed.same_iff {f : IntegerFormat} {a b : Fixed f} : Scale.Same a b ↔ a = b :=
  ⟨eq_of_same, fun h => h ▸ ⟨a.comparable, a.comparable⟩⟩

namespace Binary

variable {p : Precision} {x y : Binary p}

theorem comparable_iff : Scale.Comparable x ↔ x.isNaN = false :=
  ⟨fun h => h.1, fun h => ⟨h, h, Int.le_refl _⟩⟩

/-- Patterns of the same floating point number differ in the sign of a zero only. -/
theorem eq_or_zeros_of_same (h : Scale.Same x y) :
    x = y ∨ (x.magnitude = 0 ∧ y.magnitude = 0) := by
  have hle : x.place ≤ y.place := units_le_units_iff.mp h.1.2.2
  have hge : y.place ≤ x.place := units_le_units_iff.mp h.2.2.2
  cases hx : x.isNegative with
  | true =>
      rw [place_of_negative hx] at hle hge
      cases hy : y.isNegative with
      | true =>
          rw [place_of_negative hy] at hle hge
          exact .inl (ext_iff_magnitude.mpr ⟨hx.trans hy.symm, by omega⟩)
      | false =>
          rw [place_of_positive hy] at hle hge
          exact .inr (by omega)
  | false =>
      rw [place_of_positive hx] at hle hge
      cases hy : y.isNegative with
      | true =>
          rw [place_of_negative hy] at hle hge
          exact .inr (by omega)
      | false =>
          rw [place_of_positive hy] at hle hge
          exact .inl (ext_iff_magnitude.mpr ⟨hx.trans hy.symm, by omega⟩)

/-- The same number is one pattern, the two zeros apart. -/
theorem same_iff : Scale.Same x y ↔
    x.isNaN = false ∧ y.isNaN = false ∧ (x = y ∨ (x.magnitude = 0 ∧ y.magnitude = 0)) := by
  constructor
  · intro h
    exact ⟨h.1.1, h.1.2.1, eq_or_zeros_of_same h⟩
  · rintro ⟨hx, hy, rfl | ⟨hzero, hzero'⟩⟩
    · exact ⟨comparable_iff.mpr hx, comparable_iff.mpr hx⟩
    · have hplace : x.place = y.place := by rw [place_of_zero hzero, place_of_zero hzero']
      exact ⟨⟨hx, hy, units_le_units_iff.mpr (by omega)⟩,
        ⟨hy, hx, units_le_units_iff.mpr (by omega)⟩⟩

/-! ### Steps in the pattern -/

/-- Adding one to the pattern of a finite number does not carry out of the pattern. -/
theorem toNat_succ (h : x.magnitude < p.infinity) : (x.bits + 1).toNat = x.bits.toNat + 1 := by
  obtain ⟨hsign, hmag⟩ := isNegative_succ h
  have hmore := toNat_bits (⟨x.bits + 1⟩ : Binary p)
  rw [hsign, hmag] at hmore
  rw [hmore, toNat_bits x]
  split <;> omega

/-- Taking one away from the pattern of a number other than zero does not borrow from outside. -/
theorem toNat_pred (h : x.magnitude ≠ 0) : (x.bits - 1).toNat + 1 = x.bits.toNat := by
  obtain ⟨hsign, hmag⟩ := isNegative_pred h
  have hless := toNat_bits (⟨x.bits - 1⟩ : Binary p)
  rw [hsign] at hless
  rw [hless, toNat_bits x]
  split <;> omega

/-- What the steps do to the pattern of a number, as a whole number. Away from zero a step adds
exactly one or takes exactly one away, in opposite directions for the two signs. From either zero it
leads to the least magnitude. -/
structure StepsInPattern (x : Binary p) : Prop where
  next_of_positive : x.isNaN = false → x ≠ top → x.magnitude ≠ 0 → x.isNegative = false →
    x.next.bits.toNat = x.bits.toNat + 1
  next_of_negative : x.isNaN = false → x.magnitude ≠ 0 → x.isNegative = true →
    x.next.bits.toNat + 1 = x.bits.toNat
  prev_of_positive : x.isNaN = false → x.magnitude ≠ 0 → x.isNegative = false →
    x.prev.bits.toNat + 1 = x.bits.toNat
  prev_of_negative : x.isNaN = false → x ≠ bottom → x.magnitude ≠ 0 → x.isNegative = true →
    x.prev.bits.toNat = x.bits.toNat + 1
  next_of_zero : x.magnitude = 0 → x.next.isNegative = false ∧ x.next.magnitude = 1
  prev_of_zero : x.magnitude = 0 → x.prev.isNegative = true ∧ x.prev.magnitude = 1

theorem next_eq (hnan : x.isNaN = false) (htop : x ≠ top) : x.next =
    if x.magnitude = 0 then ofMagnitude false 1
    else if x.isNegative then ⟨x.bits - 1⟩ else ⟨x.bits + 1⟩ := by
  rw [next, if_neg]
  simpa [hnan] using htop

theorem prev_eq (hnan : x.isNaN = false) (hbottom : x ≠ bottom) : x.prev =
    if x.magnitude = 0 then ofMagnitude true 1
    else if x.isNegative then ⟨x.bits + 1⟩ else ⟨x.bits - 1⟩ := by
  rw [prev, if_neg]
  simpa [hnan] using hbottom

theorem isNaN_of_zero (h : x.magnitude = 0) : x.isNaN = false :=
  isNaN_eq_false_iff.mpr (by omega)

theorem ne_ends_of_zero (h : x.magnitude = 0) : x ≠ top ∧ x ≠ bottom := by
  have hpos := @infinity_pos p
  refine ⟨fun heq => ?_, fun heq => ?_⟩
  · have := (eq_top_iff.mp heq).2
    omega
  · have := (eq_bottom_iff.mp heq).2
    omega

theorem one_lt_signWeight : 1 < p.signWeight := by
  cases p <;> decide

theorem magnitude_lt_infinity (hnan : x.isNaN = false) (h : x.magnitude ≠ p.infinity) :
    x.magnitude < p.infinity := by
  have := isNaN_eq_false_iff.mp hnan
  omega

theorem stepsInPattern (x : Binary p) : x.StepsInPattern where
  next_of_positive hnan htop hzero hsign := by
    rw [next_eq hnan htop, if_neg hzero, hsign, if_neg Bool.false_ne_true]
    exact toNat_succ (magnitude_lt_infinity hnan fun hmag => htop (eq_top_iff.mpr ⟨hsign, hmag⟩))
  next_of_negative hnan hzero hsign := by
    have htop : x ≠ top := fun heq => by simp [(eq_top_iff.mp heq).1] at hsign
    rw [next_eq hnan htop, if_neg hzero, hsign, if_pos rfl]
    exact toNat_pred hzero
  prev_of_positive hnan hzero hsign := by
    have hbottom : x ≠ bottom := fun heq => by simp [(eq_bottom_iff.mp heq).1] at hsign
    rw [prev_eq hnan hbottom, if_neg hzero, hsign, if_neg Bool.false_ne_true]
    exact toNat_pred hzero
  prev_of_negative hnan hbottom hzero hsign := by
    rw [prev_eq hnan hbottom, if_neg hzero, hsign, if_pos rfl]
    exact toNat_succ
      (magnitude_lt_infinity hnan fun hmag => hbottom (eq_bottom_iff.mpr ⟨hsign, hmag⟩))
  next_of_zero hzero := by
    rw [next_eq (isNaN_of_zero hzero) (ne_ends_of_zero hzero).1, if_pos hzero]
    exact ⟨isNegative_ofMagnitude _ one_lt_signWeight, magnitude_ofMagnitude _ one_lt_signWeight⟩
  prev_of_zero hzero := by
    rw [prev_eq (isNaN_of_zero hzero) (ne_ends_of_zero hzero).2, if_pos hzero]
    exact ⟨isNegative_ofMagnitude _ one_lt_signWeight, magnitude_ofMagnitude _ one_lt_signWeight⟩

end Binary

open Scale in
/-- On every scale the steps lead to the nearest values: for whole numbers of every format, of which
no two are the same number, and for floating point numbers of both formats, where the same number is
one pattern or the two zeros, only the patterns that are no number compare with nothing, and the
patterns are stepped through one by one without ever wrapping around. -/
theorem steps_to_nearest :
    (∀ (f : IntegerFormat) (a : Fixed f), Steps a ∧ Comparable a ∧ ∀ b, Same a b ↔ a = b) ∧
      ∀ (p : Precision) (x : Binary p), Steps x ∧ (Comparable x ↔ x.isNaN = false) ∧
        (∀ y, Same x y ↔
          x.isNaN = false ∧ y.isNaN = false ∧ (x = y ∨ (x.magnitude = 0 ∧ y.magnitude = 0))) ∧
        x.StepsInPattern :=
  ⟨fun _ a => ⟨steps a, a.comparable, fun _ => Fixed.same_iff⟩,
    fun _ x => ⟨steps x, Binary.comparable_iff, fun _ => Binary.same_iff, x.stepsInPattern⟩⟩

/-- The step from the greatest subnormal number leads to the least normal one. -/
example : (⟨0x007fffff⟩ : Binary .single).next = ⟨0x00800000⟩ := by decide

end RangeSets
