import RangeSets.Proofs.Fault
/-!
# Whole numbers that are worths

A sum, a difference or a negation of worths is there exactly when the whole number that it comes to
fits the format of worths.
-/

namespace RangeSets.Worth

/-- The whole number is the value of some worth. -/
def Fits (n : Int) : Prop := worthFormat.min ≤ n ∧ n ≤ worthFormat.max

instance (n : Int) : Decidable (Fits n) := inferInstanceAs (Decidable (_ ∧ _))

theorem fits_iff {n : Int} : Fits n ↔ -2147483648 ≤ n ∧ n ≤ 2147483647 := Iff.rfl

theorem fits_val (a : Worth) : Fits a.val := ⟨a.min_le, a.le_max⟩

theorem val_zero : zero.val = 0 := rfl

variable {a b : Worth}

theorem add?_eq_none_iff : add? a b = none ↔ ¬ Fits (a.val + b.val) := by
  rw [add?, Fixed.ofInt?_eq_none_iff, Fits]
  omega

theorem sub?_eq_none_iff : sub? a b = none ↔ ¬ Fits (a.val - b.val) := by
  rw [sub?, Fixed.ofInt?_eq_none_iff, Fits]
  omega

theorem neg?_eq_none_iff : neg? a = none ↔ a.val = worthFormat.min := by
  have ha := fits_iff.mp a.fits_val
  have hmin : worthFormat.min = -2147483648 := rfl
  have hmax : worthFormat.max = 2147483647 := rfl
  rw [neg?, Fixed.ofInt?_eq_none_iff, hmin, hmax]
  omega

theorem exists_negated (h : a.val ≠ worthFormat.min) : ∃ negated : Worth, negated.val = -a.val := by
  obtain ⟨negated, hneg⟩ := Option.ne_none_iff_exists'.mp (mt neg?_eq_none_iff.mp h)
  exact ⟨negated, Fixed.ofInt?_eq_some_iff.mp hneg⟩

theorem orFault_eq_error_iff {worth? : Option Worth} {fault cause : Fault} :
    orFault worth? cause = .error fault ↔ worth? = none ∧ fault = cause := by
  cases worth? with
  | none => simp [orFault, eq_comm]
  | some w => simp [orFault]

end RangeSets.Worth
