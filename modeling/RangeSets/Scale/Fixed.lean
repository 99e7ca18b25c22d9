import RangeSets.Scale
/-!
# Whole numbers of a fixed width

An integer format says whether a sign is kept and how many bits there are. Its numbers are the whole
numbers between the two ends of the format, and a step past either end stays where it is.
-/

namespace RangeSets

structure IntegerFormat where
  signed : Bool
  bits : Nat
  two_le_bits : 2 ≤ bits := by decide
  deriving DecidableEq

namespace IntegerFormat

def min (f : IntegerFormat) : Int := if f.signed then -(Nat.pow 2 (f.bits - 1) : Nat) else 0

def max (f : IntegerFormat) : Int :=
  (Nat.pow 2 (if f.signed then f.bits - 1 else f.bits) : Nat) - 1

theorem min_le_max (f : IntegerFormat) : f.min ≤ f.max := by
  have hhalf : 0 < Nat.pow 2 (f.bits - 1) := Nat.pow_pos (by decide)
  have hfull : 0 < Nat.pow 2 f.bits := Nat.pow_pos (by decide)
  unfold min max
  split <;> omega

end IntegerFormat

/-- A whole number that fits a format. -/
structure Fixed (f : IntegerFormat) where
  val : Int
  min_le : f.min ≤ val
  le_max : val ≤ f.max
  deriving DecidableEq

namespace Fixed

variable {f : IntegerFormat}

@[ext] theorem ext {a b : Fixed f} (h : a.val = b.val) : a = b := by
  cases a
  cases b
  cases h
  rfl

/-- The number `n` in the format, when it fits. -/
def ofInt? (n : Int) : Option (Fixed f) :=
  if h : f.min ≤ n ∧ n ≤ f.max then some ⟨n, h.1, h.2⟩ else none

theorem ofInt?_eq_some_iff {n : Int} {a : Fixed f} : ofInt? n = some a ↔ a.val = n := by
  unfold ofInt?
  constructor
  · split
    · intro h
      cases h
      rfl
    · intro h
      cases h
  · rintro rfl
    rw [dif_pos ⟨a.min_le, a.le_max⟩]

theorem ofInt?_eq_none_iff {n : Int} :
    (ofInt? n : Option (Fixed f)) = none ↔ n < f.min ∨ f.max < n := by
  unfold ofInt?
  split <;> rename_i h
  · exact ⟨fun hnone => (by cases hnone), fun hout => absurd hout (by omega)⟩
  · exact ⟨fun _ => by omega, fun _ => rfl⟩

instance : LE (Fixed f) := ⟨fun a b => a.val ≤ b.val⟩
instance : LT (Fixed f) := ⟨fun a b => a.val < b.val⟩
instance : DecidableLE (Fixed f) := fun a b => inferInstanceAs (Decidable (a.val ≤ b.val))
instance : DecidableLT (Fixed f) := fun a b => inferInstanceAs (Decidable (a.val < b.val))

theorem le_iff {a b : Fixed f} : a ≤ b ↔ a.val ≤ b.val := Iff.rfl

theorem lt_iff {a b : Fixed f} : a < b ↔ a.val < b.val := Iff.rfl

/-- One more, or the highest number itself. -/
def next (a : Fixed f) : Fixed f :=
  if h : a.val < f.max then ⟨a.val + 1, by have := a.min_le; omega, by omega⟩ else a

/-- One less, or the lowest number itself. -/
def prev (a : Fixed f) : Fixed f :=
  if h : f.min < a.val then ⟨a.val - 1, by omega, by have := a.le_max; omega⟩ else a

theorem val_next (a : Fixed f) : a.next.val = Min.min (a.val + 1) f.max := by
  have := a.le_max
  unfold next
  split
  · show a.val + 1 = _
    omega
  · omega

theorem val_prev (a : Fixed f) : a.prev.val = Max.max (a.val - 1) f.min := by
  have := a.min_le
  unfold prev
  split
  · show a.val - 1 = _
    omega
  · omega

instance : Scale (Fixed f) where
  decidableLE := inferInstance
  decidableLT := inferInstance
  next := next
  prev := prev
  bottom := ⟨f.min, Int.le_refl _, f.min_le_max⟩
  top := ⟨f.max, f.min_le_max, Int.le_refl _⟩
  isFinite _ := true
  rank a := some a.val
  capacity := some (Nat.pow 2 f.bits - 1)
  le_iff_rank a b := by simp [le_iff]
  lt_iff_rank a b := by simp [lt_iff]
  rank_bottom := ⟨f.min, rfl, fun a j h => by cases h; exact a.min_le⟩
  rank_top := ⟨f.max, rfl, fun a j h => by cases h; exact a.le_max⟩
  rank_next a i h hlt := by
    cases h
    have hlt : a.val < f.max := hlt
    rw [val_next]
    congr 1
    omega
  next_eq_self a h := by
    have h : ¬ a.val < f.max := h
    exact dif_neg h
  rank_prev a i h hlt := by
    cases h
    have hlt : f.min < a.val := hlt
    rw [val_prev]
    congr 1
    omega
  prev_eq_self a h := by
    have h : ¬ f.min < a.val := h
    exact dif_neg h

instance : ToString (Fixed f) := ⟨fun a => toString a.val⟩

end Fixed

end RangeSets
