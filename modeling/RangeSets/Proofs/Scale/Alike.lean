import RangeSets.Change
import RangeSets.Proofs.Scale.Place
/-!
# Values that no comparison tells apart

Two values are alike when they have the same rank: they are the same number, as the two zeros of a
floating point format are, or neither of them compares with anything. Whatever is decided by comparing,
stepping and counting comes out the same for both.
-/

namespace RangeSets

namespace Scale

variable {α : Type} [Scale α] {a b c d : α}

/-- The values have one place in the line, or both have none. -/
def Alike (a b : α) : Prop := rank a = rank b

instance (a b : α) : Decidable (Alike a b) := inferInstanceAs (Decidable (_ = _))

theorem Alike.refl (a : α) : Alike a a := rfl

theorem Alike.symm (h : Alike a b) : Alike b a := Eq.symm h

theorem Alike.le_iff (hab : Alike a b) (hcd : Alike c d) : a ≤ c ↔ b ≤ d := by
  rw [Alike] at hab hcd
  rw [le_iff_rank, le_iff_rank, hab, hcd]

theorem Alike.lt_iff (hab : Alike a b) (hcd : Alike c d) : a < c ↔ b < d := by
  rw [Alike] at hab hcd
  rw [lt_iff_rank, lt_iff_rank, hab, hcd]

theorem Alike.between_iff (hab : Alike a b) (hcd : Alike c d) (v : α) :
    a ≤ v ∧ v ≤ c ↔ b ≤ v ∧ v ≤ d :=
  and_congr (hab.le_iff (.refl v)) (Alike.le_iff (.refl v) hcd)

theorem Alike.same_iff (hab : Alike a b) (hcd : Alike c d) : Same a c ↔ Same b d :=
  and_congr (hab.le_iff hcd) (hcd.le_iff hab)

theorem Alike.next (h : Alike a b) : Alike (next a) (next b) := by
  by_cases hlt : a < top
  · have hrank := comparable_iff.mp (Scale.lt_iff.mp hlt).1
    have hother : rank b = some (place a) := h ▸ hrank
    rw [Alike, rank_next a _ hrank hlt, rank_next b _ hother ((h.lt_iff (.refl top)).mp hlt)]
  · rw [next_eq_self a hlt, next_eq_self b (mt (h.lt_iff (.refl top)).mpr hlt)]
    exact h

theorem Alike.prev (h : Alike a b) : Alike (prev a) (prev b) := by
  by_cases hlt : bottom < a
  · have hrank := comparable_iff.mp (Scale.lt_iff.mp hlt).2.1
    have hother : rank b = some (place a) := h ▸ hrank
    have hlt' : bottom < b := (Alike.lt_iff (.refl bottom) h).mp hlt
    rw [Alike, rank_prev a _ hrank hlt, rank_prev b _ hother hlt']
  · rw [prev_eq_self a hlt, prev_eq_self b (mt (Alike.lt_iff (.refl bottom) h).mpr hlt)]
    exact h

theorem alike_of_same (h : Same a b) : Alike a b := by
  obtain ⟨ha, hb, hplace⟩ := Scale.same_iff.mp h
  rw [Alike, comparable_iff.mp ha, comparable_iff.mp hb, hplace]

theorem Alike.count?_eq (hlo : Alike a b) (hhi : Alike c d) : count? a c = count? b d := by
  rw [Alike] at hlo hhi
  rw [count?, count?, hlo, hhi]

end Scale

open Scale

variable {α : Type} [Scale α]

theorem Extent.ofBounds_eq {a b c d : α} (hlo : Alike a b) (hhi : Alike c d) :
    Extent.ofBounds a c = Extent.ofBounds b d := by
  simp only [ofBounds, hlo.same_iff hhi, hlo.lt_iff hhi]

def Span.Alike (r t : Span α) : Prop := Scale.Alike r.lo t.lo ∧ Scale.Alike r.hi t.hi

theorem Span.Alike.contains_iff {r t : Span α} {v w : α} (h : r.Alike t) (hv : Scale.Alike v w) :
    r.Contains v ↔ t.Contains w :=
  and_congr (h.1.le_iff hv) (hv.le_iff h.2)

/-- Two changes of one direction over runs with alike bounds. -/
def Change.Alike : Change α → Change α → Prop
  | gained r, gained t => r.Alike t
  | lost r, lost t => r.Alike t
  | _, _ => False

end RangeSets
