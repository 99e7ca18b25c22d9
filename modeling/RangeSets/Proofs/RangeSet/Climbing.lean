import Mathlib.Logic.Basic
import RangeSets.Proofs.RangeSet.Neighbours
/-!
# From one value to the next

Each of the questions for a neighbour has no answer exactly when there is no value on that side, and a
value that compares with nothing has no sides. So steps to the least value above, taken one after
another, miss no value on their way: from the least value of a set they lead through all of its values
in ascending order and end after the greatest.

A step may land on one zero where a set was given the other, so in general values are met up to being
the same number. Whole numbers that are the same are equal, and of them each one is met.
-/

namespace RangeSets

open Scale

variable {α : Type} [Scale α]

/-! ### No value on a side -/

section NoAnswer

variable {P : α → Prop} {v : α} {w? : Option α}

theorem LeastAbove.eq_none_iff (h : LeastAbove P v w?) :
    w? = none ↔ ¬ Comparable v ∨ ¬ ∃ u, P u ∧ v < u := by
  cases w? with
  | none => exact iff_of_true rfl (.inr fun hex => hex.elim fun u hu => h u hu.1 hu.2)
  | some w =>
      simp only [reduceCtorEq, false_iff, not_or, not_not]
      exact ⟨(lt_iff.mp h.1.2).1, w, h.1⟩

theorem GreatestBelow.eq_none_iff (h : GreatestBelow P v w?) :
    w? = none ↔ ¬ Comparable v ∨ ¬ ∃ u, P u ∧ u < v := by
  cases w? with
  | none => exact iff_of_true rfl (.inr fun hex => hex.elim fun u hu => h u hu.1 hu.2)
  | some w =>
      simp only [reduceCtorEq, false_iff, not_or, not_not]
      exact ⟨(lt_iff.mp h.1.2).2.1, w, h.1⟩

end NoAnswer

/-! ### Values one after another -/

/-- The values with a property in ascending order, each number once. -/
structure Enumerates (P : α → Prop) (values : List α) : Prop where
  ascending : values.Pairwise (· < ·)
  sound : ∀ v ∈ values, P v
  complete : ∀ v, P v → ∃ w ∈ values, Same v w

namespace Enumerates

variable {P Q : α → Prop} {v w : α} {values : List α}

theorem congr (h : Enumerates P values) (hiff : ∀ v, P v ↔ Q v) : Enumerates Q values where
  ascending := h.ascending
  sound v hv := (hiff v).mp (h.sound v hv)
  complete v hv := h.complete v ((hiff v).mpr hv)

/-- A value without another one above it is the only one from there on. -/
theorem singleton (hv : P v) (hcomp : Comparable v) (hnone : LeastAbove P v none) :
    Enumerates (fun u => P u ∧ v ≤ u) [v] where
  ascending := List.pairwise_singleton ..
  sound u hu := by
    obtain rfl := List.mem_singleton.mp hu
    exact ⟨hv, hcomp⟩
  complete u hu := by
    obtain ⟨_, hucomp, hle⟩ := le_iff.mp hu.2
    have hnot := hnone u hu.1
    rw [lt_iff_place hcomp hucomp] at hnot
    exact ⟨v, by simp, same_iff.mpr ⟨hucomp, hcomp, by omega⟩⟩

/-- The values from one on are that value and those from the least one above it on. -/
theorem cons (h : Enumerates (fun u => P u ∧ w ≤ u) values) (hv : P v)
    (hleast : LeastAbove P v (some w)) : Enumerates (fun u => P u ∧ v ≤ u) (v :: values) := by
  obtain ⟨⟨_, hlt⟩, hleast⟩ := hleast
  have hcomp := (lt_iff.mp hlt).1
  have habove : ∀ u ∈ values, v < u := fun u hu => lt_le_trans hlt (h.sound u hu).2
  refine ⟨List.pairwise_cons.mpr ⟨habove, h.ascending⟩, fun u hu => ?_, fun u hu => ?_⟩
  · rcases List.mem_cons.mp hu with rfl | hu
    · exact ⟨hv, hcomp⟩
    · obtain ⟨_, hucomp, hlt⟩ := lt_iff.mp (habove u hu)
      exact ⟨(h.sound u hu).1, (le_iff_place hcomp hucomp).mpr (by omega)⟩
  -- A value that is not above this one is the same number.
  · by_cases hltu : v < u
    · obtain ⟨t, ht, hsame⟩ := h.complete u ⟨hu.1, hleast u hu.1 hltu⟩
      exact ⟨t, List.mem_cons_of_mem _ ht, hsame⟩
    · obtain ⟨_, hucomp, hle⟩ := le_iff.mp hu.2
      rw [lt_iff_place hcomp hucomp] at hltu
      exact ⟨v, by simp, same_iff.mpr ⟨hucomp, hcomp, by omega⟩⟩

/-- The greatest value is the last one. -/
theorem getLast? (h : Enumerates P values) (hw : P w) (hmost : ∀ v, P v → v ≤ w) :
    ∃ u, values.getLast? = some u ∧ Same u w := by
  obtain ⟨t, ht, hsame⟩ := h.complete w hw
  obtain ⟨u, hu⟩ := Option.isSome_iff_exists.mp (List.getLast?_isSome.mpr (List.ne_nil_of_mem ht))
  obtain ⟨init, rfl⟩ := List.getLast?_eq_some_iff.mp hu
  refine ⟨u, hu, hmost u (h.sound u (by simp)), ?_⟩
  rcases List.mem_append.mp ht with hinit | hlast
  · have hlt := (List.pairwise_append.mp h.ascending).2.2 t hinit u (by simp)
    obtain ⟨_, hu, hplace⟩ := lt_iff.mp hlt
    obtain ⟨hwcomp, _, heq⟩ := same_iff.mp hsame
    exact (le_iff_place hwcomp hu).mpr (by omega)
  · obtain rfl := List.mem_singleton.mp hlast
    exact hsame.1

theorem mem_iff {f : IntegerFormat} {P : Fixed f → Prop} {values : List (Fixed f)}
    (h : Enumerates P values) (v : Fixed f) : v ∈ values ↔ P v := by
  refine ⟨h.sound v, fun hv => ?_⟩
  obtain ⟨w, hw, hsame⟩ := h.complete v hv
  rwa [Fixed.eq_of_same hsame]

end Enumerates

/-! ### Steps to the value above -/

namespace RangeSet

variable {s : RangeSet α} {v : α}

/-- Where steps to the least value above lead from a value, or none when they ended before. -/
def climb (s : RangeSet α) : Nat → α → Option α
  | 0, v => some v
  | n + 1, v => (s.above? v).bind (s.climb n)

/-- From a value of the set, the steps lead through all of its values from there on. The induction is
on the room that is left below the top. -/
theorem Sound.enumerates_climb (h : s.Sound) (hv : s.Contains v) :
    ∃ values, Enumerates (fun u => s.Contains u ∧ v ≤ u) values ∧
      ∀ n, s.climb n v = values[n]? := by
  induction hroom : (place (top : α) - place v).toNat using Nat.strongRecOn generalizing v with
  | ind room ih =>
    have hleast := h.above?_spec v
    cases hnext : s.above? v with
    | none =>
        rw [hnext] at hleast
        refine ⟨[v], .singleton hv (h.comparable hv) hleast, fun n => ?_⟩
        cases n with
        | zero => rfl
        | succ n => simp [climb, hnext]
    | some w =>
        rw [hnext] at hleast
        obtain ⟨_, hw, hplace⟩ := lt_iff.mp hleast.1.2
        have htop := place_le_top hw
        obtain ⟨values, hvalues, hclimb⟩ := ih _ (by omega) hleast.1.1 rfl
        refine ⟨v :: values, hvalues.cons hv hleast, fun n => ?_⟩
        cases n with
        | zero => rfl
        | succ n => simp [climb, hnext, hclimb]

/-- From the least value of a set that is not empty, the steps lead through all of its values. -/
theorem Sound.enumerates_climb_min (h : s.Sound) (hne : ¬ s.IsEmpty) :
    ∃ values, Enumerates s.Contains values ∧ ∀ n, s.climb n s.min = values[n]? := by
  have hex : ∃ v, s.Contains v := by
    rw [h.isEmpty_iff] at hne
    exact not_forall_not.mp hne
  obtain ⟨hmin, hleast⟩ := h.min_spec.least hex
  obtain ⟨values, hvalues, hclimb⟩ := h.enumerates_climb hmin
  exact ⟨values, hvalues.congr fun v => and_iff_left_of_imp (hleast v), hclimb⟩

/-- The neighbours of a value are the closest values of the set on its two sides, and there is none
exactly when no value is on that side or the value compares with nothing. The ends of a set are its
least and its greatest value, and for the empty set the ends of the scale, each in place of the other.
So the steps up from the least value of a set of whole numbers list the set, each value once and in
ascending order, and end after the greatest. -/
theorem neighbours_and_ends (h : s.Reachable) :
    (∀ v, LeastAbove s.Contains v (s.above? v) ∧ GreatestBelow s.Contains v (s.below? v) ∧
      (s.above? v = none ↔ ¬ Comparable v ∨ ¬ ∃ u, s.Contains u ∧ v < u) ∧
      (s.below? v = none ↔ ¬ Comparable v ∨ ¬ ∃ u, s.Contains u ∧ u < v)) ∧
    LeastOrTop s.Contains s.min ∧ GreatestOrBottom s.Contains s.max ∧
    (s.IsEmpty → s.min = top ∧ s.max = bottom) ∧
    ∀ (f : IntegerFormat) (t : RangeSet (Fixed f)), t.Reachable → ¬ t.IsEmpty →
      ∃ values : List (Fixed f), (∀ n, t.climb n t.min = values[n]?) ∧ values.Pairwise (· < ·) ∧
        (∀ v, v ∈ values ↔ t.Contains v) ∧ values.getLast? = some t.max := by
  have hs := h.sound
  refine ⟨fun v => ?_, hs.min_spec, hs.max_spec, fun hempty => ?_, fun f t ht hne => ?_⟩
  · exact ⟨hs.above?_spec v, hs.below?_spec v, (hs.above?_spec v).eq_none_iff,
      (hs.below?_spec v).eq_none_iff⟩
  · have hnone := hs.isEmpty_iff.mp hempty
    exact ⟨hs.min_spec.eq_top hnone, hs.max_spec.eq_bottom hnone⟩
  · obtain ⟨values, hvalues, hclimb⟩ := ht.sound.enumerates_climb_min hne
    rw [ht.sound.isEmpty_iff, not_forall_not] at hne
    obtain ⟨hmax, hmost⟩ := ht.sound.max_spec.greatest hne
    obtain ⟨u, hlast, hsame⟩ := hvalues.getLast? hmax hmost
    refine ⟨values, hclimb, hvalues.ascending, hvalues.mem_iff, ?_⟩
    rw [hlast, Fixed.eq_of_same hsame]

theorem gapped_climbed :
    gapped.Reachable ∧ ¬ gapped.IsEmpty ∧
      LeastAbove gapped.Contains (.ofInt 9) (some (.ofInt 21)) ∧
      ∃ values : List Octet, (∀ n, gapped.climb n gapped.min = values[n]?) ∧
        values.getLast? = some (.ofInt 127) ∧ Fixed.ofInt 9 ∈ values ∧ Fixed.ofInt 10 ∉ values := by
  have hs : gapped.Reachable := .mutate _ .whole
  have hne : ¬ gapped.IsEmpty := by decide
  have hnext : gapped.above? (.ofInt 9) = some (.ofInt 21) := by decide
  have hmax : gapped.max = .ofInt 127 := by decide
  obtain ⟨hneighbours, _, _, _, hlisted⟩ := neighbours_and_ends hs
  obtain ⟨values, hclimb, _, hmem, hlast⟩ := hlisted _ gapped hs hne
  refine ⟨hs, hne, hnext ▸ (hneighbours _).1, values, hclimb, hmax ▸ hlast, ?_, ?_⟩
  · rw [hmem]
    decide
  · rw [hmem]
    decide

end RangeSet

end RangeSets
