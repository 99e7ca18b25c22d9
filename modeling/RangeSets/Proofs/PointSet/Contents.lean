import RangeSets.PointSet
import RangeSets.Proofs.RangeSet.Neighbours
import RangeSets.Proofs.Runs
import Mathlib.Data.Set.Card
/-!
# What a point set stands for

A point set is sound when its offsets ascend and none of them leads out of the universe. An offset then
stands for one number, and a number in the universe for one offset, so that the offsets list the values
of the set in ascending order, each of them once, and every question is answered from the list.
-/

namespace RangeSets

open Scale

variable {f : IntegerFormat}

namespace PointSet

variable {s : PointSet f} {v w : Fixed f} {n m : Nat}

/-! ### Ascending lists -/

theorem le_of_mem_cons {ns : List Nat} (h : (n :: ns).Pairwise (· < ·)) (hm : m ∈ n :: ns) :
    n ≤ m := by
  rcases List.mem_cons.mp hm with rfl | hm
  · exact Nat.le_refl _
  · exact Nat.le_of_lt ((List.pairwise_cons.mp h).1 m hm)

theorem le_of_mem_concat {ns : List Nat} (h : (ns ++ [n]).Pairwise (· < ·)) (hm : m ∈ ns ++ [n]) :
    m ≤ n := by
  rcases List.mem_append.mp hm with hm | hm
  · exact Nat.le_of_lt ((List.pairwise_append.mp h).2.2 m hm n (by simp))
  · exact Nat.le_of_eq (List.mem_singleton.mp hm)

/-- The numbers below a bound are the front of the list. -/
theorem mem_takeWhile_lt_iff {ns : List Nat} {bound : Int} (h : ns.Pairwise (· < ·)) :
    m ∈ ns.takeWhile (fun n : Nat => n < bound) ↔ m ∈ ns ∧ m < bound := by
  induction ns with
  | nil => simp
  | cons n rest ih =>
      rw [List.takeWhile_cons]
      split
      · rename_i hn
        rw [decide_eq_true_eq] at hn
        rw [List.mem_cons, List.mem_cons, ih (List.pairwise_cons.mp h).2]
        grind
      · rename_i hn
        rw [decide_eq_true_eq] at hn
        refine ⟨fun hm => absurd hm List.not_mem_nil, fun ⟨hm, hlt⟩ => ?_⟩
        have hle := le_of_mem_cons h hm
        omega

/-! ### Offsets and values -/

theorem value?_eq_some_iff : s.value? n = some v ↔ v.val = s.lower.val + n :=
  Fixed.ofInt?_eq_some_iff

theorem offset?_eq_some_iff :
    s.offset? v = some n ↔ v.val = s.lower.val + n ∧ v.val ≤ s.upper.val := by
  simp only [offset?, Fixed.lt_iff]
  split
  · simp only [reduceCtorEq, false_iff]
    omega
  · simp only [Option.some.injEq]
    omega

theorem offset?_eq_none_iff :
    s.offset? v = none ↔ v.val < s.lower.val ∨ s.upper.val < v.val := by
  simp only [offset?, Fixed.lt_iff, ite_eq_left_iff, reduceCtorEq, imp_false, Classical.not_not]

theorem exists_value_of_le (hwithin : s.lower.val + n ≤ s.upper.val) :
    ∃ v, s.value? n = some v ∧ v.val = s.lower.val + n := by
  have hlower := s.lower.min_le
  have hupper := s.upper.le_max
  let v : Fixed f := ⟨s.lower.val + n, by omega, by omega⟩
  exact ⟨v, value?_eq_some_iff.mpr rfl, rfl⟩

/-- The offsets ascend and stay in the universe. -/
structure Sound (s : PointSet f) : Prop where
  ascending : s.offsets.Pairwise (· < ·)
  within : ∀ n ∈ s.offsets, s.lower.val + n ≤ s.upper.val

namespace Sound

theorem contains_iff (h : s.Sound) : s.Contains v ↔ ∃ n ∈ s.offsets, v.val = s.lower.val + n := by
  simp only [Contains, Option.mem_def, offset?_eq_some_iff]
  constructor
  · rintro ⟨n, ⟨hval, _⟩, hn⟩
    exact ⟨n, hn, hval⟩
  · rintro ⟨n, hn, hval⟩
    exact ⟨n, ⟨hval, hval ▸ h.within n hn⟩, hn⟩

theorem exists_value (h : s.Sound) (hn : n ∈ s.offsets) :
    ∃ v, s.value? n = some v ∧ v.val = s.lower.val + n ∧ s.Contains v := by
  obtain ⟨v, hvalue, hval⟩ := exists_value_of_le (h.within n hn)
  exact ⟨v, hvalue, hval, h.contains_iff.mpr ⟨n, hn, hval⟩⟩

/-! ### The list of the values -/

theorem mem_values (h : s.Sound) : v ∈ s.values ↔ s.Contains v := by
  rw [values, List.mem_filterMap, h.contains_iff]
  simp only [value?_eq_some_iff]

theorem values_ascending (h : s.Sound) : s.values.Pairwise (· < ·) := by
  rw [values, List.pairwise_filterMap]
  refine h.ascending.imp fun {n m} hlt v hv w hw => ?_
  rw [value?_eq_some_iff] at hv hw
  rw [Fixed.lt_iff]
  omega

theorem length_values (h : s.Sound) : s.values.length = s.count := by
  rw [values, count, List.filterMap_length_eq_length]
  intro n hn
  obtain ⟨v, hvalue, _⟩ := h.exists_value hn
  rw [hvalue, Option.isSome_some]

theorem count_eq_ncard (h : s.Sound) : s.count = {v | s.Contains v}.ncard := by
  have hnodup : s.values.Nodup := h.values_ascending.imp fun hlt heq => by
    rw [heq, Fixed.lt_iff] at hlt
    omega
  have hset : {v | s.Contains v} = s.values.toFinset := by
    ext v
    simp [h.mem_values]
  rw [hset, Set.ncard_coe_finset, List.toFinset_card_of_nodup hnodup, h.length_values]

theorem count_eq_zero_iff (h : s.Sound) : s.count = 0 ↔ ∀ v, ¬ s.Contains v := by
  rw [← h.length_values, List.length_eq_zero_iff, List.eq_nil_iff_forall_not_mem]
  simp only [h.mem_values]

/-! ### The ends and the next values -/

theorem min_spec (h : s.Sound) : LeastOrTop s.Contains s.min := by
  rw [PointSet.min]
  have hascending := h.ascending
  cases hoffsets : s.offsets with
  | nil =>
      refine ⟨fun hex => ?_, fun _ => rfl⟩
      obtain ⟨v, hv⟩ := hex
      simp [h.contains_iff, hoffsets] at hv
  | cons n rest =>
      obtain ⟨w, hvalue, hw, hcontains⟩ := h.exists_value (n := n) (by simp [hoffsets])
      rw [List.head?_cons, Option.bind_some, hvalue, Option.getD_some]
      refine ⟨fun _ => ⟨hcontains, fun v hv => ?_⟩, fun hnone => absurd hcontains (hnone w)⟩
      obtain ⟨m, hm, hval⟩ := h.contains_iff.mp hv
      rw [hoffsets] at hascending hm
      have hleast := le_of_mem_cons hascending hm
      exact Fixed.le_iff.mpr (by omega)

theorem max_spec (h : s.Sound) : GreatestOrBottom s.Contains s.max := by
  rw [PointSet.max]
  have hascending := h.ascending
  rcases List.eq_nil_or_concat s.offsets with hoffsets | ⟨ns, n, hoffsets⟩
  · rw [hoffsets]
    refine ⟨fun hex => ?_, fun _ => rfl⟩
    obtain ⟨v, hv⟩ := hex
    simp [h.contains_iff, hoffsets] at hv
  · rw [List.concat_eq_append] at hoffsets
    obtain ⟨w, hvalue, hw, hcontains⟩ := h.exists_value (n := n) (by simp [hoffsets])
    rw [hoffsets, List.getLast?_append, List.getLast?_singleton, Option.some_or, Option.bind_some,
      hvalue, Option.getD_some]
    refine ⟨fun _ => ⟨hcontains, fun v hv => ?_⟩, fun hnone => absurd hcontains (hnone w)⟩
    obtain ⟨m, hm, hval⟩ := h.contains_iff.mp hv
    rw [hoffsets] at hascending hm
    have hgreatest := le_of_mem_concat hascending hm
    exact Fixed.le_iff.mpr (by omega)

theorem above?_spec (h : s.Sound) (v : Fixed f) : LeastAbove s.Contains v (s.above? v) := by
  rw [PointSet.above?]
  cases hfound : s.offsets.find? fun n : Nat => v.val - s.lower.val < n with
  | none =>
      intro u hu hlt
      obtain ⟨n, hn, hval⟩ := h.contains_iff.mp hu
      have hnot := List.find?_eq_none.mp hfound n hn
      simp only [decide_eq_true_eq] at hnot
      have := Fixed.lt_iff.mp hlt
      omega
  | some n =>
      obtain ⟨hbeyond, ns, ms, hoffsets, hskipped⟩ := List.find?_eq_some_iff_append.mp hfound
      obtain ⟨w, hvalue, hw, hcontains⟩ := h.exists_value (List.mem_of_find?_eq_some hfound)
      rw [decide_eq_true_eq] at hbeyond
      rw [Option.bind_some, hvalue]
      refine ⟨⟨hcontains, Fixed.lt_iff.mpr (by omega)⟩, fun u hu hlt => ?_⟩
      obtain ⟨m, hm, hval⟩ := h.contains_iff.mp hu
      have habove := Fixed.lt_iff.mp hlt
      have hascending := h.ascending
      rw [hoffsets] at hascending hm
      have hleast : n ≤ m := by
        rcases List.mem_append.mp hm with hm | hm
        · have hnot := hskipped m hm
          simp only [Bool.not_eq_true', decide_eq_false_iff_not] at hnot
          omega
        · exact le_of_mem_cons (List.pairwise_append.mp hascending).2.1 hm
      exact Fixed.le_iff.mpr (by omega)

theorem below?_spec (h : s.Sound) (v : Fixed f) : GreatestBelow s.Contains v (s.below? v) := by
  rw [PointSet.below?]
  have hmem : ∀ m, m ∈ (s.offsets.takeWhile fun n : Nat => n < v.val - s.lower.val) ↔
      m ∈ s.offsets ∧ m < v.val - s.lower.val :=
    fun m => mem_takeWhile_lt_iff h.ascending
  have hascending := h.ascending.sublist
    (List.takeWhile_sublist fun n : Nat => n < v.val - s.lower.val)
  generalize (s.offsets.takeWhile fun n : Nat => n < v.val - s.lower.val) = front at hmem hascending ⊢
  rcases List.eq_nil_or_concat front with rfl | ⟨ns, n, rfl⟩
  · intro u hu hlt
    obtain ⟨m, hm, hval⟩ := h.contains_iff.mp hu
    have hbelow := Fixed.lt_iff.mp hlt
    cases (hmem m).mpr ⟨hm, by omega⟩
  · rw [List.concat_eq_append] at hmem hascending ⊢
    obtain ⟨hn, hbelow⟩ := (hmem n).mp (by simp)
    obtain ⟨w, hvalue, hw, hcontains⟩ := h.exists_value hn
    rw [List.getLast?_append, List.getLast?_singleton, Option.some_or, Option.bind_some, hvalue]
    refine ⟨⟨hcontains, Fixed.lt_iff.mpr (by omega)⟩, fun u hu hlt => ?_⟩
    obtain ⟨m, hm, hval⟩ := h.contains_iff.mp hu
    have hubelow := Fixed.lt_iff.mp hlt
    have hgreatest := le_of_mem_concat hascending ((hmem m).mpr ⟨hm, by omega⟩)
    exact Fixed.le_iff.mpr (by omega)

end Sound

end PointSet

end RangeSets
