import RangeSets.Proofs.Search
import RangeSets.Proofs.WorthMap.Table
/-!
# What a worth map stands for

A worth map represents a layout when its chain and its table have that layout, the blocks ascend and
no block has worth zero. The weight of a value is the sum of the worths of all blocks that hold it.
On blocks in order at most one does, so that the weight is the worth that the map finds. The weight
is taken as a sum because sums go well with lists that are cut, spread and joined.
-/

namespace RangeSets.WorthMap

open Scale

variable {α : Type} [Scale α]

/-! ### Weights -/

/-- The sum of the worths of the blocks that hold a value. -/
def weight (v : α) : List (Block α Worth) → Int
  | [] => 0
  | b :: bs => (if b.Contains v then b.label.val else 0) + weight v bs

variable {b : Block α Worth} {bs cs : List (Block α Worth)} {v : α}

@[simp] theorem weight_nil : weight v ([] : List (Block α Worth)) = 0 := rfl

@[simp] theorem weight_cons :
    weight v (b :: bs) = (if b.Contains v then b.label.val else 0) + weight v bs := rfl

@[simp] theorem weight_append : weight v (bs ++ cs) = weight v bs + weight v cs := by
  induction bs with
  | nil => simp
  | cons b rest ih =>
      rw [List.cons_append, weight_cons, weight_cons, ih]
      omega

theorem weight_of_not_covered (h : ¬ Covered bs v) : weight v bs = 0 := by
  induction bs with
  | nil => rfl
  | cons b rest ih =>
      rw [covered_cons, not_or] at h
      rw [weight_cons, if_neg h.1, ih h.2]
      rfl

theorem weight_of_mem (h : Ordered bs) (hb : b ∈ bs) (hv : b.Contains v) :
    weight v bs = b.label.val := by
  obtain ⟨xs, ys, rfl⟩ := List.append_of_mem hb
  obtain ⟨hxs, hys⟩ := h.not_covered_around hv
  rw [weight_append, weight_cons, weight_of_not_covered hxs, weight_of_not_covered hys, if_pos hv]
  omega

theorem weight_of_not_comparable (hv : ¬ Comparable v) (bs : List (Block α Worth)) :
    weight v bs = 0 :=
  weight_of_not_covered fun h => hv h.comparable

theorem weight_singleton (hb : b.lo ≤ b.hi) (hv : Comparable v) :
    weight v [b] = if place b.lo ≤ place v ∧ place v ≤ place b.hi then b.label.val else 0 := by
  simp only [weight_cons, weight_nil, Block.contains_iff hb hv, Int.add_zero]

theorem weight_below {u : α} (hb : b.lo ≤ b.hi) (hu : Comparable u)
    (hreach : place u ≤ place b.hi) (hv : Comparable v) :
    weight v (b.below u) =
      if place b.lo ≤ place v ∧ place v < place u then b.label.val else 0 := by
  have hcovered := Block.covered_below (u := v) hb hu hreach
  rw [Block.contains_iff hb hv, lt_iff_place hv hu] at hcovered
  by_cases hlt : b.lo < u
  · rw [Block.below_of_lt hlt, covered_singleton] at hcovered
    rw [Block.below_of_lt hlt, weight_cons, weight_nil, Int.add_zero]
    apply ite_congr (propext ?_) (fun _ => rfl) fun _ => rfl
    rw [hcovered]
    omega
  · rw [Block.below_of_not_lt hlt, weight_nil]
    rw [lt_iff_place (le_iff.mp hb).1 hu] at hlt
    rw [if_neg (by omega)]

theorem weight_above {u : α} (hb : b.lo ≤ b.hi) (hu : Comparable u)
    (hreach : place b.lo ≤ place u) (hv : Comparable v) :
    weight v (b.above u) =
      if place u < place v ∧ place v ≤ place b.hi then b.label.val else 0 := by
  have hcovered := Block.covered_above (u := v) hb hu hreach
  rw [Block.contains_iff hb hv, lt_iff_place hu hv] at hcovered
  by_cases hlt : u < b.hi
  · rw [Block.above_of_lt hlt, covered_singleton] at hcovered
    rw [Block.above_of_lt hlt, weight_cons, weight_nil, Int.add_zero]
    apply ite_congr (propext ?_) (fun _ => rfl) fun _ => rfl
    rw [hcovered]
    omega
  · rw [Block.above_of_not_lt hlt, weight_nil]
    rw [lt_iff_place hu (le_iff.mp hb).2.1] at hlt
    rw [if_neg (by omega)]

/-! ### Maps and layouts -/

/-- The chain and the table of a map have a layout with ascending blocks, none of worth zero. -/
structure Represents (m : WorthMap α) (p : Layout α Worth) : Prop where
  holds : m.Holds p
  ascending : Ascending p.blocks
  nonzero : ∀ b ∈ p.blocks, b.label ≠ Worth.zero

theorem represents_empty : (empty : WorthMap α).Represents ⟨[], []⟩ :=
  ⟨holds_empty, Ascending.nil, by simp [Layout.blocks]⟩

namespace Represents

variable {m : WorthMap α} {p : Layout α Worth}

theorem ranges_eq (h : m.Represents p) :
    m.ranges = p.entries.map fun e => ⟨e.lo, e.hi, e.label⟩ := by
  rw [ranges, h.holds.entries_eq]

theorem contains_iff (h : m.Represents p) (v : α) : m.Contains v ↔ Covered p.blocks v := by
  rw [Layout.blocks, ← Position.inside_iff h.ascending.ordered, Contains, slot?,
    h.holds.entries_eq]
  split
  · rename_i i hi
    simp [hi]
  · rename_i hother
    simp only [Option.isSome_none, Bool.false_eq_true, false_iff, not_exists]
    exact hother

/-- The worth that a map finds is the weight of its blocks. -/
theorem val_worth (h : m.Represents p) (v : α) : (m.worth v).val = weight v p.blocks := by
  have hordered := h.ascending.ordered
  by_cases hv : Covered p.blocks v
  · obtain ⟨b, hb, hcontains⟩ := hv
    rw [weight_of_mem hordered hb hcontains]
    obtain ⟨e, he, rfl⟩ := List.mem_map.mp hb
    obtain ⟨xs, ys, hsplit⟩ := List.append_of_mem he
    rw [Layout.blocks, hsplit] at hordered
    have hfound := Position.of_contains hordered hcontains
    rw [worth, slot?, h.holds.entries_eq, hsplit, hfound]
    simp only [Option.map_some, Option.getD_some]
    rw [h.holds.worthOf_eq he]
    rfl
  · rw [weight_of_not_covered hv]
    rw [← h.contains_iff, Contains, Option.not_isSome_iff_eq_none] at hv
    rw [worth, hv]
    rfl

/-- The values in a map are those whose weight is not zero. -/
theorem covered_iff (h : m.Represents p) (v : α) : Covered p.blocks v ↔ weight v p.blocks ≠ 0 := by
  refine ⟨fun ⟨b, hb, hv⟩ => ?_, fun hne => ?_⟩
  · rw [weight_of_mem h.ascending.ordered hb hv]
    intro hzero
    exact h.nonzero b hb (Fixed.ext hzero)
  · by_cases hv : Covered p.blocks v
    · exact hv
    · exact absurd (weight_of_not_covered hv) hne

/-- A map is empty when no value has a worth other than zero. -/
theorem isEmpty_iff (h : m.Represents p) : m.IsEmpty ↔ ∀ v, m.worth v = Worth.zero := by
  rw [IsEmpty, h.holds.chain.threads.1]
  cases hentries : p.entries with
  | nil =>
      refine iff_of_true rfl fun v => Fixed.ext ?_
      rw [h.val_worth, Layout.blocks, hentries]
      rfl
  | cons e rest =>
      refine iff_of_false (fun hnone => Option.some_ne_none _ hnone) fun hzero => ?_
      have hmem : e.block ∈ p.blocks := by rw [Layout.blocks, hentries]; simp
      have hproper := h.ascending.proper _ hmem
      have hworth := h.val_worth e.block.lo
      rw [weight_of_mem h.ascending.ordered hmem ⟨(le_iff.mp hproper).1, hproper⟩, hzero] at hworth
      exact absurd (Fixed.ext hworth.symm) (h.nonzero _ hmem)

end Represents

end RangeSets.WorthMap
