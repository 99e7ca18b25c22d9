import RangeSets.Proofs.RangeSet.Changes
import RangeSets.Proofs.RangeSet.Neighbours
import RangeSets.Proofs.Scale.Stepping
import RangeSets.Proofs.Scale.Width
/-!
# How many values there are

The values of a set of whole numbers are counted range by range, and every sum of widths is held
down to the greatest word. Holding sums down along the way comes to the same as holding down the
last one, since nothing is ever taken away: the count is the number of the values, or the greatest
word if there are more.

On every scale the two bounds of a set tell whether it holds no number, one or more. The count tells
the same, also where it is held down.
-/

namespace RangeSets

open Scale

/-! ### Ranges of whole numbers -/

namespace Span

variable {f : IntegerFormat} {rs : List (Span (Fixed f))}

/-- How many whole numbers there are between the bounds. -/
def size (r : Span (Fixed f)) : Nat := (r.hi.val - r.lo.val + 1).toNat

/-- Ranges in order have no value in common, so that their sizes add up. -/
theorem ncard_contained (h : rs.Pairwise fun r t => r.hi < t.lo) :
    {v | ∃ r ∈ rs, r.Contains v}.ncard = (rs.map size).sum := by
  induction rs with
  | nil => simp
  | cons r rest ih =>
      obtain ⟨hfirst, hrest⟩ := List.pairwise_cons.mp h
      have hsplit : {v | ∃ t ∈ r :: rest, t.Contains v} =
          {v | r.Contains v} ∪ {v | ∃ t ∈ rest, t.Contains v} := by
        ext v
        simp
      have hapart : Disjoint {v | r.Contains v} {v | ∃ t ∈ rest, t.Contains v} := by
        rw [Set.disjoint_left]
        rintro v hv ⟨t, ht, htv⟩
        have hgap := Fixed.lt_iff.mp (hfirst t ht)
        have hle := Fixed.le_iff.mp hv.2
        have hge := Fixed.le_iff.mp htv.1
        omega
      rw [hsplit, Set.ncard_union_eq hapart (Set.toFinite _) (Set.toFinite _), ih hrest,
        List.map_cons, List.sum_cons, size, ← Fixed.ncard_between]
      rfl

/-- Sizes that are added one by one and held down each time are the sum of the sizes, held down
once. -/
theorem foldlM_count? (h : ∀ r ∈ rs, r.lo ≤ r.hi) {total : Nat} (htotal : total ≤ f.mostWord) :
    rs.foldlM (fun total r => (count? r.lo r.hi).map fun n => min (total + n) f.mostWord) total =
      some (min (total + (rs.map size).sum) f.mostWord) := by
  induction rs generalizing total with
  | nil => simpa using htotal
  | cons r rest ih =>
      rw [List.foldlM_cons, Fixed.count?_eq (h r (by simp)), Option.map_some, Option.bind_eq_bind,
        Option.bind_some, ih (fun t ht => h t (by simp [ht])) (Nat.min_le_right ..), List.map_cons,
        List.sum_cons, size]
      congr 1
      omega

theorem toNat_foldl_widthWord (h : ∀ r ∈ rs, r.lo ≤ r.hi) (total : BitVec f.bits) :
    (rs.foldl (fun total r => Word.addHeld total (Fixed.widthWord r.lo r.hi)) total).toNat =
      min (total.toNat + (rs.map size).sum) f.mostWord := by
  induction rs generalizing total with
  | nil =>
      have := total.isLt
      simp only [List.foldl_nil, List.map_nil, List.sum_nil, IntegerFormat.mostWord]
      omega
  | cons r rest ih =>
      rw [List.foldl_cons, ih (fun t ht => h t (by simp [ht])), Word.toNat_addHeld,
        Fixed.toNat_widthWord (h r (by simp)), List.map_cons, List.sum_cons, size,
        IntegerFormat.mostWord]
      omega

end Span

/-! ### None, one or many -/

/-- What an extent says of the numbers with a property. Two values that are the same number, such as
the zeros of either sign, are one number. -/
def Extent.Describes {α : Type} [Scale α] (P : α → Prop) : Extent → Prop
  | .empty => ∀ v, ¬ P v
  | .single => ∃ v, P v ∧ ∀ u, P u → Same u v
  | .many => ∃ u v, P u ∧ P v ∧ u < v

theorem Extent.Describes.unique {α : Type} [Scale α] {P : α → Prop} {d e : Extent}
    (hd : d.Describes P) (he : e.Describes P) : d = e := by
  have hone : Extent.single.Describes P → ¬ Extent.many.Describes P := by
    rintro ⟨w, _, hsame⟩ ⟨u, v, hu, hv, hlt⟩
    have hplace := (lt_iff.mp hlt).2.2
    have := (same_iff.mp (hsame u hu)).2.2
    have := (same_iff.mp (hsame v hv)).2.2
    omega
  cases d with
  | empty =>
      cases e with
      | empty => rfl
      | single =>
          obtain ⟨v, hv, _⟩ := he
          exact absurd hv (hd v)
      | many =>
          obtain ⟨u, _, hu, _⟩ := he
          exact absurd hu (hd u)
  | single =>
      cases e with
      | empty =>
          obtain ⟨v, hv, _⟩ := hd
          exact absurd hv (he v)
      | single => rfl
      | many => exact absurd he (hone hd)
  | many =>
      cases e with
      | empty =>
          obtain ⟨u, _, hu, _⟩ := hd
          exact absurd hu (he u)
      | single => exact absurd hd (hone he)
      | many => rfl

namespace RangeSet

section Extents

variable {α : Type} [Scale α] {s : RangeSet α}

theorem Sound.extent_spec (h : s.Sound) : s.extent.Describes s.Contains := by
  have hnone := h.isEmpty_iff
  rw [extent]
  split
  · exact hnone.mp ‹_›
  · have hsome : ∃ v, s.Contains v :=
      Classical.byContradiction fun hall => ‹¬ s.IsEmpty› (hnone.mpr fun v hv => hall ⟨v, hv⟩)
    obtain ⟨hmin, hleast⟩ := h.min_spec.least hsome
    obtain ⟨hmax, hgreatest⟩ := h.max_spec.greatest hsome
    obtain ⟨hlo, hhi, hle⟩ := le_iff.mp (hleast _ hmax)
    rw [Extent.ofBounds]
    split
    · rename_i hsame
      have hplace := (Scale.same_iff.mp hsame).2.2
      refine ⟨s.min, hmin, fun u hu => ?_⟩
      obtain ⟨_, hcomp, hge⟩ := le_iff.mp (hleast u hu)
      have hub := (le_iff.mp (hgreatest u hu)).2.2
      exact Scale.same_iff.mpr ⟨hcomp, hlo, by omega⟩
    · rename_i hsame
      rw [Scale.same_iff] at hsame
      have hlt : s.min < s.max := by
        rw [lt_iff_place hlo hhi]
        have hne : place s.min ≠ place s.max := fun heq => hsame ⟨hlo, hhi, heq⟩
        omega
      rw [if_pos hlt]
      exact ⟨s.min, s.max, hmin, hmax, hlt⟩

/-- The extent of a set is the one that is true of its values. -/
theorem Sound.extent_eq_iff (h : s.Sound) {e : Extent} : s.extent = e ↔ e.Describes s.Contains :=
  ⟨fun heq => heq ▸ h.extent_spec, fun he => h.extent_spec.unique he⟩

end Extents

section Counts

variable {f : IntegerFormat} {s : RangeSet (Fixed f)}

/-- The count as it is kept in words: the widths of the ranges, added up from zero. -/
def countWord (s : RangeSet (Fixed f)) : BitVec f.bits :=
  s.spans.foldl (fun total r => Word.addHeld total (Fixed.widthWord r.lo r.hi)) 0

theorem Sound.ncard_eq (h : s.Sound) :
    {v | s.Contains v}.ncard = (s.spans.map Span.size).sum := by
  have hmem : {v | s.Contains v} = {v | ∃ r ∈ s.spans, r.Contains v} := by
    ext v
    exact h.decomposes_spans.mem_iff v
  rw [hmem, Span.ncard_contained (h.invariant.apart.imp And.left)]

theorem Sound.cardinality?_eq (h : s.Sound) :
    s.cardinality? = some (Min.min {v | s.Contains v}.ncard f.mostWord) := by
  have hfold := Span.foldlM_count? h.invariant.proper (Nat.zero_le f.mostWord)
  rw [Nat.zero_add, ← h.ncard_eq] at hfold
  exact hfold

theorem Sound.toNat_countWord (h : s.Sound) :
    s.countWord.toNat = Min.min {v | s.Contains v}.ncard f.mostWord := by
  rw [countWord, Span.toNat_foldl_widthWord h.invariant.proper, h.ncard_eq]
  simp

/-! #### The number of the values and their extent -/

theorem ncard_eq_zero_iff : {v | s.Contains v}.ncard = 0 ↔ Extent.empty.Describes s.Contains := by
  rw [Set.ncard_eq_zero (Set.toFinite _), Set.eq_empty_iff_forall_notMem]
  rfl

theorem ncard_eq_one_iff : {v | s.Contains v}.ncard = 1 ↔ Extent.single.Describes s.Contains := by
  rw [Set.ncard_eq_one]
  constructor
  · rintro ⟨v, hv⟩
    have hmem : ∀ u, s.Contains u ↔ u = v := fun u => by
      rw [← Set.mem_singleton_iff, ← hv]
      rfl
    exact ⟨v, (hmem v).mpr rfl, fun u hu => Fixed.same_iff.mpr ((hmem u).mp hu)⟩
  · rintro ⟨v, hv, hsame⟩
    refine ⟨v, Set.ext fun u => ⟨fun hu => Fixed.eq_of_same (hsame u hu), ?_⟩⟩
    rintro rfl
    exact hv

theorem one_lt_ncard_iff : 1 < {v | s.Contains v}.ncard ↔ Extent.many.Describes s.Contains := by
  rw [Set.one_lt_ncard_iff (Set.toFinite _)]
  constructor
  · rintro ⟨u, v, hu, hv, hne⟩
    have hval : u.val ≠ v.val := fun heq => hne (Fixed.ext heq)
    rcases Int.lt_or_gt_of_ne hval with hlt | hlt
    · exact ⟨u, v, hu, hv, hlt⟩
    · exact ⟨v, u, hv, hu, hlt⟩
  · rintro ⟨u, v, hu, hv, hlt⟩
    refine ⟨u, v, hu, hv, ?_⟩
    rintro rfl
    have := Fixed.lt_iff.mp hlt
    omega

end Counts

/-! ### The questions that are answered by a size -/

/-- All that is said of a set being empty, of it holding a single number and of its extent is true
of its values. -/
structure SizesAgree {α : Type} [Scale α] (s : RangeSet α) : Prop where
  extent_iff : ∀ e, s.extent = e ↔ e.Describes s.Contains
  isEmpty_iff : s.IsEmpty ↔ s.extent = .empty
  hasNone_iff : s.hasNone = true ↔ s.extent = .empty
  hasOne_iff : s.hasOne = true ↔ s.extent = .single

/-- The count of a set of whole numbers is the number of its values, held down to the greatest word,
and the extent says whether that number is zero, one or more. -/
structure CountsExactly {f : IntegerFormat} (s : RangeSet (Fixed f)) : Prop where
  cardinality?_eq : s.cardinality? = some (Min.min {v | s.Contains v}.ncard (2 ^ f.bits - 1))
  countWord_eq : s.cardinality? = some s.countWord.toNat
  extent_empty_iff : s.extent = .empty ↔ {v | s.Contains v}.ncard = 0
  extent_single_iff : s.extent = .single ↔ {v | s.Contains v}.ncard = 1
  extent_many_iff : s.extent = .many ↔ 2 ≤ {v | s.Contains v}.ncard

theorem Sound.extent_eq_empty_iff {α : Type} [Scale α] {s : RangeSet α} (h : s.Sound) :
    s.IsEmpty ↔ s.extent = .empty := by
  rw [h.extent_eq_iff, h.isEmpty_iff]
  rfl

theorem Sound.countsExactly {f : IntegerFormat} {s : RangeSet (Fixed f)} (h : s.Sound) :
    s.CountsExactly where
  cardinality?_eq := h.cardinality?_eq
  countWord_eq := by rw [h.cardinality?_eq, h.toNat_countWord]
  extent_empty_iff := by rw [h.extent_eq_iff, ncard_eq_zero_iff]
  extent_single_iff := by rw [h.extent_eq_iff, ncard_eq_one_iff]
  extent_many_iff := h.extent_eq_iff.trans one_lt_ncard_iff.symm

/-- A count that is held down is neither zero nor one, since the greatest word is neither. -/
theorem Sound.sizesAgree_of_count {f : IntegerFormat} {s : RangeSet (Fixed f)} (h : s.Sound) :
    s.SizesAgree where
  extent_iff _ := h.extent_eq_iff
  isEmpty_iff := h.extent_eq_empty_iff
  hasNone_iff := by
    have hmost := @IntegerFormat.three_le_mostWord f
    rw [hasNone, h.cardinality?_eq, decide_eq_true_eq, h.extent_eq_iff, ← ncard_eq_zero_iff]
    omega
  hasOne_iff := by
    have hmost := @IntegerFormat.three_le_mostWord f
    rw [hasOne, h.cardinality?_eq, decide_eq_true_eq, h.extent_eq_iff, ← ncard_eq_one_iff]
    omega

theorem Sound.sizesAgree_of_extent {α : Type} [Scale α] {s : RangeSet α} (h : s.Sound)
    (huncounted : capacity α = none) : s.SizesAgree where
  extent_iff _ := h.extent_eq_iff
  isEmpty_iff := h.extent_eq_empty_iff
  hasNone_iff := by
    rw [hasNone, cardinality?, huncounted]
    exact decide_eq_true_iff.trans h.extent_eq_empty_iff
  hasOne_iff := by
    rw [hasOne, cardinality?, huncounted]
    exact decide_eq_true_iff

/-- Sets of whole numbers are counted exactly, up to the greatest word of their format. On both
kinds of scale, counted and not, a set counts as empty, as a single value or as many just when it
holds no number, one or at least two. -/
theorem counted_exactly :
    (∀ (f : IntegerFormat) (s : RangeSet (Fixed f)), s.Reachable → s.CountsExactly ∧ s.SizesAgree) ∧
      ∀ (p : Precision) (s : RangeSet (Binary p)), s.Reachable → s.SizesAgree :=
  ⟨fun _ _ h => ⟨h.sound.countsExactly, h.sound.sizesAgree_of_count⟩,
    fun _ _ h => h.sound.sizesAgree_of_extent rfl⟩

/-- The two zeros of a floating point format. -/
def zeros : RangeSet (Binary .single) := .ofSpans [⟨⟨0x80000000⟩, ⟨0⟩⟩]

theorem octets_and_zeros_counted :
    {v | (whole : RangeSet Octet).Contains v}.ncard = 256 ∧
      (whole : RangeSet Octet).cardinality? = some 255 ∧ (whole : RangeSet Octet).extent = .many ∧
      {v | gapped.Contains v}.ncard = 245 ∧ gapped.cardinality? = some 245 ∧
      zeros.hasOne = true ∧ ∃ v, zeros.Contains v ∧ ∀ u, zeros.Contains u → Scale.Same u v := by
  have hwhole : (whole : RangeSet Octet).Reachable := .whole
  have hgapped : gapped.Reachable := .mutate _ .whole
  have hzeros : zeros.Reachable := .ofSpans _
  have hall : {v | (whole : RangeSet Octet).Contains v}.ncard = 256 := by
    rw [hwhole.sound.ncard_eq]
    decide
  have hmost : {v | gapped.Contains v}.ncard = 245 := by
    rw [hgapped.sound.ncard_eq]
    decide
  have hone : zeros.extent = .single := by decide +kernel
  obtain ⟨hoctets, hbinary⟩ := counted_exactly
  have hcounted : (whole : RangeSet Octet).CountsExactly := (hoctets _ _ hwhole).1
  have hzero := hbinary _ _ hzeros
  refine ⟨hall, ?_, ?_, hmost, ?_, hzero.hasOne_iff.mpr hone, (hzero.extent_iff _).mp hone⟩
  · rw [hcounted.cardinality?_eq, hall]
    rfl
  · rw [hcounted.extent_many_iff, hall]
    decide
  · rw [(hoctets _ _ hgapped).1.cardinality?_eq, hmost]
    rfl

end RangeSet

end RangeSets
