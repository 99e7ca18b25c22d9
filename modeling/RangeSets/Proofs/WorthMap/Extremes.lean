import Mathlib.Order.Bounds.Basic
import RangeSets.Proofs.RangeSet.Neighbours
import RangeSets.Proofs.WorthMap.Uniform
/-!
# Extreme worths

The least and the greatest worth of a range are found by comparing the worths of its pieces, the first
one with the next, the winner with the next again, and so on to the end. Each piece holds some value,
and each value lies in a piece of its worth, so that the worth that is left is the extreme one among the
worths of all values. What is said here holds on both sides, of the least and of the greatest.

The pieces that have the extreme worth are put together to a set. It holds some value, since the extreme
worth is that of a value, and no value outside of the range.
-/

namespace RangeSets

open Scale

/-! ### Sides -/

/-- The side on which an extreme is looked for. -/
inductive Side where
  | least
  | greatest

namespace Side

def opposite : Side → Side
  | least => greatest
  | greatest => least

/-- The first number is at least as far out on this side as the second one. -/
def Beyond : Side → Int → Int → Prop
  | least, a, b => a ≤ b
  | greatest, a, b => b ≤ a

def IsExtreme : Side → Set Int → Int → Prop
  | least => IsLeast
  | greatest => IsGreatest

/-- The one of two worths that is farther out, the first of them when they are equal. -/
def pick : Side → Worth → Worth → Worth
  | least => Worth.min
  | greatest => Worth.max

variable {side : Side} {a b c : Int} {S : Set Int}

theorem isExtreme_iff : side.IsExtreme S a ↔ a ∈ S ∧ ∀ b ∈ S, side.Beyond a b := by
  cases side <;> exact Iff.rfl

theorem IsExtreme.mem (h : side.IsExtreme S a) : a ∈ S := (isExtreme_iff.mp h).1

theorem Beyond.refl (side : Side) (a : Int) : side.Beyond a a := by
  cases side <;> exact Int.le_refl a

theorem Beyond.trans (hab : side.Beyond a b) (hbc : side.Beyond b c) : side.Beyond a c := by
  cases side with
  | least => exact Int.le_trans hab hbc
  | greatest => exact Int.le_trans hbc hab

theorem Beyond.antisymm (hab : side.Beyond a b) (hba : side.Beyond b a) : a = b := by
  cases side with
  | least => exact Int.le_antisymm hab hba
  | greatest => exact Int.le_antisymm hba hab

theorem IsExtreme.unique (ha : side.IsExtreme S a) (hb : side.IsExtreme S b) : a = b :=
  ((isExtreme_iff.mp ha).2 b hb.mem).antisymm ((isExtreme_iff.mp hb).2 a ha.mem)

/-- Taking numbers away from one number changes the sides. -/
theorem Beyond.sub (h : side.opposite.Beyond a b) (c : Int) : side.Beyond (c - a) (c - b) := by
  cases side with
  | least => exact Int.sub_le_sub_left h c
  | greatest => exact Int.sub_le_sub_left h c

theorem pick_spec (side : Side) (v w : Worth) :
    (side.pick v w = v ∨ side.pick v w = w) ∧
      side.Beyond (side.pick v w).val v.val ∧ side.Beyond (side.pick v w).val w.val := by
  cases side with
  | least =>
      simp only [pick, Beyond, Worth.min]
      split <;> simp <;> omega
  | greatest =>
      simp only [pick, Beyond, Worth.max]
      split <;> simp <;> omega

/-- The worth that is left when worths are compared one after another is the extreme one of them. -/
theorem isExtreme_foldl (side : Side) (w : Worth) (ws : List Worth) :
    side.IsExtreme {a | ∃ u ∈ w :: ws, a = u.val} (ws.foldl side.pick w).val := by
  rw [isExtreme_iff]
  induction ws generalizing w with
  | nil =>
      refine ⟨⟨w, by simp, rfl⟩, fun b hb => ?_⟩
      obtain ⟨u, hu, rfl⟩ := hb
      obtain rfl := List.mem_singleton.mp hu
      exact Beyond.refl side _
  | cons v rest ih =>
      obtain ⟨hmem, hbeyond⟩ := ih (side.pick w v)
      obtain ⟨hpick, hleft, hright⟩ := side.pick_spec w v
      have hwins : side.Beyond (rest.foldl side.pick (side.pick w v)).val (side.pick w v).val :=
        hbeyond _ ⟨_, by simp, rfl⟩
      refine ⟨?_, fun b hb => ?_⟩
      · obtain ⟨u, hu, heq⟩ := hmem
        refine ⟨u, ?_, heq⟩
        rcases List.mem_cons.mp hu with rfl | hu
        · rcases hpick with hpick | hpick <;> rw [hpick] <;> simp
        · simp [hu]
      · obtain ⟨u, hu, rfl⟩ := hb
        rcases List.mem_cons.mp hu with rfl | hu
        · exact hwins.trans hleft
        · rcases List.mem_cons.mp hu with rfl | hu
          · exact hwins.trans hright
          · exact hbeyond _ ⟨u, by simp [hu], rfl⟩

end Side

/-! ### Worths over a range -/

namespace WorthMap

variable {α : Type} [Scale α] {m : WorthMap α} {lo hi : α}

/-- The worths of the values of a span. -/
def worthsOver (m : WorthMap α) (within : Span α) : Set Int :=
  {a | ∃ v, within.Contains v ∧ a = (m.worth v).val}

/-- The worth of a range on a side. -/
def extremeWorth (m : WorthMap α) : Side → α → α → Worth
  | .least => m.minWorth
  | .greatest => m.maxWorth

theorem Sound.worth_lo (hm : m.Sound) {piece : Piece α} (hmem : piece ∈ m.pieces lo hi) :
    piece.span.Contains piece.lo ∧ m.worth piece.lo = piece.worth := by
  have hin := (Span.contains_ends (r := piece.span) (hm.proper_of_mem_pieces hmem)).1
  exact ⟨hin, (hm.assigns_pieces.mp ⟨piece, hmem, hin, rfl⟩).2⟩

theorem Sound.worthsOver_eq (hm : m.Sound) (lo hi : α) :
    m.worthsOver ⟨lo, hi⟩ = {a | ∃ w ∈ (m.pieces lo hi).map Piece.worth, a = w.val} := by
  ext a
  constructor
  · intro ha
    obtain ⟨v, hv, rfl⟩ := ha
    have hassigns : Assigns (m.pieces lo hi) v (m.worth v) := hm.assigns_pieces.mpr ⟨hv, rfl⟩
    obtain ⟨piece, hmem, _, hworth⟩ := hassigns
    exact ⟨m.worth v, hworth ▸ List.mem_map_of_mem hmem, rfl⟩
  · intro ha
    obtain ⟨w, hw, rfl⟩ := ha
    obtain ⟨piece, hmem, rfl⟩ := List.mem_map.mp hw
    obtain ⟨hin, hworth⟩ := hm.worth_lo hmem
    have hbetween := (hm.assigns_pieces.mp ⟨piece, hmem, hin, rfl⟩).1
    exact ⟨piece.lo, hbetween, by rw [hworth]⟩

theorem extremeWorth_cons {side : Side} {w : Worth} {ws : List Worth}
    (h : (m.pieces lo hi).map Piece.worth = w :: ws) :
    m.extremeWorth side lo hi = ws.foldl side.pick w := by
  cases side with
  | least => rw [extremeWorth, minWorth, h, Side.pick]
  | greatest => rw [extremeWorth, maxWorth, h, Side.pick]

theorem Sound.pieces_ne_nil (hm : m.Sound) (hle : lo ≤ hi) : m.pieces lo hi ≠ [] := by
  intro hnil
  have hassigns : Assigns (m.pieces lo hi) lo (m.worth lo) :=
    hm.assigns_pieces.mpr ⟨⟨(le_iff.mp hle).1, hle⟩, rfl⟩
  rw [hnil] at hassigns
  exact not_assigns_nil hassigns

/-- The worth of a range on a side is the extreme one of the worths of its values. -/
theorem Sound.isExtreme_extremeWorth (hm : m.Sound) (side : Side) (hle : lo ≤ hi) :
    side.IsExtreme (m.worthsOver ⟨lo, hi⟩) (m.extremeWorth side lo hi).val := by
  rw [hm.worthsOver_eq]
  cases hworths : (m.pieces lo hi).map Piece.worth with
  | nil => exact absurd (List.map_eq_nil_iff.mp hworths) (hm.pieces_ne_nil hle)
  | cons w ws =>
      rw [extremeWorth_cons hworths]
      exact side.isExtreme_foldl w ws

/-! ### The values of an extreme worth -/

/-- A set that is kept as it should be and holds the values of a span that have a worth: some value,
and none outside of the span. -/
structure Gathers (m : WorthMap α) (within : Span α) (w : Worth) (s : RangeSet α) : Prop where
  invariant : s.Invariant
  contains_iff : ∀ v, s.Contains v ↔ within.Contains v ∧ m.worth v = w
  not_isEmpty : ¬ s.IsEmpty
  inside : ∀ r ∈ s.spans, within.lo ≤ r.lo ∧ r.hi ≤ within.hi

theorem Sound.contains_withWorth (hm : m.Sound) (lo hi : α) (w : Worth) (v : α) :
    (m.withWorth lo hi w).Contains v ↔ (⟨lo, hi⟩ : Span α).Contains v ∧ m.worth v = w := by
  rw [withWorth, RangeSet.contains_ofSpans, ← (hm.decomposes_worth lo hi w).mem_iff]

/-- The values of a worth that some value has are gathered. -/
theorem Sound.gathers_withWorth (hm : m.Sound) {w : Worth}
    (hex : ∃ v, (⟨lo, hi⟩ : Span α).Contains v ∧ m.worth v = w) :
    m.Gathers ⟨lo, hi⟩ w (m.withWorth lo hi w) := by
  have hcontains := hm.contains_withWorth lo hi w
  have hs : (m.withWorth lo hi w).Sound := (RangeSet.Reachable.ofSpans _).sound
  refine ⟨hs.invariant, hcontains, fun hempty => ?_, fun r hr => ?_⟩
  · obtain ⟨v, hv⟩ := hex
    exact hs.isEmpty_iff.mp hempty v ((hcontains v).mpr hv)
  · obtain ⟨hlo, hhi⟩ := hs.decomposes_spans.ends hr
    exact ⟨((hcontains _).mp hlo).1.1, ((hcontains _).mp hhi).1.2⟩

theorem Sound.gathers_extremeWorth (hm : m.Sound) (side : Side) (hle : lo ≤ hi) :
    m.Gathers ⟨lo, hi⟩ (m.extremeWorth side lo hi)
      (m.withWorth lo hi (m.extremeWorth side lo hi)) := by
  obtain ⟨v, hv, heq⟩ := (hm.isExtreme_extremeWorth side hle).mem
  exact hm.gathers_withWorth ⟨v, hv, Fixed.ext heq.symm⟩

/-! ### Ranges without a value -/

theorem extremeWorth_of_not_le (side : Side) (hle : ¬ lo ≤ hi) :
    m.extremeWorth side lo hi = Worth.zero := by
  cases side with
  | least => rw [extremeWorth, minWorth, pieces, if_neg hle, List.map_nil]
  | greatest => rw [extremeWorth, maxWorth, pieces, if_neg hle, List.map_nil]

theorem withWorth_of_not_le (hle : ¬ lo ≤ hi) (w : Worth) : m.withWorth lo hi w = .empty := by
  rw [withWorth, pieces, if_neg hle]
  rfl

/-- The least and the greatest worth of a range are those among the worths of all its values, where a
value that no range of the map holds counts with worth zero, and the values that have them are gathered
from the whole range and from nowhere else. A range whose bounds are not in order has no values: both
worths are zero, and nothing is gathered. -/
theorem extremes_attained (h : m.Reachable) (lo hi : α) :
    (lo ≤ hi →
      IsLeast (m.worthsOver ⟨lo, hi⟩) (m.minWorth lo hi).val ∧
      IsGreatest (m.worthsOver ⟨lo, hi⟩) (m.maxWorth lo hi).val ∧
      m.Gathers ⟨lo, hi⟩ (m.minWorth lo hi) (m.withMinWorth lo hi) ∧
      m.Gathers ⟨lo, hi⟩ (m.maxWorth lo hi) (m.withMaxWorth lo hi)) ∧
    (¬ lo ≤ hi →
      m.minWorth lo hi = Worth.zero ∧ m.maxWorth lo hi = Worth.zero ∧
      m.withMinWorth lo hi = .empty ∧ m.withMaxWorth lo hi = .empty) := by
  refine ⟨fun hle => ⟨?_, ?_, ?_, ?_⟩, fun hle => ⟨?_, ?_, ?_, ?_⟩⟩
  · exact h.sound.isExtreme_extremeWorth .least hle
  · exact h.sound.isExtreme_extremeWorth .greatest hle
  · exact h.sound.gathers_extremeWorth .least hle
  · exact h.sound.gathers_extremeWorth .greatest hle
  · exact extremeWorth_of_not_le .least hle
  · exact extremeWorth_of_not_le .greatest hle
  · exact withWorth_of_not_le hle _
  · exact withWorth_of_not_le hle _

theorem dented_gathered :
    dented.Reachable ∧ (Fixed.ofInt 2 : Octet) ≤ .ofInt 8 ∧ ¬ (Fixed.ofInt 8 : Octet) ≤ .ofInt 2 ∧
      IsLeast (dented.worthsOver ⟨.ofInt 2, .ofInt 8⟩) 0 ∧
      IsGreatest (dented.worthsOver ⟨.ofInt 2, .ofInt 8⟩) 5 ∧
      dented.Gathers ⟨.ofInt 2, .ofInt 8⟩ Worth.zero (dented.withMinWorth (.ofInt 2) (.ofInt 8)) ∧
      (dented.withMinWorth (.ofInt 2) (.ofInt 8)).spans = [⟨.ofInt 3, .ofInt 6⟩] ∧
      dented.withMaxWorth (.ofInt 8) (.ofInt 2) = .empty := by
  have hle : (Fixed.ofInt 2 : Octet) ≤ .ofInt 8 := by decide
  have hnot : ¬ (Fixed.ofInt 8 : Octet) ≤ .ofInt 2 := by decide
  have hmin : dented.minWorth (.ofInt 2) (.ofInt 8) = Worth.zero := by decide
  have hmax : dented.maxWorth (.ofInt 2) (.ofInt 8) = .ofInt 5 := by decide
  obtain ⟨hleast, hgreatest, hgathers, _⟩ := (extremes_attained reachable_dented _ _).1 hle
  obtain ⟨_, _, _, hempty⟩ := (extremes_attained reachable_dented _ _).2 hnot
  rw [hmin] at hleast hgathers
  rw [hmax] at hgreatest
  exact ⟨reachable_dented, hle, hnot, hleast, hgreatest, hgathers, by decide, hempty⟩

end WorthMap

end RangeSets
