import RangeSets.Proofs.RangeSet.Changes
import RangeSets.Proofs.WorthMap.Reachable
/-!
# Equality of sets and of maps

Two range sets are the same when they have the same ranges, and two worth maps are the same when they
have the same ranges with the same worths. Slots and spare slots have no part in it. Both are kept in
a form that their contents leave no choice about, so being the same is to agree on every value, in
whatever way the sets and maps were made.
-/

namespace RangeSets

open Scale

variable {α : Type} [Scale α]

/-! ### Range sets -/

namespace RangeSet

variable {s t : RangeSet α}

theorem Sound.count_eq (h : s.Sound) : s.count = s.spans.length := by
  obtain ⟨p, hp⟩ := h
  rw [count, hp.holds.size_eq, hp.spans_eq, List.length_map]

theorem Sound.sameAll_spans_iff (hs : s.Sound) (ht : t.Sound) :
    Span.SameAll s.spans t.spans ↔ ∀ v, s.Contains v ↔ t.Contains v := by
  rw [Span.sameAll_iff_forall₂, hs.decomposes_spans.forall₂_same_iff ht.decomposes_spans]

theorem Sound.same_iff (hs : s.Sound) (ht : t.Sound) :
    s.Same t ↔ ∀ v, s.Contains v ↔ t.Contains v := by
  rw [← hs.sameAll_spans_iff ht, Same, hs.count_eq, ht.count_eq, and_iff_right_iff_imp,
    Span.sameAll_iff_forall₂]
  exact List.Forall₂.length_eq

end RangeSet

/-! ### Worth maps -/

def Piece.block (r : Piece α) : Block α Worth := ⟨r.lo, r.hi, r.worth⟩

theorem Piece.same_block {r t : Piece α} :
    r.block.Same t.block ↔ r.span.Same t.span ∧ r.worth = t.worth := by
  simp [Block.Same, Span.Same, block, span, and_assoc]

theorem Piece.sameAll_and_worths_iff {rs ts : List (Piece α)} :
    Span.SameAll (rs.map Piece.span) (ts.map Piece.span) ∧ rs.map Piece.worth = ts.map Piece.worth ↔
      List.Forall₂ Block.Same (rs.map Piece.block) (ts.map Piece.block) := by
  induction rs generalizing ts with
  | nil => cases ts <;> simp [Span.SameAll]
  | cons r rs ih =>
      cases ts with
      | nil => simp [Span.SameAll]
      | cons t ts =>
          simp only [List.map_cons, List.forall₂_cons, Piece.same_block, ← ih, Span.SameAll,
            List.cons.injEq]
          grind

namespace WorthMap

variable {m n : WorthMap α} {p q : Layout α Worth}

theorem Represents.labelled_iff (h : m.Represents p) (v : α) (l : Worth) :
    Labelled p.blocks v l ↔ m.worth v = l ∧ l ≠ Worth.zero := by
  have hworth := h.val_worth v
  refine ⟨fun hl => ?_, fun hl => ?_⟩
  · obtain ⟨b, hb, hbv, rfl⟩ := hl
    rw [weight_of_mem h.ascending.ordered hb hbv] at hworth
    exact ⟨Fixed.ext hworth, h.nonzero b hb⟩
  · obtain ⟨rfl, hne⟩ := hl
    have hcovered : Covered p.blocks v := by
      rw [h.covered_iff, ← hworth]
      exact fun hzero => hne (Fixed.ext hzero)
    obtain ⟨b, hb, hbv⟩ := hcovered
    rw [weight_of_mem h.ascending.ordered hb hbv] at hworth
    exact ⟨b, hb, hbv, Fixed.ext hworth.symm⟩

theorem Represents.count_eq (h : m.Represents p) : m.count = m.ranges.length := by
  rw [count, h.holds.chain.size_eq, h.ranges_eq]
  simp

theorem Represents.map_block (h : m.Represents p) : m.ranges.map Piece.block = p.blocks := by
  rw [h.ranges_eq, List.map_map]
  rfl

theorem Represents.same_iff (hm : m.Represents p) (hn : n.Represents q) :
    m.Same n ↔ ∀ v, m.worth v = n.worth v := by
  have hblocks := hm.ascending.forall₂_same_iff hn.ascending
  rw [← hm.map_block, ← hn.map_block, ← Piece.sameAll_and_worths_iff, hm.map_block,
    hn.map_block] at hblocks
  have hcount : m.ranges.map Piece.worth = n.ranges.map Piece.worth → m.count = n.count := by
    intro hworths
    rw [hm.count_eq, hn.count_eq, ← List.length_map Piece.worth, hworths, List.length_map]
  rw [Same, and_iff_right_of_imp fun h => hcount h.2, hblocks]
  refine forall_congr' fun v => ?_
  simp only [hm.labelled_iff, hn.labelled_iff]
  refine ⟨fun h => ?_, fun h l => by rw [h]⟩
  by_cases hzero : m.worth v = Worth.zero
  · by_contra hne
    have hother := (h (n.worth v)).mpr ⟨rfl, fun hn => hne (hzero.trans hn.symm)⟩
    exact hne hother.1
  · exact ((h (m.worth v)).mp ⟨rfl, hzero⟩).1.symm

end WorthMap

/-! ### Sets and maps in whatever way they were made -/

/-- Two range sets that can be reached are the same, in number and bounds of their ranges, exactly when
they have the same values, and two worth maps exactly when they give every value the same worth. -/
theorem same_iff_same_contents {s t : RangeSet α} {m n : WorthMap α} (hs : s.Reachable)
    (ht : t.Reachable) (hm : m.Reachable) (hn : n.Reachable) :
    (s.Same t ↔ ∀ v, s.Contains v ↔ t.Contains v) ∧
      (Span.SameAll s.spans t.spans ↔ ∀ v, s.Contains v ↔ t.Contains v) ∧
      (m.Same n ↔ ∀ v, m.worth v = n.worth v) := by
  obtain ⟨p, hp⟩ := hm.sound
  obtain ⟨q, hq⟩ := hn.sound
  exact ⟨hs.sound.same_iff ht.sound, hs.sound.sameAll_spans_iff ht.sound, hp.same_iff hq⟩

/-- All octets but those from 10 to 20, put together from above. -/
def RangeSet.joinedUp : RangeSet Octet := .ofSpans [⟨.ofInt 21, top⟩, ⟨bottom, .ofInt 9⟩]

def WorthMap.upper : WorthMap Octet where
  chain := ⟨#[⟨.ofInt 7, .ofInt 10, none, none⟩], some 0, some 0, none, 1⟩
  worths := #[.ofInt 5]

/-- The worth 5 from 1 to 2 and from 7 to 10, put together from above. -/
def WorthMap.pieced : WorthMap Octet where
  chain := ⟨#[⟨.ofInt 7, .ofInt 10, some 1, none⟩, ⟨.ofInt 1, .ofInt 2, none, some 0⟩], some 1,
    some 0, none, 2⟩
  worths := #[.ofInt 5, .ofInt 5]

theorem WorthMap.reachable_pieced : WorthMap.pieced.Reachable := by
  have hupper : empty.add (.ofInt 7) (.ofInt 10) (.ofInt 5) =
      .ok (upper, [.gained ⟨.ofInt 7, .ofInt 10⟩]) := by
    decide +kernel
  have hlower : upper.add (.ofInt 1) (.ofInt 2) (.ofInt 5) =
      .ok (pieced, [.gained ⟨.ofInt 1, .ofInt 2⟩]) := by
    decide +kernel
  exact .add (.add .empty hupper) hlower

theorem same_contents_in_other_slots :
    (RangeSet.gapped.Reachable ∧ RangeSet.joinedUp.Reachable ∧
      RangeSet.gapped ≠ RangeSet.joinedUp ∧
      ∀ v, RangeSet.gapped.Contains v ↔ RangeSet.joinedUp.Contains v) ∧
    (WorthMap.dented.Reachable ∧ WorthMap.pieced.Reachable ∧ WorthMap.dented ≠ WorthMap.pieced ∧
      ∀ v, WorthMap.dented.worth v = WorthMap.pieced.worth v) := by
  have hgapped : RangeSet.gapped.Reachable := .mutate _ .whole
  have hjoined : RangeSet.joinedUp.Reachable := .ofSpans _
  obtain ⟨hsets, _, hmaps⟩ :=
    same_iff_same_contents hgapped hjoined WorthMap.reachable_dented WorthMap.reachable_pieced
  exact ⟨⟨hgapped, hjoined, by decide, hsets.mp (by decide +kernel)⟩,
    WorthMap.reachable_dented, WorthMap.reachable_pieced, by decide, hmaps.mp (by decide +kernel)⟩

end RangeSets
