import Mathlib.Data.List.Forall2
import RangeSets.Proofs.Blocks
/-!
# One list of blocks for the same contents

Ascending blocks are told apart by their contents alone. Two ascending lists that label the same
values in the same way have the same first value, the same label there, and the same end of the
first block: were one block to go on, the other list would need a next block of that label right
after its first one, and such blocks are joined. What is left has the same contents again.

Blocks are compared up to the numbers of their bounds, since two values may be the same number.
-/

namespace RangeSets

open Scale

variable {α β : Type} [Scale α]

/-- Two blocks of one label over the same numbers. -/
def Block.Same (b c : Block α β) : Prop :=
  Scale.Same b.lo c.lo ∧ Scale.Same b.hi c.hi ∧ b.label = c.label

/-- Some block of the label holds the value. -/
def Labelled (bs : List (Block α β)) (v : α) (l : β) : Prop := ∃ b ∈ bs, b.Contains v ∧ b.label = l

theorem labelled_unit {bs : List (Block α Unit)} {v : α} : Labelled bs v () ↔ Covered bs v := by
  simp [Labelled, Covered]

theorem Labelled.covered {bs : List (Block α β)} {v : α} {l : β} (h : Labelled bs v l) :
    Covered bs v := by
  obtain ⟨b, hb, hv, _⟩ := h
  exact ⟨b, hb, hv⟩

variable {b c : Block α β} {bs cs : List (Block α β)}

theorem labelled_lo (hb : b.lo ≤ b.hi) : Labelled (b :: bs) b.lo b.label :=
  ⟨b, by simp, ⟨(le_iff.mp hb).1, hb⟩, rfl⟩

theorem place_lo_le_of_labelled (h : Ascending (c :: cs)) {v : α} {l : β}
    (hv : Labelled (c :: cs) v l) : place c.lo ≤ place v :=
  (le_iff.mp (h.ordered.least.2 v hv.covered)).2.2

/-- A value that is not above the first block can only be in that block. -/
theorem label_of_labelled (h : Ascending (c :: cs)) {v : α} {l : β}
    (hv : Labelled (c :: cs) v l) (hle : place v ≤ place c.hi) : c.label = l := by
  obtain ⟨d, hd, hdv, hlabel⟩ := hv
  rcases List.mem_cons.mp hd with rfl | hd
  · exact hlabel
  · have hbefore := ((List.pairwise_cons.mp h.apart).1 d hd).1
    have := (le_iff.mp hdv.1).2.2
    omega

/-- A block that begins like the first block of an ascending list, with its label, goes on no further
when the list labels all its values. -/
theorem place_hi_le_of_labelled (h : Ascending (b :: bs)) (hc : c.lo ≤ c.hi)
    (hlo : place c.lo ≤ place b.lo) (hlabel : c.label = b.label)
    (hcovers : ∀ v, c.Contains v → Labelled (b :: bs) v c.label) :
    place c.hi ≤ place b.hi := by
  obtain ⟨hcLo, hcHi, _⟩ := le_iff.mp hc
  obtain ⟨_, hbHi, hb⟩ := le_iff.mp (h.proper b (by simp))
  by_contra hlt
  have hbeyond : b.hi < c.hi := (lt_iff_place hbHi hcHi).mpr (by omega)
  have hnext := comparable_next hbHi
  have hplace := place_next_of_lt hbeyond
  have hin : c.Contains (next b.hi) := (Block.contains_iff hc hnext).mpr (by omega)
  obtain ⟨d, hd, hdv, hdLabel⟩ := hcovers _ hin
  have hge := (le_iff.mp hdv.1).2.2
  have hle := (le_iff.mp hdv.2).2.2
  rcases List.mem_cons.mp hd with rfl | hd
  · omega
  · obtain ⟨hbefore, hjoined⟩ := (List.pairwise_cons.mp h.apart).1 d hd
    exact hjoined (by omega) (by rw [hdLabel, hlabel])

theorem Labelled.tail (h : Ascending (b :: bs)) (hc : Ascending (c :: cs))
    (hhi : place b.hi = place c.hi) {v : α} {l : β}
    (hall : ∀ v l, Labelled (b :: bs) v l → Labelled (c :: cs) v l) (hv : Labelled bs v l) :
    Labelled cs v l := by
  obtain ⟨d, hd, hdv, hlabel⟩ := hv
  obtain ⟨e, he, hev, heLabel⟩ := hall v l ⟨d, List.mem_cons_of_mem _ hd, hdv, hlabel⟩
  rcases List.mem_cons.mp he with rfl | he
  · have hbefore := ((List.pairwise_cons.mp h.apart).1 d hd).1
    have := (le_iff.mp hdv.1).2.2
    have := (le_iff.mp hev.2).2.2
    omega
  · exact ⟨e, he, hev, heLabel⟩

/-- The first blocks of two ascending lists with the same contents are the same. -/
theorem same_head (hb : Ascending (b :: bs)) (hc : Ascending (c :: cs))
    (h : ∀ v l, Labelled (b :: bs) v l ↔ Labelled (c :: cs) v l) : b.Same c := by
  have hbProper := hb.proper b (by simp)
  have hcProper := hc.proper c (by simp)
  obtain ⟨hbLo, hbHi, hble⟩ := le_iff.mp hbProper
  obtain ⟨hcLo, hcHi, hcle⟩ := le_iff.mp hcProper
  have hbFirst : Labelled (c :: cs) b.lo b.label := (h _ _).mp (labelled_lo hbProper)
  have hcFirst : Labelled (b :: bs) c.lo c.label := (h _ _).mpr (labelled_lo hcProper)
  have hlo : place b.lo = place c.lo :=
    Int.le_antisymm (place_lo_le_of_labelled hb hcFirst) (place_lo_le_of_labelled hc hbFirst)
  have hlabel : c.label = b.label := label_of_labelled hc hbFirst (by omega)
  have hcEnds : place c.hi ≤ place b.hi :=
    place_hi_le_of_labelled hb hcProper (by omega) hlabel fun v hv =>
      (h _ _).mpr ⟨c, by simp, hv, rfl⟩
  have hbEnds : place b.hi ≤ place c.hi :=
    place_hi_le_of_labelled hc hbProper (by omega) hlabel.symm fun v hv =>
      (h _ _).mp ⟨b, by simp, hv, rfl⟩
  exact ⟨same_iff.mpr ⟨hbLo, hcLo, hlo⟩, same_iff.mpr ⟨hbHi, hcHi, Int.le_antisymm hbEnds hcEnds⟩,
    hlabel.symm⟩

/-- Ascending blocks with the same contents are the same, one by one. -/
theorem Ascending.unique (hbs : Ascending bs) (hcs : Ascending cs)
    (h : ∀ v l, Labelled bs v l ↔ Labelled cs v l) : List.Forall₂ Block.Same bs cs := by
  induction bs generalizing cs with
  | nil =>
      cases cs with
      | nil => exact .nil
      | cons c cs =>
          obtain ⟨_, hmem, _⟩ := (h _ _).mpr (labelled_lo (hcs.proper c (by simp)))
          cases hmem
  | cons b bs ih =>
      cases cs with
      | nil =>
          obtain ⟨_, hmem, _⟩ := (h _ _).mp (labelled_lo (hbs.proper b (by simp)))
          cases hmem
      | cons c cs =>
          have hsame := same_head hbs hcs h
          have hhi := (same_iff.mp hsame.2.1).2.2
          have hrest := ih (hbs.sublist (List.sublist_cons_self ..))
            (hcs.sublist (List.sublist_cons_self ..)) fun v l =>
              ⟨Labelled.tail hbs hcs hhi fun v l => (h v l).mp,
                Labelled.tail hcs hbs hhi.symm fun v l => (h v l).mpr⟩
          exact .cons hsame hrest

theorem labelled_of_same {v : α} {l : β} (h : List.Forall₂ Block.Same bs cs)
    (hv : Labelled bs v l) : Labelled cs v l := by
  induction h with
  | nil => exact hv
  | @cons b c bs cs hsame _ ih =>
      obtain ⟨d, hd, hdv, hlabel⟩ := hv
      rcases List.mem_cons.mp hd with rfl | hd
      · obtain ⟨hlo, hhi, hlabels⟩ := hsame
        obtain ⟨_, hcLo, hloEq⟩ := same_iff.mp hlo
        obtain ⟨_, hcHi, hhiEq⟩ := same_iff.mp hhi
        have hge := le_iff.mp hdv.1
        have hle := le_iff.mp hdv.2
        refine ⟨c, by simp, ⟨le_iff.mpr ⟨hcLo, hge.2.1, by omega⟩,
          le_iff.mpr ⟨hge.2.1, hcHi, by omega⟩⟩, by rw [← hlabels, hlabel]⟩
      · obtain ⟨e, he, hrest⟩ := ih ⟨d, hd, hdv, hlabel⟩
        exact ⟨e, List.mem_cons_of_mem _ he, hrest⟩

theorem Block.Same.symm (h : b.Same c) : c.Same b :=
  ⟨⟨h.1.2, h.1.1⟩, ⟨h.2.1.2, h.2.1.1⟩, h.2.2.symm⟩

/-- Ascending blocks have the same contents exactly when they are the same, one by one. -/
theorem Ascending.forall₂_same_iff (hbs : Ascending bs) (hcs : Ascending cs) :
    List.Forall₂ Block.Same bs cs ↔ ∀ v l, Labelled bs v l ↔ Labelled cs v l := by
  refine ⟨fun h v l => ⟨labelled_of_same h, labelled_of_same ?_⟩, hbs.unique hcs⟩
  exact (h.imp fun _ _ hsame => hsame.symm).flip

end RangeSets
