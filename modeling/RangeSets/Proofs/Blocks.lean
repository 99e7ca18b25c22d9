import RangeSets.Proofs.Chain.Layout
import RangeSets.Proofs.Scale.Place
/-!
# Blocks in order

A block is a labelled range without a slot, which is all that the contents of a set depend on. Blocks
that stand in order are disjoint, and when no two neighbours of one label come right after one
another they ascend. That is the form in which sets are kept: with one label only, as in a range set,
at least one value is missing between a block and the next.

The searches on entries decide by the first comparison that fails. On blocks in order they find the
only block that holds a value, and they cut a list in three at the ends of a range.
-/

namespace RangeSets

open Scale

variable {α β : Type}

structure Block (α β : Type) where
  lo : α
  hi : α
  label : β

def Entry.block (e : Entry α β) : Block α β := ⟨e.lo, e.hi, e.label⟩

@[simp] theorem Entry.lo_block (e : Entry α β) : e.block.lo = e.lo := rfl

@[simp] theorem Entry.hi_block (e : Entry α β) : e.block.hi = e.hi := rfl

@[simp] theorem Entry.label_block (e : Entry α β) : e.block.label = e.label := rfl

def Layout.blocks (p : Layout α β) : List (Block α β) := p.entries.map Entry.block

variable [Scale α]

namespace Block

def Contains (b : Block α β) (v : α) : Prop := b.lo ≤ v ∧ v ≤ b.hi

instance (b : Block α β) (v : α) : Decidable (b.Contains v) :=
  inferInstanceAs (Decidable (_ ∧ _))

theorem Contains.comparable {b : Block α β} {v : α} (h : b.Contains v) : Comparable v :=
  (le_iff.mp h.1).2.1

theorem contains_iff {b : Block α β} {v : α} (hb : b.lo ≤ b.hi) (hv : Comparable v) :
    b.Contains v ↔ place b.lo ≤ place v ∧ place v ≤ place b.hi := by
  obtain ⟨hlo, hhi, _⟩ := le_iff.mp hb
  rw [Contains, le_iff_place hlo hv, le_iff_place hv hhi]

/-- One block ends before another one, and is not to be joined with it. -/
def Apart (a b : Block α β) : Prop :=
  place a.hi < place b.lo ∧ (place a.hi + 1 = place b.lo → a.label ≠ b.label)

theorem apart_unit {a b : Block α Unit} : a.Apart b ↔ place a.hi + 1 < place b.lo := by
  refine ⟨fun h => ?_, fun h => ⟨by omega, fun heq => by omega⟩⟩
  have := mt (h.2 ·) (by simp)
  have := h.1
  omega

end Block

/-- Proper blocks, each of which ends before all later ones. -/
structure Ordered (bs : List (Block α β)) : Prop where
  proper : ∀ b ∈ bs, b.lo ≤ b.hi
  before : bs.Pairwise fun a b => place a.hi < place b.lo

/-- Proper blocks in order, no two of which are to be joined. -/
structure Ascending (bs : List (Block α β)) : Prop where
  proper : ∀ b ∈ bs, b.lo ≤ b.hi
  apart : bs.Pairwise Block.Apart

/-- Some block holds the value. -/
def Covered (bs : List (Block α β)) (v : α) : Prop := ∃ b ∈ bs, b.Contains v

theorem Ascending.ordered {bs : List (Block α β)} (h : Ascending bs) : Ordered bs :=
  ⟨h.proper, h.apart.imp fun hab => hab.1⟩

theorem Ascending.nil : Ascending ([] : List (Block α β)) := ⟨by simp, .nil⟩

theorem Ordered.tail {b : Block α β} {bs : List (Block α β)} (h : Ordered (b :: bs)) :
    Ordered bs :=
  ⟨fun c hc => h.proper c (List.mem_cons_of_mem _ hc), (List.pairwise_cons.mp h.before).2⟩

theorem Ordered.sublist {bs cs : List (Block α β)} (h : Ordered cs) (hsub : bs.Sublist cs) :
    Ordered bs :=
  ⟨fun b hb => h.proper b (hsub.subset hb), h.before.sublist hsub⟩

theorem Ascending.sublist {bs cs : List (Block α β)} (h : Ascending cs) (hsub : bs.Sublist cs) :
    Ascending bs :=
  ⟨fun b hb => h.proper b (hsub.subset hb), h.apart.sublist hsub⟩

theorem ordered_append {bs cs : List (Block α β)} :
    Ordered (bs ++ cs) ↔
      Ordered bs ∧ Ordered cs ∧ ∀ b ∈ bs, ∀ c ∈ cs, place b.hi < place c.lo := by
  refine ⟨fun h => ?_, fun ⟨hbs, hcs, hacross⟩ => ⟨?_, ?_⟩⟩
  · exact ⟨h.sublist (List.sublist_append_left ..), h.sublist (List.sublist_append_right ..),
      (List.pairwise_append.mp h.before).2.2⟩
  · intro b hb
    rcases List.mem_append.mp hb with hb | hb
    · exact hbs.proper b hb
    · exact hcs.proper b hb
  · exact List.pairwise_append.mpr ⟨hbs.before, hcs.before, hacross⟩

theorem ascending_append {bs cs : List (Block α β)} :
    Ascending (bs ++ cs) ↔ Ascending bs ∧ Ascending cs ∧ ∀ b ∈ bs, ∀ c ∈ cs, b.Apart c := by
  refine ⟨fun h => ?_, fun ⟨hbs, hcs, hacross⟩ => ⟨?_, ?_⟩⟩
  · exact ⟨h.sublist (List.sublist_append_left ..), h.sublist (List.sublist_append_right ..),
      (List.pairwise_append.mp h.apart).2.2⟩
  · intro b hb
    rcases List.mem_append.mp hb with hb | hb
    · exact hbs.proper b hb
    · exact hcs.proper b hb
  · exact List.pairwise_append.mpr ⟨hbs.apart, hcs.apart, hacross⟩

theorem Ordered.lo_head_le {b : Block α β} {bs : List (Block α β)} (h : Ordered (b :: bs)) :
    ∀ c ∈ b :: bs, place b.lo ≤ place c.lo := by
  intro c hc
  rcases List.mem_cons.mp hc with rfl | hc
  · exact Int.le_refl _
  · have hbefore := (List.pairwise_cons.mp h.before).1 c hc
    have hb := (le_iff.mp (h.proper b (by simp))).2.2
    omega

theorem Ordered.hi_le_last {b : Block α β} {bs : List (Block α β)} (h : Ordered (bs ++ [b])) :
    ∀ c ∈ bs ++ [b], place c.hi ≤ place b.hi := by
  intro c hc
  rcases List.mem_append.mp hc with hc | hc
  · have hbefore := (ordered_append.mp h).2.2 c hc b (by simp)
    have hb := (le_iff.mp (h.proper b (by simp))).2.2
    omega
  · obtain rfl : c = b := by simpa using hc
    exact Int.le_refl _

theorem Ordered.not_covered_around {b : Block α β} {bs cs : List (Block α β)} {v : α}
    (h : Ordered (bs ++ b :: cs)) (hv : b.Contains v) : ¬ Covered bs v ∧ ¬ Covered cs v := by
  obtain ⟨_, hbcs, hbs⟩ := ordered_append.mp h
  have hcs := (List.pairwise_cons.mp hbcs.before).1
  have hge := (le_iff.mp hv.1).2.2
  have hle := (le_iff.mp hv.2).2.2
  refine ⟨fun ⟨c, hc, hcv⟩ => ?_, fun ⟨c, hc, hcv⟩ => ?_⟩
  · have := hbs c hc b (by simp)
    have := (le_iff.mp hcv.2).2.2
    omega
  · have := hcs c hc
    have := (le_iff.mp hcv.1).2.2
    omega

theorem ascending_singleton {b : Block α β} (h : b.lo ≤ b.hi) : Ascending [b] :=
  ⟨by simpa using h, List.pairwise_singleton ..⟩

/-- To be apart from a list in order it is enough to be apart from its first block. -/
theorem Ascending.append_cons {bs cs : List (Block α β)} {c : Block α β} (hbs : Ascending bs)
    (hcs : Ascending (c :: cs)) (hapart : ∀ b ∈ bs, b.Apart c) : Ascending (bs ++ c :: cs) := by
  refine ascending_append.mpr ⟨hbs, hcs, fun b hb d hd => ?_⟩
  rcases List.mem_cons.mp hd with rfl | hd
  · exact hapart b hb
  · have hproper := (le_iff.mp (hcs.proper c (by simp))).2.2
    have hgap := ((List.pairwise_cons.mp hcs.apart).1 d hd).1
    have := (hapart b hb).1
    exact ⟨by omega, fun heq => by omega⟩

theorem Ordered.replace_head {b c : Block α β} {cs : List (Block α β)} (h : Ordered (c :: cs))
    (hb : b.lo ≤ b.hi) (hhi : b.hi = c.hi) : Ordered (b :: cs) := by
  obtain ⟨hbefore, hcs⟩ := List.pairwise_cons.mp h.before
  refine ⟨fun d hd => ?_, List.pairwise_cons.mpr ⟨fun y hy => hhi ▸ hbefore y hy, hcs⟩⟩
  rcases List.mem_cons.mp hd with rfl | hd
  · exact hb
  · exact h.proper d (List.mem_cons_of_mem _ hd)

theorem Ascending.replace_head {b c : Block α β} {cs : List (Block α β)} (h : Ascending (c :: cs))
    (hb : b.lo ≤ b.hi) (hhi : b.hi = c.hi) (hlabel : b.label = c.label) : Ascending (b :: cs) := by
  refine ⟨fun d hd => ?_, List.pairwise_cons.mpr ⟨fun y hy => ?_, (List.pairwise_cons.mp h.apart).2⟩⟩
  · rcases List.mem_cons.mp hd with rfl | hd
    · exact hb
    · exact h.proper d (List.mem_cons_of_mem _ hd)
  · have hapart := (List.pairwise_cons.mp h.apart).1 y hy
    rwa [Block.Apart, hhi, hlabel]

@[simp] theorem covered_nil (v : α) : ¬ Covered ([] : List (Block α β)) v := by
  simp [Covered]

@[simp] theorem covered_cons {b : Block α β} {bs : List (Block α β)} {v : α} :
    Covered (b :: bs) v ↔ b.Contains v ∨ Covered bs v := by
  simp [Covered]

theorem covered_singleton {b : Block α β} {v : α} : Covered [b] v ↔ b.Contains v := by
  rw [covered_cons, or_iff_left (covered_nil v)]

@[simp] theorem covered_append {bs cs : List (Block α β)} {v : α} :
    Covered (bs ++ cs) v ↔ Covered bs v ∨ Covered cs v := by
  simp [Covered, or_and_right, exists_or]

theorem Covered.comparable {bs : List (Block α β)} {v : α} (h : Covered bs v) : Comparable v := by
  obtain ⟨_, _, hb⟩ := h
  exact hb.comparable

theorem Ordered.least {b : Block α β} {bs : List (Block α β)} (h : Ordered (b :: bs)) :
    Covered (b :: bs) b.lo ∧ ∀ v, Covered (b :: bs) v → b.lo ≤ v := by
  have hb := h.proper b (by simp)
  have hlo := (le_iff.mp hb).1
  refine ⟨⟨b, by simp, hlo, hb⟩, fun v ⟨c, hc, hv⟩ => ?_⟩
  rw [le_iff_place hlo hv.comparable]
  exact Int.le_trans (h.lo_head_le c hc) (le_iff.mp hv.1).2.2

theorem Ordered.greatest {b : Block α β} {bs : List (Block α β)} (h : Ordered (bs ++ [b])) :
    Covered (bs ++ [b]) b.hi ∧ ∀ v, Covered (bs ++ [b]) v → v ≤ b.hi := by
  have hb := h.proper b (by simp)
  have hhi := (le_iff.mp hb).2.1
  refine ⟨⟨b, by simp, hb, hhi⟩, fun v ⟨c, hc, hv⟩ => ?_⟩
  rw [le_iff_place hv.comparable hhi]
  exact Int.le_trans (le_iff.mp hv.2).2.2 (h.hi_le_last c hc)

/-! ### The parts of a block on either side of a value -/

namespace Block

/-- The part of a block below a value that the block does not end below. -/
def below (b : Block α β) (v : α) : List (Block α β) :=
  if b.lo < v then [{ b with hi := prev v }] else []

/-- The part of a block above a value that the block does not begin above. -/
def above (b : Block α β) (v : α) : List (Block α β) :=
  if v < b.hi then [{ b with lo := next v }] else []

variable {b c : Block α β} {u v : α}

theorem below_of_lt (h : b.lo < v) : b.below v = [{ b with hi := prev v }] := if_pos h

theorem below_of_not_lt (h : ¬ b.lo < v) : b.below v = [] := if_neg h

theorem above_of_lt (h : v < b.hi) : b.above v = [{ b with lo := next v }] := if_pos h

theorem above_of_not_lt (h : ¬ v < b.hi) : b.above v = [] := if_neg h

theorem place_of_mem_below (h : c ∈ b.below v) :
    c.lo ≤ c.hi ∧ place c.lo = place b.lo ∧ place c.hi = place v - 1 ∧ c.label = b.label := by
  by_cases hlt : b.lo < v
  · rw [below_of_lt hlt] at h
    obtain ⟨hlo, hv, hplace⟩ := lt_iff.mp hlt
    obtain rfl := List.mem_singleton.mp h
    have hprev := place_prev_of_lt hlt
    exact ⟨(le_iff_place hlo (comparable_prev hv)).mpr (by omega), rfl, hprev, rfl⟩
  · rw [below_of_not_lt hlt] at h
    cases h

theorem place_of_mem_above (h : c ∈ b.above v) :
    c.lo ≤ c.hi ∧ place c.lo = place v + 1 ∧ place c.hi = place b.hi ∧ c.label = b.label := by
  by_cases hlt : v < b.hi
  · rw [above_of_lt hlt] at h
    obtain ⟨hv, hhi, hplace⟩ := lt_iff.mp hlt
    obtain rfl := List.mem_singleton.mp h
    have hnext := place_next_of_lt hlt
    exact ⟨(le_iff_place (comparable_next hv) hhi).mpr (by omega), hnext, rfl, rfl⟩
  · rw [above_of_not_lt hlt] at h
    cases h

theorem ascending_below (b : Block α β) (v : α) : Ascending (b.below v) := by
  refine ⟨fun c hc => (place_of_mem_below hc).1, ?_⟩
  by_cases hlt : b.lo < v
  · rw [below_of_lt hlt]
    exact List.pairwise_singleton _ _
  · rw [below_of_not_lt hlt]
    exact List.Pairwise.nil

theorem ascending_above (b : Block α β) (v : α) : Ascending (b.above v) := by
  refine ⟨fun c hc => (place_of_mem_above hc).1, ?_⟩
  by_cases hlt : v < b.hi
  · rw [above_of_lt hlt]
    exact List.pairwise_singleton _ _
  · rw [above_of_not_lt hlt]
    exact List.Pairwise.nil

theorem covered_below (hb : b.lo ≤ b.hi) (hv : Comparable v) (hreach : place v ≤ place b.hi) :
    Covered (b.below v) u ↔ b.Contains u ∧ u < v := by
  obtain ⟨hlo, hhi, _⟩ := le_iff.mp hb
  by_cases hu : Comparable u
  · rw [contains_iff hb hu, lt_iff_place hu hv]
    by_cases hlt : b.lo < v
    · have hprev := place_prev_of_lt hlt
      rw [below_of_lt hlt, covered_singleton, Contains, le_iff_place hlo hu,
        le_iff_place hu (comparable_prev hv)]
      omega
    · rw [below_of_not_lt hlt]
      rw [lt_iff_place hlo hv] at hlt
      simp only [covered_nil, false_iff]
      omega
  · exact ⟨fun h => absurd h.comparable hu, fun h => absurd h.1.comparable hu⟩

theorem covered_above (hb : b.lo ≤ b.hi) (hv : Comparable v) (hreach : place b.lo ≤ place v) :
    Covered (b.above v) u ↔ b.Contains u ∧ v < u := by
  obtain ⟨hlo, hhi, _⟩ := le_iff.mp hb
  by_cases hu : Comparable u
  · rw [contains_iff hb hu, lt_iff_place hv hu]
    by_cases hlt : v < b.hi
    · have hnext := place_next_of_lt hlt
      rw [above_of_lt hlt, covered_singleton, Contains, le_iff_place (comparable_next hv) hu,
        le_iff_place hu hhi]
      omega
    · rw [above_of_not_lt hlt]
      rw [lt_iff_place hv hhi] at hlt
      simp only [covered_nil, false_iff]
      omega
  · exact ⟨fun h => absurd h.comparable hu, fun h => absurd h.1.comparable hu⟩

end Block

end RangeSets
