import RangeSets.Proofs.Blocks.Unique
/-!
# Longest runs of values

A set tells its changes as runs of values. A run is a longest run of a property when all its values
have the property and no wider run does. The longest runs of a property are listed when they ascend,
each of them is a longest run, and each longest run is among them.

Such a list is recognised without looking at wider runs: the runs are in order, with something missing
between one and the next, and they hold the values with the property. So two lists of the longest
runs of one property are the same, up to the numbers of the bounds.
-/

namespace RangeSets

open Scale

variable {α : Type}

/-! ### Spans as blocks -/

def Span.block (r : Span α) : Block α Unit := ⟨r.lo, r.hi, ()⟩

variable [Scale α]

namespace Span

theorem contains_block {r : Span α} {v : α} : r.block.Contains v ↔ r.Contains v := Iff.rfl

/-- A run holds its own ends. -/
theorem contains_ends {r : Span α} (h : r.lo ≤ r.hi) : r.Contains r.lo ∧ r.Contains r.hi := by
  obtain ⟨hlo, hhi, _⟩ := le_iff.mp h
  exact ⟨⟨hlo, h⟩, ⟨h, hhi⟩⟩

theorem same_block {r t : Span α} : r.block.Same t.block ↔ r.Same t := by
  simp [Block.Same, Span.Same, block]

theorem sameAll_iff_forall₂ {rs ts : List (Span α)} :
    SameAll rs ts ↔ List.Forall₂ Span.Same rs ts := by
  induction rs generalizing ts with
  | nil => cases ts <;> simp [SameAll]
  | cons r rs ih =>
      cases ts with
      | nil => simp [SameAll]
      | cons t ts => simp [SameAll, ih]

end Span

theorem covered_block {rs : List (Span α)} {v : α} :
    Covered (rs.map Span.block) v ↔ ∃ r ∈ rs, r.Contains v := by
  simp [Covered, Span.contains_block]

/-! ### Longest runs -/

/-- All values of the run have the property, and those of no wider run do. -/
structure Span.IsLongestRun (P : α → Prop) (r : Span α) : Prop where
  proper : r.lo ≤ r.hi
  holds : ∀ v, r.Contains v → P v
  longest : ∀ t : Span α, t.lo ≤ r.lo → r.hi ≤ t.hi → (∀ v, t.Contains v → P v) → t.Same r

/-- The longest runs of the values with a property, in ascending order and each of them once. -/
structure LongestRuns (P : α → Prop) (rs : List (Span α)) : Prop where
  ascending : rs.Pairwise fun r t => r.hi < t.lo
  isLongestRun : ∀ r ∈ rs, r.IsLongestRun P
  complete : ∀ r : Span α, r.IsLongestRun P → ∃ t ∈ rs, r.Same t

/-- Runs in order, with something missing between one and the next, that hold the values with a
property. -/
structure Decomposes (P : α → Prop) (rs : List (Span α)) : Prop where
  ascending : Ascending (rs.map Span.block)
  covered : ∀ v, Covered (rs.map Span.block) v ↔ P v

namespace Decomposes

variable {P Q : α → Prop} {rs ts : List (Span α)} {r t : Span α}

theorem congr (h : Decomposes P rs) (hiff : ∀ v, P v ↔ Q v) : Decomposes Q rs :=
  ⟨h.ascending, fun v => (h.covered v).trans (hiff v)⟩

theorem mem_iff (h : Decomposes P rs) (v : α) : P v ↔ ∃ r ∈ rs, r.Contains v := by
  rw [← h.covered, covered_block]

theorem proper (h : Decomposes P rs) (hr : r ∈ rs) : r.lo ≤ r.hi :=
  h.ascending.proper r.block (List.mem_map_of_mem hr)

/-- The ends of a run are values with the property. -/
theorem ends (h : Decomposes P rs) (hr : r ∈ rs) : P r.lo ∧ P r.hi := by
  obtain ⟨hlo, hhi⟩ := Span.contains_ends (h.proper hr)
  exact ⟨(h.mem_iff _).mpr ⟨r, hr, hlo⟩, (h.mem_iff _).mpr ⟨r, hr, hhi⟩⟩

theorem apart (h : Decomposes P rs) : rs.Pairwise fun r t => place r.hi + 1 < place t.lo := by
  have hapart := h.ascending.apart
  rw [List.pairwise_map] at hapart
  exact hapart.imp fun hgap => Block.apart_unit.mp hgap

theorem nil (h : ∀ v, ¬ P v) : Decomposes P [] :=
  ⟨Ascending.nil, fun v => by simp [h v]⟩

theorem singleton (hr : r.lo ≤ r.hi) (h : ∀ v, P v ↔ r.Contains v) : Decomposes P [r] :=
  ⟨ascending_singleton hr, fun v => by rw [h, covered_block]; simp⟩

theorem eq_nil (h : Decomposes P rs) (hnone : ∀ v, ¬ P v) : rs = [] := by
  cases rs with
  | nil => rfl
  | cons r rest => exact absurd (h.ends List.mem_cons_self).1 (hnone r.lo)

/-- Two lists of runs are the same exactly when their properties are. -/
theorem forall₂_same_iff (hr : Decomposes P rs) (ht : Decomposes Q ts) :
    List.Forall₂ Span.Same rs ts ↔ ∀ v, P v ↔ Q v := by
  have hblocks : (fun r t : Span α => r.block.Same t.block) = Span.Same := by
    funext r t
    exact propext Span.same_block
  have hiff := hr.ascending.forall₂_same_iff ht.ascending
  rw [List.forall₂_map_left_iff, List.forall₂_map_right_iff, hblocks] at hiff
  rw [hiff]
  refine forall_congr' fun v => ⟨fun h => ?_, fun h l => ?_⟩
  · rw [← hr.covered, ← ht.covered, ← labelled_unit, ← labelled_unit, h]
  · rw [labelled_unit, labelled_unit, hr.covered, ht.covered, h]

/-- A property has one list of runs. -/
theorem unique (hr : Decomposes P rs) (ht : Decomposes P ts) : List.Forall₂ Span.Same rs ts :=
  (hr.forall₂_same_iff ht).mpr fun _ => Iff.rfl

/-- The first run, and the runs of the values that are not in it. -/
theorem uncons (h : Decomposes P (r :: rs)) :
    (∀ v, r.Contains v → P v) ∧ Decomposes (fun v => P v ∧ ¬ r.Contains v) rs := by
  have hmem : ∀ v, P v ↔ r.Contains v ∨ ∃ t ∈ rs, t.Contains v := by
    intro v
    rw [h.mem_iff]
    simp
  have hout : ∀ v, (∃ t ∈ rs, t.Contains v) → ¬ r.Contains v := by
    intro v hv hr
    obtain ⟨t, ht, htv⟩ := hv
    have hgap := (List.pairwise_cons.mp h.apart).1 t ht
    have := (le_iff.mp hr.2).2.2
    have := (le_iff.mp htv.1).2.2
    omega
  refine ⟨fun v hv => (hmem v).mpr (.inl hv), h.ascending.sublist (List.sublist_cons_self ..),
    fun v => ?_⟩
  have := hmem v
  have := hout v
  rw [covered_block]
  grind

theorem lt_or_eq_or_gt (h : Decomposes P rs) (hr : r ∈ rs) (ht : t ∈ rs) :
    place r.hi + 1 < place t.lo ∨ r = t ∨ place t.hi + 1 < place r.lo := by
  obtain ⟨xs, ys, rfl⟩ := List.append_of_mem hr
  obtain ⟨_, hys, hxs⟩ := List.pairwise_append.mp h.apart
  rcases List.mem_append.mp ht with ht | ht
  · exact .inr (.inr (hxs t ht r (by simp)))
  · rcases List.mem_cons.mp ht with rfl | ht
    · exact .inr (.inl rfl)
    · exact .inl ((List.pairwise_cons.mp hys).1 t ht)

/-- A run of values with the property lies inside a run of the list: the value right after the end of
that run, and the one right before it, do not have the property. -/
theorem within (h : Decomposes P rs) (hproper : t.lo ≤ t.hi) (ht : ∀ v, t.Contains v → P v) :
    ∃ r ∈ rs, place r.lo ≤ place t.lo ∧ place t.hi ≤ place r.hi := by
  obtain ⟨htLo, htHi, htle⟩ := le_iff.mp hproper
  obtain ⟨r, hr, hin⟩ := (h.mem_iff t.lo).mp (ht t.lo ⟨htLo, hproper⟩)
  refine ⟨r, hr, (le_iff.mp hin.1).2.2, ?_⟩
  by_contra hlt
  have hrHi := (le_iff.mp hin.2).2.1
  have hreach := (le_iff.mp hin.2).2.2
  have hbeyond : r.hi < t.hi := (lt_iff_place hrHi htHi).mpr (by omega)
  have hnext := comparable_next hrHi
  have hplace := place_next_of_lt hbeyond
  have hcontains : t.Contains (next r.hi) :=
    ⟨(le_iff_place htLo hnext).mpr (by omega), (le_iff_place hnext htHi).mpr (by omega)⟩
  obtain ⟨u, hu, huv⟩ := (h.mem_iff _).mp (ht _ hcontains)
  have hge := (le_iff.mp huv.1).2.2
  have hle := (le_iff.mp huv.2).2.2
  rcases h.lt_or_eq_or_gt hr hu with hlt | rfl | hlt
  · omega
  · omega
  · have := (le_iff.mp (h.proper hu)).2.2
    have := (le_iff.mp (h.proper hr)).2.2
    omega

theorem isLongestRun (h : Decomposes P rs) (hr : r ∈ rs) : r.IsLongestRun P := by
  have hproper := h.proper hr
  obtain ⟨hlo, hhi, hle⟩ := le_iff.mp hproper
  refine ⟨hproper, fun v hv => (h.mem_iff v).mpr ⟨r, hr, hv⟩, fun t htLo htHi ht => ?_⟩
  obtain ⟨htLoComp, _, hloLe⟩ := le_iff.mp htLo
  obtain ⟨_, htHiComp, hhiLe⟩ := le_iff.mp htHi
  obtain ⟨u, hu, huLo, huHi⟩ :=
    h.within ((le_iff_place htLoComp htHiComp).mpr (by omega)) ht
  rcases h.lt_or_eq_or_gt hr hu with hlt | rfl | hlt
  · omega
  · exact ⟨same_iff.mpr ⟨htLoComp, hlo, by omega⟩, same_iff.mpr ⟨htHiComp, hhi, by omega⟩⟩
  · omega

/-- The runs are in order, and one does not come right after another. -/
theorem separate (h : Decomposes P rs) :
    rs.Pairwise fun r t => r.hi < t.lo ∧ ¬ Adjacent r.hi t.lo := by
  refine h.apart.imp_of_mem fun {r t} hr ht hgap => ⟨?_, fun hadjacent => ?_⟩
  · obtain ⟨_, hhi, _⟩ := le_iff.mp (h.proper hr)
    obtain ⟨hlo, _, _⟩ := le_iff.mp (h.proper ht)
    exact (lt_iff_place hhi hlo).mpr (by omega)
  · have := (adjacent_iff.mp hadjacent).2.2
    omega

theorem longestRuns (h : Decomposes P rs) : LongestRuns P rs where
  ascending := h.separate.imp And.left
  isLongestRun _ hr := h.isLongestRun hr
  complete r hr := by
    obtain ⟨t, ht, hlo, hhi⟩ := h.within hr.proper hr.holds
    obtain ⟨hrLo, hrHi, _⟩ := le_iff.mp hr.proper
    obtain ⟨htLo, htHi, _⟩ := le_iff.mp (h.proper ht)
    have hsame := hr.longest t ((le_iff_place htLo hrLo).mpr hlo) ((le_iff_place hrHi htHi).mpr hhi)
      fun v hv => (h.mem_iff v).mpr ⟨t, ht, hv⟩
    exact ⟨t, ht, ⟨hsame.1.2, hsame.1.1⟩, hsame.2.2, hsame.2.1⟩

end Decomposes

end RangeSets
