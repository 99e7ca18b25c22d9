import RangeSets.Proofs.RangeSet.Membership
import RangeSets.Proofs.Runs
import RangeSets.Proofs.Store.Telling
/-!
# The changes that are told

An update of a set affects values: an addition those of its range that were missing, a removal those
of its range that were there. What is told are the longest runs of the affected values, in ascending
order and each of them once.

For an addition these are the gaps between the touched ranges. They are found from below: a gap ends
right before a touched range, and the next one begins right after it. For a removal they are the
touched ranges, clipped at the ends of the range.
-/

namespace RangeSets

open Scale

variable {α : Type}

namespace Update

/-- The direction in which an update tells its changes. -/
def told : Update α → Span α → Change α
  | add _ _ | extend _ => .gained
  | remove _ _ | clear => .lost

variable [Scale α]

/-- The update adds the value to the set, or takes it away. -/
def Affects (s : RangeSet α) (v : α) : Update α → Prop
  | add lo hi => (lo ≤ v ∧ v ≤ hi) ∧ ¬ s.Contains v
  | remove lo hi => (lo ≤ v ∧ v ≤ hi) ∧ s.Contains v
  | extend ranges => (∃ r ∈ ranges, r.Contains v) ∧ ¬ s.Contains v
  | clear => s.Contains v

end Update

variable [Scale α]

/-! ### Runs side by side -/

namespace Decomposes

variable {P Q : α → Prop} {rs ts : List (Span α)}

theorem append (hr : Decomposes P rs) (ht : Decomposes Q ts)
    (hapart : ∀ r ∈ rs, ∀ t ∈ ts, place r.hi + 1 < place t.lo) :
    Decomposes (fun v => P v ∨ Q v) (rs ++ ts) := by
  refine ⟨?_, fun v => ?_⟩
  · rw [List.map_append]
    refine ascending_append.mpr ⟨hr.ascending, ht.ascending, fun b hb c hc => ?_⟩
    obtain ⟨r, hr, rfl⟩ := List.mem_map.mp hb
    obtain ⟨t, ht, rfl⟩ := List.mem_map.mp hc
    exact Block.apart_unit.mpr (hapart r hr t ht)
  · rw [List.map_append, covered_append, hr.covered, ht.covered]

end Decomposes

namespace RangeSet

variable {lo hi : α}

/-! ### The gaps of an addition -/

/-- The run from a value to right before another one, if there is any. -/
def runBefore (first beyond : α) : List (Span α) :=
  if first < beyond then [⟨first, prev beyond⟩] else []

theorem place_of_mem_runBefore {first beyond : α} {r : Span α} (hr : r ∈ runBefore first beyond) :
    place r.lo = place first ∧ place r.hi + 1 = place beyond := by
  by_cases hlt : first < beyond
  · rw [runBefore, if_pos hlt] at hr
    obtain rfl := List.mem_singleton.mp hr
    have := place_prev_of_lt hlt
    exact ⟨rfl, by simp only [this]; omega⟩
  · rw [runBefore, if_neg hlt] at hr
    cases hr

theorem decomposes_runBefore {first beyond : α} (hfirst : Comparable first)
    (hbeyond : Comparable beyond) :
    Decomposes (fun v => first ≤ v ∧ v < beyond) (runBefore first beyond) := by
  by_cases hlt : first < beyond
  · have hprev := comparable_prev hbeyond
    have hplace := place_prev_of_lt hlt
    have := (lt_iff.mp hlt).2.2
    rw [runBefore, if_pos hlt]
    refine .singleton ((le_iff_place hfirst hprev).mpr (by omega)) fun v =>
      iff_of_comparable (fun h => (le_iff.mp h.1).2.1) (fun h => (le_iff.mp h.1).2.1) fun hv => ?_
    rw [Span.Contains, le_iff_place hfirst hv, lt_iff_place hv hbeyond, le_iff_place hv hprev]
    omega
  · rw [runBefore, if_neg hlt]
    refine .nil fun v hv => hlt ?_
    obtain ⟨_, _, hge⟩ := le_iff.mp hv.1
    obtain ⟨_, _, hbefore⟩ := lt_iff.mp hv.2
    exact (lt_iff_place hfirst hbeyond).mpr (by omega)

theorem gaps_cons (lo hi : α) (e : Entry α Unit) (rest : List (Entry α Unit)) :
    gaps lo hi (e :: rest) =
      runBefore lo e.lo ++ if e.hi < hi then gaps (next e.hi) hi rest else [] := by
  rw [gaps, runBefore]
  split <;> simp

/-- The gaps are the runs of the values that the touched ranges leave out. -/
theorem decomposes_gaps {ts : List (Entry α Unit)} (hts : Ascending (ts.map Entry.block))
    (hle : lo ≤ hi) (htouch : ∀ t ∈ ts, place lo ≤ place t.hi ∧ place t.lo ≤ place hi) :
    Decomposes (fun v => (lo ≤ v ∧ v ≤ hi) ∧ ¬ Covered (ts.map Entry.block) v) (gaps lo hi ts) ∧
      ∀ r ∈ gaps lo hi ts, place lo ≤ place r.lo := by
  induction ts generalizing lo with
  | nil =>
      refine ⟨.singleton hle fun v => ?_, by simp [gaps]⟩
      simp [Span.Contains]
  | cons e rest ih =>
      obtain ⟨hlo, hhi, hlohi⟩ := le_iff.mp hle
      have heProper : e.lo ≤ e.hi := hts.proper e.block (by simp)
      obtain ⟨heLo, heHi, hele⟩ := le_iff.mp heProper
      obtain ⟨hreach, hmeets⟩ := htouch e (by simp)
      have hrest := hts.sublist (List.sublist_cons_self ..)
      have hafter : ∀ t ∈ rest, place e.hi + 1 < place t.lo := fun t ht =>
        Block.apart_unit.mp ((List.pairwise_cons.mp hts.apart).1 t.block (List.mem_map_of_mem ht))
      have hbeyond : ∀ v, Covered (rest.map Entry.block) v → place e.hi < place v := by
        intro v hv
        obtain ⟨b, hb, hbv⟩ := hv
        obtain ⟨t, ht, rfl⟩ := List.mem_map.mp hb
        have hgap := hafter t ht
        have hge : place t.lo ≤ place v := (le_iff.mp hbv.1).2.2
        omega
      have htail : Decomposes
            (fun v => (e.hi < v ∧ v ≤ hi) ∧ ¬ Covered (rest.map Entry.block) v)
            (if e.hi < hi then gaps (next e.hi) hi rest else []) ∧
          ∀ r ∈ (if e.hi < hi then gaps (next e.hi) hi rest else []), place e.hi < place r.lo := by
        by_cases hmore : e.hi < hi
        · have hnext := comparable_next heHi
          have hplace := place_next_of_lt hmore
          have hlt := (lt_iff.mp hmore).2.2
          obtain ⟨hgaps, hleast⟩ := ih hrest ((le_iff_place hnext hhi).mpr (by omega))
            fun t ht => by
              have hgap := hafter t ht
              have htle : place t.lo ≤ place t.hi :=
                (le_iff.mp (hrest.proper t.block (List.mem_map_of_mem ht))).2.2
              have := htouch t (List.mem_cons_of_mem _ ht)
              omega
          rw [if_pos hmore]
          refine ⟨hgaps.congr fun v => and_congr_left fun _ => iff_of_comparable
            (fun h => (le_iff.mp h.1).2.1) (fun h => (lt_iff.mp h.1).2.1) fun hv => ?_, fun r hr => ?_⟩
          · rw [le_iff_place hnext hv, le_iff_place hv hhi, lt_iff_place heHi hv]
            omega
          · have := hleast r hr
            omega
        · rw [if_neg hmore]
          rw [lt_iff_place heHi hhi] at hmore
          refine ⟨.nil fun v hv => ?_, by simp⟩
          have := (lt_iff.mp hv.1.1).2.2
          have := (le_iff.mp hv.1.2).2.2
          omega
      rw [gaps_cons]
      refine ⟨((decomposes_runBefore hlo heLo).append htail.1 fun r hr t ht => ?_).congr fun v =>
        iff_of_comparable ?_ (fun h => (le_iff.mp h.1.1).2.1) fun hv => ?_, fun r hr => ?_⟩
      · have := place_of_mem_runBefore hr
        have := htail.2 t ht
        omega
      · rintro (h | h)
        · exact (le_iff.mp h.1).2.1
        · exact (le_iff.mp h.1.2).1
      · rw [List.map_cons, covered_cons, Block.contains_iff heProper hv, le_iff_place hlo hv,
          lt_iff_place hv heLo, lt_iff_place heHi hv, le_iff_place hv hhi]
        simp only [Entry.lo_block, Entry.hi_block]
        by_cases hcovered : Covered (rest.map Entry.block) v
        · have := hbeyond v hcovered
          simp only [hcovered, not_true_eq_false, or_true, and_false, or_false, iff_false]
          omega
        · simp only [hcovered, not_false_eq_true, or_false, and_true]
          omega
      · rcases List.mem_append.mp hr with hr | hr
        · have := place_of_mem_runBefore hr
          omega
        · have := htail.2 r hr
          omega

/-! ### The pieces of a removal -/

/-- A range, clipped at the ends of another one. -/
def clipped (lo hi : α) (e : Entry α Unit) : Span α := ⟨higherOf e.lo lo, lowerOf e.hi hi⟩

variable {e : Entry α Unit}

theorem place_clipped (he : e.lo ≤ e.hi) (hle : lo ≤ hi) :
    Comparable (clipped lo hi e).lo ∧ Comparable (clipped lo hi e).hi ∧
      place (clipped lo hi e).lo = Max.max (place e.lo) (place lo) ∧
      place (clipped lo hi e).hi = Min.min (place e.hi) (place hi) := by
  obtain ⟨heLo, heHi, _⟩ := le_iff.mp he
  obtain ⟨hlo, hhi, _⟩ := le_iff.mp hle
  exact ⟨comparable_higherOf heLo hlo, comparable_lowerOf heHi hhi, place_higherOf heLo hlo,
    place_lowerOf heHi hhi⟩

theorem contains_clipped (he : e.lo ≤ e.hi) (hle : lo ≤ hi) {v : α} :
    (clipped lo hi e).Contains v ↔ (lo ≤ v ∧ v ≤ hi) ∧ e.block.Contains v := by
  refine iff_of_comparable (fun h => (le_iff.mp h.1).2.1) (fun h => (le_iff.mp h.1.1).2.1)
    fun hv => ?_
  obtain ⟨hlo, hhi, _⟩ := le_iff.mp hle
  obtain ⟨hclipLo, hclipHi, hplaceLo, hplaceHi⟩ := place_clipped he hle
  rw [Span.Contains, le_iff_place hclipLo hv, le_iff_place hv hclipHi, le_iff_place hlo hv,
    le_iff_place hv hhi, Block.contains_iff he hv]
  simp only [Entry.lo_block, Entry.hi_block]
  omega

/-- The touched ranges, clipped, are the runs of the values that they hold between the bounds. -/
theorem decomposes_clipped {ts : List (Entry α Unit)} (hts : Ascending (ts.map Entry.block))
    (hle : lo ≤ hi) (htouch : ∀ t ∈ ts, place lo ≤ place t.hi ∧ place t.lo ≤ place hi) :
    Decomposes (fun v => (lo ≤ v ∧ v ≤ hi) ∧ Covered (ts.map Entry.block) v)
      (ts.map (clipped lo hi)) := by
  have hproper : ∀ t ∈ ts, t.lo ≤ t.hi :=
    fun t ht => hts.proper t.block (List.mem_map_of_mem ht)
  have hlohi := (le_iff.mp hle).2.2
  refine ⟨⟨fun b hb => ?_, ?_⟩, fun v => ?_⟩
  · obtain ⟨r, hr, rfl⟩ := List.mem_map.mp hb
    obtain ⟨t, ht, rfl⟩ := List.mem_map.mp hr
    obtain ⟨hclipLo, hclipHi, hplaceLo, hplaceHi⟩ := place_clipped (hproper t ht) hle
    have := (le_iff.mp (hproper t ht)).2.2
    have := htouch t ht
    exact (le_iff_place hclipLo hclipHi).mpr (by omega)
  · have hapart := hts.apart
    rw [List.pairwise_map] at hapart
    rw [List.pairwise_map, List.pairwise_map]
    refine hapart.imp_of_mem fun {s t} hs ht hgap => Block.apart_unit.mpr ?_
    obtain ⟨_, _, _, hplaceHi⟩ := place_clipped (hproper s hs) hle
    obtain ⟨_, _, hplaceLo, _⟩ := place_clipped (hproper t ht) hle
    have hgap : place s.hi + 1 < place t.lo := Block.apart_unit.mp hgap
    simp only [Span.block, hplaceHi, hplaceLo]
    omega
  · rw [covered_block]
    refine ⟨fun h => ?_, fun h => ?_⟩
    · obtain ⟨r, hr, hrv⟩ := h
      obtain ⟨t, ht, rfl⟩ := List.mem_map.mp hr
      obtain ⟨hbetween, htv⟩ := (contains_clipped (hproper t ht) hle).mp hrv
      exact ⟨hbetween, t.block, List.mem_map_of_mem ht, htv⟩
    · obtain ⟨hbetween, b, hb, hbv⟩ := h
      obtain ⟨t, ht, rfl⟩ := List.mem_map.mp hb
      exact ⟨_, List.mem_map_of_mem ht, (contains_clipped (hproper t ht) hle).mpr ⟨hbetween, hbv⟩⟩

/-! ### What a set tells -/

/-- Between the bounds of a cut only the touched entries hold values. -/
theorem Represents.contains_iff_touched {s : RangeSet α} {p : Layout α Unit}
    (h : s.Represents p) {cut : Cut α Unit} (hfits : cut.Fits lo hi p.entries) {v : α}
    (hv : lo ≤ v ∧ v ≤ hi) : s.Contains v ↔ Covered (cut.touched.map Entry.block) v := by
  have hnot := fun hcovered => hfits.not_between (v := v) hcovered hv
  rw [h.contains_iff, Layout.blocks, hfits.entries_eq]
  simp only [List.map_append, covered_append]
  grind

theorem Represents.ascending_touched {s : RangeSet α} {p : Layout α Unit} (h : s.Represents p)
    {cut : Cut α Unit} (hfits : cut.Fits lo hi p.entries) :
    Ascending (cut.touched.map Entry.block) := by
  have hasc := h.ascending
  rw [Layout.blocks, hfits.entries_eq, List.map_append, List.map_append] at hasc
  exact (ascending_append.mp (ascending_append.mp hasc).1).2.1

variable {s : RangeSet α}

theorem Sound.add_changes (h : s.Sound) (lo hi : α) :
    ∃ runs, Decomposes (fun v => (lo ≤ v ∧ v ≤ hi) ∧ ¬ s.Contains v) runs ∧
      (s.add lo hi).2 = runs.map .gained := by
  obtain ⟨p, hp⟩ := h
  by_cases hle : lo ≤ hi
  · have hfits := Cut.of_fits hp.ascending.ordered hle
    have hgaps := (decomposes_gaps (hp.ascending_touched hfits) hle hfits.touched).1
    refine ⟨_, hgaps.congr fun v => and_congr_right fun hv => ?_, ?_⟩
    · rw [hp.contains_iff_touched hfits hv]
    · rw [RangeSet.add, addPlan, if_pos hle, hp.entries_eq]
      rfl
  · refine ⟨[], .nil fun v hv => not_between hle v hv.1, ?_⟩
    rw [RangeSet.add, addPlan, if_neg hle]
    rfl

theorem Sound.remove_changes (h : s.Sound) (lo hi : α) :
    ∃ runs, Decomposes (fun v => (lo ≤ v ∧ v ≤ hi) ∧ s.Contains v) runs ∧
      (s.remove lo hi).2 = runs.map .lost := by
  obtain ⟨p, hp⟩ := h
  by_cases hle : lo ≤ hi
  · have hfits := Cut.of_fits hp.ascending.ordered hle
    have hclipped := decomposes_clipped (hp.ascending_touched hfits) hle hfits.touched
    refine ⟨_, hclipped.congr fun v => and_congr_right fun hv => ?_, ?_⟩
    · rw [hp.contains_iff_touched hfits hv]
    · rw [RangeSet.remove, removePlan, if_pos hle, hp.entries_eq, List.map_map]
      rfl
  · refine ⟨[], .nil fun v hv => not_between hle v hv.1, ?_⟩
    rw [RangeSet.remove, removePlan, if_neg hle]
    rfl

theorem Sound.decomposes_spans (h : s.Sound) : Decomposes s.Contains s.spans := by
  obtain ⟨p, hp⟩ := h
  have hblocks : s.spans.map Span.block = p.blocks := by
    rw [hp.spans_eq, List.map_map]
    rfl
  exact ⟨hblocks ▸ hp.ascending, fun v => by rw [hblocks, hp.contains_iff]⟩

/-- An update of one range, or of all values, tells the runs of the values that it affects. -/
theorem Sound.update_changes (h : s.Sound) {u : Update α} (hu : ∀ ranges, u ≠ .extend ranges) :
    ∃ runs, Decomposes (fun v => u.Affects s v) runs ∧
      (s.mutate u.toMutation).2 = runs.map u.told := by
  cases u with
  | add lo hi => exact h.add_changes lo hi
  | remove lo hi => exact h.remove_changes lo hi
  | extend ranges => exact absurd rfl (hu ranges)
  | clear => exact ⟨s.spans, h.decomposes_spans, rfl⟩

/-- The affected values are those that belong to the set either before the update or after it, but
not both. -/
theorem Sound.affects_iff (h : s.Sound) (u : Update α) (v : α) :
    u.Affects s v ↔ ¬ (s.Contains v ↔ (s.mutate u.toMutation).1.Contains v) := by
  rw [h.contains_update]
  cases u <;> simp only [Update.Affects, Update.Covers, Update.IsAddition] <;> grind

/-- When a watched set is updated by one range, or cleared, its trail hears of each longest run of the
affected values once, in ascending order and under the tag of the watch, and no trail hears anything
else. The runs are not empty, they are apart from each other, and they hold exactly the values in which
the set changed; an update that changes no value is not told. -/
theorem updates_tell_longestRuns {store : Store α} {name : String} {watch : Watch}
    (hget : store.sets.get? name = some ⟨s, some watch⟩) (hs : s.Reachable) (u : Update α)
    (hu : ∀ ranges, u ≠ .extend ranges) :
    ∃ runs, LongestRuns (fun v => u.Affects s v) runs ∧
      (store.changeSet name fun s => s.mutate u.toMutation).sets.value? name =
        some (s.mutate u.toMutation).1 ∧
      store.trails.Heard (store.changeSet name fun s => s.mutate u.toMutation).trails watch
        (runs.map u.told) ∧
      (∀ r ∈ runs, r.lo ≤ r.hi) ∧
      runs.Pairwise (fun r t => r.hi < t.lo ∧ ¬ Adjacent r.hi t.lo) ∧
      (∀ v, (∃ r ∈ runs, r.Contains v) ↔
        ¬ (s.Contains v ↔ (s.mutate u.toMutation).1.Contains v)) ∧
      ((∀ v, s.Contains v ↔ (s.mutate u.toMutation).1.Contains v) → runs = []) := by
  obtain ⟨runs, hruns, htold⟩ := hs.sound.update_changes hu
  obtain ⟨hafter, hheard⟩ := Store.changeSet_of_get? hget fun s => s.mutate u.toMutation
  refine ⟨runs, hruns.longestRuns, ?_, htold ▸ hheard, fun r hr => hruns.proper hr, hruns.separate,
    fun v => ?_, fun hsame => hruns.eq_nil fun v haffects => ?_⟩
  · rw [Shelf.value?, hafter]
    rfl
  · rw [← hruns.mem_iff, hs.sound.affects_iff]
  · exact (hs.sound.affects_iff u v).mp haffects (hsame v)

/-- The set of all octets but those from 10 to 20, watched under the tag 7. -/
def watchedGapped : Store Octet := ⟨⟨[("gapped", ⟨gapped, some ⟨7, "log"⟩⟩)]⟩, .empty, .empty⟩

theorem gap_closed_in_part :
    watchedGapped.sets.get? "gapped" = some ⟨gapped, some ⟨7, "log"⟩⟩ ∧ gapped.Reachable ∧
      ∃ runs, LongestRuns (fun v => (Update.add (.ofInt 5) (.ofInt 15)).Affects gapped v) runs ∧
        watchedGapped.trails.Heard
          (watchedGapped.changeSet "gapped" fun s => s.mutate (.add (.ofInt 5) (.ofInt 15))).trails
          ⟨7, "log"⟩ (runs.map .gained) ∧ runs ≠ [] := by
  have hget : watchedGapped.sets.get? "gapped" = some ⟨gapped, some ⟨7, "log"⟩⟩ := rfl
  have hs : gapped.Reachable := .mutate _ .whole
  obtain ⟨runs, hlongest, _, hheard, _, _, hunion, _⟩ :=
    updates_tell_longestRuns hget hs (.add (.ofInt 5) (.ofInt 15)) fun _ h => nomatch h
  refine ⟨hget, hs, runs, hlongest, hheard, ?_⟩
  rintro rfl
  have hchanged := (hunion (.ofInt 12)).mpr (by decide)
  simp at hchanged

end RangeSet

end RangeSets
