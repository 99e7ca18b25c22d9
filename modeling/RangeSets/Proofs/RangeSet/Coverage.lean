import RangeSets.Proofs.RangeSet.Changes
import RangeSets.Proofs.RangeSet.Neighbours
import RangeSets.Scale.Binary.Laws
/-!
# Where a value stands and how much of a range is there

A search tells apart the values that belong to a set, those that do not but have one above them, and
those past all of them. A question about a range looks at one range of the set only, the one where the
search for the lower bound stops. That is enough: a range that lies in the set lies in one of its
ranges, since something is missing between one and the next.
-/

namespace RangeSets

open Scale

variable {α β : Type} [Scale α]

/-- What a position says of a value and a property. -/
def Position.Describes (P : α → Prop) (v : α) : Position → Prop
  | .inside _ => P v
  | .before _ => ¬ P v ∧ ∃ u, P u ∧ v < u
  | .pastEnd => ¬ P v ∧ ∀ u, P u → ¬ v < u

/-- How much of a range has a property. -/
def Coverage.Describes (P : α → Prop) (lo hi : α) : Coverage → Prop
  | .all => lo ≤ hi ∧ ∀ v, lo ≤ v ∧ v ≤ hi → P v
  | .part => (∃ v, (lo ≤ v ∧ v ≤ hi) ∧ P v) ∧ ∃ v, (lo ≤ v ∧ v ≤ hi) ∧ ¬ P v
  | .nothing => ∀ v, lo ≤ v ∧ v ≤ hi → ¬ P v

theorem Coverage.Describes.unique {P : α → Prop} {lo hi : α} {c d : Coverage}
    (hc : c.Describes P lo hi) (hd : d.Describes P lo hi) : c = d := by
  have hlo : lo ≤ hi → lo ≤ lo ∧ lo ≤ hi := fun hle => ⟨(le_iff.mp hle).1, hle⟩
  cases c with
  | all =>
      cases d with
      | all => rfl
      | part =>
          obtain ⟨_, v, hv, hnot⟩ := hd
          exact absurd (hc.2 v hv) hnot
      | nothing => exact absurd (hc.2 lo (hlo hc.1)) (hd lo (hlo hc.1))
  | part =>
      obtain ⟨⟨v, hv, hin⟩, w, hw, hout⟩ := hc
      cases d with
      | all => exact absurd (hd.2 w hw) hout
      | part => rfl
      | nothing => exact absurd hin (hd v hv)
  | nothing =>
      cases d with
      | all => exact absurd (hd.2 lo (hlo hd.1)) (hc lo (hlo hd.1))
      | part =>
          obtain ⟨⟨v, hv, hin⟩, _⟩ := hd
          exact absurd hin (hc v hv)
      | nothing => rfl

theorem Coverage.Describes.congr {P : α → Prop} {lo lo' hi hi' : α} {c : Coverage}
    (h : c.Describes P lo hi) (hlo : Alike lo lo') (hhi : Alike hi hi') :
    c.Describes P lo' hi' := by
  have hle := hlo.le_iff hhi
  have hbetween := hlo.between_iff hhi
  cases c with
  | all => exact ⟨hle.mp h.1, fun v hv => h.2 v ((hbetween v).mpr hv)⟩
  | part =>
      obtain ⟨⟨v, hv, hin⟩, w, hw, hout⟩ := h
      exact ⟨⟨v, (hbetween v).mp hv, hin⟩, w, (hbetween w).mp hw, hout⟩
  | nothing => exact fun v hv => h v ((hbetween v).mpr hv)

section Entries

variable {v w : α} {xs ys : List (Entry α β)} {e : Entry α β}

/-- The entries that end below a value hold nothing from that value on. -/
theorem not_covered_of_endsBelow (hproper : ∀ d ∈ xs, d.lo ≤ d.hi)
    (hpassed : ∀ d ∈ xs, d.EndsBelow v) (hle : v ≤ w) : ¬ Covered (xs.map Entry.block) w := by
  intro hcovered
  obtain ⟨b, hb, hbw⟩ := hcovered
  obtain ⟨d, hd, rfl⟩ := List.mem_map.mp hb
  obtain ⟨hv, _, hge⟩ := le_iff.mp hle
  have hbelow := (Entry.endsBelow_iff (hproper d hd) hv).mp (hpassed d hd)
  have hreached : place w ≤ place d.hi := (le_iff.mp hbw.2).2.2
  omega

/-- What is held from a value on begins with the entry where the search stopped. -/
theorem lo_le_of_covered (h : Ordered ((xs ++ e :: ys).map Entry.block))
    (hpassed : ∀ d ∈ xs, d.EndsBelow v) (hle : v ≤ w)
    (hw : Covered ((xs ++ e :: ys).map Entry.block) w) : e.lo ≤ w := by
  have hproper : ∀ d ∈ xs, d.lo ≤ d.hi :=
    fun d hd => h.proper d.block (List.mem_map_of_mem (List.mem_append_left _ hd))
  rw [List.map_append] at h hw
  cases covered_append.mp hw with
  | inl hw => exact absurd hw (not_covered_of_endsBelow hproper hpassed hle)
  | inr hw => exact (ordered_append.mp h).2.1.least.2 w hw

end Entries

namespace RangeSet

variable {s : RangeSet α} {p : Layout α Unit}

theorem Represents.position_spec (h : s.Represents p) (v : α) :
    (s.position v).Describes (Covered p.blocks) v := by
  have hstops := h.stops v
  have hordered := h.ascending.ordered
  have hproper := h.proper
  rw [Layout.blocks] at hordered ⊢
  generalize s.position v = position at hstops ⊢
  cases hstops with
  | @inside xs ys e hsplit hpassed hin =>
      exact ⟨e.block, List.mem_map_of_mem (by simp [hsplit]), hin⟩
  | @before xs ys e hsplit hpassed habove =>
      rw [hsplit] at hordered ⊢
      obtain ⟨hv, hlo, hplace⟩ := lt_iff.mp habove
      refine ⟨fun hcovered => ?_, e.lo, ?_, habove⟩
      · have := (le_iff.mp (lo_le_of_covered hordered hpassed hv hcovered)).2.2
        omega
      · rw [List.map_append] at hordered ⊢
        exact covered_append.mpr (.inr (ordered_append.mp hordered).2.1.least.1)
  | pastEnd hpassed =>
      refine ⟨fun hcovered => ?_, fun u hu hlt => ?_⟩
      · exact not_covered_of_endsBelow hproper hpassed hcovered.comparable hcovered
      · obtain ⟨hv, hcomp, hplace⟩ := lt_iff.mp hlt
        exact not_covered_of_endsBelow hproper hpassed ((le_iff_place hv hcomp).mpr (by omega)) hu

/-- A range of values that all belong to the set lies in the range of the set that its lower bound is
in. -/
theorem Represents.hi_le_of_covered (h : s.Represents p) {e : Entry α Unit} (he : e ∈ p.entries)
    {lo hi : α} (hin : e.block.Contains lo) (hle : lo ≤ hi)
    (hall : ∀ v, lo ≤ v ∧ v ≤ hi → Covered p.blocks v) : hi ≤ e.hi := by
  have hs : s.Sound := ⟨p, h⟩
  have hmem : e.span ∈ s.spans := h.spans_eq ▸ List.mem_map_of_mem he
  obtain ⟨r, hr, hrLo, hrHi⟩ := hs.decomposes_spans.within (t := ⟨lo, hi⟩) hle
    fun v hv => (h.contains_iff v).mpr (hall v hv)
  have heLo : place e.lo ≤ place lo := (le_iff.mp hin.1).2.2
  have heHi : place lo ≤ place e.hi := (le_iff.mp hin.2).2.2
  have hlohi := (le_iff.mp hle).2.2
  have hends : place hi ≤ place e.hi := by
    rcases hs.decomposes_spans.lt_or_eq_or_gt hmem hr with hlt | rfl | hlt
    · simp only [Entry.span] at hlt hrLo
      omega
    · exact hrHi
    · simp only [Entry.span] at hlt hrHi
      omega
  exact (le_iff_place (le_iff.mp hle).2.1 (le_iff.mp hin.2).2.1).mpr hends

theorem Represents.coverage_spec (h : s.Represents p) (lo hi : α) :
    (s.coverage lo hi).Describes (Covered p.blocks) lo hi := by
  by_cases hle : lo ≤ hi
  swap
  · rw [coverage, if_neg hle]
    exact fun v hv => absurd hv (not_between hle v)
  have hfirst : lo ≤ lo ∧ lo ≤ hi := ⟨(le_iff.mp hle).1, hle⟩
  have hposition := h.position_spec lo
  have hstops := h.stops lo
  rw [coverage, if_pos hle]
  generalize s.position lo = position at hstops hposition ⊢
  cases hstops with
  | @inside xs ys e hsplit hpassed hin =>
      have he : e ∈ p.entries := by simp [hsplit]
      simp only [h.holds.span?_eq he, Entry.span]
      split
      next hreach =>
        refine ⟨hle, fun v hv => ⟨e.block, List.mem_map_of_mem he, ?_⟩⟩
        obtain ⟨hlo, hv', hge⟩ := le_iff.mp hv.1
        obtain ⟨_, hhi, hbelow⟩ := le_iff.mp hv.2
        have hstart : place e.lo ≤ place lo := (le_iff.mp hin.1).2.2
        have hend := (le_iff.mp hreach).2.2
        rw [Block.contains_iff (h.proper e he) hv']
        simp only [Entry.lo_block, Entry.hi_block]
        omega
      next hbeyond =>
        refine ⟨⟨lo, hfirst, hposition⟩, ?_⟩
        by_contra hnone
        refine hbeyond (h.hi_le_of_covered he hin hle fun v hv => ?_)
        by_contra hnot
        exact hnone ⟨v, hv, hnot⟩
  | @before xs ys e hsplit hpassed habove =>
      have he : e ∈ p.entries := by simp [hsplit]
      have hordered := h.ascending.ordered
      rw [Layout.blocks, hsplit] at hordered
      simp only [h.holds.span?_eq he, Entry.span]
      split
      next hmeets =>
        obtain ⟨hlo, heLo, hplace⟩ := lt_iff.mp habove
        refine ⟨⟨e.lo, ⟨(le_iff_place hlo heLo).mpr (by omega), hmeets⟩, e.block,
          List.mem_map_of_mem he, heLo, h.proper e he⟩, lo, hfirst, hposition.1⟩
      next hapart =>
        intro v hv hcovered
        rw [Layout.blocks, hsplit] at hcovered
        have hstart := lo_le_of_covered hordered hpassed hv.1 hcovered
        exact not_between hapart v ⟨hstart, hv.2⟩
  | pastEnd hpassed =>
      intro v hv
      exact not_covered_of_endsBelow h.proper hpassed hv.1

theorem Sound.position_spec (h : s.Sound) (v : α) : (s.position v).Describes s.Contains v := by
  obtain ⟨p, hp⟩ := h
  rw [hp.contains_eq]
  exact hp.position_spec v

theorem Sound.coverage_spec (h : s.Sound) (lo hi : α) :
    (s.coverage lo hi).Describes s.Contains lo hi := by
  obtain ⟨p, hp⟩ := h
  rw [hp.contains_eq]
  exact hp.coverage_spec lo hi

/-! ### Exact answers -/

/-- The answers exclude each other, so the one that describes the set is the one that is given. -/
theorem Sound.coverage_eq_iff (h : s.Sound) {lo hi : α} {c : Coverage} :
    s.coverage lo hi = c ↔ c.Describes s.Contains lo hi := by
  constructor
  · rintro rfl
    exact h.coverage_spec lo hi
  · exact fun hc => (h.coverage_spec lo hi).unique hc

/-- All of a range belongs to a set when the bounds are in order and every value between them is in
the set, nothing of it does when no value between them is, and part of it does when some are and some
are not. Nothing of a range does whose bounds are not in order, such as one with a bound that compares
with nothing. -/
theorem coverage_exact (h : s.Reachable) (lo hi : α) :
    (s.coverage lo hi = .all ↔ lo ≤ hi ∧ ∀ v, lo ≤ v ∧ v ≤ hi → s.Contains v) ∧
      (s.coverage lo hi = .nothing ↔ ∀ v, lo ≤ v ∧ v ≤ hi → ¬ s.Contains v) ∧
      (s.coverage lo hi = .part ↔
        (∃ v, (lo ≤ v ∧ v ≤ hi) ∧ s.Contains v) ∧ ∃ v, (lo ≤ v ∧ v ≤ hi) ∧ ¬ s.Contains v) ∧
      (¬ lo ≤ hi → s.coverage lo hi = .nothing) ∧
      (¬ Comparable lo ∨ ¬ Comparable hi → s.coverage lo hi = .nothing) := by
  have hnothing : ¬ lo ≤ hi → s.coverage lo hi = .nothing := fun hle =>
    h.sound.coverage_eq_iff.mpr fun v hv => absurd hv (not_between hle v)
  refine ⟨h.sound.coverage_eq_iff, h.sound.coverage_eq_iff, h.sound.coverage_eq_iff, hnothing,
    fun hnone => hnothing fun hle => ?_⟩
  obtain ⟨hlo, hhi, _⟩ := le_iff.mp hle
  exact hnone.elim (absurd hlo) (absurd hhi)

/-- The single precision numbers from 1 to 2, put together from two ranges of which the second begins
with the number right after the last one of the first. -/
def oneToTwo : RangeSet (Binary .single) :=
  .ofSpans [⟨⟨0x3f800000⟩, ⟨0x3fc00000⟩⟩, ⟨⟨0x3fc00001⟩, ⟨0x40000000⟩⟩]

theorem oneToTwo_whole :
    oneToTwo.Reachable ∧ oneToTwo.coverage ⟨0x3f800000⟩ ⟨0x40000000⟩ = .all ∧
      oneToTwo.coverage ⟨0x3fc00000⟩ ⟨0x40000001⟩ = .part ∧
      oneToTwo.coverage ⟨0x7fc00000⟩ ⟨0x40000000⟩ = .nothing ∧
      (∀ v, (⟨0x3f800000⟩ : Binary .single) ≤ v ∧ v ≤ ⟨0x40000000⟩ → oneToTwo.Contains v) ∧
      ∃ v, ((⟨0x3fc00000⟩ : Binary .single) ≤ v ∧ v ≤ ⟨0x40000001⟩) ∧ ¬ oneToTwo.Contains v := by
  have hs : oneToTwo.Reachable := .ofSpans _
  have hall : oneToTwo.coverage ⟨0x3f800000⟩ ⟨0x40000000⟩ = .all := by decide +kernel
  have hpart : oneToTwo.coverage ⟨0x3fc00000⟩ ⟨0x40000001⟩ = .part := by decide +kernel
  have hNaN : ¬ Comparable (⟨0x7fc00000⟩ : Binary .single) := by decide +kernel
  obtain ⟨_, _, _, _, hnothing⟩ := coverage_exact hs ⟨0x7fc00000⟩ ⟨0x40000000⟩
  exact ⟨hs, hall, hpart, hnothing (.inl hNaN), ((coverage_exact hs _ _).1.mp hall).2,
    ((coverage_exact hs _ _).2.2.1.mp hpart).2⟩

end RangeSet

end RangeSets
