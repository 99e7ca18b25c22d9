import RangeSets.Proofs.RangeSet.Coverage
/-!
# Searching and walking by slot numbers

A search for a value answers with the number of a slot, and a walk goes from slot to slot along the
links. Slots are used again in whatever order they were given back, so that their numbers say
nothing about the order of the ranges. Still the slot of a search is the one whose range the value
is in, or the first one along the links whose range begins above it, and a walk comes by each range
of the set once, from the lowest to the highest.
-/

namespace RangeSets

open Scale

namespace Chain

variable {α β : Type} {c : Chain α} {p : Layout α β}

/-- The slot that is reached by following the links from the head a number of times. -/
def nthSlot? (c : Chain α) : Nat → Option Nat
  | 0 => c.head
  | n + 1 => (c.nthSlot? n).bind c.next?

theorem Holds.nthSlot?_eq (h : c.Holds p) (n : Nat) :
    c.nthSlot? n = (p.entries.map Entry.slot)[n]? := by
  induction n with
  | zero => rw [nthSlot?, h.threads.1, firstSlot_eq_head?, ← List.head?_map, List.head?_eq_getElem?]
  | succ n ih =>
      rw [nthSlot?, ih, List.getElem?_map, List.getElem?_map]
      rcases Nat.lt_or_ge n p.entries.length with hlt | hge
      · have hsplit : p.entries = p.entries.take n ++ p.entries[n] :: p.entries.drop (n + 1) := by
          rw [List.getElem_cons_drop, List.take_append_drop]
        rw [List.getElem?_eq_getElem hlt, Option.map_some, Option.bind_some,
          (h.links_of_split hsplit).2, firstSlot_eq_head?, List.head?_drop]
      · rw [List.getElem?_eq_none hge, List.getElem?_eq_none (Nat.le_succ_of_le hge)]
        rfl

variable [Scale α]

/-- A slot has the first range, along the links, that begins above a value. All ranges before it end
below the value. -/
structure FirstAbove (c : Chain α) (v : α) (i : Nat) : Prop where
  begins_above : ∃ r, c.span? i = some r ∧ v < r.lo
  passed : ∃ n, c.nthSlot? n = some i ∧
    ∀ m < n, ∃ j r, c.nthSlot? m = some j ∧ c.span? j = some r ∧ r.lo < v ∧ r.hi < v
  before : ∀ j, c.prev? i = some j → ∃ r, c.span? j = some r ∧ r.hi < v

theorem Holds.firstAbove (h : c.Holds p) {xs ys : List (Entry α β)} {e : Entry α β} {v : α}
    (hproper : ∀ d ∈ p.entries, d.lo ≤ d.hi) (hsplit : p.entries = xs ++ e :: ys)
    (hpassed : ∀ d ∈ xs, d.EndsBelow v) (habove : v < e.lo) : c.FirstAbove v e.slot := by
  have hv := (lt_iff.mp habove).1
  have hmem : ∀ d ∈ xs, d ∈ p.entries := fun d hd => hsplit ▸ List.mem_append_left _ hd
  have hends : ∀ d ∈ xs, d.lo < v ∧ d.hi < v := by
    intro d hd
    have hhi := (hpassed d hd).lt (hproper d (hmem d hd)) hv
    exact ⟨le_lt_trans (hproper d (hmem d hd)) hhi, hhi⟩
  refine ⟨⟨e.span, h.span?_eq (by simp [hsplit]), habove⟩, ⟨xs.length, ?_, fun m hm => ?_⟩, ?_⟩
  · simp [h.nthSlot?_eq, hsplit]
  · have hd : xs[m] ∈ xs := List.getElem_mem hm
    refine ⟨xs[m].slot, xs[m].span, ?_, h.span?_eq (hmem _ hd), hends _ hd⟩
    simp [h.nthSlot?_eq, hsplit, List.getElem?_append_left, hm]
  · intro j hj
    rw [(h.links_of_split hsplit).1, lastSlot_eq_getLast?] at hj
    obtain ⟨d, hlast, rfl⟩ := Option.map_eq_some_iff.mp hj
    have hd := List.mem_of_getLast? hlast
    exact ⟨d.span, h.span?_eq (hmem d hd), (hends d hd).2⟩

end Chain

namespace RangeSet

variable {α : Type} [Scale α] {s : RangeSet α} {p : Layout α Unit}

/-- What a search for a value says, and what is known of the slot that it answers with. -/
structure Locates (s : RangeSet α) (v : α) : Prop where
  inside_iff : (∃ i, s.position v = .inside i) ↔ s.Contains v
  inside : ∀ i, s.position v = .inside i →
    i ∈ s.chain.live ∧ ∃ r, s.chain.span? i = some r ∧ r.Contains v
  before_iff : (∃ i, s.position v = .before i) ↔
    Comparable v ∧ ¬ s.Contains v ∧ ∃ u, s.Contains u ∧ v < u
  before : ∀ i, s.position v = .before i → i ∈ s.chain.live ∧ s.chain.FirstAbove v i
  pastEnd_iff : s.position v = .pastEnd ↔
    ¬ Comparable v ∨ (∀ u, s.Contains u → u < v) ∨ s.IsEmpty
  slot?_iff : ∀ i, s.slot? v = some i ↔ s.position v = .inside i

theorem slot?_eq_some_iff {v : α} {i : Nat} : s.slot? v = some i ↔ s.position v = .inside i := by
  rw [slot?]
  cases s.position v <;> simp

theorem exists_inside_iff {v : α} : (∃ i, s.position v = .inside i) ↔ s.Contains v := by
  simp only [Contains, Option.isSome_iff_exists, slot?_eq_some_iff]

theorem Sound.exists_before_iff (h : s.Sound) {v : α} : (∃ i, s.position v = .before i) ↔
    ¬ s.Contains v ∧ ∃ u, s.Contains u ∧ v < u := by
  have hspec := h.position_spec v
  cases hposition : s.position v with
  | inside i =>
      rw [hposition] at hspec
      exact iff_of_false (by simp) fun hout => hout.1 hspec
  | before i =>
      rw [hposition] at hspec
      exact iff_of_true ⟨i, rfl⟩ hspec
  | pastEnd =>
      rw [hposition] at hspec
      exact iff_of_false (by simp) fun ⟨_, u, hu, hlt⟩ => hspec.2 u hu hlt

theorem Sound.eq_pastEnd_iff (h : s.Sound) {v : α} : s.position v = .pastEnd ↔
    ¬ s.Contains v ∧ ∀ u, s.Contains u → ¬ v < u := by
  have hspec := h.position_spec v
  cases hposition : s.position v with
  | inside i =>
      rw [hposition] at hspec
      exact iff_of_false (by simp) fun hout => hout.1 hspec
  | before i =>
      rw [hposition] at hspec
      obtain ⟨_, u, hu, hlt⟩ := hspec
      exact iff_of_false (by simp) fun hnone => hnone.2 u hu hlt
  | pastEnd =>
      rw [hposition] at hspec
      exact iff_of_true rfl hspec

/-- A value past all ranges is above all of the set, if it compares at all. -/
theorem Represents.lt_of_pastEnd (h : s.Represents p) {v : α} (hend : s.position v = .pastEnd)
    (hv : Comparable v) {u : α} (hu : s.Contains u) : u < v := by
  have hstops := h.stops v
  rw [hend] at hstops
  cases hstops with
  | pastEnd hpassed =>
      obtain ⟨b, hb, hbu⟩ := (h.contains_iff u).mp hu
      obtain ⟨d, hd, rfl⟩ := List.mem_map.mp hb
      exact le_lt_trans hbu.2 ((hpassed d hd).lt (h.proper d hd) hv)

theorem Represents.locates (h : s.Represents p) (v : α) : s.Locates v where
  inside_iff := exists_inside_iff
  inside i hi := by
    have hstops := h.stops v
    rw [hi] at hstops
    cases hstops with
    | @inside xs ys e hsplit _ hin =>
        have he : e ∈ p.entries := by simp [hsplit]
        refine ⟨?_, e.span, h.holds.span?_eq he, hin⟩
        rw [h.holds.live_eq]
        exact List.mem_map_of_mem he
  before_iff := by
    rw [Sound.exists_before_iff ⟨p, h⟩, iff_and_self]
    rintro ⟨_, u, _, hlt⟩
    exact (lt_iff.mp hlt).1
  before i hi := by
    have hstops := h.stops v
    rw [hi] at hstops
    cases hstops with
    | @before xs ys e hsplit hpassed habove =>
        refine ⟨?_, h.holds.firstAbove h.proper hsplit hpassed habove⟩
        simp [h.holds.live_eq, hsplit]
  pastEnd_iff := by
    have hs : s.Sound := ⟨p, h⟩
    constructor
    · intro hend
      by_cases hv : Comparable v
      · exact .inr (.inl fun u hu => h.lt_of_pastEnd hend hv hu)
      · exact .inl hv
    · intro hcases
      -- in each of the three cases no value of the set is this one or above it
      have hnone : ∀ u, s.Contains u → ¬ v ≤ u := by
        intro u hu hle
        rcases hcases with hv | habove | hempty
        · exact hv (le_iff.mp hle).1
        · have := (le_iff.mp hle).2.2
          have := (lt_iff.mp (habove u hu)).2.2
          omega
        · exact hs.isEmpty_iff.mp hempty u hu
      refine hs.eq_pastEnd_iff.mpr ⟨fun hv => hnone v hv (hs.comparable hv), fun u hu hlt => ?_⟩
      obtain ⟨hv, hcomp, hplace⟩ := lt_iff.mp hlt
      exact hnone u hu ((le_iff_place hv hcomp).mpr (by omega))
  slot?_iff _ := slot?_eq_some_iff

/-- A walk along the links visits these slots and then ends. It comes by the ranges of the set,
which ascend and hold just the values of the set. -/
structure WalksAlong (s : RangeSet α) (slots : List Nat) : Prop where
  nthSlot?_eq : ∀ n, s.chain.nthSlot? n = slots[n]?
  nodup : slots.Nodup
  length_eq : slots.length = s.count
  spans_eq : slots.map s.chain.span? = s.spans.map some
  proper : ∀ r ∈ s.spans, r.lo ≤ r.hi
  ascending : s.spans.Pairwise fun r t => r.hi < t.lo
  contains_iff : ∀ v, s.Contains v ↔ ∃ r ∈ s.spans, r.Contains v

theorem Represents.walksAlong (h : s.Represents p) : s.WalksAlong s.chain.live where
  nthSlot?_eq n := by rw [h.holds.nthSlot?_eq, h.holds.live_eq]
  nodup := by
    rw [h.holds.live_eq]
    exact (List.nodup_append.mp h.holds.nodup).1
  length_eq := by rw [count, h.holds.size_eq, h.holds.live_eq, List.length_map]
  spans_eq := by
    rw [h.holds.live_eq, h.spans_eq, List.map_map, List.map_map]
    exact List.map_congr_left fun e he => h.holds.span?_eq he
  proper := h.invariant.proper
  ascending := h.invariant.apart.imp And.left
  contains_iff := (Sound.decomposes_spans ⟨p, h⟩).mem_iff

/-- A search tells apart the values of the set, the others that have one above them, and those past
all of the set, and answers with the slot that the links come to first. A walk along the links comes
by each range once, in ascending order. -/
theorem searched_and_walked (h : s.Reachable) :
    (∀ v, s.Locates v) ∧ s.WalksAlong s.chain.live := by
  obtain ⟨p, hp⟩ := h.sound
  exact ⟨hp.locates, hp.walksAlong⟩

/-- Two ranges of octets, the higher one in the slot with the lower number. -/
def upperFirst : RangeSet Octet :=
  .ofSpans [⟨.ofInt 50, .ofInt 60⟩, ⟨.ofInt 10, .ofInt 20⟩]

theorem upperFirst_searched_and_walked :
    upperFirst.Reachable ∧ upperFirst.chain.live = [1, 0] ∧
      upperFirst.position (.ofInt 10) = .inside 1 ∧ upperFirst.position (.ofInt 30) = .before 0 ∧
      upperFirst.position (.ofInt 61) = .pastEnd ∧
      (∀ v, upperFirst.Locates v) ∧ upperFirst.WalksAlong upperFirst.chain.live := by
  have hreach : upperFirst.Reachable := .ofSpans _
  exact ⟨hreach, by decide +kernel, by decide +kernel, by decide +kernel, by decide +kernel,
    searched_and_walked hreach⟩

end RangeSet

end RangeSets
