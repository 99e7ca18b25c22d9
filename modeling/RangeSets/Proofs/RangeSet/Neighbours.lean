import RangeSets.Proofs.RangeSet.Reachable
import RangeSets.Proofs.Scale.Alike
/-!
# The ends of a set and the values next to a value

The least and the greatest value of a set, the least one above a value and the greatest one below it.

The search for the value stops at an entry or behind all of them, and cuts the entries in two there.
What lies above the value begins right there, what lies below ends right before, and the links of the
entry lead to both. A value that compares with nothing has no values above it and none below.
-/

namespace RangeSets

open Scale

variable {α β : Type}

/-! ### The ranges around a slot -/

namespace Chain.Holds

variable {c : Chain α} {p : Layout α β} {xs ys : List (Entry α β)} {e : Entry α β}

theorem spanAfter?_eq (h : c.Holds p) (hsplit : p.entries = xs ++ e :: ys) :
    c.spanAfter? e.slot = ys.head?.map Entry.span := by
  rw [Chain.spanAfter?, (h.links_of_split hsplit).2, firstSlot_eq_head?]
  cases ys with
  | nil => rfl
  | cons d rest => exact h.span?_eq (by simp [hsplit])

theorem spanBefore?_eq (h : c.Holds p) (hsplit : p.entries = xs ++ e :: ys) :
    c.spanBefore? e.slot = xs.getLast?.map Entry.span := by
  rw [Chain.spanBefore?, (h.links_of_split hsplit).1, lastSlot_eq_getLast?]
  cases hlast : xs.getLast? with
  | none => rfl
  | some d => exact h.span?_eq (by simp [hsplit, List.mem_of_getLast? hlast])

end Chain.Holds

variable [Scale α]

/-! ### Where a search stops -/

/-- The position where the search for a value stops: every entry before it ends below the value. -/
inductive Position.Stops (v : α) (es : List (Entry α β)) : Position → Prop
  | inside {xs ys : List (Entry α β)} {e : Entry α β} (hsplit : es = xs ++ e :: ys)
      (hpassed : ∀ d ∈ xs, d.EndsBelow v) (hin : e.block.Contains v) :
      Position.Stops v es (.inside e.slot)
  | before {xs ys : List (Entry α β)} {e : Entry α β} (hsplit : es = xs ++ e :: ys)
      (hpassed : ∀ d ∈ xs, d.EndsBelow v) (habove : v < e.lo) :
      Position.Stops v es (.before e.slot)
  | pastEnd (hpassed : ∀ d ∈ es, d.EndsBelow v) : Position.Stops v es .pastEnd

theorem Position.Stops.cons {v : α} {es : List (Entry α β)} {e : Entry α β} {position : Position}
    (h : Position.Stops v es position) (he : e.EndsBelow v) : Position.Stops v (e :: es) position := by
  cases h with
  | inside hsplit hpassed hin =>
      exact .inside (by rw [hsplit, List.cons_append]) (List.forall_mem_cons.mpr ⟨he, hpassed⟩) hin
  | before hsplit hpassed habove =>
      exact .before (by rw [hsplit, List.cons_append]) (List.forall_mem_cons.mpr ⟨he, hpassed⟩) habove
  | pastEnd hpassed => exact .pastEnd (List.forall_mem_cons.mpr ⟨he, hpassed⟩)

theorem Position.stops {v : α} {es : List (Entry α β)} (hproper : ∀ e ∈ es, e.lo ≤ e.hi) :
    Position.Stops v es (Position.of v es) := by
  induction es with
  | nil => exact .pastEnd (by simp)
  | cons e rest ih =>
      have hhere : e :: rest = [] ++ e :: rest := rfl
      rw [Position.of]
      split
      · exact .before hhere (by simp) ‹_›
      rename_i hlt
      split
      · rename_i hle
        obtain ⟨hlo, _, _⟩ := le_iff.mp (hproper e (by simp))
        obtain ⟨hv, _, _⟩ := le_iff.mp hle
        rw [lt_iff_place hv hlo] at hlt
        exact .inside hhere (by simp) ⟨(le_iff_place hlo hv).mpr (Int.not_lt.mp hlt), hle⟩
      · exact (ih fun d hd => hproper d (by simp [hd])).cons ⟨hlt, ‹_›⟩

/-! ### The values that are asked for -/

/-- The least value with a property, or the top of the scale if no value has it. -/
structure LeastOrTop (P : α → Prop) (w : α) : Prop where
  least : (∃ v, P v) → P w ∧ ∀ v, P v → w ≤ v
  eq_top : (∀ v, ¬ P v) → w = top

/-- The greatest value with a property, or the bottom of the scale if no value has it. -/
structure GreatestOrBottom (P : α → Prop) (w : α) : Prop where
  greatest : (∃ v, P v) → P w ∧ ∀ v, P v → v ≤ w
  eq_bottom : (∀ v, ¬ P v) → w = bottom

/-- The least value with a property above a value, or none if there is no such value. -/
def LeastAbove (P : α → Prop) (v : α) : Option α → Prop
  | some w => (P w ∧ v < w) ∧ ∀ u, P u → v < u → w ≤ u
  | none => ∀ u, P u → ¬ v < u

/-- The greatest value with a property below a value, or none if there is no such value. -/
def GreatestBelow (P : α → Prop) (v : α) : Option α → Prop
  | some w => (P w ∧ w < v) ∧ ∀ u, P u → u < v → u ≤ w
  | none => ∀ u, P u → ¬ u < v

/-! ### One answer for one property

The property leaves no choice but between values that are the same number. -/

section Answers

variable {P : α → Prop} {a b v w : α}

theorem LeastOrTop.same (ha : LeastOrTop P a) (hb : LeastOrTop P b) : Same a b := by
  by_cases hex : ∃ v, P v
  · obtain ⟨hPa, hleastA⟩ := ha.least hex
    obtain ⟨hPb, hleastB⟩ := hb.least hex
    exact ⟨hleastA b hPb, hleastB a hPa⟩
  · have hnone : ∀ v, ¬ P v := fun v hv => hex ⟨v, hv⟩
    rw [ha.eq_top hnone, hb.eq_top hnone]
    exact ⟨comparable_top, comparable_top⟩

theorem GreatestOrBottom.same (ha : GreatestOrBottom P a) (hb : GreatestOrBottom P b) :
    Same a b := by
  by_cases hex : ∃ v, P v
  · obtain ⟨hPa, hgreatestA⟩ := ha.greatest hex
    obtain ⟨hPb, hgreatestB⟩ := hb.greatest hex
    exact ⟨hgreatestB a hPa, hgreatestA b hPb⟩
  · have hnone : ∀ v, ¬ P v := fun v hv => hex ⟨v, hv⟩
    rw [ha.eq_bottom hnone, hb.eq_bottom hnone]
    exact ⟨comparable_bottom, comparable_bottom⟩

theorem LeastAbove.same {a? b? : Option α} (hvw : Alike v w) (ha : LeastAbove P v a?)
    (hb : LeastAbove P w b?) : Option.Rel Same a? b? := by
  have hlt : ∀ u, v < u ↔ w < u := fun u => hvw.lt_iff (.refl u)
  simp only [LeastAbove, ← hlt] at hb
  cases a? with
  | none =>
      cases b? with
      | none => exact .none
      | some b => exact absurd hb.1.2 (ha b hb.1.1)
  | some a =>
      cases b? with
      | none => exact absurd ha.1.2 (hb a ha.1.1)
      | some b => exact .some ⟨ha.2 b hb.1.1 hb.1.2, hb.2 a ha.1.1 ha.1.2⟩

theorem GreatestBelow.same {a? b? : Option α} (hvw : Alike v w) (ha : GreatestBelow P v a?)
    (hb : GreatestBelow P w b?) : Option.Rel Same a? b? := by
  have hlt : ∀ u, u < v ↔ u < w := fun u => Alike.lt_iff (.refl u) hvw
  simp only [GreatestBelow, ← hlt] at hb
  cases a? with
  | none =>
      cases b? with
      | none => exact .none
      | some b => exact absurd hb.1.2 (ha b hb.1.1)
  | some a =>
      cases b? with
      | none => exact absurd ha.1.2 (hb a ha.1.1)
      | some b => exact .some ⟨hb.2 a ha.1.1 ha.1.2, ha.2 b hb.1.1 hb.1.2⟩

end Answers

/-! ### Entries cut in two -/

section Entries

variable {v : α} {es xs ys : List (Entry α β)} {e : Entry α β}

theorem Entry.EndsBelow.not_lt (h : e.EndsBelow v) : ¬ v < e.hi := by
  intro hlt
  obtain ⟨hv, hhi, hplace⟩ := lt_iff.mp hlt
  exact h.2 ((le_iff_place hv hhi).mpr (by omega))

theorem Entry.EndsBelow.lt (h : e.EndsBelow v) (he : e.lo ≤ e.hi) (hv : Comparable v) :
    e.hi < v :=
  (lt_iff_place (le_iff.mp he).2.1 hv).mpr ((Entry.endsBelow_iff he hv).mp h)

/-- Where the entries up to a place do not reach above a value and the next one begins above it, that
one begins with the least value above. -/
theorem leastAbove_of_split (h : Ordered ((xs ++ ys).map Entry.block)) (hxs : ∀ d ∈ xs, ¬ v < d.hi)
    (hys : ∀ d ∈ ys.head?, v < d.lo) :
    LeastAbove (Covered ((xs ++ ys).map Entry.block)) v ((ys.head?.map Entry.span).map Span.lo) := by
  rw [List.map_append] at h ⊢
  have hpassed : ∀ u, Covered (xs.map Entry.block) u → ¬ v < u := by
    intro u hu hlt
    obtain ⟨b, hb, hbu⟩ := hu
    obtain ⟨d, hd, rfl⟩ := List.mem_map.mp hb
    obtain ⟨hv, _, hplace⟩ := lt_iff.mp hlt
    obtain ⟨_, hhi, hle⟩ := le_iff.mp hbu.2
    exact hxs d hd ((lt_iff_place hv hhi).mpr (Int.lt_of_lt_of_le hplace hle))
  cases ys with
  | nil =>
      intro u hu
      exact hpassed u (by simpa using hu)
  | cons e rest =>
      obtain ⟨hcovered, hleast⟩ := (ordered_append.mp h).2.1.least
      refine ⟨⟨covered_append.mpr (.inr hcovered), hys e (by simp)⟩, fun u hu hlt => ?_⟩
      rcases covered_append.mp hu with hu | hu
      · exact absurd hlt (hpassed u hu)
      · exact hleast u hu

theorem greatestBelow_of_split (h : Ordered ((xs ++ ys).map Entry.block))
    (hxs : ∀ d ∈ xs.getLast?, d.hi < v) (hys : ∀ d ∈ ys, ¬ d.lo < v) :
    GreatestBelow (Covered ((xs ++ ys).map Entry.block)) v
      ((xs.getLast?.map Entry.span).map Span.hi) := by
  rw [List.map_append] at h ⊢
  have hpassed : ∀ u, Covered (ys.map Entry.block) u → ¬ u < v := by
    intro u hu hlt
    obtain ⟨b, hb, hbu⟩ := hu
    obtain ⟨d, hd, rfl⟩ := List.mem_map.mp hb
    obtain ⟨_, hv, hplace⟩ := lt_iff.mp hlt
    obtain ⟨hlo, _, hge⟩ := le_iff.mp hbu.1
    exact hys d hd ((lt_iff_place hlo hv).mpr (Int.lt_of_le_of_lt hge hplace))
  rcases List.eq_nil_or_concat xs with rfl | ⟨ds, d, rfl⟩
  · intro u hu
    exact hpassed u (by simpa using hu)
  · rw [List.concat_eq_append, List.map_append] at h ⊢
    rw [List.concat_eq_append] at hxs
    rw [List.getLast?_append, List.getLast?_singleton] at hxs ⊢
    obtain ⟨hcovered, hgreatest⟩ := (ordered_append.mp h).1.greatest
    refine ⟨⟨covered_append.mpr (.inl hcovered), hxs d rfl⟩, fun u hu hlt => ?_⟩
    rcases covered_append.mp hu with hu | hu
    · exact hgreatest u hu
    · exact absurd hlt (hpassed u hu)

theorem leastAbove_next (he : e ∈ es) (hin : e.block.Contains v) (hlt : v < e.hi) :
    LeastAbove (Covered (es.map Entry.block)) v (some (next v)) := by
  obtain ⟨hlo, _, hge⟩ := le_iff.mp hin.1
  obtain ⟨hv, hhi, hplace⟩ := lt_iff.mp hlt
  have hnext := comparable_next hv
  have hstep := place_next_of_lt hlt
  have hcontains : e.block.Contains (next v) :=
    ⟨(le_iff_place hlo hnext).mpr (by omega), (le_iff_place hnext hhi).mpr (by omega)⟩
  refine ⟨⟨⟨_, List.mem_map_of_mem he, hcontains⟩, (lt_iff_place hv hnext).mpr (by omega)⟩,
    fun u _ hu => (next_le_iff hlt u).mpr hu⟩

theorem greatestBelow_prev (he : e ∈ es) (hin : e.block.Contains v) (hlt : e.lo < v) :
    GreatestBelow (Covered (es.map Entry.block)) v (some (prev v)) := by
  obtain ⟨_, hhi, hle⟩ := le_iff.mp hin.2
  obtain ⟨hlo, hv, hplace⟩ := lt_iff.mp hlt
  have hprev := comparable_prev hv
  have hstep := place_prev_of_lt hlt
  have hcontains : e.block.Contains (prev v) :=
    ⟨(le_iff_place hlo hprev).mpr (by omega), (le_iff_place hprev hhi).mpr (by omega)⟩
  refine ⟨⟨⟨_, List.mem_map_of_mem he, hcontains⟩, (lt_iff_place hprev hv).mpr (by omega)⟩,
    fun u _ hu => (le_prev_iff hlt u).mpr hu⟩

/-- The entries behind one that a value is in, or below, do not begin below the value. -/
theorem not_lt_of_split (h : Ordered ((xs ++ e :: ys).map Entry.block)) (hle : v ≤ e.hi) :
    ∀ d ∈ ys, v < d.lo ∧ ¬ d.lo < v := by
  obtain ⟨hv, hhi, hplace⟩ := le_iff.mp hle
  rw [List.map_append, ordered_append] at h
  obtain ⟨hbefore, hys⟩ := List.pairwise_cons.mp h.2.1.before
  intro d hd
  have hgap : place e.hi < place d.lo := hbefore d.block (List.mem_map_of_mem hd)
  have hlo : Comparable d.lo := (le_iff.mp (h.2.1.proper d.block (by simp [List.mem_map_of_mem hd]))).1
  rw [lt_iff_place hv hlo, lt_iff_place hlo hv]
  omega

end Entries

/-! ### What a set answers -/

namespace RangeSet

variable {s : RangeSet α} {p : Layout α Unit}

theorem Represents.contains_eq (h : s.Represents p) : s.Contains = Covered p.blocks :=
  funext fun v => propext (h.contains_iff v)

theorem Represents.proper (h : s.Represents p) : ∀ e ∈ p.entries, e.lo ≤ e.hi :=
  fun e he => h.ascending.proper e.block (List.mem_map_of_mem he)

theorem Represents.stops (h : s.Represents p) (v : α) :
    Position.Stops v p.entries (s.position v) := by
  rw [position, h.entries_eq]
  exact Position.stops h.proper

theorem Represents.above?_spec (h : s.Represents p) (v : α) :
    LeastAbove (Covered p.blocks) v (s.above? v) := by
  have hstops := h.stops v
  have hordered := h.ascending.ordered
  rw [Layout.blocks] at hordered ⊢
  rw [above?]
  generalize s.position v = position at hstops ⊢
  cases hstops with
  | @inside xs ys e hsplit hpassed hin =>
      have he : e ∈ p.entries := by simp [hsplit]
      simp only [h.holds.span?_eq he, h.holds.spanAfter?_eq hsplit, Entry.span]
      split
      · exact leastAbove_next he hin ‹_›
      · rw [hsplit] at hordered ⊢
        have hys := not_lt_of_split hordered hin.2
        rw [List.append_cons] at hordered ⊢
        refine leastAbove_of_split hordered (List.forall_mem_append.mpr ⟨?_, ?_⟩) ?_
        · exact fun d hd => (hpassed d hd).not_lt
        · simpa using ‹¬ v < e.hi›
        · exact fun d hd => (hys d (List.mem_of_mem_head? hd)).1
  | @before xs ys e hsplit hpassed habove =>
      simp only [h.holds.span?_eq (show e ∈ p.entries by simp [hsplit])]
      rw [hsplit] at hordered ⊢
      have hfirst : ∀ d ∈ (e :: ys).head?, v < d.lo := by simpa using habove
      exact leastAbove_of_split hordered (fun d hd => (hpassed d hd).not_lt) hfirst
  | pastEnd hpassed =>
      rw [← List.append_nil p.entries] at hordered ⊢
      exact leastAbove_of_split hordered (fun d hd => (hpassed d hd).not_lt) (by simp)

theorem Represents.below?_spec (h : s.Represents p) (v : α) :
    GreatestBelow (Covered p.blocks) v (s.below? v) := by
  have hproper := h.proper
  have hstops := h.stops v
  have hordered := h.ascending.ordered
  rw [Layout.blocks] at hordered ⊢
  rw [below?]
  generalize s.position v = position at hstops ⊢
  cases hstops with
  | @inside xs ys e hsplit hpassed hin =>
      have he : e ∈ p.entries := by simp [hsplit]
      simp only [h.holds.span?_eq he, h.holds.spanBefore?_eq hsplit, Entry.span]
      split
      · exact greatestBelow_prev he hin ‹_›
      · have hpassed := fun d hd => (hpassed d hd).lt (hproper d (by simp [hsplit, hd])) hin.comparable
        rw [hsplit] at hordered ⊢
        have hys := not_lt_of_split hordered hin.2
        refine greatestBelow_of_split hordered ?_ (List.forall_mem_cons.mpr ⟨‹_›, ?_⟩)
        · exact fun d hd => hpassed d (List.mem_of_getLast? hd)
        · exact fun d hd => (hys d hd).2
  | @before xs ys e hsplit hpassed habove =>
      obtain ⟨hv, hlo, hplace⟩ := lt_iff.mp habove
      obtain ⟨_, hhi, hle⟩ := le_iff.mp (hproper e (by simp [hsplit]))
      have hpassed := fun d hd => (hpassed d hd).lt (hproper d (by simp [hsplit, hd])) hv
      simp only [h.holds.spanBefore?_eq hsplit]
      rw [hsplit] at hordered ⊢
      have hys := not_lt_of_split hordered ((le_iff_place hv hhi).mpr (by omega))
      refine greatestBelow_of_split hordered ?_ (List.forall_mem_cons.mpr ⟨?_, ?_⟩)
      · exact fun d hd => hpassed d (List.mem_of_getLast? hd)
      · rw [lt_iff_place hlo hv]
        omega
      · exact fun d hd => (hys d hd).2
  | pastEnd hpassed =>
      simp only [h.holds.last?_eq]
      by_cases hv : Comparable v
      · have hpassed := fun d hd => (hpassed d hd).lt (hproper d hd) hv
        have hlast : ((p.entries.getLast?.map Entry.span).map Span.hi).filter (fun hi => hi < v) =
            (p.entries.getLast?.map Entry.span).map Span.hi := by
          cases hlast : p.entries.getLast? with
          | none => rfl
          | some e => simp [Entry.span, hpassed e (List.mem_of_getLast? hlast)]
        rw [← List.append_nil p.entries] at hordered
        have hgreatest := greatestBelow_of_split (v := v) hordered
          (fun d hd => hpassed d (List.mem_of_getLast? hd)) (by simp)
        rw [hlast]
        rwa [List.append_nil] at hgreatest
      · have hnone : ∀ u, ¬ u < v := fun u hu => hv (lt_iff.mp hu).2.1
        cases p.entries.getLast? <;> simp [Option.filter, GreatestBelow, hnone]

theorem Sound.above?_spec (h : s.Sound) (v : α) : LeastAbove s.Contains v (s.above? v) := by
  obtain ⟨p, hp⟩ := h
  rw [hp.contains_eq]
  exact hp.above?_spec v

theorem Sound.below?_spec (h : s.Sound) (v : α) : GreatestBelow s.Contains v (s.below? v) := by
  obtain ⟨p, hp⟩ := h
  rw [hp.contains_eq]
  exact hp.below?_spec v

theorem Sound.min_spec (h : s.Sound) : LeastOrTop s.Contains s.min := by
  obtain ⟨p, hp⟩ := h
  obtain ⟨hleast, htop⟩ := hp.holds.least hp.ascending.ordered
  rw [hp.contains_eq]
  exact ⟨hleast, htop⟩

theorem Sound.max_spec (h : s.Sound) : GreatestOrBottom s.Contains s.max := by
  obtain ⟨p, hp⟩ := h
  obtain ⟨hgreatest, hbottom⟩ := hp.holds.greatest hp.ascending.ordered
  rw [hp.contains_eq]
  exact ⟨hgreatest, hbottom⟩

theorem Sound.isEmpty_iff (h : s.Sound) : s.IsEmpty ↔ ∀ v, ¬ s.Contains v := by
  obtain ⟨p, hp⟩ := h
  rw [IsEmpty, hp.contains_eq, Layout.blocks, hp.holds.threads.1]
  cases hentries : p.entries with
  | nil => simp
  | cons e rest =>
      have hordered := hp.ascending.ordered
      rw [Layout.blocks, hentries] at hordered
      simp only [firstSlot_cons, reduceCtorEq, false_iff]
      exact fun hnone => hnone e.lo hordered.least.1

end RangeSet

end RangeSets
