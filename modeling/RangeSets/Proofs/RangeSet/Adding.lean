import RangeSets.Proofs.RangeSet.Contents
import RangeSets.RangeSet.Mutation
/-!
# Adding a range

A range that is added is joined with the ranges that it touches, and then with the neighbour on
either side that it comes right next to. Each end of what goes into the chain is looked at by
itself: the lower end depends on the first range touched and on the last one below, the upper end on
the last range touched and on the first one above. Between the ends lie exactly the values of the
range and of all that was taken into it.
-/

namespace RangeSets.RangeSet

open Scale Layout

variable {α : Type}

/-! ### The edits of an addition -/

def sparesAfter (touched : List (Entry α Unit)) (spares : List Nat) : List Nat :=
  (touched.map Entry.slot).reverse ++ spares

theorem steps_joinEdits (cut : Cut α Unit) (spares : List Nat) (lo hi : α) :
    Steps ⟨cut.below ++ cut.touched ++ cut.above, spares⟩ (joinEdits cut lo hi)
      ⟨cut.below ++
          ⟨nextSlot ⟨cut.below ++ cut.above, sparesAfter cut.touched spares⟩, lo, hi, ()⟩ ::
            cut.above,
        (sparesAfter cut.touched spares).tail⟩ := by
  obtain ⟨below, touched, above⟩ := cut
  unfold joinEdits
  cases touched with
  | nil =>
      simp only [← firstSlot_eq_head?, List.append_nil]
      exact (Step.placeBefore below above spares lo hi ()).single
  | cons e rest =>
      simp only [← lastSlot_eq_getLast?]
      exact (Steps.retire_all below (e :: rest) above spares).append
        (Step.placeAfter below above _ lo hi ()).single

theorem steps_retire_around (xs ls : List (Entry α Unit)) (e : Entry α Unit)
    (us ys : List (Entry α Unit)) (spares : List Nat) :
    Steps ⟨(xs ++ ls) ++ e :: (us ++ ys), spares⟩ ((ls ++ us).map fun d => .retire d.slot)
      ⟨xs ++ e :: ys, sparesAfter (ls ++ us) spares⟩ := by
  have hlower := Steps.retire_all xs ls (e :: (us ++ ys)) spares
  have hupper := Steps.retire_all (xs ++ [e]) us ys (sparesAfter ls spares)
  simp only [sparesAfter, List.append_assoc, List.singleton_append, List.map_append,
    List.reverse_append] at hlower hupper ⊢
  exact hlower.append hupper

variable [Scale α] {lo hi : α}

/-! ### The ends of a range joined with all that it touches -/

theorem joinedLo_spec {ts : List (Entry α Unit)} (hts : Ordered (ts.map Entry.block))
    (hlo : Comparable lo) (htouch : ∀ t ∈ ts, place lo ≤ place t.hi) :
    Comparable (joinedLo lo ts) ∧ place (joinedLo lo ts) ≤ place lo ∧
      (∀ t ∈ ts, place (joinedLo lo ts) ≤ place t.lo) ∧
      (place (joinedLo lo ts) = place lo ∨
        ∃ t ∈ ts, place (joinedLo lo ts) = place t.lo ∧ place lo ≤ place t.hi) := by
  cases ts with
  | nil => simp [joinedLo, hlo]
  | cons e rest =>
      have heLo : Comparable e.lo := (le_iff.mp (hts.proper e.block (by simp))).1
      have hleast := hts.lo_head_le
      have hplace := place_lowerOf hlo heLo
      refine ⟨comparable_lowerOf hlo heLo, ?_, ?_, ?_⟩
      · simp only [joinedLo, List.head?_cons]
        omega
      · intro t ht
        have := hleast t.block (List.mem_map_of_mem ht)
        simp only [joinedLo, List.head?_cons, Entry.lo_block] at *
        omega
      · simp only [joinedLo, List.head?_cons, hplace]
        rcases Int.le_total (place lo) (place e.lo) with hle | hle
        · exact .inl (Int.min_eq_left hle)
        · exact .inr ⟨e, by simp, Int.min_eq_right hle, htouch e (by simp)⟩

theorem joinedHi_spec {ts : List (Entry α Unit)} (hts : Ordered (ts.map Entry.block))
    (hhi : Comparable hi) (htouch : ∀ t ∈ ts, place t.lo ≤ place hi) :
    Comparable (joinedHi hi ts) ∧ place hi ≤ place (joinedHi hi ts) ∧
      (∀ t ∈ ts, place t.hi ≤ place (joinedHi hi ts)) ∧
      (place (joinedHi hi ts) = place hi ∨
        ∃ t ∈ ts, place (joinedHi hi ts) = place t.hi ∧ place t.lo ≤ place hi) := by
  rcases List.eq_nil_or_concat ts with rfl | ⟨zs, e, rfl⟩
  · simp [joinedHi, hhi]
  · rw [List.concat_eq_append] at hts htouch ⊢
    have hjoined : joinedHi hi (zs ++ [e]) = higherOf e.hi hi := by simp [joinedHi]
    have heHi : Comparable e.hi := (le_iff.mp (hts.proper e.block (by simp))).2.1
    rw [List.map_append] at hts
    have hmost := hts.hi_le_last
    have hplace := place_higherOf heHi hhi
    rw [hjoined]
    refine ⟨comparable_higherOf heHi hhi, ?_, ?_, ?_⟩
    · omega
    · intro t ht
      have := hmost t.block (by simpa using List.mem_map_of_mem (f := Entry.block) ht)
      simp only [Entry.hi_block] at this
      omega
    · rw [hplace]
      rcases Int.le_total (place e.hi) (place hi) with hle | hle
      · exact .inl (Int.max_eq_right hle)
      · exact .inr ⟨e, by simp, Int.max_eq_left hle, htouch e (by simp)⟩

/-- Between the ends of a joined range lie the values of the range and of all that it touches. -/
theorem between_joined {ts : List (Entry α Unit)} (hts : Ordered (ts.map Entry.block))
    (hle : lo ≤ hi) (htouch : ∀ t ∈ ts, place lo ≤ place t.hi ∧ place t.lo ≤ place hi) {v : α}
    (hv : Comparable v) :
    place (joinedLo lo ts) ≤ place v ∧ place v ≤ place (joinedHi hi ts) ↔
      Covered (ts.map Entry.block) v ∨ (lo ≤ v ∧ v ≤ hi) := by
  obtain ⟨hlo, hhi, _⟩ := le_iff.mp hle
  obtain ⟨_, hleLo, hallLo, hexLo⟩ := joinedLo_spec hts hlo fun t ht => (htouch t ht).1
  obtain ⟨_, hleHi, hallHi, hexHi⟩ := joinedHi_spec hts hhi fun t ht => (htouch t ht).2
  rw [le_iff_place hlo hv, le_iff_place hv hhi]
  have hcontains : ∀ t ∈ ts,
      (t.block.Contains v ↔ place t.lo ≤ place v ∧ place v ≤ place t.hi) :=
    fun t ht => Block.contains_iff (hts.proper t.block (List.mem_map_of_mem ht)) hv
  refine ⟨fun ⟨hge, hleV⟩ => ?_, fun h => ?_⟩
  · by_cases hbelow : place v < place lo
    · rcases hexLo with heq | ⟨t, ht, heq, hreach⟩
      · omega
      · exact .inl ⟨t.block, List.mem_map_of_mem ht, (hcontains t ht).mpr (by omega)⟩
    · by_cases habove : place hi < place v
      · rcases hexHi with heq | ⟨t, ht, heq, hreach⟩
        · omega
        · exact .inl ⟨t.block, List.mem_map_of_mem ht, (hcontains t ht).mpr (by omega)⟩
      · exact .inr (by omega)
  · rcases h with ⟨b, hb, hbv⟩ | ⟨hge, hleV⟩
    · obtain ⟨t, ht, rfl⟩ := List.mem_map.mp hb
      have hbetween := (hcontains t ht).mp hbv
      have := hallLo t ht
      have := hallHi t ht
      omega
    · omega

/-! ### Neighbours taken in -/

/-- The last range of a list, if it ends right before a value. -/
def lower? (first : α) (below : List (Entry α Unit)) : Option (Entry α Unit) :=
  below.getLast?.filter fun e => Adjacent e.hi first

/-- The first range of a list, if it begins right after a value. -/
def upper? (last : α) (above : List (Entry α Unit)) : Option (Entry α Unit) :=
  above.head?.filter fun e => Adjacent last e.lo

/-- The lower end of what goes into the chain. -/
def least (first : α) (below : List (Entry α Unit)) : α :=
  ((lower? first below).map Entry.lo).getD first

/-- The upper end of what goes into the chain. -/
def most (last : α) (above : List (Entry α Unit)) : α :=
  ((upper? last above).map Entry.hi).getD last

/-- The lower end is apart from all that is left below, and what was taken in there lies between it
and the first value. -/
theorem absorb_below {below : List (Entry α Unit)} {first : α}
    (hbelow : Ascending (below.map Entry.block)) (hfirst : Comparable first)
    (hlt : ∀ e ∈ below, place e.hi < place first) :
    ∃ xs, below = xs ++ (lower? first below).toList ∧ Comparable (least first below) ∧
      place (least first below) ≤ place first ∧
      (∀ e ∈ xs, place e.hi + 1 < place (least first below)) ∧
      ∀ n, (place (least first below) ≤ n ∧ n < place first ↔
        ∃ e ∈ (lower? first below).toList, place e.lo ≤ n ∧ n ≤ place e.hi) := by
  unfold least lower?
  rcases List.eq_nil_or_concat below with rfl | ⟨zs, e, rfl⟩
  · exact ⟨[], by simp [hfirst]⟩
  · rw [List.concat_eq_append] at hbelow hlt ⊢
    rw [List.map_append, List.map_cons, List.map_nil, ascending_append] at hbelow
    obtain ⟨_, he, hacross⟩ := hbelow
    obtain ⟨hlo, hhi, hle⟩ := le_iff.mp (he.proper e.block (by simp))
    have hbefore : ∀ d ∈ zs, place d.hi + 1 < place e.lo := fun d hd =>
      Block.apart_unit.mp (hacross d.block (List.mem_map_of_mem hd) e.block (by simp))
    have hgap := hlt e (by simp)
    simp only [Entry.lo_block, Entry.hi_block] at hlo hhi hle
    rw [List.getLast?_append, List.getLast?_singleton, Option.some_or, Option.filter_some]
    split
    · rename_i hadjacent
      rw [decide_eq_true_eq, adjacent_iff] at hadjacent
      refine ⟨zs, by simp, hlo, ?_, hbefore, fun n => ?_⟩
      · simp only [Option.map_some, Option.getD_some]
        omega
      · simp only [Option.map_some, Option.getD_some, Option.toList_some, List.mem_singleton,
          exists_eq_left]
        omega
    · rename_i hapart
      rw [decide_eq_true_eq, adjacent_iff] at hapart
      have hne : place e.hi + 1 ≠ place first := fun heq => hapart ⟨hhi, hfirst, heq⟩
      refine ⟨zs ++ [e], by simp, hfirst, Int.le_refl _, ?_, fun n => ?_⟩
      · intro d hd
        simp only [Option.map_none, Option.getD_none]
        rcases List.mem_append.mp hd with hd | hd
        · have := hbefore d hd
          omega
        · obtain rfl : d = e := by simpa using hd
          omega
      · simp

/-- The upper end is apart from all that is left above, and what was taken in there lies between the
last value and it. -/
theorem absorb_above {above : List (Entry α Unit)} {last : α}
    (habove : Ascending (above.map Entry.block)) (hlast : Comparable last)
    (hlt : ∀ e ∈ above, place last < place e.lo) :
    ∃ ys, above = (upper? last above).toList ++ ys ∧ Comparable (most last above) ∧
      place last ≤ place (most last above) ∧
      (∀ e ∈ ys, place (most last above) + 1 < place e.lo) ∧
      ∀ n, (place last < n ∧ n ≤ place (most last above) ↔
        ∃ e ∈ (upper? last above).toList, place e.lo ≤ n ∧ n ≤ place e.hi) := by
  unfold most upper?
  cases above with
  | nil => exact ⟨[], by simp [hlast]⟩
  | cons e rest =>
      obtain ⟨hlo, hhi, hle⟩ := le_iff.mp (habove.proper e.block (by simp))
      have hafter : ∀ d ∈ rest, place e.hi + 1 < place d.lo := fun d hd =>
        Block.apart_unit.mp ((List.pairwise_cons.mp habove.apart).1 d.block
          (List.mem_map_of_mem hd))
      have hgap := hlt e (by simp)
      simp only [Entry.lo_block, Entry.hi_block] at hlo hhi hle
      rw [List.head?_cons, Option.filter_some]
      split
      · rename_i hadjacent
        rw [decide_eq_true_eq, adjacent_iff] at hadjacent
        refine ⟨rest, by simp, hhi, ?_, hafter, fun n => ?_⟩
        · simp only [Option.map_some, Option.getD_some]
          omega
        · simp only [Option.map_some, Option.getD_some, Option.toList_some, List.mem_singleton,
            exists_eq_left]
          omega
      · rename_i hapart
        rw [decide_eq_true_eq, adjacent_iff] at hapart
        have hne : place last + 1 ≠ place e.lo := fun heq => hapart ⟨hlast, hlo, heq⟩
        refine ⟨e :: rest, by simp, hlast, Int.le_refl _, ?_, fun n => ?_⟩
        · intro d hd
          simp only [Option.map_none, Option.getD_none]
          rcases List.mem_cons.mp hd with rfl | hd
          · omega
          · have := hafter d hd
            omega
        · simp

/-! ### The set with the range -/

theorem ascending_insert {xs ys : List (Block α Unit)} {b : Block α Unit} (hxs : Ascending xs)
    (hys : Ascending ys) (hb : b.lo ≤ b.hi) (hbelow : ∀ x ∈ xs, place x.hi + 1 < place b.lo)
    (habove : ∀ y ∈ ys, place b.hi + 1 < place y.lo) : Ascending (xs ++ b :: ys) := by
  have hrest : Ascending (b :: ys) := by
    refine ascending_append.mpr ⟨ascending_singleton hb, hys, fun c hc y hy => ?_⟩
    obtain rfl : c = b := by simpa using hc
    exact Block.apart_unit.mpr (habove y hy)
  exact hxs.append_cons hrest fun x hx => Block.apart_unit.mpr (hbelow x hx)

theorem covered_entries {es : List (Entry α Unit)} (hproper : ∀ e ∈ es, e.lo ≤ e.hi) {v : α}
    (hv : Comparable v) :
    Covered (es.map Entry.block) v ↔ ∃ e ∈ es, place e.lo ≤ place v ∧ place v ≤ place e.hi := by
  refine ⟨fun ⟨b, hb, hbv⟩ => ?_, fun ⟨e, he, hev⟩ => ?_⟩
  · obtain ⟨e, he, rfl⟩ := List.mem_map.mp hb
    exact ⟨e, he, (Block.contains_iff (hproper e he) hv).mp hbv⟩
  · exact ⟨e.block, List.mem_map_of_mem he, (Block.contains_iff (hproper e he) hv).mpr hev⟩

/-- The range that goes into the chain between what is left below and what is left above: it is
apart from both, and it holds what the added range, the touched ranges and the neighbours taken in
hold. -/
structure Joining (cut : Cut α Unit) (lo hi least most : α) (ls us xs ys : List (Entry α Unit)) :
    Prop where
  below_eq : cut.below = xs ++ ls
  above_eq : cut.above = us ++ ys
  least_le_most : least ≤ most
  below_apart : ∀ e ∈ xs, place e.hi + 1 < place least
  above_apart : ∀ e ∈ ys, place most + 1 < place e.lo
  between : ∀ v, least ≤ v ∧ v ≤ most ↔
    Covered (ls.map Entry.block) v ∨ (Covered (cut.touched.map Entry.block) v ∨ (lo ≤ v ∧ v ≤ hi)) ∨
      Covered (us.map Entry.block) v

theorem exists_joining {cut : Cut α Unit} {es : List (Entry α Unit)}
    (hes : Ascending (es.map Entry.block)) (hle : lo ≤ hi) (hfits : cut.Fits lo hi es) :
    ∃ xs ys, Joining cut lo hi (least (joinedLo lo cut.touched) cut.below)
      (most (joinedHi hi cut.touched) cut.above) (lower? (joinedLo lo cut.touched) cut.below).toList
      (upper? (joinedHi hi cut.touched) cut.above).toList xs ys := by
  obtain ⟨hlo, hhi, hlohi⟩ := le_iff.mp hle
  rw [hfits.entries_eq, List.map_append, List.map_append] at hes
  obtain ⟨hbelowTouched, habove, hacrossAbove⟩ := ascending_append.mp hes
  obtain ⟨hbelow, htouched, hacrossBelow⟩ := ascending_append.mp hbelowTouched
  obtain ⟨hfirst, hfirstLe, _, hfirstEx⟩ :=
    joinedLo_spec htouched.ordered hlo fun t ht => (hfits.touched t ht).1
  obtain ⟨hlast, hlastLe, _, hlastEx⟩ :=
    joinedHi_spec htouched.ordered hhi fun t ht => (hfits.touched t ht).2
  have hbelowLt : ∀ e ∈ cut.below, place e.hi < place (joinedLo lo cut.touched) := by
    intro e he
    rcases hfirstEx with heq | ⟨t, ht, heq, _⟩
    · rw [heq]
      exact hfits.below e he
    · rw [heq]
      exact (hacrossBelow e.block (List.mem_map_of_mem he) t.block (List.mem_map_of_mem ht)).1
  have haboveLt : ∀ e ∈ cut.above, place (joinedHi hi cut.touched) < place e.lo := by
    intro e he
    rcases hlastEx with heq | ⟨t, ht, heq, _⟩
    · rw [heq]
      exact hfits.above e he
    · rw [heq]
      have hmem : t.block ∈ cut.below.map Entry.block ++ cut.touched.map Entry.block :=
        List.mem_append_right _ (List.mem_map_of_mem ht)
      exact (hacrossAbove t.block hmem e.block (List.mem_map_of_mem he)).1
  obtain ⟨xs, hxs, hleast, hleastLe, hxsApart, hls⟩ := absorb_below hbelow hfirst hbelowLt
  obtain ⟨ys, hys, hmost, hmostLe, hysApart, hus⟩ := absorb_above habove hlast haboveLt
  have hproperBelow : ∀ e ∈ cut.below, e.lo ≤ e.hi :=
    fun e he => hbelow.proper e.block (List.mem_map_of_mem he)
  have hproperAbove : ∀ e ∈ cut.above, e.lo ≤ e.hi :=
    fun e he => habove.proper e.block (List.mem_map_of_mem he)
  refine ⟨xs, ys, hxs, hys, (le_iff_place hleast hmost).mpr (by omega), hxsApart, hysApart, ?_⟩
  intro v
  by_cases hv : Comparable v
  · rw [le_iff_place hleast hv, le_iff_place hv hmost,
      ← between_joined htouched.ordered hle hfits.touched hv,
      covered_entries (fun e he => hproperBelow e (hxs ▸ List.mem_append_right _ he)) hv, ← hls,
      covered_entries (fun e he => hproperAbove e (hys ▸ List.mem_append_left _ he)) hv, ← hus]
    omega
  · refine ⟨fun hbetween => absurd (le_iff.mp hbetween.1).2.1 hv, fun hcovered => absurd ?_ hv⟩
    rcases hcovered with hcovered | (hcovered | hbetween) | hcovered
    · exact hcovered.comparable
    · exact hcovered.comparable
    · exact (le_iff.mp hbetween.1).2.1
    · exact hcovered.comparable

theorem Joining.ascending {cut : Cut α Unit} {a b : α} {ls us xs ys : List (Entry α Unit)}
    (h : Joining cut lo hi a b ls us xs ys) (hbelow : Ascending (cut.below.map Entry.block))
    (habove : Ascending (cut.above.map Entry.block)) (n : Nat) :
    Ascending ((xs ++ ⟨n, a, b, ()⟩ :: ys).map Entry.block) := by
  rw [h.below_eq, List.map_append] at hbelow
  rw [h.above_eq, List.map_append] at habove
  rw [List.map_append, List.map_cons]
  refine ascending_insert (hbelow.sublist (List.sublist_append_left ..))
    (habove.sublist (List.sublist_append_right ..)) h.least_le_most ?_ ?_
  · intro c hc
    obtain ⟨e, he, rfl⟩ := List.mem_map.mp hc
    exact h.below_apart e he
  · intro c hc
    obtain ⟨e, he, rfl⟩ := List.mem_map.mp hc
    exact h.above_apart e he

theorem Joining.covered {cut : Cut α Unit} {a b : α} {ls us xs ys : List (Entry α Unit)}
    (h : Joining cut lo hi a b ls us xs ys) (n : Nat) (v : α) :
    Covered ((xs ++ ⟨n, a, b, ()⟩ :: ys).map Entry.block) v ↔
      Covered ((cut.below ++ cut.touched ++ cut.above).map Entry.block) v ∨
        (lo ≤ v ∧ v ≤ hi) := by
  have hnew : (⟨n, a, b, ()⟩ : Entry α Unit).block.Contains v ↔ a ≤ v ∧ v ≤ b := Iff.rfl
  rw [h.below_eq, h.above_eq]
  simp only [List.map_append, List.map_cons, covered_append, covered_cons, hnew, h.between]
  grind

theorem Joining.steps {cut : Cut α Unit} {a b : α} {ls us xs ys : List (Entry α Unit)}
    (h : Joining cut lo hi a b ls us xs ys) (spares : List Nat) :
    ∃ n rest, Steps ⟨cut.below ++ cut.touched ++ cut.above, spares⟩
      (joinEdits cut a b ++ (ls ++ us).map fun e => .retire e.slot)
      ⟨xs ++ ⟨n, a, b, ()⟩ :: ys, rest⟩ := by
  have haround := fun n => steps_retire_around xs ls ⟨n, a, b, ()⟩ us ys
    (sparesAfter cut.touched spares).tail
  simp only [← h.below_eq, ← h.above_eq] at haround
  exact ⟨_, _, (steps_joinEdits cut spares a b).append (haround _)⟩

/-- The edits of an addition are steps of the layout. They keep the order of the blocks, and add exactly
the values of the range. -/
theorem Represents.addPlan_steps {s : RangeSet α} {p : Layout α Unit} (h : s.Represents p)
    (hle : lo ≤ hi) :
    ∃ q, Steps p (s.addPlan lo hi).edits q ∧ Ascending q.blocks ∧
      ∀ v, Covered q.blocks v ↔ Covered p.blocks v ∨ (lo ≤ v ∧ v ≤ hi) := by
  rw [addPlan, if_pos hle, h.entries_eq]
  have hfits := Cut.of_fits h.ascending.ordered hle
  generalize Cut.of lo hi p.entries = cut at hfits ⊢
  obtain ⟨xs, ys, hjoining⟩ := exists_joining h.ascending hle hfits
  obtain ⟨es, spares⟩ := p
  obtain rfl : es = cut.below ++ cut.touched ++ cut.above := hfits.entries_eq
  have hasc := h.ascending
  simp only [Layout.blocks, List.map_append] at hasc
  have hbelow := hasc.sublist (List.sublist_append_of_sublist_left (List.sublist_append_left ..))
  have habove := hasc.sublist (List.sublist_append_right ..)
  obtain ⟨n, rest, hsteps⟩ := hjoining.steps spares
  exact ⟨⟨_, rest⟩, hsteps, hjoining.ascending hbelow habove n, hjoining.covered n⟩

/-- Adding a range keeps the order of the blocks, and it adds exactly the values of the range. -/
theorem Represents.add {s : RangeSet α} {p : Layout α Unit} (h : s.Represents p)
    (hle : lo ≤ hi) :
    ∃ q, (s.add lo hi).1.Represents q ∧
      ∀ v, Covered q.blocks v ↔ Covered p.blocks v ∨ (lo ≤ v ∧ v ≤ hi) := by
  obtain ⟨q, hsteps, hasc, hcovered⟩ := h.addPlan_steps hle
  exact ⟨q, ⟨h.holds.steps hsteps, hasc⟩, hcovered⟩

end RangeSets.RangeSet
