import RangeSets.Proofs.Blocks
import RangeSets.Proofs.Chain.Consistent
/-!
# Searching entries in order

The two ends of a chain, the position of a value and the cut at the ends of a range, for entries
whose blocks stand in order. An entry that ends below a value is passed over; once one does not,
none behind it does, so that the searches may stop there.
-/

namespace RangeSets

open Scale

variable {α β : Type} [Scale α]

theorem Entry.endsBelow_iff {e : Entry α β} {v : α} (he : e.lo ≤ e.hi) (hv : Comparable v) :
    e.EndsBelow v ↔ place e.hi < place v := by
  obtain ⟨hlo, hhi, hle⟩ := le_iff.mp he
  rw [EndsBelow, lt_iff_place hv hlo, le_iff_place hv hhi]
  omega

/-! ### The least and the greatest value -/

section Ends

variable {c : Chain α} {p : Layout α β}

theorem Chain.Holds.least (h : c.Holds p) (hordered : Ordered p.blocks) :
    ((∃ v, Covered p.blocks v) → Covered p.blocks ((c.first?.map Span.lo).getD top) ∧
        ∀ v, Covered p.blocks v → (c.first?.map Span.lo).getD top ≤ v) ∧
      ((∀ v, ¬ Covered p.blocks v) → (c.first?.map Span.lo).getD top = top) := by
  rw [Layout.blocks] at hordered ⊢
  rw [h.first?_eq]
  cases hentries : p.entries with
  | nil =>
      refine ⟨fun hex => ?_, fun _ => rfl⟩
      obtain ⟨v, hv⟩ := hex
      exact absurd hv (covered_nil v)
  | cons e rest =>
      rw [hentries] at hordered
      obtain ⟨hcovered, hleast⟩ := hordered.least
      exact ⟨fun _ => ⟨hcovered, hleast⟩, fun hnone => absurd hcovered (hnone _)⟩

theorem Chain.Holds.greatest (h : c.Holds p) (hordered : Ordered p.blocks) :
    ((∃ v, Covered p.blocks v) → Covered p.blocks ((c.last?.map Span.hi).getD bottom) ∧
        ∀ v, Covered p.blocks v → v ≤ (c.last?.map Span.hi).getD bottom) ∧
      ((∀ v, ¬ Covered p.blocks v) → (c.last?.map Span.hi).getD bottom = bottom) := by
  rw [Layout.blocks] at hordered ⊢
  rw [h.last?_eq]
  rcases List.eq_nil_or_concat p.entries with hentries | ⟨es, e, hentries⟩
  · rw [hentries]
    refine ⟨fun hex => ?_, fun _ => rfl⟩
    obtain ⟨v, hv⟩ := hex
    exact absurd hv (covered_nil v)
  · rw [List.concat_eq_append] at hentries
    rw [hentries, List.map_append] at hordered ⊢
    rw [List.getLast?_append, List.getLast?_singleton]
    obtain ⟨hcovered, hgreatest⟩ := hordered.greatest
    exact ⟨fun _ => ⟨hcovered, hgreatest⟩, fun hnone => absurd hcovered (hnone _)⟩

end Ends

/-! ### Positions -/

theorem Position.of_append {v : α} {xs ys : List (Entry α β)}
    (h : ∀ e ∈ xs, e.EndsBelow v) : Position.of v (xs ++ ys) = Position.of v ys := by
  induction xs with
  | nil => rfl
  | cons e rest ih =>
      obtain ⟨hlt, hle⟩ := h e (by simp)
      rw [List.cons_append, Position.of, if_neg hlt, if_neg hle]
      exact ih fun d hd => h d (List.mem_cons_of_mem _ hd)

theorem Position.of_contains {v : α} {xs ys : List (Entry α β)} {e : Entry α β}
    (h : Ordered ((xs ++ e :: ys).map Entry.block)) (hv : e.block.Contains v) :
    Position.of v (xs ++ e :: ys) = .inside e.slot := by
  have hcomp := hv.comparable
  rw [List.map_append, ordered_append] at h
  obtain ⟨hxs, hys, hacross⟩ := h
  have he : e.lo ≤ e.hi := hys.proper e.block (by simp)
  obtain ⟨hlo, hhi, _⟩ := le_iff.mp he
  obtain ⟨hge, hle⟩ := (Block.contains_iff he hcomp).mp hv
  rw [Position.of_append, Position.of, if_neg, if_pos (show v ≤ e.hi from hv.2)]
  · rw [lt_iff_place hcomp hlo]
    exact Int.not_lt.mpr hge
  · intro d hd
    have hmem : d.block ∈ xs.map Entry.block := List.mem_map_of_mem hd
    have hbefore := hacross d.block hmem e.block (by simp)
    rw [Entry.endsBelow_iff (hxs.proper d.block hmem) hcomp]
    exact Int.lt_of_lt_of_le hbefore hge

theorem Position.exists_of_inside {v : α} {es : List (Entry α β)} {i : Nat}
    (hproper : ∀ e ∈ es, e.lo ≤ e.hi) (h : Position.of v es = .inside i) :
    ∃ e ∈ es, e.slot = i ∧ e.block.Contains v := by
  induction es with
  | nil => cases h
  | cons e rest ih =>
      rw [Position.of] at h
      split at h
      · cases h
      · rename_i hlt
        split at h
        · rename_i hle
          cases h
          obtain ⟨hlo, _, _⟩ := le_iff.mp (hproper e (by simp))
          obtain ⟨hv, _, _⟩ := le_iff.mp hle
          rw [lt_iff_place hv hlo] at hlt
          exact ⟨e, by simp, rfl, (le_iff_place hlo hv).mpr (Int.not_lt.mp hlt), hle⟩
        · obtain ⟨d, hd, hslot, hcontains⟩ := ih (fun d hd => hproper d (by simp [hd])) h
          exact ⟨d, List.mem_cons_of_mem _ hd, hslot, hcontains⟩

/-- A value is found exactly when some block holds it. -/
theorem Position.inside_iff {v : α} {es : List (Entry α β)}
    (h : Ordered (es.map Entry.block)) :
    (∃ i, Position.of v es = .inside i) ↔ Covered (es.map Entry.block) v := by
  refine ⟨fun ⟨i, hi⟩ => ?_, fun ⟨b, hb, hv⟩ => ?_⟩
  · have hproper : ∀ e ∈ es, e.lo ≤ e.hi :=
      fun e he => h.proper e.block (List.mem_map_of_mem he)
    obtain ⟨e, he, _, hv⟩ := Position.exists_of_inside hproper hi
    exact ⟨e.block, List.mem_map_of_mem he, hv⟩
  · obtain ⟨e, he, rfl⟩ := List.mem_map.mp hb
    obtain ⟨xs, ys, rfl⟩ := List.append_of_mem he
    exact ⟨e.slot, Position.of_contains h hv⟩

/-! ### Cuts -/

/-- A cut of entries at the ends of a range: what ends below it, what meets it, what begins above
it. -/
structure Cut.Fits (cut : Cut α β) (lo hi : α) (es : List (Entry α β)) : Prop where
  entries_eq : es = cut.below ++ cut.touched ++ cut.above
  below : ∀ e ∈ cut.below, place e.hi < place lo
  touched : ∀ e ∈ cut.touched, place lo ≤ place e.hi ∧ place e.lo ≤ place hi
  above : ∀ e ∈ cut.above, place hi < place e.lo

/-- Behind an entry that reaches the end of a range there is none that begins within it. -/
theorem eq_nil_of_reaches {hi : α} {e : Entry α β} {rest : List (Entry α β)}
    (hes : Ordered ((e :: rest).map Entry.block)) (hreach : place hi ≤ place e.hi)
    (htouch : ∀ d ∈ rest, place d.lo ≤ place hi) : rest = [] := by
  cases rest with
  | nil => rfl
  | cons d ds =>
      have hbefore := (List.pairwise_cons.mp hes.before).1 d.block (by simp)
      have := htouch d (by simp)
      simp only [Entry.lo_block, Entry.hi_block] at hbefore
      omega

/-- An entry that begins within a range does not begin above it. -/
theorem not_lt_of_touched {hi : α} {e : Entry α β} {rest : List (Entry α β)}
    (hes : Ordered ((e :: rest).map Entry.block)) (hhi : Comparable hi)
    (htouch : place e.lo ≤ place hi) : ¬ hi < e.lo := by
  have hproper : e.lo ≤ e.hi := hes.proper e.block (by simp)
  rw [lt_iff_place hhi (le_iff.mp hproper).1]
  exact Int.not_lt.mpr htouch

/-- Once an entry does not end below a value, none behind it does. -/
theorem le_of_mem_dropWhile {v : α} {es : List (Entry α β)} (h : Ordered (es.map Entry.block))
    (hv : Comparable v) : ∀ e ∈ es.dropWhile (fun e => e.EndsBelow v), place v ≤ place e.hi := by
  induction es with
  | nil => simp
  | cons e rest ih =>
      rw [List.dropWhile_cons]
      split
      · exact ih h.tail
      · rename_i hnot
        rw [decide_eq_true_eq, Entry.endsBelow_iff (h.proper e.block (by simp)) hv] at hnot
        intro d hd
        rcases List.mem_cons.mp hd with rfl | hd
        · exact Int.not_lt.mp hnot
        · have hmem : d.block ∈ rest.map Entry.block := List.mem_map_of_mem hd
          have hbefore := (List.pairwise_cons.mp h.before).1 d.block hmem
          have := (le_iff.mp (h.proper d.block (List.mem_cons_of_mem _ hmem))).2.2
          simp only [Entry.hi_block, Entry.lo_block] at *
          omega

/-- Once an entry begins above a value, all behind it do. -/
theorem lt_of_mem_dropWhile {v : α} {es : List (Entry α β)} (h : Ordered (es.map Entry.block))
    (hv : Comparable v) : ∀ e ∈ es.dropWhile (fun e => ¬ v < e.lo), place v < place e.lo := by
  induction es with
  | nil => simp
  | cons e rest ih =>
      rw [List.dropWhile_cons]
      split
      · exact ih h.tail
      · rename_i hnot
        have hproper : e.lo ≤ e.hi := h.proper e.block (by simp)
        obtain ⟨hlo, _, hle⟩ := le_iff.mp hproper
        rw [decide_eq_true_eq, Classical.not_not, lt_iff_place hv hlo] at hnot
        intro d hd
        rcases List.mem_cons.mp hd with rfl | hd
        · exact hnot
        · have hmem : d.block ∈ rest.map Entry.block := List.mem_map_of_mem hd
          have hbefore := (List.pairwise_cons.mp h.before).1 d.block hmem
          simp only [Entry.hi_block, Entry.lo_block] at *
          omega

theorem Cut.of_fits {lo hi : α} {es : List (Entry α β)} (h : Ordered (es.map Entry.block))
    (hle : lo ≤ hi) : (Cut.of lo hi es).Fits lo hi es := by
  obtain ⟨hlo, hhi, _⟩ := le_iff.mp hle
  have hproper : ∀ e ∈ es, e.lo ≤ e.hi :=
    fun e he => h.proper e.block (List.mem_map_of_mem he)
  have hreached := (List.dropWhile_suffix (l := es) fun e => e.EndsBelow lo).sublist
  refine ⟨?_, ?_, ?_, ?_⟩
  · simp only [Cut.of]
    rw [List.append_assoc, List.takeWhile_append_dropWhile, List.takeWhile_append_dropWhile]
  · intro e he
    have hends := List.all_eq_true.mp List.all_takeWhile e he
    rw [decide_eq_true_eq, Entry.endsBelow_iff (hproper e ?_) hlo] at hends
    · exact hends
    · exact (List.takeWhile_prefix _).subset he
  · intro e he
    have hmem := (List.takeWhile_prefix _).subset he
    have hnot := List.all_eq_true.mp List.all_takeWhile e he
    obtain ⟨heLo, _, _⟩ := le_iff.mp (hproper e (hreached.subset hmem))
    rw [decide_eq_true_eq, lt_iff_place hhi heLo] at hnot
    exact ⟨le_of_mem_dropWhile h hlo e hmem, Int.not_lt.mp hnot⟩
  · exact lt_of_mem_dropWhile (h.sublist (hreached.map _)) hhi

/-- What does not end below a range is what it touches and what lies above it. -/
theorem Cut.reached_eq (lo hi : α) (es : List (Entry α β)) :
    es.dropWhile (fun e => e.EndsBelow lo) = (Cut.of lo hi es).touched ++ (Cut.of lo hi es).above :=
  List.takeWhile_append_dropWhile.symm

section Fits

variable {cut : Cut α β} {lo hi : α} {es : List (Entry α β)}

theorem Cut.Fits.ordered_touched (h : cut.Fits lo hi es) (hes : Ordered (es.map Entry.block)) :
    Ordered (cut.touched.map Entry.block) := by
  rw [h.entries_eq] at hes
  exact hes.sublist (((List.sublist_append_right ..).trans (List.sublist_append_left ..)).map _)

theorem Cut.Fits.lt_above (h : cut.Fits lo hi es) (hes : Ordered (es.map Entry.block))
    (hhi : Comparable hi) : ∀ e ∈ cut.above, hi < e.lo := by
  intro e he
  have hmem : e ∈ es := by
    rw [h.entries_eq]
    exact List.mem_append_right _ he
  have hproper : e.lo ≤ e.hi := hes.proper e.block (List.mem_map_of_mem hmem)
  exact (lt_iff_place hhi (le_iff.mp hproper).1).mpr (h.above e he)

/-- An entry that reaches over both ends of a range is the only one that the range touches. -/
theorem Cut.Fits.touched_eq_singleton (h : cut.Fits lo hi es) (hes : Ordered (es.map Entry.block))
    {e : Entry α β} (he : e ∈ cut.touched) (hreachLo : place e.lo ≤ place lo)
    (hreachHi : place hi ≤ place e.hi) : cut.touched = [e] := by
  obtain ⟨zs, ws, hsplit⟩ := List.append_of_mem he
  have hordered := h.ordered_touched hes
  have htouch := h.touched
  rw [hsplit] at hordered htouch ⊢
  rw [List.map_append, ordered_append] at hordered
  obtain ⟨_, hbehind, hacross⟩ := hordered
  obtain rfl : ws = [] :=
    eq_nil_of_reaches hbehind hreachHi fun d hd => (htouch d (by simp [hd])).2
  obtain rfl : zs = [] := by
    refine List.eq_nil_iff_forall_not_mem.mpr fun d hd => ?_
    have hbefore := hacross d.block (List.mem_map_of_mem hd) e.block (by simp)
    have hreach := (htouch d (by simp [hd])).1
    simp only [Entry.hi_block, Entry.lo_block] at hbefore
    omega
  rfl

end Fits

theorem Cut.Fits.not_between {cut : Cut α β} {lo hi v : α} {es : List (Entry α β)}
    (h : cut.Fits lo hi es)
    (hv : Covered (cut.below.map Entry.block) v ∨ Covered (cut.above.map Entry.block) v) :
    ¬ (lo ≤ v ∧ v ≤ hi) := by
  intro hbetween
  have hge := (le_iff.mp hbetween.1).2.2
  have hle := (le_iff.mp hbetween.2).2.2
  rcases hv with ⟨b, hb, hbv⟩ | ⟨b, hb, hbv⟩
  · obtain ⟨e, he, rfl⟩ := List.mem_map.mp hb
    have hlt := h.below e he
    have := (le_iff.mp hbv.2).2.2
    simp only [Entry.hi_block] at this
    omega
  · obtain ⟨e, he, rfl⟩ := List.mem_map.mp hb
    have hlt := h.above e he
    have := (le_iff.mp hbv.1).2.2
    simp only [Entry.lo_block] at this
    omega

end RangeSets
