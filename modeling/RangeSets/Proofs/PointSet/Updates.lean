import RangeSets.Proofs.Fault
import RangeSets.Proofs.PointSet.Contents
/-!
# Changing a point set

Adding a number and removing a range of numbers do to a point set what they do to any set of numbers,
and tell it in the same way: the changes are the longest runs of the numbers that were missing, or of
those that were there. A range reaches beyond the universe as it likes, since no number of the set is
out there.

The runs of the removed offsets are built from the highest one down. An offset joins the first run
when it comes right before it, and begins a run of its own otherwise.
-/

namespace RangeSets.PointSet

open Scale

variable {f : IntegerFormat} {s p : PointSet f} {n m : Nat} {v lo hi : Fixed f}

/-! ### Runs of numbers -/

/-- Runs in order, with something missing between one and the next, that hold the given numbers. -/
structure RunsOf (ns : List Nat) (runs : List (Nat × Nat)) : Prop where
  proper : ∀ r ∈ runs, r.1 ≤ r.2
  apart : runs.Pairwise fun r t => r.2 + 1 < t.1
  mem_iff : ∀ n, n ∈ ns ↔ ∃ r ∈ runs, r.1 ≤ n ∧ n ≤ r.2

namespace RunsOf

variable {ns : List Nat} {r : Nat × Nat} {rs : List (Nat × Nat)}

theorem nil : RunsOf [] [] := ⟨by simp, .nil, by simp⟩

theorem ends_mem (h : RunsOf ns rs) (hr : r ∈ rs) : r.1 ∈ ns ∧ r.2 ∈ ns :=
  ⟨(h.mem_iff _).mpr ⟨r, hr, Nat.le_refl _, h.proper r hr⟩,
    (h.mem_iff _).mpr ⟨r, hr, h.proper r hr, Nat.le_refl _⟩⟩

theorem first_le (h : RunsOf ns (r :: rs)) (hm : m ∈ ns) : r.1 ≤ m := by
  obtain ⟨t, ht, hle, _⟩ := (h.mem_iff m).mp hm
  rcases List.mem_cons.mp ht with rfl | ht
  · exact hle
  · have hapart := (List.pairwise_cons.mp h.apart).1 t ht
    have hproper := h.proper r List.mem_cons_self
    omega

/-- A number right before the first run joins it. -/
theorem cons_joined {last : Nat} (h : RunsOf ns ((n + 1, last) :: rs)) :
    RunsOf (n :: ns) ((n, last) :: rs) := by
  have hproper := List.forall_mem_cons.mp h.proper
  have hapart := List.pairwise_cons.mp h.apart
  refine ⟨List.forall_mem_cons.mpr ⟨?_, hproper.2⟩, List.pairwise_cons.mpr hapart, fun m => ?_⟩
  · have := hproper.1
    omega
  · have hm := h.mem_iff m
    simp only [List.mem_cons, exists_eq_or_imp] at hm ⊢
    rw [hm, ← or_assoc]
    refine or_congr_left ?_
    have := hproper.1
    omega

/-- A number that does not come right before the others is a run of its own. -/
theorem cons_apart (h : RunsOf ns rs) (hbelow : ∀ m ∈ ns, n + 1 < m) :
    RunsOf (n :: ns) ((n, n) :: rs) := by
  refine ⟨List.forall_mem_cons.mpr ⟨Nat.le_refl n, h.proper⟩,
    List.pairwise_cons.mpr ⟨fun r hr => hbelow _ (h.ends_mem hr).1, h.apart⟩, fun m => ?_⟩
  simp only [List.mem_cons, exists_eq_or_imp, h.mem_iff m]
  refine or_congr_left ?_
  omega

end RunsOf

theorem runsOf_runs {ns : List Nat} (h : ns.Pairwise (· < ·)) : RunsOf ns (runs ns) := by
  induction ns with
  | nil => exact .nil
  | cons n rest ih =>
      obtain ⟨hbelow, hascending⟩ := List.pairwise_cons.mp h
      have hrest := ih hascending
      rw [runs]
      generalize runs rest = rs at hrest ⊢
      cases rs with
      | nil =>
          refine hrest.cons_apart fun m hm => ?_
          simpa using (hrest.mem_iff m).mp hm
      | cons r more =>
          obtain ⟨first, last⟩ := r
          have hfirst := hbelow first (hrest.ends_mem List.mem_cons_self).1
          dsimp only
          split
          · rename_i hnext
            subst hnext
            exact hrest.cons_joined
          · refine hrest.cons_apart fun m hm => ?_
            have hleast : first ≤ m := hrest.first_le hm
            omega

theorem spanOfRun?_eq_some_iff {r : Nat × Nat} {t : Span (Fixed f)} :
    s.spanOfRun? r = some t ↔ t.lo.val = s.lower.val + r.1 ∧ t.hi.val = s.lower.val + r.2 := by
  simp only [spanOfRun?, Option.bind_eq_bind, Option.pure_def, Option.bind_eq_some_iff,
    value?_eq_some_iff, Option.some.injEq]
  constructor
  · rintro ⟨a, ha, b, hb, rfl⟩
    exact ⟨ha, hb⟩
  · rintro ⟨ha, hb⟩
    exact ⟨t.lo, ha, t.hi, hb, rfl⟩

/-- The runs of offsets are the runs of the numbers that the offsets stand for. -/
theorem decomposes_runs {ns : List Nat} {rs : List (Nat × Nat)} (h : RunsOf ns rs)
    (hwithin : ∀ n ∈ ns, s.lower.val + n ≤ s.upper.val) :
    Decomposes (fun v => ∃ n ∈ ns, v.val = s.lower.val + n) (rs.filterMap s.spanOfRun?) := by
  refine ⟨⟨fun b hb => ?_, ?_⟩, fun v => ?_⟩
  · obtain ⟨t, ht, rfl⟩ := List.mem_map.mp hb
    obtain ⟨r, hr, hspan⟩ := List.mem_filterMap.mp ht
    obtain ⟨hlo, hhi⟩ := spanOfRun?_eq_some_iff.mp hspan
    have hproper := h.proper r hr
    exact Fixed.le_iff.mpr (by simp only [Span.block]; omega)
  · rw [List.pairwise_map, List.pairwise_filterMap]
    refine h.apart.imp fun {r q} hgap t ht u hu => Block.apart_unit.mpr ?_
    have hhi := (spanOfRun?_eq_some_iff.mp ht).2
    have hlo := (spanOfRun?_eq_some_iff.mp hu).1
    show t.hi.val + 1 < u.lo.val
    omega
  · rw [covered_block]
    constructor
    · rintro ⟨t, ht, hge, hle⟩
      obtain ⟨r, hr, hspan⟩ := List.mem_filterMap.mp ht
      obtain ⟨hlo, hhi⟩ := spanOfRun?_eq_some_iff.mp hspan
      rw [Fixed.le_iff] at hge hle
      refine ⟨(v.val - s.lower.val).toNat, (h.mem_iff _).mpr ⟨r, hr, ?_, ?_⟩, ?_⟩ <;> omega
    · rintro ⟨n, hn, hval⟩
      obtain ⟨r, hr, hge, hle⟩ := (h.mem_iff n).mp hn
      obtain ⟨hfirst, hlast⟩ := h.ends_mem hr
      obtain ⟨a, _, ha⟩ := exists_value_of_le (hwithin _ hfirst)
      obtain ⟨b, _, hb⟩ := exists_value_of_le (hwithin _ hlast)
      have hspan : s.spanOfRun? r = some ⟨a, b⟩ := spanOfRun?_eq_some_iff.mpr ⟨ha, hb⟩
      have hlo : a ≤ v := Fixed.le_iff.mpr (by omega)
      have hhi : v ≤ b := Fixed.le_iff.mpr (by omega)
      exact ⟨⟨a, b⟩, List.mem_filterMap.mpr ⟨r, hr, hspan⟩, hlo, hhi⟩

/-! ### Putting an offset in its place -/

theorem mem_insertOffset {ns : List Nat} : m ∈ insertOffset n ns ↔ m = n ∨ m ∈ ns := by
  induction ns with
  | nil => simp [insertOffset]
  | cons k rest ih =>
      rw [insertOffset]
      split
      · exact List.mem_cons
      · rw [List.mem_cons, List.mem_cons, ih]
        exact or_left_comm

theorem insertOffset_ascending {ns : List Nat} (h : ns.Pairwise (· < ·)) (hn : n ∉ ns) :
    (insertOffset n ns).Pairwise (· < ·) := by
  induction ns with
  | nil => exact List.pairwise_singleton ..
  | cons k rest ih =>
      obtain ⟨hbelow, hascending⟩ := List.pairwise_cons.mp h
      rw [List.mem_cons, not_or] at hn
      rw [insertOffset]
      split
      · rename_i hlt
        refine List.pairwise_cons.mpr ⟨fun m hm => ?_, h⟩
        have := le_of_mem_cons h hm
        omega
      · refine List.pairwise_cons.mpr ⟨fun m hm => ?_, ih hascending hn.2⟩
        rcases mem_insertOffset.mp hm with rfl | hm
        · omega
        · exact hbelow m hm

/-! ### Adding and removing -/

/-- The values with a property go in, and the runs of those that were missing are told. -/
structure Adds (s : PointSet f) (P : Fixed f → Prop)
    (result : PointSet f × List (Change (Fixed f))) : Prop where
  sound : result.1.Sound
  contains_iff : ∀ v, result.1.Contains v ↔ s.Contains v ∨ P v
  told : ∃ runs, Decomposes (fun v => P v ∧ ¬ s.Contains v) runs ∧ result.2 = runs.map .gained

/-- The values with a property go out, and the runs of those that were there are told. -/
structure Removes (s : PointSet f) (P : Fixed f → Prop)
    (result : PointSet f × List (Change (Fixed f))) : Prop where
  sound : result.1.Sound
  contains_iff : ∀ v, result.1.Contains v ↔ s.Contains v ∧ ¬ P v
  told : ∃ runs, Decomposes (fun v => P v ∧ s.Contains v) runs ∧ result.2 = runs.map .lost

variable {P Q : Fixed f → Prop} {result : PointSet f × List (Change (Fixed f))}

theorem Removes.congr (h : s.Removes P result) (hiff : ∀ v, s.Contains v → (P v ↔ Q v)) :
    s.Removes Q result := by
  obtain ⟨runs, hruns, htold⟩ := h.told
  refine ⟨h.sound, fun v => ?_, runs, hruns.congr fun v => ?_, htold⟩
  · rw [h.contains_iff]
    exact and_congr_right fun hv => not_congr (hiff v hv)
  · exact and_congr_left fun hv => hiff v hv

namespace Sound

theorem adds_nothing (h : s.Sound) (hall : ∀ v, P v → s.Contains v) : s.Adds P (s, []) :=
  ⟨h, fun v => (or_iff_left_of_imp (hall v)).symm, [], .nil fun v hv => hv.2 (hall v hv.1), rfl⟩

theorem removes_nothing (h : s.Sound) (hnone : ∀ v, s.Contains v → ¬ P v) : s.Removes P (s, []) :=
  ⟨h, fun v => (and_iff_left_of_imp (hnone v)).symm, [], .nil fun v hv => hnone v hv.2 hv.1, rfl⟩

theorem add (h : s.Sound) (hok : s.add v = .ok result) :
    s.Adds (fun w => v ≤ w ∧ w ≤ v) result := by
  have heq : ∀ w : Fixed f, (v ≤ w ∧ w ≤ v) ↔ w = v :=
    fun w => ⟨fun h => Fixed.eq_of_same ⟨h.2, h.1⟩, fun h => h ▸ ⟨w.comparable, w.comparable⟩⟩
  simp only [heq]
  rw [PointSet.add] at hok
  cases hoffset : s.offset? v with
  | none => simp [hoffset] at hok
  | some n =>
      obtain ⟨hval, hwithin⟩ := offset?_eq_some_iff.mp hoffset
      have hmem : s.Contains v ↔ n ∈ s.offsets := by simp [Contains, hoffset]
      simp only [hoffset] at hok
      split at hok
      · rename_i hn
        cases hok
        exact h.adds_nothing fun w heq => heq ▸ hmem.mpr hn
      · rename_i hn
        cases hok
        have hsound : Sound { s with offsets := insertOffset n s.offsets } := by
          refine ⟨insertOffset_ascending h.ascending hn, fun m hm => ?_⟩
          rcases mem_insertOffset.mp hm with rfl | hm
          · exact hval ▸ hwithin
          · exact h.within m hm
        refine ⟨hsound, fun w => ?_, [⟨v, v⟩], .singleton v.comparable fun w => ?_, rfl⟩
        · rw [hsound.contains_iff, h.contains_iff]
          simp only [mem_insertOffset, or_and_right, exists_or, exists_eq_left, Fixed.ext_iff, hval]
          exact or_comm
        · rw [show (⟨v, v⟩ : Span (Fixed f)).Contains w ↔ w = v from heq w]
          exact and_iff_left_of_imp fun heq => heq ▸ mt hmem.mp hn

theorem addBetween (h : s.Sound) (hok : s.addBetween lo hi = .ok result) :
    s.Adds (fun v => lo ≤ v ∧ v ≤ hi) result := by
  rw [PointSet.addBetween] at hok
  split at hok
  · rename_i hlt
    cases hok
    have hle : ¬ lo ≤ hi := by
      rw [Fixed.le_iff]
      rw [Fixed.lt_iff] at hlt
      omega
    exact h.adds_nothing fun v hv => absurd hv (not_between hle v)
  · split at hok
    · cases hok
    · rename_i heq
      obtain rfl := Classical.not_not.mp heq
      exact h.add hok

/-- Keeping some of the offsets keeps the numbers that they stand for. -/
theorem filter (h : s.Sound) (keep : Nat → Bool) :
    Sound { s with offsets := s.offsets.filter keep } :=
  ⟨h.ascending.filter keep, fun n hn => h.within n (List.mem_of_mem_filter hn)⟩

/-- Taking out the offsets between two of them takes out the numbers that they stand for. -/
theorem removes_within (h : s.Sound) {first last : Nat}
    (hin : ∀ v n, n ∈ s.offsets → v.val = s.lower.val + n → ((first ≤ n ∧ n ≤ last) ↔ P v)) :
    s.Removes P
      ({ s with offsets := s.offsets.filter fun n => ¬ (first ≤ n ∧ n ≤ last) },
        ((runs (s.offsets.filter fun n => first ≤ n ∧ n ≤ last)).filterMap s.spanOfRun?).map
          .lost) := by
  have hruns := decomposes_runs (s := s)
    (runsOf_runs (h.ascending.filter fun n => first ≤ n ∧ n ≤ last))
    fun n hn => h.within n (List.mem_of_mem_filter hn)
  refine ⟨h.filter _, fun v => ?_, _, hruns.congr fun v => ?_, rfl⟩
  · rw [(h.filter _).contains_iff, h.contains_iff]
    simp only [List.mem_filter, decide_eq_true_eq]
    grind
  · rw [h.contains_iff]
    simp only [List.mem_filter, decide_eq_true_eq]
    grind

theorem between (h : s.Sound) (hv : s.Contains v) : s.lower ≤ v ∧ v ≤ s.upper := by
  obtain ⟨n, hn, hval⟩ := h.contains_iff.mp hv
  have hwithin := h.within n hn
  rw [Fixed.le_iff, Fixed.le_iff]
  omega

theorem removeBetween (h : s.Sound) (lo hi : Fixed f) :
    s.Removes (fun v => lo ≤ v ∧ v ≤ hi) (s.removeBetween lo hi) := by
  have hlo : (if lo < s.lower then s.lower else lo).val = Max.max lo.val s.lower.val :=
    place_higherOf lo.comparable s.lower.comparable
  have hhi : (if s.upper < hi then s.upper else hi).val = Min.min hi.val s.upper.val :=
    place_lowerOf hi.comparable s.upper.comparable
  unfold PointSet.removeBetween
  dsimp only
  generalize (if lo < s.lower then s.lower else lo) = first at hlo ⊢
  generalize (if s.upper < hi then s.upper else hi) = last at hhi ⊢
  -- A bound that is still out of the universe leaves no number of the set between the bounds.
  cases hfirst : s.offset? first with
  | none =>
      rw [offset?_eq_none_iff] at hfirst
      refine h.removes_nothing fun v hv hbetween => ?_
      have hplace := h.between hv
      rw [Fixed.le_iff, Fixed.le_iff] at hplace hbetween
      omega
  | some n =>
      cases hlast : s.offset? last with
      | none =>
          rw [offset?_eq_none_iff] at hlast
          refine h.removes_nothing fun v hv hbetween => ?_
          have hplace := h.between hv
          rw [Fixed.le_iff, Fixed.le_iff] at hplace hbetween
          omega
      | some m =>
          rw [offset?_eq_some_iff] at hfirst hlast
          refine h.removes_within fun v k hk hval => ?_
          have hwithin := h.within k hk
          rw [Fixed.le_iff, Fixed.le_iff]
          omega

theorem clear (h : s.Sound) : s.Removes (fun _ => True) s.clear :=
  (h.removeBetween s.lower s.upper).congr fun _ hv => iff_true_intro (h.between hv)

end Sound

/-! ### The first sets -/

theorem eq_of_emptyOver (hok : emptyOver lo hi = .ok p) : lo ≤ hi ∧ p = ⟨lo, hi, []⟩ := by
  rw [emptyOver] at hok
  split at hok
  · cases hok
  · rename_i hlt
    split at hok
    · cases hok
    · cases hok
      exact ⟨Fixed.le_iff.mpr (Int.not_lt.mp (mt Fixed.lt_iff.mpr hlt)), rfl⟩

theorem eq_of_fullOver (hok : fullOver lo hi = .ok p) :
    lo ≤ hi ∧ p = ⟨lo, hi, List.range (widthOf lo hi).toNat⟩ := by
  rw [fullOver] at hok
  obtain ⟨s, hs, hok⟩ := exists_of_bind_eq_ok hok
  obtain ⟨hle, rfl⟩ := eq_of_emptyOver hs
  cases hok
  exact ⟨hle, rfl⟩

theorem sound_emptyOver (hok : emptyOver lo hi = .ok p) : p.Sound ∧ ∀ v, ¬ p.Contains v := by
  obtain ⟨_, rfl⟩ := eq_of_emptyOver hok
  have hsound : Sound (⟨lo, hi, []⟩ : PointSet f) := ⟨.nil, by simp⟩
  exact ⟨hsound, fun v => by simp [hsound.contains_iff]⟩

theorem sound_fullOver (hok : fullOver lo hi = .ok p) :
    p.Sound ∧ ∀ v, p.Contains v ↔ lo ≤ v ∧ v ≤ hi := by
  obtain ⟨_, rfl⟩ := eq_of_fullOver hok
  have hsound : Sound (⟨lo, hi, List.range (widthOf lo hi).toNat⟩ : PointSet f) := by
    refine ⟨List.pairwise_lt_range, fun n hn => ?_⟩
    rw [List.mem_range, widthOf] at hn
    dsimp only
    omega
  refine ⟨hsound, fun v => ?_⟩
  rw [hsound.contains_iff, Fixed.le_iff, Fixed.le_iff]
  simp only [List.mem_range, widthOf]
  constructor
  · rintro ⟨n, hn, hval⟩
    omega
  · intro hv
    exact ⟨(v.val - lo.val).toNat, by omega, by omega⟩

end RangeSets.PointSet
