import RangeSets.Proofs.Runs.Once
/-!
# Runs told in steps

A list of ranges is worked off one by one, and each step tells what became of the values of its range that
no step before has dealt with: the runs that are lost, then the runs that are gained. So a value is told
in the first step whose range it lies in.

The steps together tell each longest run once exactly when neighbours are told in one step, and they tell
all losses first exactly when no value is lost in a later step than one in which a value is gained.
-/

namespace RangeSets

open Scale

variable {α : Type} [Scale α] {L G P : α → Prop} {ranges : List (Span α)} {r : Span α}
  {changes : List (Change α)}

/-- The step in which a value is told, counted from zero. -/
def stepOf (ranges : List (Span α)) (v : α) : Nat := ranges.findIdx fun r => r.Contains v

theorem stepOf_cons_of_contains {v : α} (h : r.Contains v) : stepOf (r :: ranges) v = 0 := by
  simp [stepOf, List.findIdx_cons, h]

theorem stepOf_cons_of_not_contains {v : α} (h : ¬ r.Contains v) :
    stepOf (r :: ranges) v = stepOf ranges v + 1 := by
  simp [stepOf, List.findIdx_cons, h]

/-- Values with a property that stand next to each other are told in one step. -/
def TogetherIn (ranges : List (Span α)) (P : α → Prop) : Prop :=
  ∀ u v, Adjacent u v → P u → P v → stepOf ranges u = stepOf ranges v

/-- The values of the first range have no neighbours with the property that are told later. -/
theorem togetherIn_cons : TogetherIn (r :: ranges) P ↔
    (∀ u v, r.Contains u ∧ P u → P v ∧ ¬ r.Contains v → ¬ Adjacent u v ∧ ¬ Adjacent v u) ∧
      TogetherIn ranges fun v => P v ∧ ¬ r.Contains v := by
  constructor
  · intro h
    refine ⟨fun u v hu hv => ⟨fun hadj => ?_, fun hadj => ?_⟩, fun u v hadj hu hv => ?_⟩
    · have := h u v hadj hu.2 hv.1
      rw [stepOf_cons_of_contains hu.1, stepOf_cons_of_not_contains hv.2] at this
      omega
    · have := h v u hadj hv.1 hu.2
      rw [stepOf_cons_of_contains hu.1, stepOf_cons_of_not_contains hv.2] at this
      omega
    · have := h u v hadj hu.1 hv.1
      rw [stepOf_cons_of_not_contains hu.2, stepOf_cons_of_not_contains hv.2] at this
      omega
  · rintro ⟨hacross, hrest⟩ u v hadj hu hv
    by_cases hru : r.Contains u <;> by_cases hrv : r.Contains v
    · rw [stepOf_cons_of_contains hru, stepOf_cons_of_contains hrv]
    · exact absurd hadj (hacross u v ⟨hru, hu⟩ ⟨hv, hrv⟩).1
    · exact absurd hadj (hacross v u ⟨hrv, hv⟩ ⟨hu, hru⟩).2
    · rw [stepOf_cons_of_not_contains hru, stepOf_cons_of_not_contains hrv,
        hrest u v hadj ⟨hu, hru⟩ ⟨hv, hrv⟩]

/-- Values of ranges that have something missing between any two of them. -/
theorem togetherIn_of_apart (hapart : ranges.Pairwise Span.Apart)
    (hin : ∀ v, P v → ∃ r ∈ ranges, r.Contains v) : TogetherIn ranges P := by
  induction ranges generalizing P with
  | nil =>
      intro u v _ hu
      obtain ⟨r, hr, _⟩ := hin u hu
      cases hr
  | cons r rest ih =>
      obtain ⟨hfirst, hrest⟩ := List.pairwise_cons.mp hapart
      have hlater : ∀ v, P v ∧ ¬ r.Contains v → ∃ t ∈ rest, t.Contains v := fun v hv => by
        obtain ⟨t, ht, hvt⟩ := hin v hv.1
        rcases List.mem_cons.mp ht with rfl | ht
        · exact absurd hvt hv.2
        · exact ⟨t, ht, hvt⟩
      refine togetherIn_cons.mpr ⟨fun u v hu hv => ?_, ih hrest hlater⟩
      obtain ⟨t, ht, hvt⟩ := hlater v hv
      exact (hfirst t ht).not_adjacent hu.1 hvt

/-- Changes that are told in steps, one for each range. A step tells those values of its range that are
still to be lost and those that are still to be gained, and no value is left in the end. -/
inductive ToldInSteps : (α → Prop) → (α → Prop) → List (Span α) → List (Change α) → Prop
  | nil {L G : α → Prop} : (∀ v, ¬ L v) → (∀ v, ¬ G v) → ToldInSteps L G [] []
  | cons {L G : α → Prop} {r : Span α} {ranges lost gained : List (Span α)}
      {later : List (Change α)} :
      Decomposes (fun v => r.Contains v ∧ L v) lost →
      Decomposes (fun v => r.Contains v ∧ G v) gained →
      ToldInSteps (fun v => L v ∧ ¬ r.Contains v) (fun v => G v ∧ ¬ r.Contains v) ranges later →
      ToldInSteps L G (r :: ranges) (lost.map .lost ++ gained.map .gained ++ later)

namespace ToldInSteps

theorem congr {L' G' : α → Prop} (h : ToldInSteps L G ranges changes) (hL : ∀ v, L v ↔ L' v)
    (hG : ∀ v, G v ↔ G' v) : ToldInSteps L' G' ranges changes := by
  obtain rfl : L = L' := funext fun v => propext (hL v)
  obtain rfl : G = G' := funext fun v => propext (hG v)
  exact h

/-- What one step tells and what the later ones tell are all the values. -/
theorem fills_cons {runs more : List (Span α)} (hruns : Decomposes (fun v => r.Contains v ∧ P v) runs)
    (hmore : Fills (fun v => P v ∧ ¬ r.Contains v) more) : Fills P (runs ++ more) :=
  (hruns.fills.append hmore).congr fun v => by tauto

theorem fills (h : ToldInSteps L G ranges changes) :
    Fills L (losses changes) ∧ Fills G (gains changes) := by
  induction h with
  | nil hL hG => exact ⟨.nil hL, .nil hG⟩
  | cons hlost hgained _ ih => simpa using ⟨fills_cons hlost ih.1, fills_cons hgained ih.2⟩

/-- Runs of one direction told in a step and in the steps after it. -/
theorem pairwise_apart_cons {runs more : List (Span α)}
    (hruns : Decomposes (fun v => r.Contains v ∧ P v) runs)
    (hmore : Fills (fun v => P v ∧ ¬ r.Contains v) more)
    (ih : more.Pairwise Span.Apart ↔ TogetherIn ranges fun v => P v ∧ ¬ r.Contains v) :
    (runs ++ more).Pairwise Span.Apart ↔ TogetherIn (r :: ranges) P := by
  rw [List.pairwise_append, togetherIn_cons, ← ih, and_iff_right hruns.eachOnce.pairwise_apart,
    hruns.fills.forall_apart_iff hmore fun v hv hout => hout.2 hv.1]
  exact and_comm

theorem pairwise_apart_iff (h : ToldInSteps L G ranges changes) :
    ((losses changes).Pairwise Span.Apart ↔ TogetherIn ranges L) ∧
      ((gains changes).Pairwise Span.Apart ↔ TogetherIn ranges G) := by
  induction h with
  | nil hL hG =>
      exact ⟨iff_of_true .nil fun u _ _ hu => absurd hu (hL u),
        iff_of_true .nil fun u _ _ hu => absurd hu (hG u)⟩
  | cons hlost hgained hlater ih =>
      obtain ⟨hfillsLost, hfillsGained⟩ := hlater.fills
      simpa using ⟨pairwise_apart_cons hlost hfillsLost ih.1,
        pairwise_apart_cons hgained hfillsGained ih.2⟩

theorem eachOnce_iff (h : ToldInSteps L G ranges changes) :
    (EachOnce L (losses changes) ↔ TogetherIn ranges L) ∧
      (EachOnce G (gains changes) ↔ TogetherIn ranges G) := by
  obtain ⟨hlost, hgained⟩ := h.fills
  rw [hlost.eachOnce_iff, hgained.eachOnce_iff]
  exact h.pairwise_apart_iff

theorem lossesFirst_iff (h : ToldInSteps L G ranges changes) :
    LossesFirst changes ↔ ∀ u v, G u → L v → stepOf ranges v ≤ stepOf ranges u := by
  induction h with
  | nil hL hG => exact iff_of_true .nil fun u _ hu => absurd hu (hG u)
  | @cons L G r ranges lost gained later hlost hgained hlater ih =>
      rw [lossesFirst_append, and_iff_right (lossesFirst_of_told lost gained), ih, gains_append,
        gains_map_lost, gains_map_gained, List.nil_append, hgained.fills.eq_nil_iff,
        hlater.fills.1.eq_nil_iff]
      constructor
      · rintro ⟨hrest, hnone⟩ u v hu hv
        by_cases hrv : r.Contains v
        · rw [stepOf_cons_of_contains hrv]
          exact Nat.zero_le _
        · have hru : ¬ r.Contains u := fun hru =>
            hnone.elim (fun hnone => hnone u ⟨hru, hu⟩) fun hnone => hnone v ⟨hv, hrv⟩
          rw [stepOf_cons_of_not_contains hrv, stepOf_cons_of_not_contains hru]
          exact Nat.succ_le_succ (hrest u v ⟨hu, hru⟩ ⟨hv, hrv⟩)
      · intro horder
        refine ⟨fun u v hu hv => ?_, ?_⟩
        · have := horder u v hu.1 hv.1
          rw [stepOf_cons_of_not_contains hv.2, stepOf_cons_of_not_contains hu.2] at this
          omega
        · -- a value that is lost later cannot follow one that is gained in this step
          by_contra hboth
          push Not at hboth
          obtain ⟨⟨u, hru, hu⟩, v, hv, hrv⟩ := hboth
          have := horder u v hu hv
          rw [stepOf_cons_of_contains hru, stepOf_cons_of_not_contains hrv] at this
          omega

end ToldInSteps

/-- What a list of steps has to heed so that each longest run is told once: neighbours that change in the
same direction do so in one step, and no value is lost in a later step than one in which a value is
gained. -/
structure KeptTogether (ranges : List (Span α)) (P Q : α → Prop) : Prop where
  gained : TogetherIn ranges fun v => Q v ∧ ¬ P v
  lost : TogetherIn ranges fun v => P v ∧ ¬ Q v
  order : ∀ u v, Q u ∧ ¬ P u → P v ∧ ¬ Q v → stepOf ranges v ≤ stepOf ranges u

theorem ToldInSteps.tellsOnce_iff {Q : α → Prop}
    (h : ToldInSteps (fun v => P v ∧ ¬ Q v) (fun v => Q v ∧ ¬ P v) ranges changes) :
    TellsOnce P Q changes ↔ KeptTogether ranges P Q := by
  obtain ⟨hlost, hgained⟩ := h.eachOnce_iff
  have horder := h.lossesFirst_iff
  exact ⟨fun ht => ⟨hgained.mp ht.gained, hlost.mp ht.lost, horder.mp ht.lossesFirst⟩,
    fun hk => ⟨hgained.mpr hk.gained, hlost.mpr hk.lost, horder.mpr hk.order⟩⟩

end RangeSets
