import RangeSets.Change
import RangeSets.Proofs.Runs
/-!
# Runs told once

What is told in several steps does not come in ascending order, and a step knows nothing of the runs
that other steps tell. Each longest run of a property is told once when the runs that are told are all of
the longest ones, in whatever order. Of runs that hold the values with the property this is so exactly when
something is missing between any two of them.

The steps tell different values, so that two of their runs meet only where a value of one step stands right
next to a value of another. That is all that keeps a list of steps from telling each longest run once.
-/

namespace RangeSets

open Scale

variable {α : Type}

/-! ### The two directions of changes -/

namespace Change

def gainedRun? : Change α → Option (Span α)
  | gained r => some r
  | lost _ => none

def lostRun? : Change α → Option (Span α)
  | gained _ => none
  | lost r => some r

end Change

/-- The runs that are told as gained, in order. -/
def gains (changes : List (Change α)) : List (Span α) := changes.filterMap Change.gainedRun?

/-- The runs that are told as lost, in order. -/
def losses (changes : List (Change α)) : List (Span α) := changes.filterMap Change.lostRun?

/-- No run is told as gained before one that is told as lost. -/
def LossesFirst (changes : List (Change α)) : Prop :=
  changes.Pairwise fun c d => c.gainedRun? = none ∨ d.lostRun? = none

instance (changes : List (Change α)) : Decidable (LossesFirst changes) :=
  inferInstanceAs (Decidable (List.Pairwise _ _))

section Directions

variable (changes later : List (Change α)) (runs : List (Span α))

@[simp] theorem gains_append : gains (changes ++ later) = gains changes ++ gains later :=
  List.filterMap_append

@[simp] theorem losses_append : losses (changes ++ later) = losses changes ++ losses later :=
  List.filterMap_append

@[simp] theorem gains_map_gained : gains (runs.map .gained) = runs := by
  induction runs with
  | nil => rfl
  | cons r rest ih => exact congrArg (r :: ·) ih

@[simp] theorem losses_map_lost : losses (runs.map .lost) = runs := by
  induction runs with
  | nil => rfl
  | cons r rest ih => exact congrArg (r :: ·) ih

@[simp] theorem gains_map_lost : gains (runs.map .lost) = [] := by
  induction runs with
  | nil => rfl
  | cons r rest ih => exact ih

@[simp] theorem losses_map_gained : losses (runs.map .gained) = [] := by
  induction runs with
  | nil => rfl
  | cons r rest ih => exact ih

theorem lossesFirst_of_told (lost gained : List (Span α)) :
    LossesFirst (lost.map .lost ++ gained.map .gained) := by
  refine List.pairwise_append.mpr ⟨?_, ?_, ?_⟩
  · exact List.pairwise_map.mpr (List.pairwise_of_forall fun _ _ => .inl rfl)
  · exact List.pairwise_map.mpr (List.pairwise_of_forall fun _ _ => .inr rfl)
  · intro c hc d _
    obtain ⟨r, _, rfl⟩ := List.mem_map.mp hc
    exact .inl rfl

theorem lossesFirst_append : LossesFirst (changes ++ later) ↔
    LossesFirst changes ∧ LossesFirst later ∧ (gains changes = [] ∨ losses later = []) := by
  rw [LossesFirst, List.pairwise_append, gains, losses, List.filterMap_eq_nil_iff,
    List.filterMap_eq_nil_iff]
  refine and_congr_right fun _ => and_congr_right fun _ => ⟨fun hacross => ?_, fun hnone => ?_⟩
  · by_contra hboth
    push Not at hboth
    obtain ⟨⟨c, hc, hgained⟩, d, hd, hlost⟩ := hboth
    exact (hacross c hc d hd).elim hgained hlost
  · exact fun c hc d hd => hnone.imp (fun h => h c hc) fun h => h d hd

end Directions

variable [Scale α] {P Q : α → Prop} {rs ts : List (Span α)} {r t : Span α}

/-! ### Runs with something missing in between -/

/-- One run ends below the other, and not right before it. -/
def Span.Apart (r t : Span α) : Prop := place r.hi + 1 < place t.lo ∨ place t.hi + 1 < place r.lo

instance (r t : Span α) : Decidable (r.Apart t) := inferInstanceAs (Decidable (_ ∨ _))

theorem Span.Apart.symm (h : r.Apart t) : t.Apart r := Or.symm h

theorem Span.Apart.not_adjacent {u v : α} (h : r.Apart t) (hu : r.Contains u) (hv : t.Contains v) :
    ¬ Adjacent u v ∧ ¬ Adjacent v u := by
  have := (le_iff.mp hu.1).2.2
  have := (le_iff.mp hu.2).2.2
  have := (le_iff.mp hv.1).2.2
  have := (le_iff.mp hv.2).2.2
  simp only [adjacent_iff]
  rcases h with hgap | hgap <;> exact ⟨fun hadj => by omega, fun hadj => by omega⟩

/-- A longest run does not begin right after another one ends. -/
theorem Span.IsLongestRun.not_adjacent (hr : r.IsLongestRun P) (ht : t.IsLongestRun P) :
    ¬ Adjacent r.hi t.lo := by
  intro hadjacent
  obtain ⟨hrHi, htLo, hplace⟩ := adjacent_iff.mp hadjacent
  obtain ⟨hrLo, _, hrle⟩ := le_iff.mp hr.proper
  obtain ⟨_, htHi, htle⟩ := le_iff.mp ht.proper
  have hboth : ∀ v, (⟨r.lo, t.hi⟩ : Span α).Contains v → P v := by
    intro v hv
    obtain ⟨hge, hle⟩ := hv
    have hcomp := (le_iff.mp hge).2.1
    by_cases hreach : v ≤ r.hi
    · exact hr.holds v ⟨hge, hreach⟩
    · rw [le_iff_place hcomp hrHi] at hreach
      exact ht.holds v ⟨(le_iff_place htLo hcomp).mpr (by omega), hle⟩
  have hsame := (hr.longest ⟨r.lo, t.hi⟩ (le_iff.mp hr.proper).1
    ((le_iff_place hrHi htHi).mpr (by omega)) hboth).2
  have := (same_iff.mp hsame).2.2
  dsimp only at this
  omega

theorem LongestRuns.pairwise_apart (h : LongestRuns P rs) : rs.Pairwise Span.Apart := by
  refine h.ascending.imp_of_mem fun {r t} hr ht hlt => .inl ?_
  obtain ⟨hhi, hlo, hplace⟩ := lt_iff.mp hlt
  have hnot := (h.isLongestRun r hr).not_adjacent (h.isLongestRun t ht)
  rw [adjacent_iff] at hnot
  have hne : place r.hi + 1 ≠ place t.lo := fun heq => hnot ⟨hhi, hlo, heq⟩
  omega

/-- The runs are in order each, and they hold the values with a property. -/
structure Fills (P : α → Prop) (rs : List (Span α)) : Prop where
  proper : ∀ r ∈ rs, r.lo ≤ r.hi
  mem_iff : ∀ v, P v ↔ ∃ r ∈ rs, r.Contains v

theorem Decomposes.fills (h : Decomposes P rs) : Fills P rs :=
  ⟨fun _ hr => h.proper hr, h.mem_iff⟩

theorem Fills.nil (h : ∀ v, ¬ P v) : Fills P [] := ⟨by simp, fun v => by simp [h v]⟩

theorem Fills.eq_nil_iff (h : Fills P rs) : rs = [] ↔ ∀ v, ¬ P v := by
  constructor
  · rintro rfl v hv
    obtain ⟨r, hr, _⟩ := (h.mem_iff v).mp hv
    cases hr
  · refine fun hnone => List.eq_nil_iff_forall_not_mem.mpr fun r hr => hnone r.lo ?_
    exact (h.mem_iff r.lo).mpr ⟨r, hr, (Span.contains_ends (h.proper r hr)).1⟩

theorem Fills.append (hr : Fills P rs) (ht : Fills Q ts) : Fills (fun v => P v ∨ Q v) (rs ++ ts) where
  proper := List.forall_mem_append.mpr ⟨hr.proper, ht.proper⟩
  mem_iff v := by
    rw [hr.mem_iff, ht.mem_iff]
    simp only [List.mem_append, or_and_right, exists_or]

theorem Fills.congr (h : Fills P rs) (hiff : ∀ v, P v ↔ Q v) : Fills Q rs :=
  ⟨h.proper, fun v => (hiff v).symm.trans (h.mem_iff v)⟩

/-- Runs with something missing between any two of them can be put in order. -/
theorem Fills.exists_decomposes (h : Fills P rs) (hapart : rs.Pairwise Span.Apart) :
    ∃ ts, Decomposes P ts ∧ rs.Perm ts := by
  have hperm := List.mergeSort_perm rs fun r t => decide (place r.lo ≤ place t.lo)
  have hsorted : (rs.mergeSort fun r t => decide (place r.lo ≤ place t.lo)).Pairwise
      fun r t => decide (place r.lo ≤ place t.lo) := by
    refine List.pairwise_mergeSort (fun a b c hab hbc => ?_) (fun a b => ?_) rs
    · simp only [decide_eq_true_eq] at hab hbc ⊢
      omega
    · simp only [Bool.or_eq_true, decide_eq_true_eq]
      omega
  generalize rs.mergeSort (fun r t => decide (place r.lo ≤ place t.lo)) = ts at hperm hsorted
  have hapart : ts.Pairwise Span.Apart :=
    (hperm.pairwise_iff fun hrt => Span.Apart.symm hrt).mpr hapart
  have hproper : ∀ r ∈ ts, r.lo ≤ r.hi := fun r hr => h.proper r (hperm.mem_iff.mp hr)
  refine ⟨ts, ⟨⟨fun b hb => ?_, ?_⟩, fun v => ?_⟩, hperm.symm⟩
  · obtain ⟨r, hr, rfl⟩ := List.mem_map.mp hb
    exact hproper r hr
  · rw [List.pairwise_map]
    refine (hsorted.and hapart).imp_of_mem fun {r t} hr ht ⟨hle, hgap⟩ => Block.apart_unit.mpr ?_
    have := (le_iff.mp (hproper t ht)).2.2
    rw [decide_eq_true_eq] at hle
    simp only [Span.block]
    rcases hgap with hgap | hgap <;> omega
  · rw [covered_block, h.mem_iff]
    simp only [hperm.mem_iff]

/-! ### Each longest run once -/

/-- The runs are the longest runs of the values with a property, each of them once, in whatever order. -/
def EachOnce (P : α → Prop) (rs : List (Span α)) : Prop := ∃ ts, LongestRuns P ts ∧ rs.Perm ts

theorem Decomposes.eachOnce (h : Decomposes P rs) : EachOnce P rs :=
  ⟨rs, h.longestRuns, List.Perm.refl rs⟩

theorem EachOnce.pairwise_apart (h : EachOnce P rs) : rs.Pairwise Span.Apart := by
  obtain ⟨ts, hts, hperm⟩ := h
  exact (hperm.pairwise_iff fun hrt => Span.Apart.symm hrt).mpr hts.pairwise_apart

theorem Fills.eachOnce_iff (h : Fills P rs) : EachOnce P rs ↔ rs.Pairwise Span.Apart := by
  refine ⟨EachOnce.pairwise_apart, fun hapart => ?_⟩
  obtain ⟨ts, hts, hperm⟩ := h.exists_decomposes hapart
  exact ⟨ts, hts.longestRuns, hperm⟩

/-- Runs of two properties that no value has both of are apart exactly when no value with the one stands
right next to a value with the other. -/
theorem Fills.forall_apart_iff (hr : Fills P rs) (ht : Fills Q ts) (hdisjoint : ∀ v, P v → ¬ Q v) :
    (∀ r ∈ rs, ∀ t ∈ ts, r.Apart t) ↔
      ∀ u v, P u → Q v → ¬ Adjacent u v ∧ ¬ Adjacent v u := by
  constructor
  · intro hapart u v hu hv
    obtain ⟨r, hr, hru⟩ := (hr.mem_iff u).mp hu
    obtain ⟨t, ht, htv⟩ := (ht.mem_iff v).mp hv
    exact (hapart r hr t ht).not_adjacent hru htv
  · intro hnone r hmem t hmem'
    have hrProper := hr.proper r hmem
    have htProper := ht.proper t hmem'
    obtain ⟨hrLo, hrHi, hrle⟩ := le_iff.mp hrProper
    obtain ⟨htLo, htHi, htle⟩ := le_iff.mp htProper
    have hP : ∀ v, r.Contains v → P v := fun v hv => (hr.mem_iff v).mpr ⟨r, hmem, hv⟩
    have hQ : ∀ v, t.Contains v → Q v := fun v hv => (ht.mem_iff v).mpr ⟨t, hmem', hv⟩
    obtain ⟨hrFirst, hrLast⟩ := Span.contains_ends hrProper
    obtain ⟨htFirst, htLast⟩ := Span.contains_ends htProper
    have hends : P r.lo ∧ P r.hi ∧ Q t.lo ∧ Q t.hi :=
      ⟨hP _ hrFirst, hP _ hrLast, hQ _ htFirst, hQ _ htLast⟩
    -- an end of one run is neither in the other run nor right next to it
    have hlow : ¬ (place r.lo ≤ place t.lo ∧ place t.lo ≤ place r.hi) := fun hin =>
      hdisjoint _ (hP _ ⟨(le_iff_place hrLo htLo).mpr hin.1, (le_iff_place htLo hrHi).mpr hin.2⟩)
        hends.2.2.1
    have hhigh : ¬ (place t.lo ≤ place r.lo ∧ place r.lo ≤ place t.hi) := fun hin =>
      hdisjoint _ hends.1
        (hQ _ ⟨(le_iff_place htLo hrLo).mpr hin.1, (le_iff_place hrLo htHi).mpr hin.2⟩)
    have hbefore : place r.hi + 1 ≠ place t.lo := fun heq =>
      (hnone _ _ hends.2.1 hends.2.2.1).1 (adjacent_iff.mpr ⟨hrHi, htLo, heq⟩)
    have hbehind : place t.hi + 1 ≠ place r.lo := fun heq =>
      (hnone _ _ hends.1 hends.2.2.2).2 (adjacent_iff.mpr ⟨htHi, hrLo, heq⟩)
    unfold Span.Apart
    omega

/-! ### What a call tells as a whole -/

/-- The changes tell each longest run of the values that were gained once, and each of those that were
lost. Nothing else is told, and all losses come before the gains. -/
structure TellsOnce (P Q : α → Prop) (changes : List (Change α)) : Prop where
  gained : EachOnce (fun v => Q v ∧ ¬ P v) (gains changes)
  lost : EachOnce (fun v => P v ∧ ¬ Q v) (losses changes)
  lossesFirst : LossesFirst changes

theorem tellsOnce_of_told {lost gained : List (Span α)}
    (hlost : Decomposes (fun v => P v ∧ ¬ Q v) lost)
    (hgained : Decomposes (fun v => Q v ∧ ¬ P v) gained) :
    TellsOnce P Q (lost.map .lost ++ gained.map .gained) where
  gained := by simpa using hgained.eachOnce
  lost := by simpa using hlost.eachOnce
  lossesFirst := lossesFirst_of_told lost gained

/-- A call that loses nothing tells what it gained. -/
theorem tellsOnce_of_gained (hruns : Decomposes (fun v => Q v ∧ ¬ P v) rs)
    (hkept : ∀ v, P v → Q v) : TellsOnce P Q (rs.map .gained) :=
  have hlost : Decomposes (fun v => P v ∧ ¬ Q v) [] := .nil fun v hv => hv.2 (hkept v hv.1)
  tellsOnce_of_told hlost hruns

/-- A call that gains nothing tells what it lost. -/
theorem tellsOnce_of_lost (hruns : Decomposes (fun v => P v ∧ ¬ Q v) rs)
    (hkept : ∀ v, Q v → P v) : TellsOnce P Q (rs.map .lost) := by
  have hgained : Decomposes (fun v => Q v ∧ ¬ P v) [] := .nil fun v hv => hv.2 (hkept v hv.1)
  simpa using tellsOnce_of_told hruns hgained

end RangeSets
