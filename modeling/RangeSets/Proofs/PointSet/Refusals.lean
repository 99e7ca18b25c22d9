import RangeSets.Proofs.PointSet.Reachable
import RangeSets.Proofs.Stepwise.Points
import RangeSets.Proofs.Store.Telling
/-!
# What point sets refuse

A universe is refused when its bounds are not in order, and otherwise when it holds too many values.
A number is refused when it is not in the universe, and a range when it holds more than one number,
wherever it lies. A refusal leaves the set and all trails as they were, also when the work is done
statement by statement and nothing is taken back. Whatever is not refused is in the set afterwards,
and is told if it was not there before.
-/

namespace RangeSets

variable {f : IntegerFormat}

namespace PointSet

variable {p : PointSet f} {v lo hi : Fixed f} {refusal : Refusal (Fixed f)}
  {result : PointSet f × List (Change (Fixed f))}

/-! ### Universes -/

/-- What comes of a request for a set over a universe, an empty one or a full one. The width of the
universe is a whole number without bounds here, and the words that it is kept in are wide enough. -/
structure MakesOrRefuses (lo hi : Fixed f) : Prop where
  empty_made_iff : (∃ p, emptyOver lo hi = .ok p) ↔ lo ≤ hi ∧ hi.val - lo.val + 1 ≤ 2 ^ 32
  full_made_iff : (∃ p, fullOver lo hi = .ok p) ↔ lo ≤ hi ∧ hi.val - lo.val + 1 ≤ 2 ^ 32
  empty_refused_iff : ∀ refusal, emptyOver lo hi = .error refusal ↔
    (hi < lo ∧ refusal = .unordered lo hi) ∨
      (lo ≤ hi ∧ 2 ^ 32 < hi.val - lo.val + 1 ∧ refusal = .tooWide lo hi)
  full_refused_iff : ∀ refusal, fullOver lo hi = .error refusal ↔
    (hi < lo ∧ refusal = .unordered lo hi) ∨
      (lo ≤ hi ∧ 2 ^ 32 < hi.val - lo.val + 1 ∧ refusal = .tooWide lo hi)
  empty_in_words : Stepwise.Points.emptyOver lo hi = (emptyOver lo hi).mapError .refused
  full_in_words : Stepwise.Points.fullOver lo hi = (fullOver lo hi).mapError .refused

theorem exists_fullOver_iff : (∃ p, fullOver lo hi = .ok p) ↔ ∃ p, emptyOver lo hi = .ok p := by
  rw [fullOver_eq]
  cases emptyOver lo hi <;> simp [Except.map]

theorem fullOver_eq_error_iff :
    fullOver lo hi = .error refusal ↔ emptyOver lo hi = .error refusal := by
  rw [fullOver_eq]
  cases emptyOver lo hi <;> simp [Except.map]

theorem makesOrRefuses (hbits : f.bits ≤ 64) (lo hi : Fixed f) : MakesOrRefuses lo hi := by
  have hmade : (∃ p, emptyOver lo hi = .ok p) ↔ Accepts lo hi :=
    ⟨fun ⟨_, hp⟩ => (emptyOver_eq_ok_iff.mp hp).1,
      fun haccepts => ⟨_, emptyOver_eq_ok_iff.mpr ⟨haccepts, rfl⟩⟩⟩
  exact ⟨hmade, exists_fullOver_iff.trans hmade, fun _ => emptyOver_eq_error_iff,
    fun _ => fullOver_eq_error_iff.trans emptyOver_eq_error_iff,
    Stepwise.Points.emptyOver_eq hbits lo hi, Stepwise.Points.fullOver_eq hbits lo hi⟩

/-! ### Numbers -/

theorem add_eq_error_iff : p.add v = .error refusal ↔
    (v < p.lower ∨ p.upper < v) ∧ refusal = .outside v p.lower p.upper := by
  have hnone := @offset?_eq_none_iff f p v
  rw [add]
  cases hoffset : p.offset? v with
  | none =>
      rw [hoffset] at hnone
      rw [Except.error.injEq, eq_comm]
      exact (and_iff_right (hnone.mp rfl)).symm
  | some n =>
      rw [hoffset] at hnone
      have hwithin : ¬ (v < p.lower ∨ p.upper < v) := fun hout => by cases hnone.mpr hout
      dsimp only
      split <;> simp [hwithin]

/-- A range of more than one number is refused without a look at the universe. -/
theorem addBetween_eq_error_iff : p.addBetween lo hi = .error refusal ↔
    (lo < hi ∧ refusal = .notSingle lo hi) ∨
      (lo = hi ∧ (lo < p.lower ∨ p.upper < lo) ∧ refusal = .outside lo p.lower p.upper) := by
  rw [addBetween]
  split
  · rename_i hlt
    have hnot : ¬ lo < hi := fun hgt => by
      rw [Fixed.lt_iff] at hlt hgt
      omega
    have hne : lo ≠ hi := fun heq => by
      rw [heq, Fixed.lt_iff] at hlt
      omega
    simp [hnot, hne]
  · rename_i hle
    split
    · rename_i hne
      have hlt : lo < hi := by
        have hval : lo.val ≠ hi.val := fun heq => hne (Fixed.ext heq)
        rw [Fixed.lt_iff] at hle ⊢
        omega
      simp [hlt, hne, eq_comm]
    · rename_i heq
      obtain rfl := Classical.not_not.mp heq
      rw [add_eq_error_iff]
      simp [hle]

/-- A number that goes in is told, and told only if it was missing. -/
theorem changes_of_add (hok : p.add v = .ok result) :
    result.2 = if p.Contains v then [] else [.gained ⟨v, v⟩] := by
  rw [add] at hok
  cases hoffset : p.offset? v with
  | none => simp [hoffset] at hok
  | some n =>
      have hmem : p.Contains v ↔ n ∈ p.offsets := by simp [Contains, hoffset]
      simp only [hoffset] at hok
      split at hok
      · rename_i hn
        cases hok
        rw [if_pos (hmem.mpr hn)]
      · rename_i hn
        cases hok
        rw [if_neg (mt hmem.mp hn)]

theorem Sound.contains_of_add (h : p.Sound) (hok : p.add v = .ok result) (u : Fixed f) :
    result.1.Contains u ↔ p.Contains u ∨ u = v := by
  rw [(h.add hok).contains_iff]
  exact or_congr_right (Fixed.same_iff.trans eq_comm)

end PointSet

/-! ### Work in place -/

namespace Trails

variable {α : Type} {before before' after after' : Trails α} {watch : Watch}
  {changes : List (Change α)}

/-- Changes that are told one by one are heard like changes that are told together. -/
theorem heard_each (t : Trails α) (watch : Watch) (changes : List (Change α)) :
    t.Heard (changes.foldl (fun t change => t.tell (some watch) [change]) t) watch changes := by
  induction changes generalizing t with
  | nil => exact .refl t watch
  | cons change rest ih => exact (heard_tell t watch [change]).trans (ih _)

theorem foldl_tell_none (t : Trails α) (changes : List (Change α)) :
    changes.foldl (fun t change => t.tell none [change]) t = t := by
  induction changes with
  | nil => rfl
  | cons change rest ih => exact ih

theorem Heard.trail_congr (h : before.Heard after watch changes)
    (h' : before'.Heard after' watch changes) (hsame : ∀ n, before.trail n = before'.trail n)
    (n : String) : after.trail n = after'.trail n := by
  by_cases hn : n = watch.trail
  · subst hn
    refine Trail.ext ?_ ?_
    · rw [h.heard_eq, h'.heard_eq, hsame]
    · rw [h.taken_eq, h'.taken_eq, hsame]
  · rw [h.others n hn, h'.others n hn, hsame]

end Trails

namespace AtWork

open Stepwise.Points

variable {work : AtWork f} {v : Fixed f} {stop : PointStop f}
  {update : Except (Refusal (Fixed f)) (PointSet f × List (Change (Fixed f)))}

theorem outcome_eq_error_iff : (work.outcome update).1 = .error stop ↔
    ∃ refusal, update = .error refusal ∧ stop = .refused refusal := by
  cases update <;> simp [outcome, eq_comm]

/-- A refusal leaves no trace. -/
theorem outcome_of_error (h : (work.outcome update).1 = .error stop) :
    (work.outcome update).2 = work := by
  obtain ⟨refusal, rfl, _⟩ := outcome_eq_error_iff.mp h
  rfl

theorem outcome_of_ok (h : (work.outcome update).1 = .ok ()) :
    ∃ result, update = .ok result ∧ (work.outcome update).2 = work.after result := by
  cases update with
  | error refusal => cases h
  | ok result => exact ⟨result, rfl, rfl⟩

/-- What is worked on is the set under a name in a store, with its watch, and the trails of the store
hold the same. -/
structure Matches (work : AtWork f) (points : PointStore f) (name : String) : Prop where
  get?_eq : points.sets.get? name = some ⟨work.set, work.watch?⟩
  trail_eq : ∀ trail, points.trails.trail trail = work.trails.trail trail

/-- An update of a set in a store is refused when the work in place is, and otherwise leaves the store
as the work does. -/
structure SameInStore (work : AtWork f) (u : PointUpdate f) (points : PointStore f) (name : String) :
    Prop where
  refused_iff : ∀ refusal, points.update name u = .error refusal ↔
    (work.outcome (work.set.update u)).1 = .error (.refused refusal)
  updated : ∀ after, points.update name u = .ok after →
    (work.outcome (work.set.update u)).2.Matches after name

theorem after_matches {points : PointStore f} {name : String} (h : work.Matches points name)
    (result : PointSet f × List (Change (Fixed f))) :
    (work.after result).Matches
      ⟨points.sets.put name ⟨result.1, work.watch?⟩, points.trails.tell work.watch? result.2⟩
      name := by
  refine ⟨Named.get?_put_self .., fun trail => ?_⟩
  rw [after]
  cases work.watch? with
  | none =>
      dsimp only
      rw [Trails.foldl_tell_none]
      exact h.trail_eq trail
  | some watch =>
      exact (Trails.heard_tell points.trails watch result.2).trail_congr
        (Trails.heard_each work.trails watch result.2) h.trail_eq trail

theorem update_of_matches {points : PointStore f} {name : String} (h : work.Matches points name)
    (u : PointUpdate f) : points.update name u = (work.set.update u).map fun result =>
      ⟨points.sets.put name ⟨result.1, work.watch?⟩, points.trails.tell work.watch? result.2⟩ := by
  rw [PointStore.update, PointStore.change, Shelf.tryChange, h.get?_eq]
  dsimp only
  cases work.set.update u <;> rfl

theorem sameInStore {points : PointStore f} {name : String} (h : work.Matches points name)
    (u : PointUpdate f) : work.SameInStore u points name := by
  have hupdate := update_of_matches h u
  refine ⟨fun refusal => ?_, fun after hok => ?_⟩
  · rw [hupdate]
    cases work.set.update u <;> simp [outcome, Except.map]
  · rw [hupdate] at hok
    obtain ⟨result, hresult, rfl⟩ := exists_of_map_eq_ok hok
    rw [hresult]
    exact after_matches h result

/-- A number is in the set that it was put into, along with what was there before, and it is told if
it was missing. -/
structure Added (before after : AtWork f) (v : Fixed f) : Prop where
  contains_iff : ∀ u, after.set.Contains u ↔ before.set.Contains u ∨ u = v
  lower_eq : after.set.lower = before.set.lower
  upper_eq : after.set.upper = before.set.upper
  watch_eq : after.watch? = before.watch?
  told : ¬ before.set.Contains v → ∀ watch, before.watch? = some watch →
    before.trails.Heard after.trails watch [.gained ⟨v, v⟩]
  not_told : before.set.Contains v ∨ before.watch? = none → after.trails = before.trails

/-- What comes of a request to put numbers into a set. Work in place does what the update says, in a
store as well, and a number that does not fit its word is no reason for it to end. -/
structure AddsOrRefuses (work : AtWork f) : Prop where
  add_refused_iff : ∀ v stop, ((addPoint v).runOn work).1 = .error stop ↔
    (v < work.set.lower ∨ work.set.upper < v) ∧
      stop = .refused (.outside v work.set.lower work.set.upper)
  addBetween_refused_iff : ∀ lo hi stop, ((addBetween lo hi).runOn work).1 = .error stop ↔
    (lo < hi ∧ stop = .refused (.notSingle lo hi)) ∨
      (lo = hi ∧ (lo < work.set.lower ∨ work.set.upper < lo) ∧
        stop = .refused (.outside lo work.set.lower work.set.upper))
  add_refused : ∀ v stop, ((addPoint v).runOn work).1 = .error stop →
    ((addPoint v).runOn work).2 = work
  addBetween_refused : ∀ lo hi stop, ((addBetween lo hi).runOn work).1 = .error stop →
    ((addBetween lo hi).runOn work).2 = work
  added : ∀ v, ((addPoint v).runOn work).1 = .ok () → work.Added ((addPoint v).runOn work).2 v
  addBetween_single : ∀ v, (addBetween v v).runOn work = (addPoint v).runOn work
  addBetween_reversed : ∀ lo hi, hi < lo → (addBetween lo hi).runOn work = (.ok (), work)
  add_eq : ∀ v, (addPoint v).runOn work = work.outcome (work.set.add v)
  addBetween_eq : ∀ lo hi,
    (addBetween lo hi).runOn work = work.outcome (work.set.addBetween lo hi)
  in_store : ∀ points name u, work.Matches points name → work.SameInStore u points name

theorem added_after (h : work.set.Sound) {result : PointSet f × List (Change (Fixed f))}
    (hok : work.set.add v = .ok result) : work.Added (work.after result) v := by
  have hchanges := PointSet.changes_of_add hok
  obtain ⟨hlower, hupper⟩ := PointSet.add_universe hok
  refine ⟨h.contains_of_add hok, hlower, hupper, rfl, fun hmissing watch hwatch => ?_,
    fun hquiet => ?_⟩
  · rw [if_neg hmissing] at hchanges
    rw [after, hchanges, hwatch]
    exact Trails.heard_tell work.trails watch _
  · rw [after, hchanges]
    rcases hquiet with hthere | hunwatched
    · rw [if_pos hthere]
      rfl
    · rw [hunwatched]
      split <;> rfl

theorem addsOrRefuses (hbits : f.bits ≤ 64) (h : work.set.Reachable) : work.AddsOrRefuses where
  add_refused_iff v stop := by
    rw [runOn_addPoint hbits, outcome_eq_error_iff]
    simp only [PointSet.add_eq_error_iff]
    grind
  addBetween_refused_iff lo hi stop := by
    rw [runOn_addBetween hbits, outcome_eq_error_iff]
    simp only [PointSet.addBetween_eq_error_iff]
    grind
  add_refused v stop hstop := by
    rw [runOn_addPoint hbits] at hstop ⊢
    exact outcome_of_error hstop
  addBetween_refused lo hi stop hstop := by
    rw [runOn_addBetween hbits] at hstop ⊢
    exact outcome_of_error hstop
  added v hok := by
    rw [runOn_addPoint hbits] at hok ⊢
    obtain ⟨result, hresult, hafter⟩ := outcome_of_ok hok
    rw [hafter]
    exact added_after h.sound hresult
  addBetween_single v := by
    have hnot : ¬ v < v := Int.lt_irrefl v.val
    rw [addBetween, if_neg hnot, if_neg fun hne => hne rfl]
  addBetween_reversed lo hi hlt := by
    rw [addBetween, if_pos hlt]
    rfl
  add_eq v := runOn_addPoint hbits v work
  addBetween_eq lo hi := runOn_addBetween hbits lo hi work
  in_store _ _ u hmatches := sameInStore hmatches u

end AtWork

/-- Universes are refused for the order of their bounds or for their width, ranges for holding more
than one number, and numbers for being outside, and for nothing else. What is refused changes
nothing, and what is not refused is added and told. The formats of point sets are those of up to 64
bits, whose numbers have room to spare in a wide word. -/
theorem refused_without_trace (hbits : f.bits ≤ 64) :
    (∀ lo hi : Fixed f, PointSet.MakesOrRefuses lo hi) ∧
      ∀ work : AtWork f, work.set.Reachable → work.AddsOrRefuses :=
  ⟨PointSet.makesOrRefuses hbits, fun _ h => AtWork.addsOrRefuses hbits h⟩

/-- Whole numbers of 64 bits with a sign. -/
abbrev Long := Fixed ⟨true, 64, by decide⟩

/-- No octet of those from -3 to 5, watched. -/
def octetsAtWork := AtWork.mk PointSet.noOctets (some ⟨7, "log"⟩) .empty

theorem octets_refused_without_trace :
    PointSet.emptyOver (Scale.bottom : Long) Scale.top = .error (.tooWide Scale.bottom Scale.top) ∧
      octetsAtWork.set.Reachable ∧
      ((Stepwise.Points.addPoint (.ofInt 6)).runOn octetsAtWork).2 = octetsAtWork ∧
      ((Stepwise.Points.addBetween (.ofInt 4) (.ofInt 90)).runOn octetsAtWork).2 = octetsAtWork ∧
      octetsAtWork.Added ((Stepwise.Points.addPoint (.ofInt 5)).runOn octetsAtWork).2
        (.ofInt 5) := by
  have hreach : octetsAtWork.set.Reachable :=
    .emptyOver (show PointSet.emptyOver (.ofInt (-3)) (.ofInt 5) = .ok PointSet.noOctets from rfl)
  have hlong := (refused_without_trace (f := ⟨true, 64, by decide⟩) (by decide)).1
  have hoctets := (refused_without_trace (by decide)).2 octetsAtWork hreach
  refine ⟨?_, hreach, ?_, ?_, ?_⟩
  · exact ((hlong _ _).empty_refused_iff _).mpr (.inr ⟨by decide, by decide, rfl⟩)
  · exact hoctets.add_refused _ _ ((hoctets.add_refused_iff _ _).mpr ⟨.inr (by decide), rfl⟩)
  · exact hoctets.addBetween_refused _ _ _
      ((hoctets.addBetween_refused_iff _ _ _).mpr (.inl ⟨by decide, rfl⟩))
  · exact hoctets.added _ rfl

end RangeSets
