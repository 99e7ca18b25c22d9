import RangeSets.Proofs.RangeSet.Reachable
import RangeSets.Proofs.Stepwise.Adding
import RangeSets.Proofs.Stepwise.Removing
/-!
# Building and changing range sets, access by access

Everything else that makes a set comes down to adding ranges, removing ranges and walking over the
ranges of another set. A set that is walked over is not changed meanwhile, not even where a set is taken
from itself: what is changed is a copy.
-/

namespace RangeSets

open Scale

namespace Stepwise

/-- Work on one thing after another. The changes are told in the order of the work. -/
def inTurn {σ β γ : Type} (f : σ → β → Except Stop (σ × List γ)) (s : σ) :
    List β → Except Stop (σ × List γ)
  | [] => .ok (s, [])
  | x :: rest => do
      let (after, changes) ← f s x
      let (final, later) ← inTurn f after rest
      return (final, changes ++ later)

variable {α : Type}

def walkSpans (s : RangeSet α) : Except Stop (List (Span α)) :=
  (walk s.chain).map fun es => es.map Entry.span

def clear (s : RangeSet α) : Except Stop (RangeSet α × List (Change α)) := do
  let ranges ← walkSpans s
  return (RangeSet.empty, ranges.map .lost)

variable [Scale α]

/-! ### Changing a set -/

def removeFrom (s : RangeSet α) (v : α) : Except Stop (RangeSet α × List (Change α)) :=
  if s.IsEmpty then .ok (s, [])
  else do remove s v (← readGreatest s.chain)

def removeAbove (s : RangeSet α) (v : α) : Except Stop (RangeSet α × List (Change α)) := do
  let greatest ← readGreatest s.chain
  if v < greatest then remove s (next v) greatest else return (s, [])

def removeUpTo (s : RangeSet α) (v : α) : Except Stop (RangeSet α × List (Change α)) :=
  if s.IsEmpty then .ok (s, [])
  else do remove s (← readLeast s.chain) v

def removeBelow (s : RangeSet α) (v : α) : Except Stop (RangeSet α × List (Change α)) := do
  let least ← readLeast s.chain
  if least < v then remove s least (prev v) else return (s, [])

def extend (s : RangeSet α) (ranges : List (Span α)) : Except Stop (RangeSet α × List (Change α)) :=
  inTurn (fun s r => add s r.lo r.hi) s ranges

def removeEach (s : RangeSet α) (ranges : List (Span α)) :
    Except Stop (RangeSet α × List (Change α)) :=
  inTurn (fun s r => remove s r.lo r.hi) s ranges

def undo (s : RangeSet α) (change : Change α) : Except Stop (RangeSet α × List (Change α)) :=
  match change with
  | .gained r => remove s r.lo r.hi
  | .lost r => add s r.lo r.hi

def mutate (s : RangeSet α) : Mutation α → Except Stop (RangeSet α × List (Change α))
  | .add lo hi => add s lo hi
  | .remove lo hi => remove s lo hi
  | .removeFrom v => removeFrom s v
  | .removeAbove v => removeAbove s v
  | .removeUpTo v => removeUpTo s v
  | .removeBelow v => removeBelow s v
  | .clear => clear s
  | .extend ranges => extend s ranges
  | .undo change => undo s change
  | .undoAll changes => inTurn undo s changes.reverse

/-! ### Building a set -/

def ofRange (lo hi : α) : Except Stop (RangeSet α) := do
  let (placed, _) ← insertAfter Chain.empty none lo hi
  return ⟨placed⟩

def tryRange (lo hi : α) : Except Stop (Except (Refusal α) (RangeSet α)) :=
  if lo ≤ hi then do return .ok (← ofRange lo hi)
  else .ok (.error (.unordered lo hi))

def requireRange (lo hi : α) : Except Stop (RangeSet α) :=
  if lo ≤ hi then ofRange lo hi else .error (.fault .unorderedBounds)

/-- The bounds of the scale are checked like any others. -/
def whole : Except Stop (RangeSet α) := requireRange bottom top

def ofSpans (ranges : List (Span α)) : Except Stop (RangeSet α) :=
  (extend RangeSet.empty ranges).map Prod.fst

def union (s t : RangeSet α) : Except Stop (RangeSet α) := do
  let (joined, _) ← extend s (← walkSpans t)
  return joined

def difference (s t : RangeSet α) : Except Stop (RangeSet α) := do
  let (left, _) ← removeEach s (← walkSpans t)
  return left

def intersection (s t : RangeSet α) : Except Stop (RangeSet α) := do
  difference s (← difference s t)

def complement (s : RangeSet α) : Except Stop (RangeSet α) := do
  difference (← whole) s

end Stepwise

/-! ### What comes of it -/

namespace RangeSet

open Stepwise

variable {α : Type} [Scale α] {s t : RangeSet α} {lo hi : α}

theorem Represents.readLeast_ok {p : Layout α Unit} (h : s.Represents p) :
    readLeast s.chain = .ok s.min :=
  h.holds.readLeast_eq

theorem Represents.readGreatest_ok {p : Layout α Unit} (h : s.Represents p) :
    readGreatest s.chain = .ok s.max :=
  h.holds.readGreatest_eq

/-- Work in turn on sound sets comes to what the plain work comes to, if each step does. -/
theorem Sound.inTurn_ok {β : Type} {f : RangeSet α → β → Except Stop (RangeSet α × List (Change α))}
    {g : RangeSet α → β → RangeSet α × List (Change α)}
    (hf : ∀ s x, s.Sound → f s x = .ok (g s x) ∧ (g s x).1.Sound) (h : s.Sound) (xs : List β) :
    Stepwise.inTurn f s xs = .ok (RangeSet.inTurn g s xs) := by
  induction xs generalizing s with
  | nil => rfl
  | cons x rest ih =>
      obtain ⟨hfirst, hsound⟩ := hf s x h
      rw [Stepwise.inTurn, hfirst]
      simp only [ok_bind]
      rw [ih hsound]
      rfl

theorem Sound.add_ok (h : s.Sound) (lo hi : α) : Stepwise.add s lo hi = .ok (s.add lo hi) := by
  obtain ⟨p, hp⟩ := h
  exact hp.add_ok lo hi

theorem Sound.remove_ok (h : s.Sound) (lo hi : α) :
    Stepwise.remove s lo hi = .ok (s.remove lo hi) := by
  obtain ⟨p, hp⟩ := h
  exact hp.remove_ok lo hi

theorem Sound.walkSpans_ok (h : s.Sound) : walkSpans s = .ok s.spans := by
  obtain ⟨p, hp⟩ := h
  rw [walkSpans, hp.holds.walk_eq]
  rfl

theorem Sound.extend_ok (h : s.Sound) (ranges : List (Span α)) :
    Stepwise.extend s ranges = .ok (s.extend ranges) :=
  h.inTurn_ok (fun _ r hs => ⟨hs.add_ok r.lo r.hi, (hs.add r.lo r.hi).1⟩) ranges

theorem Sound.removeEach_ok (h : s.Sound) (ranges : List (Span α)) :
    Stepwise.removeEach s ranges = .ok (s.removeEach ranges) :=
  h.inTurn_ok (fun _ r hs => ⟨hs.remove_ok r.lo r.hi, (hs.remove r.lo r.hi).1⟩) ranges

theorem Sound.undo_ok (h : s.Sound) (change : Change α) :
    Stepwise.undo s change = .ok (s.undo change) := by
  cases change with
  | gained r => exact h.remove_ok r.lo r.hi
  | lost r => exact h.add_ok r.lo r.hi

/-- A mutation of a sound set comes to no breach, and it comes to the planned one. -/
theorem Sound.mutate_ok (h : s.Sound) (mutation : Mutation α) :
    Stepwise.mutate s mutation = .ok (s.mutate mutation) := by
  obtain ⟨p, hp⟩ := id h
  cases mutation with
  | add lo hi => exact h.add_ok lo hi
  | remove lo hi => exact h.remove_ok lo hi
  | removeFrom v =>
      rw [Stepwise.mutate, Stepwise.removeFrom, hp.readGreatest_ok, RangeSet.mutate, RangeSet.removeFrom]
      split
      · rfl
      · exact h.remove_ok ..
  | removeAbove v =>
      rw [Stepwise.mutate, Stepwise.removeAbove, hp.readGreatest_ok, RangeSet.mutate,
        RangeSet.removeAbove]
      simp only [ok_bind]
      split
      · exact h.remove_ok ..
      · rfl
  | removeUpTo v =>
      rw [Stepwise.mutate, Stepwise.removeUpTo, hp.readLeast_ok, RangeSet.mutate, RangeSet.removeUpTo]
      split
      · rfl
      · exact h.remove_ok ..
  | removeBelow v =>
      rw [Stepwise.mutate, Stepwise.removeBelow, hp.readLeast_ok, RangeSet.mutate,
        RangeSet.removeBelow]
      simp only [ok_bind]
      split
      · exact h.remove_ok ..
      · rfl
  | clear =>
      rw [Stepwise.mutate, Stepwise.clear, h.walkSpans_ok]
      rfl
  | extend ranges => exact h.extend_ok ranges
  | undo change => exact h.undo_ok change
  | undoAll changes =>
      exact h.inTurn_ok (fun _ change hs => ⟨hs.undo_ok change, hs.undo change⟩) changes.reverse

omit [Scale α] in
theorem ofRange_ok (lo hi : α) : Stepwise.ofRange lo hi = .ok (ofRange lo hi) := by
  have hnone : (Chain.empty : Chain α).Holds (⟨[] ++ [], []⟩ : Layout α Unit) := Chain.holds_empty
  have hplaced := hnone.insertAfter_eq lo hi
  rw [Stepwise.ofRange]
  rw [lastSlot_nil] at hplaced
  rw [hplaced]
  rfl

theorem tryRange_ok (lo hi : α) : Stepwise.tryRange lo hi = .ok (tryRange lo hi) := by
  rw [Stepwise.tryRange, tryRange, ofRange_ok]
  split <;> rfl

theorem requireRange_eq (lo hi : α) :
    Stepwise.requireRange lo hi = (requireRange lo hi).mapError .fault := by
  rw [Stepwise.requireRange, requireRange, ofRange_ok]
  split <;> rfl

/-- The bounds of a scale are in order, so that the whole set is always built. -/
theorem whole_ok : (Stepwise.whole : Except Stop (RangeSet α)) = .ok whole := by
  rw [Stepwise.whole, Stepwise.requireRange, if_pos bottom_le_top, ofRange_ok]
  rfl

theorem ofSpans_ok (ranges : List (Span α)) : Stepwise.ofSpans ranges = .ok (ofSpans ranges) := by
  rw [Stepwise.ofSpans, sound_empty.extend_ok]
  rfl

theorem Sound.union_ok (hs : s.Sound) (ht : t.Sound) : Stepwise.union s t = .ok (s.union t) := by
  rw [Stepwise.union, ht.walkSpans_ok]
  simp only [ok_bind]
  rw [hs.extend_ok]
  rfl

theorem Sound.difference_ok (hs : s.Sound) (ht : t.Sound) :
    Stepwise.difference s t = .ok (s.difference t) := by
  rw [Stepwise.difference, ht.walkSpans_ok]
  simp only [ok_bind]
  rw [hs.removeEach_ok]
  rfl

theorem Sound.intersection_ok (hs : s.Sound) (ht : t.Sound) :
    Stepwise.intersection s t = .ok (s.intersection t) := by
  have hdifference : (s.difference t).Sound := hs.removeEach _
  rw [Stepwise.intersection, hs.difference_ok ht]
  exact hs.difference_ok hdifference

theorem Sound.complement_ok (hs : s.Sound) : Stepwise.complement s = .ok s.complement := by
  have hwhole : (whole : RangeSet α).Sound := sound_ofRange bottom_le_top
  rw [Stepwise.complement, whole_ok]
  exact hwhole.difference_ok hs

end RangeSet

end RangeSets
