import RangeSets.Proofs.RangeSet.Algebra
import RangeSets.Proofs.Stepwise.Pieces
import RangeSets.Proofs.Store.Contents
/-!
# Building sets in a store, access by access

The ways to build a set as a type, with the names of what goes into it. Each of them builds a sound set
from sound ones. Bounds that are not in order are turned down where the result may be a refusal, and
where it may not they are the one fault that there is.
-/

namespace RangeSets

open Scale

/-- What a set is built from. Sets and maps go in by name. -/
inductive Recipe (α : Type) where
  | empty
  /-- One range, or a refusal. -/
  | tryRange (lo hi : α)
  /-- One range, or a fault. -/
  | requireRange (lo hi : α)
  | whole
  | ofSpans (ranges : List (Span α))
  | copy (name : String)
  | union (left right : String)
  | difference (left right : String)
  | intersection (left right : String)
  | complement (name : String)
  /-- The values that count for something in a map. -/
  | support (name : String)
  | withMinWorth (name : String) (lo hi : α)
  | withMaxWorth (name : String) (lo hi : α)

variable {α : Type} [Scale α]

namespace Store

def build (store : Store α) : Recipe α → Except Fault (Except (Refusal α) (RangeSet α))
  | .empty => .ok (.ok RangeSet.empty)
  | .tryRange lo hi => .ok (RangeSet.tryRange lo hi)
  | .requireRange lo hi => (RangeSet.requireRange lo hi).map .ok
  | .whole => .ok (.ok RangeSet.whole)
  | .ofSpans ranges => .ok (.ok (RangeSet.ofSpans ranges))
  | .copy name => .ok (.ok (store.set name))
  | .union left right => .ok (.ok ((store.set left).union (store.set right)))
  | .difference left right => .ok (.ok ((store.set left).difference (store.set right)))
  | .intersection left right => .ok (.ok ((store.set left).intersection (store.set right)))
  | .complement name => .ok (.ok (store.set name).complement)
  | .support name => .ok (.ok (store.map name).support)
  | .withMinWorth name lo hi => .ok (.ok ((store.map name).withMinWorth lo hi))
  | .withMaxWorth name lo hi => .ok (.ok ((store.map name).withMaxWorth lo hi))

end Store

namespace Stepwise

def build (store : Store α) : Recipe α → Except Stop (Except (Refusal α) (RangeSet α))
  | .empty => .ok (.ok RangeSet.empty)
  | .tryRange lo hi => tryRange lo hi
  | .requireRange lo hi => (requireRange lo hi).map .ok
  | .whole => whole.map .ok
  | .ofSpans ranges => (ofSpans ranges).map .ok
  | .copy name => .ok (.ok (store.set name))
  | .union left right => (union (store.set left) (store.set right)).map .ok
  | .difference left right => (difference (store.set left) (store.set right)).map .ok
  | .intersection left right => (intersection (store.set left) (store.set right)).map .ok
  | .complement name => (complement (store.set name)).map .ok
  | .support name => (support (store.map name)).map .ok
  | .withMinWorth name lo hi => (withMinWorth (store.map name) lo hi).map .ok
  | .withMaxWorth name lo hi => (withMaxWorth (store.map name) lo hi).map .ok

end Stepwise

namespace Store

variable {store : Store α} {recipe : Recipe α}

/-- Building a set from sound ones comes to no breach, and it comes to the planned set, to its refusal
or to its fault. -/
theorem Sound.build_eq (h : store.Sound) (recipe : Recipe α) :
    Stepwise.build store recipe = (store.build recipe).mapError .fault := by
  cases recipe with
  | empty => rfl
  | tryRange lo hi => exact RangeSet.tryRange_ok lo hi
  | requireRange lo hi =>
      rw [Stepwise.build, RangeSet.requireRange_eq, build]
      cases RangeSet.requireRange lo hi <;> rfl
  | whole =>
      rw [Stepwise.build, RangeSet.whole_ok]
      rfl
  | ofSpans ranges =>
      rw [Stepwise.build, RangeSet.ofSpans_ok]
      rfl
  | copy name => rfl
  | union left right =>
      rw [Stepwise.build, (h.set left).union_ok (h.set right)]
      rfl
  | difference left right =>
      rw [Stepwise.build, (h.set left).difference_ok (h.set right)]
      rfl
  | intersection left right =>
      rw [Stepwise.build, (h.set left).intersection_ok (h.set right)]
      rfl
  | complement name =>
      rw [Stepwise.build, (h.set name).complement_ok]
      rfl
  | support name =>
      obtain ⟨p, hp⟩ := h.map name
      rw [Stepwise.build, hp.holds.support_ok]
      rfl
  | withMinWorth name lo hi =>
      obtain ⟨p, hp⟩ := h.map name
      rw [Stepwise.build, hp.holds.withMinWorth_ok]
      rfl
  | withMaxWorth name lo hi =>
      obtain ⟨p, hp⟩ := h.map name
      rw [Stepwise.build, hp.holds.withMaxWorth_ok]
      rfl

/-- What is built of sound sets is sound. -/
theorem Sound.build (h : store.Sound) {s : RangeSet α} (hbuilt : store.build recipe = .ok (.ok s)) :
    s.Sound := by
  cases recipe with
  | empty =>
      cases hbuilt
      exact RangeSet.sound_empty
  | tryRange lo hi =>
      rw [Store.build, RangeSet.tryRange] at hbuilt
      split at hbuilt
      · rename_i hle
        cases hbuilt
        exact RangeSet.sound_ofRange hle
      · cases hbuilt
  | requireRange lo hi =>
      rw [Store.build, RangeSet.requireRange] at hbuilt
      split at hbuilt
      · rename_i hle
        cases hbuilt
        exact RangeSet.sound_ofRange hle
      · cases hbuilt
  | whole =>
      cases hbuilt
      exact RangeSet.sound_whole
  | copy name =>
      cases hbuilt
      exact h.set name
  | difference left right =>
      cases hbuilt
      exact (h.set left).difference _
  | intersection left right =>
      cases hbuilt
      exact (h.set left).intersection _
  | complement name =>
      cases hbuilt
      exact RangeSet.sound_complement _
  | union left right =>
      cases hbuilt
      exact (h.set left).union _
  | ofSpans _ | support _ | withMinWorth _ _ _ | withMaxWorth _ _ _ =>
      cases hbuilt
      exact RangeSet.sound_empty.extend _

/-- Only one way to build a set may fault. -/
theorem build_fault {fault : Fault} (hfault : store.build recipe = .error fault) :
    ∃ lo hi, recipe = .requireRange lo hi ∧ ¬ lo ≤ hi ∧ fault = .unorderedBounds := by
  cases recipe with
  | requireRange lo hi =>
      rw [build, RangeSet.requireRange] at hfault
      split at hfault
      · cases hfault
      · rename_i hnot
        cases hfault
        exact ⟨lo, hi, rfl, hnot, rfl⟩
  | _ => cases hfault

end Store

end RangeSets
