import RangeSets.Proofs.Stepwise.Session
import RangeSets.Scale.Binary.Text
/-!
# The laws of the set operations

Sets of a session are operated on by name, and the result is put under a name as well. It is a set of its
own: whoever watches the sets that it was made of, nobody watches the result. No trail hears that it was
put there, and no trail hears of what is done to it later.

The values of the results are those that "and", "or" and "not" make of the values of the sets, and the laws
of the operations follow.
-/

namespace RangeSets

open Scale

variable {α : Type} [Scale α]

/-! ### Results under a name -/

namespace Session

open Workings

/-- The set is under the name, and nobody watches it. The other sets are there as before, with their
watches, and so are all maps, and no trail has heard anything. -/
structure Places (before after : Session α) (name : String) (r : RangeSet α) : Prop where
  placed : after.store.sets.get? name = some ⟨r, none⟩
  others : ∀ other, other ≠ name → after.store.sets.get? other = before.store.sets.get? other
  maps_eq : after.store.maps = before.store.maps
  trails_eq : after.store.trails = before.store.trails

variable [ToString α]

/-- The request to build by the recipe is granted, and places the set under the name without a watch. So
it stays when it is changed: mutations of it are granted, however many there are, and still no trail has
heard anything. -/
def PutsUnwatched (session : Session α) (name : String) (recipe : Recipe α) (r : RangeSet α) : Prop :=
  ∃ after, session.step planned (.build name recipe) = .ok (after, .done) ∧
    session.Places after name r ∧
    ∀ ms : List (Mutation α), ∃ later,
      after.run planned (ms.map (.mutate name)) = .ok (later, ms.map fun _ => .done) ∧
      session.Places later name (RangeSet.inTurn RangeSet.mutate r ms).1

variable {before after session : Session α} {name : String} {recipe : Recipe α} {r : RangeSet α}

/-- A mutation of a set that nobody watches is granted without a word. -/
theorem Places.mutate (h : before.Places after name r) (m : Mutation α) :
    ∃ later, after.step planned (.mutate name m) = .ok (later, .done) ∧
      before.Places later name (r.mutate m).1 := by
  let sets := after.store.sets.put name ⟨(r.mutate m).1, none⟩
  refine ⟨Session.forget { after with store := { after.store with sets } } name, ?_, ?_⟩
  · simp only [step, Shelf.tryChange, h.placed]
    rfl
  · refine ⟨Named.get?_put_self .., ?_, h.maps_eq, h.trails_eq⟩
    intro other hne
    exact (Named.get?_put_of_ne hne ..).trans (h.others other hne)

theorem Places.mutateAll (h : before.Places after name r) (ms : List (Mutation α)) :
    ∃ later, after.run planned (ms.map (.mutate name)) = .ok (later, ms.map fun _ => .done) ∧
      before.Places later name (RangeSet.inTurn RangeSet.mutate r ms).1 := by
  induction ms generalizing after r with
  | nil => exact ⟨after, rfl, h⟩
  | cons m rest ih =>
      obtain ⟨next, hstep, hnext⟩ := h.mutate m
      obtain ⟨later, hrun, hlater⟩ := ih hnext
      refine ⟨later, ?_, hlater⟩
      rw [List.map_cons, run_cons_of_ok hstep, hrun]
      rfl

theorem putsUnwatched (hbuilt : session.store.build recipe = .ok (.ok r)) (name : String) :
    session.PutsUnwatched name recipe r := by
  let sets := session.store.sets.place name r
  have hplaces : session.Places
      (Session.forget { session with store := { session.store with sets } } name) name r :=
    ⟨Named.get?_put_self .., fun other hne => Named.get?_put_of_ne hne .., rfl, rfl⟩
  refine ⟨_, ?_, hplaces, hplaces.mutateAll⟩
  simp only [step, planned, hbuilt]
  rfl

end Session

namespace RangeSet

variable {s t u : RangeSet α}

/-- A union holds the values of either set, an intersection those of both, a difference those of the
first and not of the second, and a complement all the others on the line. The results keep the
invariant, and a session that is asked for one of them, or for a copy, puts it under a name without a
watch. Union and intersection are commutative and associative, the complement of a complement is the set
itself, a difference is the intersection with a complement, and a complement turns one of union and
intersection into the other. -/
theorem laws_of_operations (hs : s.Reachable) (ht : t.Reachable) (hu : u.Reachable) :
    (∀ v, Comparable v →
      ((s.union t).Contains v ↔ s.Contains v ∨ t.Contains v) ∧
      ((s.intersection t).Contains v ↔ s.Contains v ∧ t.Contains v) ∧
      ((s.difference t).Contains v ↔ s.Contains v ∧ ¬ t.Contains v) ∧
      (s.complement.Contains v ↔ ¬ s.Contains v)) ∧
    (∀ r ∈ [s.union t, s.intersection t, s.difference t, s.complement], r.Invariant) ∧
    (∀ [ToString α] (session : Session α) (left right name : String),
      session.store.set left = s → session.store.set right = t →
        session.PutsUnwatched name (.union left right) (s.union t) ∧
        session.PutsUnwatched name (.intersection left right) (s.intersection t) ∧
        session.PutsUnwatched name (.difference left right) (s.difference t) ∧
        session.PutsUnwatched name (.complement left) s.complement ∧
        session.PutsUnwatched name (.copy left) s) ∧
    (s.union t).Same (t.union s) ∧
    (s.intersection t).Same (t.intersection s) ∧
    ((s.union t).union u).Same (s.union (t.union u)) ∧
    ((s.intersection t).intersection u).Same (s.intersection (t.intersection u)) ∧
    s.complement.complement.Same s ∧
    (s.difference t).Same (s.intersection t.complement) ∧
    (s.union t).complement.Same (s.complement.intersection t.complement) ∧
    (s.intersection t).complement.Same (s.complement.union t.complement) := by
  have hs := hs.sound
  have ht := ht.sound
  have hu := hu.sound
  refine ⟨?values, ?invariants, ?watches, hs.union_comm ht, hs.intersection_comm ht,
    hs.union_assoc ht hu, hs.intersection_assoc ht hu, hs.complement_complement, hs.difference_eq ht,
    hs.complement_union ht, hs.complement_intersection ht⟩
  case values =>
    intro v hv
    refine ⟨hs.contains_union ht v, hs.contains_intersection ht v, hs.contains_difference ht v, ?_⟩
    rw [hs.contains_complement, and_iff_right hv]
  case invariants =>
    intro r hr
    apply Sound.invariant
    simp only [List.mem_cons, List.not_mem_nil, or_false] at hr
    rcases hr with rfl | rfl | rfl | rfl
    · exact hs.union t
    · exact hs.intersection t
    · exact hs.difference t
    · exact sound_complement s
  case watches =>
    intro _ session left right name hleft hright
    subst hleft hright
    refine ⟨?_, ?_, ?_, ?_, ?_⟩
    all_goals exact Session.putsUnwatched rfl name

/-- The numbers up to zero, watched, and those from zero on. -/
def aroundZero : Session (Binary .single) where
  store := ⟨⟨[("up", ⟨upToZero, some ⟨7, "log"⟩⟩), ("from", ⟨fromZero, none⟩)]⟩, .empty, .empty⟩
  handed := []

/-- Zero is where the sets meet, and the place of their intersection is not watched, though it was
before. -/
theorem laws_around_zero :
    upToZero.Reachable ∧ fromZero.Reachable ∧
      Comparable (⟨0⟩ : Binary .single) ∧ Comparable (top : Binary .single) ∧
      aroundZero.store.set "up" = upToZero ∧ aroundZero.store.set "from" = fromZero ∧
      (upToZero.intersection fromZero).Contains ⟨0⟩ ∧
      upToZero.complement.Contains top ∧ ¬ upToZero.complement.Contains ⟨0⟩ ∧
      aroundZero.PutsUnwatched "up" (.intersection "up" "from") (upToZero.intersection fromZero) ∧
      (upToZero.difference fromZero).Same (upToZero.intersection fromZero.complement) := by
  have hup : upToZero.Reachable := .ofSpans _
  have hfrom : fromZero.Reachable := .ofSpans _
  have hzero : Comparable (⟨0⟩ : Binary .single) := by decide +kernel
  have htop : Comparable (top : Binary .single) := by decide +kernel
  have hleft : aroundZero.store.set "up" = upToZero := rfl
  have hright : aroundZero.store.set "from" = fromZero := rfl
  obtain ⟨hvalues, _, hputs, _, _, _, _, _, hdifference, _⟩ := laws_of_operations hup hfrom hup
  obtain ⟨_, hmeet, _⟩ := hputs aroundZero "up" "from" "up" hleft hright
  refine ⟨hup, hfrom, hzero, htop, hleft, hright, ?_, ?_, ?_, hmeet, hdifference⟩
  · exact (hvalues _ hzero).2.1.mpr (by decide +kernel)
  · exact (hvalues _ htop).2.2.2.mpr (by decide +kernel)
  · exact fun h => (hvalues _ hzero).2.2.2.mp h (by decide +kernel)

end RangeSet

end RangeSets
