import RangeSets.Proofs.RangeSet.Rollback
/-!
# One trail for many sets

Sets that are watched by one trail, each under a tag of its own, are changed in any order. The events
under a tag are then those of the set with that tag, in its own order: a set hears nothing of what is
done to the others, and what is done to them tells nothing under its tag. So the events under its tag
are the ones that it would have told alone, and they undo all that was done to it, whatever is done to
the others meanwhile.
-/

namespace RangeSets

variable {α : Type}

/-! ### Sets side by side -/

/-- The sets that one trail hears of have different tags. -/
def Shelf.TagsApart {σ : Type} (shelf : Shelf σ) (trail : String) : Prop :=
  ∀ a b tag, shelf.watch? a = some ⟨tag, trail⟩ → shelf.watch? b = some ⟨tag, trail⟩ → a = b

/-- The events under a tag. -/
def Event.under (tag : Int) (events : List (Event α)) : List (Event α) :=
  events.filter fun e => e.tag = tag

theorem Event.under_append (tag : Int) (earlier later : List (Event α)) :
    under tag (earlier ++ later) = under tag earlier ++ under tag later :=
  List.filter_append ..

theorem Event.under_self (tag : Int) (changes : List (Change α)) :
    under tag (changes.map fun c => ⟨tag, c⟩) = changes.map fun c => ⟨tag, c⟩ := by
  refine List.filter_eq_self.mpr fun e he => ?_
  obtain ⟨c, _, rfl⟩ := List.mem_map.mp he
  exact decide_eq_true rfl

namespace Store

variable {store : Store α} {name other trail : String} {s : RangeSet α} {tag : Int}

theorem changeSet_get?_of_ne (hne : name ≠ other) (f : RangeSet α → RangeSet α × List (Change α)) :
    (store.changeSet other f).sets.get? name = store.sets.get? name := by
  simp only [changeSet, Shelf.change]
  split
  · exact Named.get?_put_of_ne hne ..
  · rfl

/-- A change leaves every watch as it is. -/
theorem changeSet_watch? (store : Store α) (name other : String)
    (f : RangeSet α → RangeSet α × List (Change α)) :
    (store.changeSet other f).sets.watch? name = store.sets.watch? name := by
  by_cases hne : name = other
  · subst hne
    simp only [changeSet, Shelf.change]
    split
    next watched hget => simp only [Shelf.watch?, Named.get?_put_self, hget, Option.bind_some]
    next => rfl
  · rw [Shelf.watch?, Shelf.watch?, changeSet_get?_of_ne hne]

/-- A trail only hears of a changed set what the set tells it, under the tag of the set. -/
theorem changeSet_heard (store : Store α) (other trail : String)
    (f : RangeSet α → RangeSet α × List (Change α)) :
    ∃ news, ((store.changeSet other f).trails.trail trail).heard =
        (store.trails.trail trail).heard ++ news ∧
      ∀ e ∈ news, store.sets.watch? other = some ⟨e.tag, trail⟩ := by
  cases hget : store.sets.get? other with
  | none =>
      simp only [changeSet, Shelf.change, hget]
      exact ⟨[], (List.append_nil _).symm, by simp⟩
  | some watched =>
      obtain ⟨t, watch?⟩ := watched
      cases watch? with
      | none =>
          simp only [changeSet, Shelf.change, hget]
          exact ⟨[], (List.append_nil _).symm, by simp⟩
      | some watch =>
          have hheard := (changeSet_of_get? hget f).2
          by_cases htrail : trail = watch.trail
          · subst htrail
            refine ⟨(f t).2.map fun c => ⟨watch.tag, c⟩, hheard.heard_eq, ?_⟩
            intro e he
            obtain ⟨c, _, rfl⟩ := List.mem_map.mp he
            rw [Shelf.watch?, hget]
            rfl
          · exact ⟨[], by rw [hheard.others trail htrail, List.append_nil], by simp⟩

/-! ### A set alone -/

/-- A store with nothing in it but one watched set. -/
def alone (name : String) (s : RangeSet α) (watch : Watch) : Store α :=
  ⟨⟨[(name, ⟨s, some watch⟩)]⟩, .empty, .empty⟩

theorem alone_get? (name : String) (s : RangeSet α) (watch : Watch) :
    (alone name s watch).sets.get? name = some ⟨s, some watch⟩ := by
  simp [alone, Named.get?]

/-! ### Mutations in any order -/

/-- What is done to one set, in its own order. -/
def mutationsOf (name : String) (steps : List (String × Mutation α)) : List (Mutation α) :=
  (steps.filter fun step => step.1 = name).map Prod.snd

theorem mutationsOf_append (name : String) (steps more : List (String × Mutation α)) :
    mutationsOf name (steps ++ more) = mutationsOf name steps ++ mutationsOf name more := by
  simp [mutationsOf]

variable [Scale α]

/-- The store after mutations of sets by name, the first one made first. -/
def interleave (store : Store α) (steps : List (String × Mutation α)) : Store α :=
  steps.foldl (fun store step => store.changeSet step.1 fun s => s.mutate step.2) store

theorem interleave_append (store : Store α) (steps more : List (String × Mutation α)) :
    store.interleave (steps ++ more) = (store.interleave steps).interleave more :=
  List.foldl_append ..

/-- What a trail comes to hear goes behind what it heard, and every event is under the tag of a set that
it hears of. -/
theorem interleave_heard (store : Store α) (trail : String) (steps : List (String × Mutation α)) :
    ∃ events, ((store.interleave steps).trails.trail trail).heard =
        (store.trails.trail trail).heard ++ events ∧
      ∀ e ∈ events, ∃ name, store.sets.watch? name = some ⟨e.tag, trail⟩ := by
  induction steps generalizing store with
  | nil => exact ⟨[], (List.append_nil _).symm, by simp⟩
  | cons step rest ih =>
      obtain ⟨news, hheard, hnews⟩ := changeSet_heard store step.1 trail fun s => s.mutate step.2
      obtain ⟨events, hlater, hevents⟩ := ih (store.changeSet step.1 fun s => s.mutate step.2)
      simp only [changeSet_watch?] at hevents
      rw [hheard, List.append_assoc] at hlater
      refine ⟨news ++ events, hlater, fun e he => ?_⟩
      cases List.mem_append.mp he with
      | inl he => exact ⟨step.1, hnews e he⟩
      | inr he => exact hevents e he

/-- A set goes through its own mutations and no others, and under its tag the trail hears what these
tell and nothing else. -/
theorem interleave_of_get? (hapart : store.sets.TagsApart trail)
    (hget : store.sets.get? name = some ⟨s, some ⟨tag, trail⟩⟩)
    (steps : List (String × Mutation α)) :
    (store.interleave steps).sets.get? name =
        some ⟨(RangeSet.inTurn RangeSet.mutate s (mutationsOf name steps)).1, some ⟨tag, trail⟩⟩ ∧
      Event.under tag ((store.interleave steps).trails.trail trail).heard =
        Event.under tag (store.trails.trail trail).heard ++
          (RangeSet.inTurn RangeSet.mutate s (mutationsOf name steps)).2.map fun c => ⟨tag, c⟩ := by
  induction steps generalizing store s with
  | nil => exact ⟨hget, (List.append_nil _).symm⟩
  | cons step rest ih =>
      obtain ⟨target, m⟩ := step
      have hnext : (store.changeSet target fun s => s.mutate m).sets.TagsApart trail := by
        intro a b tag ha hb
        rw [changeSet_watch?] at ha hb
        exact hapart a b tag ha hb
      by_cases htarget : target = name
      · subst htarget
        obtain ⟨hmutated, hheard⟩ := changeSet_of_get? hget fun s => s.mutate m
        obtain ⟨hfinal, hlater⟩ := ih hnext hmutated
        have hown : mutationsOf target ((target, m) :: rest) = m :: mutationsOf target rest := by
          simp [mutationsOf]
        rw [hown, RangeSet.inTurn_cons, List.map_append, ← List.append_assoc]
        refine ⟨hfinal, hlater.trans (congrArg (· ++ _) ?_)⟩
        rw [hheard.heard_eq, Event.under_append, Event.under_self]
      · have hkept : (store.changeSet target fun s => s.mutate m).sets.get? name =
            some ⟨s, some ⟨tag, trail⟩⟩ := by
          rw [changeSet_get?_of_ne (Ne.symm htarget), hget]
        obtain ⟨hfinal, hlater⟩ := ih hnext hkept
        have hown : mutationsOf name ((target, m) :: rest) = mutationsOf name rest := by
          simp [mutationsOf, htarget]
        rw [hown]
        refine ⟨hfinal, hlater.trans (congrArg (· ++ _) ?_)⟩
        obtain ⟨news, hheard, hnews⟩ := changeSet_heard store target trail fun s => s.mutate m
        have hnone : Event.under tag news = [] := by
          refine List.filter_eq_nil_iff.mpr fun e he htag => ?_
          have hwatch := hnews e he
          rw [of_decide_eq_true htag] at hwatch
          refine htarget (hapart target name tag hwatch ?_)
          rw [Shelf.watch?, hget]
          rfl
        rw [hheard, Event.under_append, hnone, List.append_nil]

/-! ### Undoing in between -/

theorem heard_alone (name : String) (s : RangeSet α) (watch : Watch) (ms : List (Mutation α)) :
    (((alone name s watch).mutateAll name ms).trails.trail watch.trail).heard =
      (RangeSet.inTurn RangeSet.mutate s ms).2.map fun c => ⟨watch.tag, c⟩ := by
  rw [(mutateAll_of_get? (alone_get? name s watch) ms).2.heard_eq]
  rfl

end Store

theorem RangeSet.inTurn_undo [Scale α] (s : RangeSet α) (changes : List (Change α)) :
    inTurn mutate s (changes.map .undo) = inTurn undo s changes := by
  induction changes generalizing s with
  | nil => rfl
  | cons c rest ih =>
      rw [List.map_cons, inTurn_cons, inTurn_cons, ← ih]
      rfl

namespace Store

variable [Scale α] {store : Store α} {trail : String}

/-- Mutations that undo events: the latest first and one by one, or all of them at once. -/
def RollsBack (ms : List (Mutation α)) (events : List (Event α)) : Prop :=
  ms = events.reverse.map (fun e => .undo e.change) ∨ ms = [.undoAll (events.map Event.change)]

theorem RollsBack.inTurn_eq {ms : List (Mutation α)} {events : List (Event α)}
    (h : RollsBack ms events) (s : RangeSet α) :
    (RangeSet.inTurn RangeSet.mutate s ms).1 = (s.undoAll (events.map Event.change)).1 := by
  cases h with
  | inl hone =>
      have hundone : ms = (events.map Event.change).reverse.map .undo := by
        rw [hone, ← List.map_reverse, List.map_map]
        rfl
      rw [hundone, RangeSet.inTurn_undo]
      rfl
  | inr hall =>
      rw [hall]
      rfl

/-- Sets with tags of their own share a trail, and mutations of them are made in any order. Every
event that the trail comes to hear is under the tag of one of the sets. The events under a tag are,
one by one and in their order, those that a trail would hear which hears of the set with this tag
alone, when the same is done to it. Undone on the set from the last to the first they bring it back to
what it was, whatever is done to the other sets in between, rollbacks included. -/
theorem shared_trail_by_tag (hapart : store.sets.TagsApart trail)
    (steps : List (String × Mutation α)) :
    ∃ events, ((store.interleave steps).trails.trail trail).heard =
        (store.trails.trail trail).heard ++ events ∧
      (∀ e ∈ events, ∃ name, store.sets.watch? name = some ⟨e.tag, trail⟩) ∧
      ∀ name s tag, store.sets.get? name = some ⟨s, some ⟨tag, trail⟩⟩ → s.Reachable →
        Event.under tag events =
            (((alone name s ⟨tag, trail⟩).mutateAll name (mutationsOf name steps)).trails.trail
              trail).heard ∧
          ∀ more, RollsBack (mutationsOf name more) (Event.under tag events) →
            ∃ t, ((store.interleave steps).interleave more).sets.value? name = some t ∧
              t.Same s := by
  obtain ⟨events, hheard, howners⟩ := interleave_heard store trail steps
  refine ⟨events, hheard, howners, fun name s tag hget hs => ?_⟩
  have hown := (interleave_of_get? hapart hget steps).2
  rw [hheard, Event.under_append] at hown
  have hown := List.append_cancel_left hown
  refine ⟨hown.trans (heard_alone name s ⟨tag, trail⟩ _).symm, fun more hmore => ?_⟩
  have hfinal := (interleave_of_get? hapart hget (steps ++ more)).1
  rw [interleave_append, mutationsOf_append, RangeSet.inTurn_append] at hfinal
  have hran : (RangeSet.inTurn RangeSet.mutate s (mutationsOf name steps)).1.Sound :=
    RangeSet.inTurn_induction (fun _ m hs => hs.mutate m) hs.sound _
  obtain ⟨hsound, hcontains, _⟩ := hran.undoAll_replay (hs.sound.replay_mutations _)
  refine ⟨_, by rw [Shelf.value?, hfinal]; rfl, ?_⟩
  rw [hmore.inTurn_eq, hown, Event.map_change_events]
  exact (hsound.same_iff hs.sound).mpr hcontains

/-- Two sets with the same octets in other slots, watched by one trail. -/
def watchedPair : Store Octet :=
  ⟨⟨[("gapped", ⟨.gapped, some ⟨7, "log"⟩⟩), ("joined", ⟨.joinedUp, some ⟨8, "log"⟩⟩)]⟩,
    .empty, .empty⟩

theorem watchedPair_tagsApart : watchedPair.sets.TagsApart "log" := by
  have hwatch : ∀ a tag, watchedPair.sets.watch? a = some ⟨tag, "log"⟩ →
      (a = "gapped" ∧ tag = 7) ∨ (a = "joined" ∧ tag = 8) := by
    intro a tag ha
    simp only [Shelf.watch?, Named.get?, watchedPair, List.lookup_cons] at ha
    by_cases hgapped : a = "gapped"
    · subst hgapped
      cases ha
      exact .inl ⟨rfl, rfl⟩
    · rw [beq_false_of_ne hgapped] at ha
      by_cases hjoined : a = "joined"
      · subst hjoined
        cases ha
        exact .inr ⟨rfl, rfl⟩
      · rw [beq_false_of_ne hjoined] at ha
        cases ha
  intro a b tag ha hb
  rcases hwatch a tag ha with ⟨rfl, rfl⟩ | ⟨rfl, rfl⟩ <;>
    rcases hwatch b _ hb with ⟨rfl, htag⟩ | ⟨rfl, htag⟩
  · rfl
  · cases htag
  · cases htag
  · rfl

/-- Mutations of the two sets by turns. -/
def byTurns : List (String × Mutation Octet) :=
  [("gapped", .add (.ofInt 5) (.ofInt 15)), ("joined", .remove (.ofInt 0) (.ofInt 30)),
    ("gapped", .clear)]

theorem pair_by_turns : watchedPair.sets.TagsApart "log" ∧ RangeSet.gapped.Reachable ∧
    ∃ events, ((watchedPair.interleave byTurns).trails.trail "log").heard = events ∧
      Event.under 7 events = (((alone "gapped" .gapped ⟨7, "log"⟩).mutateAll "gapped"
        [.add (.ofInt 5) (.ofInt 15), .clear]).trails.trail "log").heard ∧
      ∃ t, ((watchedPair.interleave byTurns).interleave [("joined", .clear),
          ("gapped", .undoAll ((Event.under 7 events).map Event.change)),
          ("joined", .add (.ofInt 1) (.ofInt 2))]).sets.value? "gapped" = some t ∧
        t.Same .gapped := by
  have hgapped : RangeSet.gapped.Reachable := .mutate _ .whole
  obtain ⟨events, hheard, _, hsets⟩ := shared_trail_by_tag watchedPair_tagsApart byTurns
  obtain ⟨hown, hback⟩ := hsets "gapped" .gapped 7 rfl hgapped
  exact ⟨watchedPair_tagsApart, hgapped, events, hheard, hown, hback _ (.inr rfl)⟩

end Store

end RangeSets
