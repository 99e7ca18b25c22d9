import RangeSets.Proofs.Equality
import RangeSets.Proofs.Replay
/-!
# Rolling a set back

Every mutation of a set tells changes that lead from what the set held before to what it holds after.
Undone from the last to the first they lead back: each undoing touches exactly the run of the change that
it undoes, so that it is told as one change, the inverse. A rollback is therefore told as the list of
changes from behind with the directions turned round, and that list leads forth again.
-/

namespace RangeSets

open Scale

variable {α : Type}

/-! ### Changes one after another -/

namespace RangeSet

theorem inTurn_cons {β : Type} (f : RangeSet α → β → RangeSet α × List (Change α))
    (s : RangeSet α) (x : β) (xs : List β) :
    inTurn f s (x :: xs) =
      ((inTurn f (f s x).1 xs).1, (f s x).2 ++ (inTurn f (f s x).1 xs).2) := rfl

theorem inTurn_append {β : Type} (f : RangeSet α → β → RangeSet α × List (Change α))
    (s : RangeSet α) (xs ys : List β) :
    inTurn f s (xs ++ ys) =
      ((inTurn f (inTurn f s xs).1 ys).1, (inTurn f s xs).2 ++ (inTurn f (inTurn f s xs).1 ys).2) := by
  induction xs generalizing s with
  | nil => rfl
  | cons x rest ih =>
      rw [List.cons_append, inTurn_cons, ih]
      simp [inTurn_cons]

variable [Scale α] {s t : RangeSet α}

/-- A list of changes leads from what a sound set holds to what it holds after. -/
theorem composes_replay : Composes fun (s : RangeSet α) r =>
    s.Sound → r.1.Sound ∧ Replay s.Contains r.2 r.1.Contains where
  keep _ hs := ⟨hs, .refl _⟩
  follow _ _ _ hfirst hlater hs := by
    obtain ⟨hmid, hreplay⟩ := hfirst hs
    obtain ⟨hafter, hrest⟩ := hlater hmid
    exact ⟨hafter, hreplay.append hrest⟩

theorem Sound.replay_add (hs : s.Sound) (lo hi : α) :
    Replay s.Contains (s.add lo hi).2 (s.add lo hi).1.Contains := by
  obtain ⟨runs, hruns, htold⟩ := hs.add_changes lo hi
  rw [htold]
  refine .of_gained hruns (fun v hv => hv.2) fun v => ?_
  rw [(hs.add lo hi).2 v]
  grind

theorem Sound.replay_remove (hs : s.Sound) (lo hi : α) :
    Replay s.Contains (s.remove lo hi).2 (s.remove lo hi).1.Contains := by
  obtain ⟨runs, hruns, htold⟩ := hs.remove_changes lo hi
  rw [htold]
  refine .of_lost hruns (fun v hv => hv.2) fun v => ?_
  rw [(hs.remove lo hi).2 v]
  grind

theorem Sound.replay_clear (hs : s.Sound) :
    Replay s.Contains s.clear.2 s.clear.1.Contains := by
  refine .of_lost hs.decomposes_spans (fun v hv => hv) fun v => ?_
  have : ¬ s.clear.1.Contains v := not_contains_empty v
  simp [this]

/-- What a mutation tells leads from what the set held before to what it holds after. -/
theorem Sound.replay_mutate (hs : s.Sound) (m : Mutation α) :
    Replay s.Contains (s.mutate m).2 (s.mutate m).1.Contains :=
  (composes_replay.mutate (fun _ lo hi hs => ⟨(hs.add lo hi).1, hs.replay_add lo hi⟩)
    (fun _ lo hi hs => ⟨(hs.remove lo hi).1, hs.replay_remove lo hi⟩)
    (fun s hs => ⟨sound_clear s, hs.replay_clear⟩) s m hs).2

/-- What a run of mutations tells leads from the first set to the last one. -/
theorem Sound.replay_mutations (hs : s.Sound) (ms : List (Mutation α)) :
    Replay s.Contains (inTurn RangeSet.mutate s ms).2 (inTurn RangeSet.mutate s ms).1.Contains :=
  (composes_replay.inTurn (fun _ m hs => ⟨hs.mutate m, hs.replay_mutate m⟩) s ms hs).2

/-! ### Undoing -/

/-- Runs of one property are told as the same changes. -/
theorem forall₂_same_told {P : α → Prop} {rs ts : List (Span α)} {told : Span α → Change α}
    (hr : Decomposes P rs) (ht : Decomposes P ts)
    (htold : ∀ r t, r.Same t → (told r).Same (told t)) :
    List.Forall₂ Change.Same (rs.map told) (ts.map told) := by
  rw [List.forall₂_map_left_iff, List.forall₂_map_right_iff]
  exact (hr.unique ht).imp fun r t => htold r t

/-- Adding a run of which nothing is there is told as that run. -/
theorem Sound.add_missing (hs : s.Sound) {r : Span α} (hproper : r.lo ≤ r.hi)
    (hmissing : ∀ v, r.Contains v → ¬ s.Contains v) :
    List.Forall₂ Change.Same (s.add r.lo r.hi).2 [.gained r] := by
  obtain ⟨runs, hruns, htold⟩ := hs.add_changes r.lo r.hi
  have hone : Decomposes (fun v => r.Contains v ∧ ¬ s.Contains v) [r] :=
    .singleton hproper fun v => and_iff_left_of_imp (hmissing v)
  rw [htold]
  exact forall₂_same_told hruns hone fun _ _ hsame => hsame

/-- Removing a run that is all there is told as that run. -/
theorem Sound.remove_held (hs : s.Sound) {r : Span α} (hproper : r.lo ≤ r.hi)
    (hheld : ∀ v, r.Contains v → s.Contains v) :
    List.Forall₂ Change.Same (s.remove r.lo r.hi).2 [.lost r] := by
  obtain ⟨runs, hruns, htold⟩ := hs.remove_changes r.lo r.hi
  have hone : Decomposes (fun v => r.Contains v ∧ s.Contains v) [r] :=
    .singleton hproper fun v => and_iff_left_of_imp (hheld v)
  rw [htold]
  exact forall₂_same_told hruns hone fun _ _ hsame => hsame

variable {P : α → Prop} {c : Change α} {cs : List (Change α)}

/-- Undoing the last change leads back to before it, and is told as its inverse. -/
theorem Sound.undo_fitting (hs : s.Sound) (hfits : c.Fits P)
    (hcontains : ∀ v, s.Contains v ↔ c.After P v) :
    (∀ v, (s.undo c).1.Contains v ↔ P v) ∧
      List.Forall₂ Change.Same (s.undo c).2 [c.inverse] := by
  cases c with
  | gained r =>
      obtain ⟨hproper, hnew⟩ := hfits
      refine ⟨fun v => ?_, hs.remove_held hproper fun v hv => (hcontains v).mpr (.inr hv)⟩
      refine ((hs.remove r.lo r.hi).2 v).trans ?_
      rw [hcontains]
      exact ⟨fun h => h.1.resolve_right h.2, fun hv => ⟨.inl hv, fun hr => hnew v hr hv⟩⟩
  | lost r =>
      obtain ⟨hproper, hold⟩ := hfits
      refine ⟨fun v => ?_, hs.add_missing hproper fun v hv h => ((hcontains v).mp h).2 hv⟩
      refine ((hs.add r.lo r.hi).2 v).trans ?_
      rw [hcontains]
      by_cases hr : r.Contains v
      · exact ⟨fun _ => hold v hr, fun _ => .inr hr⟩
      · exact ⟨fun h => (h.resolve_right hr).1, fun hv => .inl ⟨hv, hr⟩⟩

theorem undoAll_cons (s : RangeSet α) (c : Change α) (cs : List (Change α)) :
    s.undoAll (c :: cs) =
      (((s.undoAll cs).1.undo c).1, (s.undoAll cs).2 ++ ((s.undoAll cs).1.undo c).2) := by
  simp [undoAll, inTurn_append, inTurn]

/-- Undoing all changes of a replay, the latest first, leads back to where it began, and is told as the
inverse changes from behind. -/
theorem Sound.undoAll_replay (hs : s.Sound) (hreplay : Replay P cs s.Contains) :
    (s.undoAll cs).1.Sound ∧ (∀ v, (s.undoAll cs).1.Contains v ↔ P v) ∧
      List.Forall₂ Change.Same (s.undoAll cs).2 (cs.reverse.map Change.inverse) := by
  induction cs generalizing P with
  | nil =>
      cases hreplay with
      | nil hsame => exact ⟨hs, fun v => (hsame v).symm, .nil⟩
  | cons c rest ih =>
      cases hreplay with
      | cons hfits hrest =>
          obtain ⟨hsound, hcontains, htold⟩ := ih hrest
          obtain ⟨hback, hlast⟩ := hsound.undo_fitting hfits hcontains
          rw [undoAll_cons, List.reverse_cons, List.map_append]
          exact ⟨hsound.undo c, hback, List.rel_append htold hlast⟩

/-! ### Making changes again -/

/-- Makes changes, the first one first. -/
def redoAll (s : RangeSet α) (changes : List (Change α)) : RangeSet α × List (Change α) :=
  inTurn redo s changes

theorem Sound.redo (hs : s.Sound) (c : Change α) :
    (s.redo c).1.Sound ∧ ∀ v, (s.redo c).1.Contains v ↔ c.After s.Contains v := by
  cases c with
  | gained r => exact hs.add r.lo r.hi
  | lost r => exact hs.remove r.lo r.hi

/-- Making the changes of a replay leads to where it ends. -/
theorem Sound.redoAll_replay (hs : s.Sound) (hreplay : Replay s.Contains cs P) :
    (s.redoAll cs).1.Sound ∧ ∀ v, (s.redoAll cs).1.Contains v ↔ P v := by
  induction cs generalizing s with
  | nil =>
      cases hreplay with
      | nil hsame => exact ⟨hs, hsame⟩
  | cons c rest ih =>
      cases hreplay with
      | cons _ hrest =>
          obtain ⟨hsound, hcontains⟩ := hs.redo c
          exact ih hsound (hrest.congr_left fun v => (hcontains v).symm)

end RangeSet

/-! ### Rolling back what a trail heard -/

namespace Event

theorem map_change_events (tag : Int) (changes : List (Change α)) :
    (changes.map fun c => (⟨tag, c⟩ : Event α)).map change = changes := by
  simp [Function.comp_def]

def inverse (e : Event α) : Event α := ⟨e.tag, e.change.inverse⟩

/-- Two events under one tag, of the same change. -/
def Same [Scale α] (a b : Event α) : Prop := a.tag = b.tag ∧ a.change.Same b.change

theorem same_inverses [Scale α] {cs ds : List (Change α)} (tag : Int)
    (h : List.Forall₂ Change.Same cs (ds.reverse.map Change.inverse)) :
    List.Forall₂ Event.Same (cs.map fun c => ⟨tag, c⟩)
      ((ds.map fun c => ⟨tag, c⟩).reverse.map inverse) := by
  rw [List.forall₂_map_right_iff] at h
  rw [← List.map_reverse, List.map_map, List.forall₂_map_left_iff, List.forall₂_map_right_iff]
  exact h.imp fun _ _ hsame => ⟨rfl, hsame⟩

end Event

namespace Store

variable [Scale α]

/-- Takes the events out of a trail, and undoes them on a set, the latest first. -/
def rollBack (store : Store α) (name trail : String) : Store α :=
  let taken := { store with trails := store.trails.take trail }
  taken.changeSet name fun s =>
    s.mutate (.undoAll ((taken.trails.trail trail).taken.map Event.change))

variable {store : Store α} {name : String} {s t : RangeSet α} {watch : Watch}
  {changes : List (Change α)}

theorem rollBack_of_get? (hget : store.sets.get? name = some ⟨t, some watch⟩)
    (hheard : (store.trails.trail watch.trail).heard = changes.map fun c => ⟨watch.tag, c⟩) :
    (store.rollBack name watch.trail).sets.get? name = some ⟨(t.undoAll changes).1, some watch⟩ ∧
      ((store.rollBack name watch.trail).trails.trail watch.trail).heard =
        (t.undoAll changes).2.map fun c => ⟨watch.tag, c⟩ := by
  have htaken : ((store.trails.take watch.trail).trail watch.trail).taken.map Event.change =
      changes := by
    rw [Trails.trail_take_self, Trail.take, hheard, Event.map_change_events]
  have hgetTaken : (⟨store.sets, store.maps, store.trails.take watch.trail⟩ : Store α).sets.get?
      name = some ⟨t, some watch⟩ := hget
  obtain ⟨hafter, htold⟩ := changeSet_of_get? hgetTaken fun s => s.mutate (.undoAll changes)
  simp only [rollBack, htaken]
  refine ⟨hafter, ?_⟩
  rw [htold.heard_eq, Trails.trail_take_self]
  simp [Trail.take, RangeSet.mutate]

/-- A run of mutations of a watched set, whose trail heard nothing before, is undone by the events that
the trail heard: the set is the same again as before the run. If the trail still listens meanwhile, it
hears the inverse events from behind, and these lead forth again to where the rollback began. -/
theorem rollBack_restores (hget : store.sets.get? name = some ⟨s, some watch⟩) (hs : s.Reachable)
    (hfresh : (store.trails.trail watch.trail).heard = []) (ms : List (Mutation α)) :
    ∃ t back forth : RangeSet α,
      (store.mutateAll name ms).sets.value? name = some t ∧
      (t.undoAll (((store.mutateAll name ms).trails.trail watch.trail).heard.map
        Event.change)).1.Same s ∧
      ((store.mutateAll name ms).rollBack name watch.trail).sets.value? name = some back ∧
      back.Same s ∧
      List.Forall₂ Event.Same
        (((store.mutateAll name ms).rollBack name watch.trail).trails.trail watch.trail).heard
        (((store.mutateAll name ms).trails.trail watch.trail).heard.reverse.map Event.inverse) ∧
      (((store.mutateAll name ms).rollBack name watch.trail).rollBack name
        watch.trail).sets.value? name = some forth ∧
      forth.Same t := by
  obtain ⟨hran, htold⟩ := mutateAll_of_get? hget ms
  have hheard := htold.heard_eq
  rw [hfresh, List.nil_append] at hheard
  have hsound : (RangeSet.inTurn RangeSet.mutate s ms).1.Sound :=
    RangeSet.inTurn_induction (fun _ m hs => hs.mutate m) hs.sound ms
  have hreplay := hs.sound.replay_mutations ms
  generalize RangeSet.inTurn RangeSet.mutate s ms = ran at hran hheard hsound hreplay
  obtain ⟨hback, hmirrored⟩ := rollBack_of_get? hran hheard
  obtain ⟨hforth, _⟩ := rollBack_of_get? hback hmirrored
  obtain ⟨hbackSound, hbackContains, hbackTold⟩ := hsound.undoAll_replay hreplay
  -- The rollback is itself a mutation, so what it tells can be undone in the same way.
  have hagain := hsound.replay_mutate (.undoAll ran.2)
  obtain ⟨hforthSound, hforthContains, _⟩ := hbackSound.undoAll_replay hagain
  have hbackSame := (hbackSound.same_iff hs.sound).mpr hbackContains
  have hforthSame := (hforthSound.same_iff hsound).mpr hforthContains
  refine ⟨ran.1, _, _, ?_, ?_, ?_, hbackSame, ?_, ?_, hforthSame⟩
  · rw [Shelf.value?, hran]
    rfl
  · rw [hheard, Event.map_change_events]
    exact hbackSame
  · rw [Shelf.value?, hback]
    rfl
  · rw [hheard, hmirrored]
    exact Event.same_inverses watch.tag hbackTold
  · rw [Shelf.value?, hforth]
    rfl

theorem cleared_set_restored :
    RangeSet.watchedGapped.sets.get? "gapped" = some ⟨RangeSet.gapped, some ⟨7, "log"⟩⟩ ∧
      RangeSet.gapped.Reachable ∧ (RangeSet.watchedGapped.trails.trail "log").heard = [] ∧
      ∃ back : RangeSet Octet,
        ((RangeSet.watchedGapped.mutateAll "gapped"
          [.add (.ofInt 5) (.ofInt 15), .removeAbove (.ofInt 30), .clear]).rollBack "gapped"
            "log").sets.value? "gapped" = some back ∧
        back.Same RangeSet.gapped := by
  have hget : RangeSet.watchedGapped.sets.get? "gapped" =
      some ⟨RangeSet.gapped, some ⟨7, "log"⟩⟩ := rfl
  have hs : RangeSet.gapped.Reachable := .mutate _ .whole
  have hfresh : (RangeSet.watchedGapped.trails.trail "log").heard = [] := rfl
  obtain ⟨_, back, _, _, _, hback, hsame, _⟩ := rollBack_restores hget hs hfresh
    [.add (.ofInt 5) (.ofInt 15), .removeAbove (.ofInt 30), .clear]
  exact ⟨hget, hs, hfresh, back, hback, hsame⟩

end Store

end RangeSets
