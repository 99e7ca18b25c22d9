import RangeSets.Proofs.RangeSet.Algebra
import RangeSets.Proofs.RangeSet.Rollback
import RangeSets.Proofs.WorthMap.Pieces
/-!
# What a worth map tells

A worth map tells changes of its support only. An adjustment compares the support within its bounds
before and after, as two sets, so whatever pieces the passes over the chain left behind, the runs that
are told are the longest ones: those of the values whose worth came to zero, then those of the values
whose worth left zero. Outside the bounds no worth moves.

What is told leads from one support to the next. So a set that was the support when the map began to
be watched follows it by making the changes, and goes back by undoing them.
-/

namespace RangeSets

open Scale

variable {α : Type} [Scale α]

namespace WorthMap

/-- The value counts for something. -/
def Counts (m : WorthMap α) (v : α) : Prop := m.worth v ≠ Worth.zero

/-- The value counts for something in the first map, and for nothing in the second. -/
def Leaves (m n : WorthMap α) (v : α) : Prop := m.worth v ≠ Worth.zero ∧ n.worth v = Worth.zero

/-- The changes are those of the support from one map to another: first the runs of the values that
leave it, then the runs of those that join it. -/
def Tells (m n : WorthMap α) (changes : List (Change α)) : Prop :=
  ∃ lost gained, Decomposes (m.Leaves n) lost ∧ Decomposes (n.Leaves m) gained ∧
    changes = lost.map .lost ++ gained.map .gained

variable {m n after : WorthMap α} {lo hi : α} {worth : Worth} {changes : List (Change α)}

/-! ### One adjustment -/

theorem sound_supportWithin (m : WorthMap α) (lo hi : α) : (m.supportWithin lo hi).Sound :=
  RangeSet.sound_empty.extend _

/-- Where no worth moves outside the bounds, comparing the support within them finds all values that
left it. -/
theorem Sound.decomposes_leaves (hm : m.Sound) (hn : n.Sound)
    (hsame : ∀ v, ¬ (lo ≤ v ∧ v ≤ hi) → m.worth v = n.worth v) :
    Decomposes (m.Leaves n) ((m.supportWithin lo hi).difference (n.supportWithin lo hi)).spans := by
  have hbefore := sound_supportWithin m lo hi
  have hafter := sound_supportWithin n lo hi
  refine (hbefore.difference _).decomposes_spans.congr fun v => ?_
  rw [hbefore.contains_difference hafter, hm.contains_supportWithin, hn.contains_supportWithin]
  by_cases hv : lo ≤ v ∧ v ≤ hi
  · simp only [hv, and_self, true_and, Leaves, Classical.not_not]
  · have hworth := hsame v hv
    simp only [hv, false_and, Leaves, hworth, not_and_self_iff, ne_eq]

theorem Sound.tells_supportChanges (hm : m.Sound) (hn : n.Sound)
    (hsame : ∀ v, ¬ (lo ≤ v ∧ v ≤ hi) → m.worth v = n.worth v) :
    m.Tells n (m.supportChanges n lo hi) :=
  ⟨_, _, hm.decomposes_leaves hn hsame, hn.decomposes_leaves hm fun v hv => (hsame v hv).symm, rfl⟩

theorem tells_self (m : WorthMap α) : m.Tells m [] := by
  have hnone : Decomposes (m.Leaves m) [] := .nil fun v hv => hv.1 hv.2
  exact ⟨[], [], hnone, hnone, rfl⟩

theorem Sound.tells_add (hm : m.Sound) (hadd : m.add lo hi worth = .ok (after, changes)) :
    m.Tells after changes := by
  obtain ⟨hafter, hworth⟩ := hm.add hadd
  have hsame : ∀ v, ¬ (lo ≤ v ∧ v ≤ hi) → m.worth v = after.worth v := by
    intro v hv
    have hval := hworth v
    rw [if_neg hv, Int.add_zero] at hval
    exact (Fixed.ext hval).symm
  by_cases hdone : lo ≤ hi ∧ worth ≠ Worth.zero
  · rw [WorthMap.add, if_pos hdone] at hadd
    obtain ⟨edits, _, hresult⟩ := exists_of_bind_eq_ok hadd
    cases hresult
    exact hm.tells_supportChanges hafter hsame
  · rw [WorthMap.add, if_neg hdone] at hadd
    cases hadd
    exact tells_self m

theorem Sound.tells_adjust {a : Adjustment α} (hm : m.Sound)
    (h : m.adjust a = .ok (after, changes)) : m.Tells after changes := by
  cases a with
  | add lo hi worth => exact hm.tells_add h
  | remove lo hi worth =>
      obtain ⟨_, _, hadd⟩ := remove_cases h
      exact hm.tells_add hadd

/-! ### Changes of the support, one after another -/

theorem Tells.replay (h : m.Tells n changes) : Replay m.Counts changes n.Counts := by
  obtain ⟨lost, gained, hlost, hgained, rfl⟩ := h
  refine .append (Q := fun v => m.Counts v ∧ n.Counts v)
    (.of_lost hlost (fun v hv => hv.1) fun v => ?_)
    (.of_gained hgained (fun v hv hkept => hkept.1 hv.2) fun v => ?_)
  · simp only [Leaves, Counts]
    tauto
  · simp only [Leaves, Counts]
    tauto

theorem Sound.decomposes_support (hm : m.Sound) : Decomposes m.Counts m.support.spans :=
  (RangeSet.sound_empty.extend _).decomposes_spans.congr hm.contains_support

theorem Sound.replay_clear (hm : m.Sound) : Replay m.Counts m.clear.2 m.clear.1.Counts := by
  refine .of_lost hm.decomposes_support (fun v hv => hv) fun v => ?_
  have hnone : ¬ m.clear.1.Counts v := fun hcounts => hcounts rfl
  simp only [hnone, and_not_self]

/-- Changes of a list that each tell how the support changed do so in turn. -/
theorem Sound.replay_inTurn {f : WorthMap α → Piece α → Except Fault (WorthMap α × List (Change α))}
    (hf : ∀ m piece after changes, m.Sound → f m piece = .ok (after, changes) →
      after.Sound ∧ m.Tells after changes)
    {pieces : List (Piece α)} (hm : m.Sound) (h : inTurn f m pieces = .ok (after, changes)) :
    after.Sound ∧ Replay m.Counts changes after.Counts := by
  induction pieces generalizing m changes with
  | nil =>
      cases h
      exact ⟨hm, .refl _⟩
  | cons piece rest ih =>
      obtain ⟨⟨mid, told⟩, hfirst, hmore⟩ := exists_of_bind_eq_ok h
      obtain ⟨⟨final, later⟩, hrest, hresult⟩ := exists_of_bind_eq_ok hmore
      cases hresult
      obtain ⟨hmid, htold⟩ := hf m piece mid told hm hfirst
      obtain ⟨hfinal, hlater⟩ := ih hmid hrest
      exact ⟨hfinal, htold.replay.append hlater⟩

/-- A change of a map, as far as changes of maps are told. -/
inductive Revision (α : Type) where
  | adjust (a : Adjustment α)
  | addMap (other : WorthMap α)
  | removeMap (other : WorthMap α)
  | clear

def revise (m : WorthMap α) : Revision α → Except Fault (WorthMap α × List (Change α))
  | .adjust a => m.adjust a
  | .addMap other => m.addMap other
  | .removeMap other => m.removeMap other
  | .clear => .ok m.clear

theorem Sound.revise {r : Revision α} (hm : m.Sound) (h : m.revise r = .ok (after, changes)) :
    after.Sound ∧ Replay m.Counts changes after.Counts := by
  cases r with
  | adjust a => exact ⟨(hm.adjust h).1, (hm.tells_adjust h).replay⟩
  | addMap other =>
      exact hm.replay_inTurn (fun _ _ _ _ hm hadd => ⟨(hm.add hadd).1, hm.tells_add hadd⟩) h
  | removeMap other =>
      refine hm.replay_inTurn (fun m piece _ _ hm hremove => ?_) h
      exact ⟨(hm.remove hremove).1, hm.tells_adjust (a := .remove piece.lo piece.hi _) hremove⟩
  | clear =>
      cases h
      exact ⟨sound_empty, hm.replay_clear⟩

end WorthMap

/-! ### Watched maps -/

namespace Store

variable {store later : Store α} {name : String} {m : WorthMap α} {watch : Watch}

/-- The store after changes of one map, the first one made first, until a fault. -/
def reviseAll (store : Store α) (name : String) (rs : List (WorthMap.Revision α)) :
    Except Fault (Store α) :=
  rs.foldlM (fun store r => store.changeMap name fun m => m.revise r) store

theorem reviseAll_singleton (store : Store α) (name : String) (r : WorthMap.Revision α) :
    store.reviseAll name [r] = store.changeMap name fun m => m.revise r := by
  rw [reviseAll, List.foldlM_cons]
  exact bind_pure _

theorem reviseAll_of_get? (hget : store.maps.get? name = some ⟨m, some watch⟩) (hm : m.Sound)
    {rs : List (WorthMap.Revision α)} (hok : store.reviseAll name rs = .ok later) :
    ∃ after changes, later.maps.get? name = some ⟨after, some watch⟩ ∧ after.Sound ∧
      store.trails.Heard later.trails watch changes ∧ Replay m.Counts changes after.Counts := by
  induction rs generalizing store m with
  | nil =>
      cases hok
      exact ⟨m, [], hget, hm, .refl .., .refl _⟩
  | cons r rest ih =>
      rw [reviseAll, List.foldlM_cons] at hok
      obtain ⟨mid, hfirst, hrest⟩ := exists_of_bind_eq_ok hok
      obtain ⟨next, told, hrevised, hnext, hheard⟩ := changeMap_of_get? hget hfirst
      obtain ⟨hsound, hreplay⟩ := hm.revise hrevised
      obtain ⟨after, changes, hafter, hsoundAfter, hmore, hlater⟩ := ih hnext hsound hrest
      exact ⟨after, told ++ changes, hafter, hsoundAfter, hheard.trans hmore, hreplay.append hlater⟩

end Store

namespace WorthMap

variable {m : WorthMap α}

theorem Sound.same_support_iff (hm : m.Sound) {s : RangeSet α} (hs : s.Sound) :
    s.Same m.support ↔ ∀ v, s.Contains v ↔ m.Counts v := by
  have hsupport : m.support.Sound := RangeSet.sound_empty.extend _
  rw [hs.same_iff hsupport]
  exact forall_congr' fun v => iff_congr Iff.rfl (hm.contains_support v)

/-- When a watched map is adjusted without a fault, its trail hears of each longest run of the values
whose worth came to zero, in ascending order, and then of each longest run of the values whose worth
left zero, and no trail hears anything else. When the map is cleared, the longest runs of its support
are told as lost. After any run of changes without a fault, a set that was the same as the support
before the run becomes the support after it by making the changes that were told, and a set that is
the same as the support after the run becomes the support before it by undoing them. -/
theorem support_changes_told {store : Store α} {name : String} {watch : Watch}
    (hget : store.maps.get? name = some ⟨m, some watch⟩) (hm : m.Reachable) :
    (∀ a later, (store.changeMap name fun m => m.adjust a) = .ok later →
      ∃ after lost gained, later.maps.value? name = some after ∧
        LongestRuns (m.Leaves after) lost ∧ LongestRuns (after.Leaves m) gained ∧
        store.trails.Heard later.trails watch (lost.map .lost ++ gained.map .gained)) ∧
    (∃ later lost, (store.changeMap name fun m => .ok m.clear) = .ok later ∧
      LongestRuns (fun v => m.worth v ≠ Worth.zero) lost ∧
      store.trails.Heard later.trails watch (lost.map .lost)) ∧
    ∀ rs later, store.reviseAll name rs = .ok later →
      ∃ after changes, later.maps.value? name = some after ∧
        store.trails.Heard later.trails watch changes ∧
        (∀ s : RangeSet α, s.Reachable → s.Same m.support →
          (s.redoAll changes).1.Same after.support) ∧
        ∀ s : RangeSet α, s.Reachable → s.Same after.support →
          (s.undoAll changes).1.Same m.support := by
  have hm := hm.sound
  refine ⟨fun a later hok => ?_, ?_, fun rs later hok => ?_⟩
  · obtain ⟨after, changes, hadjusted, hafter, hheard⟩ := Store.changeMap_of_get? hget hok
    obtain ⟨lost, gained, hlost, hgained, rfl⟩ := hm.tells_adjust hadjusted
    exact ⟨after, lost, gained, by rw [Shelf.value?, hafter]; rfl, hlost.longestRuns,
      hgained.longestRuns, hheard⟩
  · exact ⟨_, m.support.spans, Store.changeMap_eq_ok hget rfl, hm.decomposes_support.longestRuns,
      Trails.heard_tell ..⟩
  · obtain ⟨after, changes, hafter, hsound, hheard, hreplay⟩ := Store.reviseAll_of_get? hget hm hok
    refine ⟨after, changes, by rw [Shelf.value?, hafter]; rfl, hheard, fun s hs hsame => ?_,
      fun s hs hsame => ?_⟩
    · have hbegin := (hm.same_support_iff hs.sound).mp hsame
      obtain ⟨hfollowed, hcontains⟩ :=
        hs.sound.redoAll_replay (hreplay.congr_left fun v => (hbegin v).symm)
      exact (hsound.same_support_iff hfollowed).mpr hcontains
    · have hend := (hsound.same_support_iff hs.sound).mp hsame
      obtain ⟨hundone, hcontains, _⟩ :=
        hs.sound.undoAll_replay (hreplay.congr_right fun v => (hend v).symm)
      exact (hm.same_support_iff hundone).mpr hcontains

/-- The worth 5 from 1 to 2 and from 7 to 10, watched under the tag 7. -/
def watchedDented : Store Octet := ⟨.empty, ⟨[("dented", ⟨dented, some ⟨7, "log"⟩⟩)]⟩, .empty⟩

/-- The same worths after 5 was taken away from 0 to 4. -/
def shifted : WorthMap Octet where
  chain := ⟨#[⟨.ofInt 0, .ofInt 0, none, some 3⟩, ⟨.ofInt 1, .ofInt 2, none, none⟩,
    ⟨.ofInt 7, .ofInt 10, some 3, none⟩, ⟨.ofInt 3, .ofInt 4, some 0, some 2⟩], some 0, some 2,
    some 1, 3⟩
  worths := #[.ofInt (-5), Worth.zero, .ofInt 5, .ofInt (-5)]

theorem support_shifted :
    watchedDented.maps.get? "dented" = some ⟨dented, some ⟨7, "log"⟩⟩ ∧ dented.Reachable ∧
      ∃ later, watchedDented.reviseAll "dented"
          [.adjust (.remove (.ofInt 0) (.ofInt 4) (.ofInt 5))] = .ok later ∧
        later.maps.value? "dented" = some shifted ∧
        (∃ lost gained, LongestRuns (dented.Leaves shifted) lost ∧
          LongestRuns (shifted.Leaves dented) gained ∧
          watchedDented.trails.Heard later.trails ⟨7, "log"⟩
            (lost.map .lost ++ gained.map .gained)) ∧
        ∃ changes, watchedDented.trails.Heard later.trails ⟨7, "log"⟩ changes ∧
          (dented.support.redoAll changes).1.Same shifted.support := by
  have hget : watchedDented.maps.get? "dented" = some ⟨dented, some ⟨7, "log"⟩⟩ := rfl
  have hremove : dented.adjust (.remove (.ofInt 0) (.ofInt 4) (.ofInt 5)) =
      .ok (shifted, [.lost ⟨.ofInt 1, .ofInt 2⟩, .gained ⟨.ofInt 0, .ofInt 0⟩,
        .gained ⟨.ofInt 3, .ofInt 4⟩]) := by
    decide +kernel
  have hchanged := Store.changeMap_eq_ok hget (f := fun m => m.adjust _) hremove
  have hrevised := (Store.reviseAll_singleton watchedDented "dented" (.adjust
    (.remove (.ofInt 0) (.ofInt 4) (.ofInt 5)))).trans hchanged
  obtain ⟨hadjusted, _, hrun⟩ := support_changes_told hget reachable_dented
  obtain ⟨_, lost, gained, hafter, hlost, hgained, hheard⟩ := hadjusted _ _ hchanged
  obtain rfl : shifted = _ := Option.some.inj hafter
  obtain ⟨_, changes, hfinal, hchanges, hfollow, _⟩ := hrun _ _ hrevised
  obtain rfl : shifted = _ := Option.some.inj hfinal
  have hsupport : dented.support.Reachable := .ofSpans _
  exact ⟨hget, reachable_dented, _, hrevised, hafter, ⟨lost, gained, hlost, hgained, hheard⟩,
    changes, hchanges,
    hfollow _ hsupport ((hsupport.sound.same_iff hsupport.sound).mpr fun _ => Iff.rfl)⟩

end WorthMap

end RangeSets
