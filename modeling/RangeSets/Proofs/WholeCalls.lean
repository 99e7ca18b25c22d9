import RangeSets.Proofs.PointSet.Reachable
import RangeSets.Proofs.RangeSet.Membership
import RangeSets.Proofs.RangeSet.Trimming
import RangeSets.Proofs.Runs.Steps
import RangeSets.Proofs.WorthMap.Merging
import RangeSets.Proofs.WorthMap.Telling
/-!
# What a call tells as a whole

A call that changes one range, or all values, tells each longest run of the values that it gained once and
each of those that it lost, the losses first. A call that is made of a list of ranges tells the runs of each
range by itself. Seen as a whole it tells each longest run once exactly when neighbours that change in the
same direction belong to one range of the list, and when no range loses values after another one gained
some.

The ranges of a map are disjoint, so there the steps deal with different values from the start. Ranges that
are added to a set may overlap, and a value is then told in the first step whose range it lies in.
-/

namespace RangeSets

open Scale

variable {α : Type} [Scale α]

/-! ### Range sets -/

/-- The mutation is made of a list of ranges or of a list of changes. -/
def Mutation.OfList : Mutation α → Prop
  | .extend _ | .undoAll _ => True
  | _ => False

namespace RangeSet

variable {s : RangeSet α}

theorem Sound.tellsOnce_add (h : s.Sound) (lo hi : α) :
    TellsOnce s.Contains (s.add lo hi).1.Contains (s.add lo hi).2 := by
  obtain ⟨runs, hruns, htold⟩ := h.add_changes lo hi
  have hcontains := (h.add lo hi).2
  rw [htold]
  exact tellsOnce_of_gained (hruns.congr fun v => by rw [hcontains]; tauto)
    fun v hv => (hcontains v).mpr (.inl hv)

theorem Sound.tellsOnce_remove (h : s.Sound) (lo hi : α) :
    TellsOnce s.Contains (s.remove lo hi).1.Contains (s.remove lo hi).2 := by
  obtain ⟨runs, hruns, htold⟩ := h.remove_changes lo hi
  have hcontains := (h.remove lo hi).2
  rw [htold]
  exact tellsOnce_of_lost (hruns.congr fun v => by rw [hcontains]; tauto)
    fun v hv => ((hcontains v).mp hv).1

theorem Sound.tellsOnce_trim (h : s.Sound) (c : Cutoff α) :
    TellsOnce s.Contains (s.mutate c.toMutation).1.Contains (s.mutate c.toMutation).2 := by
  obtain ⟨runs, hruns, htold⟩ := h.trim_changes c
  have hcontains := h.contains_trim c
  rw [htold]
  exact tellsOnce_of_lost (hruns.congr fun v => by rw [hcontains]; tauto)
    fun v hv => ((hcontains v).mp hv).1

theorem Sound.tellsOnce_clear (h : s.Sound) : TellsOnce s.Contains s.clear.1.Contains s.clear.2 := by
  have hnone : ∀ v, ¬ s.clear.1.Contains v := not_contains_empty
  exact tellsOnce_of_lost (h.decomposes_spans.congr fun v => by simp [hnone])
    fun v hv => absurd hv (hnone v)

/-- A mutation that is no list of others tells each longest run once. -/
theorem Sound.tellsOnce_mutate (h : s.Sound) {m : Mutation α} (hlist : ¬ m.OfList) :
    TellsOnce s.Contains (s.mutate m).1.Contains (s.mutate m).2 := by
  cases m with
  | add lo hi => exact h.tellsOnce_add lo hi
  | remove lo hi => exact h.tellsOnce_remove lo hi
  | removeFrom v => exact h.tellsOnce_trim (.atLeast v)
  | removeAbove v => exact h.tellsOnce_trim (.above v)
  | removeUpTo v => exact h.tellsOnce_trim (.atMost v)
  | removeBelow v => exact h.tellsOnce_trim (.below v)
  | clear => exact h.tellsOnce_clear
  | extend ranges => exact absurd trivial hlist
  | undo change =>
      cases change with
      | gained r => exact h.tellsOnce_remove r.lo r.hi
      | lost r => exact h.tellsOnce_add r.lo r.hi
  | undoAll changes => exact absurd trivial hlist

/-- The ranges that are added to a set are told in steps. -/
theorem Sound.toldInSteps_extend (h : s.Sound) (ranges : List (Span α)) :
    ToldInSteps (fun _ => False) (fun v => (∃ r ∈ ranges, r.Contains v) ∧ ¬ s.Contains v) ranges
      (s.extend ranges).2 := by
  induction ranges generalizing s with
  | nil => exact .nil (fun _ => id) fun v hv => by simp at hv
  | cons r rest ih =>
      obtain ⟨runs, hruns, htold⟩ := h.add_changes r.lo r.hi
      obtain ⟨hadded, hcontains⟩ := h.add r.lo r.hi
      have hchanges : (s.extend (r :: rest)).2 =
          ([] : List (Span α)).map .lost ++ runs.map .gained ++ ((s.add r.lo r.hi).1.extend rest).2 := by
        rw [← htold]
        rfl
      rw [hchanges]
      refine .cons (.nil fun v hv => hv.2) (hruns.congr fun v => ?_)
        ((ih hadded).congr (fun v => by simp) fun v => ?_)
      · simp only [List.mem_cons, exists_eq_or_imp, Span.Contains]
        tauto
      · have := hcontains v
        simp only [List.mem_cons, exists_eq_or_imp, Span.Contains] at this ⊢
        tauto

theorem Sound.tellsOnce_extend_iff (h : s.Sound) (ranges : List (Span α)) :
    TellsOnce s.Contains (s.extend ranges).1.Contains (s.extend ranges).2 ↔
      KeptTogether ranges s.Contains (s.extend ranges).1.Contains := by
  have hcontains := h.contains_extend ranges
  refine ((h.toldInSteps_extend ranges).congr (fun v => ?_) fun v => ?_).tellsOnce_iff
  · rw [hcontains]
    tauto
  · rw [hcontains]
    tauto

/-- Ranges with something missing between any two of them are told once each, as far as they are new. -/
theorem Sound.keptTogether_extend (h : s.Sound) {ranges : List (Span α)}
    (hapart : ranges.Pairwise Span.Apart) :
    KeptTogether ranges s.Contains (s.extend ranges).1.Contains := by
  have hcontains := h.contains_extend ranges
  have hkept : ∀ v, ¬ (s.Contains v ∧ ¬ (s.extend ranges).1.Contains v) := fun v hv =>
    hv.2 ((hcontains v).mpr (.inl hv.1))
  refine ⟨togetherIn_of_apart hapart fun v hv => ?_, fun u v _ hu => absurd hu (hkept u),
    fun u v _ hv => absurd hv (hkept v)⟩
  exact ((hcontains v).mp hv.1).resolve_left hv.2

end RangeSet

/-! ### Worth maps -/

namespace WorthMap

variable {m n after : WorthMap α} {pieces : List (Piece α)} {changes : List (Change α)}

theorem Tells.tellsOnce (h : m.Tells n changes) : TellsOnce m.Counts n.Counts changes := by
  obtain ⟨lost, gained, hlost, hgained, rfl⟩ := h
  exact tellsOnce_of_told (hlost.congr fun v => by simp [Leaves, Counts])
    (hgained.congr fun v => by simp [Leaves, Counts])

theorem Sound.tellsOnce_clear (hm : m.Sound) : TellsOnce m.Counts m.clear.1.Counts m.clear.2 := by
  have hnone : ∀ v, ¬ m.clear.1.Counts v := fun v hcounts => hcounts rfl
  exact tellsOnce_of_lost (hm.decomposes_support.congr fun v => by simp [hnone])
    fun v hv => absurd hv (hnone v)

/-- Disjoint pieces that are added in turn are told in steps. -/
theorem Sound.toldInSteps_inTurn (hm : m.Sound) (hpieces : Ordered (pieces.map Piece.block))
    (h : inTurn addPiece m pieces = .ok (after, changes)) :
    ToldInSteps (m.Leaves after) (after.Leaves m) (pieces.map Piece.span) changes := by
  induction pieces generalizing m changes with
  | nil =>
      cases h
      exact .nil (fun v hv => hv.1 hv.2) fun v hv => hv.1 hv.2
  | cons piece rest ih =>
      obtain ⟨⟨mid, told⟩, hfirst, hmore⟩ := exists_of_bind_eq_ok h
      obtain ⟨⟨final, later⟩, hrest, hresult⟩ := exists_of_bind_eq_ok hmore
      cases hresult
      obtain ⟨hmid, hadded⟩ := hm.add hfirst
      obtain ⟨lost, gained, hlost, hgained, rfl⟩ := hm.tells_add hfirst
      -- the values of the piece have their final worth after it, and no other worth moves in it
      have hin : ∀ v, piece.span.Contains v → mid.worth v = after.worth v := fun v hv => by
        have hshifts := hmid.shifts_inTurn hpieces.tail
        rw [hrest] at hshifts
        have hsplit : Ordered ([] ++ piece.block :: rest.map Piece.block) := hpieces
        have hnone : weight v (rest.map Piece.block) = 0 :=
          weight_of_not_covered (hsplit.not_covered_around hv).2
        exact (Fixed.ext (by rw [hshifts.ok.2, hnone, Int.add_zero])).symm
      have hout : ∀ v, ¬ (piece.lo ≤ v ∧ v ≤ piece.hi) → mid.worth v = m.worth v := fun v hv =>
        Fixed.ext (by rw [hadded, if_neg hv, Int.add_zero])
      refine .cons (hlost.congr fun v => ?_) (hgained.congr fun v => ?_)
        ((ih hmid hpieces.tail hrest).congr (fun v => ?_) fun v => ?_)
      all_goals
        by_cases hv : piece.span.Contains v
        · simp [Leaves, hin v hv, hv]
        · simp [Leaves, hout v hv, hv]

theorem Sound.tellsOnce_inTurn_iff (hm : m.Sound) (hpieces : Ordered (pieces.map Piece.block))
    (h : inTurn addPiece m pieces = .ok (after, changes)) :
    TellsOnce m.Counts after.Counts changes ↔
      KeptTogether (pieces.map Piece.span) m.Counts after.Counts :=
  ((hm.toldInSteps_inTurn hpieces h).congr (fun v => by simp [Leaves, Counts])
    fun v => by simp [Leaves, Counts]).tellsOnce_iff

theorem Sound.tellsOnce_addMap_iff (hm : m.Sound) (hn : n.Sound)
    (h : m.addMap n = .ok (after, changes)) :
    TellsOnce m.Counts after.Counts changes ↔
      KeptTogether (n.ranges.map Piece.span) m.Counts after.Counts :=
  hm.tellsOnce_inTurn_iff hn.ordered_ranges h

theorem Sound.tellsOnce_removeMap_iff (hm : m.Sound) (hn : n.Sound)
    (h : m.removeMap n = .ok (after, changes)) :
    TellsOnce m.Counts after.Counts changes ↔
      KeptTogether (n.ranges.map Piece.span) m.Counts after.Counts := by
  have hneg : ∀ piece ∈ n.ranges, piece.worth.val ≠ worthFormat.min := fun piece hmem hval => by
    obtain ⟨fault, hfault⟩ := inTurn_error_of_mem (f := removePiece) hmem
      (fun m => ⟨_, remove_lowest hval piece.lo piece.hi m⟩) m
    cases hfault.symm.trans h
  rw [removeMap_eq hneg] at h
  have hspans : (n.ranges.map Piece.negated).map Piece.span = n.ranges.map Piece.span :=
    List.map_map
  rw [hm.tellsOnce_inTurn_iff (ordered_negated hn.ordered_ranges) h, hspans]

end WorthMap

/-! ### Point sets -/

namespace PointSet

variable {f : IntegerFormat} {s p : PointSet f} {P : Fixed f → Prop} {u : PointUpdate f}
  {result : PointSet f × List (Change (Fixed f))}

theorem Adds.tellsOnce (h : s.Adds P result) : TellsOnce s.Contains result.1.Contains result.2 := by
  obtain ⟨runs, hruns, htold⟩ := h.told
  rw [htold]
  exact tellsOnce_of_gained (hruns.congr fun v => by rw [h.contains_iff]; tauto)
    fun v hv => (h.contains_iff v).mpr (.inl hv)

theorem Removes.tellsOnce (h : s.Removes P result) :
    TellsOnce s.Contains result.1.Contains result.2 := by
  obtain ⟨runs, hruns, htold⟩ := h.told
  rw [htold]
  exact tellsOnce_of_lost (hruns.congr fun v => by rw [h.contains_iff]; tauto)
    fun v hv => ((h.contains_iff v).mp hv).1

theorem Sound.tellsOnce_update (h : s.Sound) (hok : s.update u = .ok result) :
    TellsOnce s.Contains result.1.Contains result.2 := by
  cases u with
  | add v => exact (h.add hok).tellsOnce
  | addBetween lo hi => exact (h.addBetween hok).tellsOnce
  | remove v =>
      cases hok
      exact (h.removeBetween v v).tellsOnce
  | removeBetween lo hi =>
      cases hok
      exact (h.removeBetween lo hi).tellsOnce
  | clear =>
      cases hok
      exact h.clear.tellsOnce

end PointSet

/-! ### All calls -/

/-- What a range set, a worth map or a point set tells of one call, seen as a whole. A call that is no
list of others tells each longest run of the values that were gained once, and each of those that were
lost, the losses first. A call that adds a list of ranges, or that adds or takes away a whole map, does so
exactly when neighbours that change in the same direction are in one range of the list, and no range
loses values after another one gained some. Ranges with something missing between any two of them are
such a list for a set, whatever it holds. -/
theorem each_run_told_once_by_call :
    (∀ s : RangeSet α, s.Reachable →
      (∀ m : Mutation α, ¬ m.OfList →
        TellsOnce s.Contains (s.mutate m).1.Contains (s.mutate m).2) ∧
      ∀ ranges,
        (TellsOnce s.Contains (s.extend ranges).1.Contains (s.extend ranges).2 ↔
          KeptTogether ranges s.Contains (s.extend ranges).1.Contains) ∧
        (ranges.Pairwise Span.Apart →
          TellsOnce s.Contains (s.extend ranges).1.Contains (s.extend ranges).2)) ∧
    (∀ m : WorthMap α, m.Reachable →
      (∀ a after changes, m.adjust a = .ok (after, changes) →
        TellsOnce m.Counts after.Counts changes) ∧
      TellsOnce m.Counts m.clear.1.Counts m.clear.2 ∧
      ∀ n : WorthMap α, n.Reachable → ∀ after changes,
        m.addMap n = .ok (after, changes) ∨ m.removeMap n = .ok (after, changes) →
          (TellsOnce m.Counts after.Counts changes ↔
            KeptTogether (n.ranges.map Piece.span) m.Counts after.Counts)) ∧
    ∀ (f : IntegerFormat) (p : PointSet f), p.Reachable → ∀ u q changes,
      p.update u = .ok (q, changes) → TellsOnce p.Contains q.Contains changes := by
  refine ⟨fun s hs => ?_, fun m hm => ?_, fun f p hp u q changes hok => ?_⟩
  · have hextend := fun ranges => hs.sound.tellsOnce_extend_iff ranges
    exact ⟨fun m hlist => hs.sound.tellsOnce_mutate hlist, fun ranges => ⟨hextend ranges, fun hapart =>
      (hextend ranges).mpr (hs.sound.keptTogether_extend hapart)⟩⟩
  · refine ⟨fun a after changes hok => (hm.sound.tells_adjust hok).tellsOnce,
      hm.sound.tellsOnce_clear, fun n hn after changes hok => ?_⟩
    rcases hok with hadd | hremove
    · exact hm.sound.tellsOnce_addMap_iff hn.sound hadd
    · exact hm.sound.tellsOnce_removeMap_iff hn.sound hremove
  · exact hp.sound.tellsOnce_update hok

theorem octets_told_once_by_call :
    TellsOnce (RangeSet.empty : RangeSet Octet).Contains
      (RangeSet.empty.extend [⟨.ofInt 0, .ofInt 0⟩, ⟨.ofInt 2, .ofInt 2⟩]).1.Contains
      [.gained ⟨.ofInt 0, .ofInt 0⟩, .gained ⟨.ofInt 2, .ofInt 2⟩] ∧
    TellsOnce WorthMap.dented.Counts WorthMap.shifted.Counts
      [.lost ⟨.ofInt 1, .ofInt 2⟩, .gained ⟨.ofInt 0, .ofInt 0⟩, .gained ⟨.ofInt 3, .ofInt 4⟩] ∧
    ∃ q, PointSet.noOctets.update (.add (.ofInt 5)) = .ok (q, [.gained ⟨.ofInt 5, .ofInt 5⟩]) ∧
      TellsOnce PointSet.noOctets.Contains q.Contains [.gained ⟨.ofInt 5, .ofInt 5⟩] := by
  obtain ⟨hsets, hmaps, hpoints⟩ := each_run_told_once_by_call (α := Octet)
  have hpoint : PointSet.noOctets.Reachable :=
    .emptyOver (show PointSet.emptyOver (.ofInt (-3)) (.ofInt 5) = .ok PointSet.noOctets from rfl)
  have hadd : PointSet.noOctets.update (.add (.ofInt 5)) =
      .ok (⟨.ofInt (-3), .ofInt 5, [8]⟩, [.gained ⟨.ofInt 5, .ofInt 5⟩]) := by
    decide +kernel
  exact ⟨((hsets _ .empty).2 _).2 (by decide +kernel),
    (hmaps _ WorthMap.reachable_dented).1 (.remove (.ofInt 0) (.ofInt 4) (.ofInt 5)) _ _
      (by decide +kernel),
    _, hadd, hpoints _ _ hpoint _ _ _ hadd⟩

/-- The worth 5 from 1 to 4 and the worth -5 from 5 to 10. -/
def opposed : WorthMap Octet where
  chain := ⟨#[⟨.ofInt 5, .ofInt 10, some 1, none⟩, ⟨.ofInt 1, .ofInt 4, none, some 0⟩], some 1, some 0,
    none, 2⟩
  worths := #[.ofInt (-5), .ofInt 5]

/-- A set that 0 and 1 are added to as two ranges tells them as two runs. A map that a map of two ranges
is added to tells the values from 3 to 6 as two runs, with a loss in between. -/
theorem steps_told_by_themselves :
    (RangeSet.empty : RangeSet Octet).Reachable ∧
    ((RangeSet.empty : RangeSet Octet).extend [⟨.ofInt 0, .ofInt 0⟩, ⟨.ofInt 1, .ofInt 1⟩]).2 =
      [.gained ⟨.ofInt 0, .ofInt 0⟩, .gained ⟨.ofInt 1, .ofInt 1⟩] ∧
    ¬ TellsOnce (RangeSet.empty : RangeSet Octet).Contains
      (RangeSet.empty.extend [⟨.ofInt 0, .ofInt 0⟩, ⟨.ofInt 1, .ofInt 1⟩]).1.Contains
      [.gained ⟨.ofInt 0, .ofInt 0⟩, .gained ⟨.ofInt 1, .ofInt 1⟩] ∧
    WorthMap.dented.Reachable ∧ opposed.Reachable ∧
      ∃ after changes, WorthMap.dented.addMap opposed = .ok (after, changes) ∧
        changes = [.gained ⟨.ofInt 3, .ofInt 4⟩, .lost ⟨.ofInt 7, .ofInt 10⟩,
          .gained ⟨.ofInt 5, .ofInt 6⟩] ∧
        ¬ (gains changes).Pairwise Span.Apart ∧ ¬ LossesFirst changes ∧
        ¬ TellsOnce WorthMap.dented.Counts after.Counts changes := by
  have hopposed : WorthMap.raised.add (.ofInt 5) (.ofInt 10) (.ofInt (-10)) = .ok (opposed, []) := by
    decide +kernel
  have hfirst : ¬ LossesFirst [Change.gained (⟨.ofInt 3, .ofInt 4⟩ : Span Octet),
      .lost ⟨.ofInt 7, .ofInt 10⟩, .gained ⟨.ofInt 5, .ofInt 6⟩] := by
    decide +kernel
  exact ⟨.empty, by decide +kernel, fun h => absurd h.gained.pairwise_apart (by decide +kernel),
    WorthMap.reachable_dented, .add WorthMap.reachable_raised hopposed, _, _, rfl, by decide +kernel,
    by decide +kernel, hfirst, fun h => hfirst h.lossesFirst⟩

end RangeSets
