import RangeSets.Proofs.Chain.Growth
import RangeSets.Proofs.RangeSet.Idle
import RangeSets.Proofs.RangeSet.Rollback
/-!
# How many slots a set has

Every mutation but clearing comes down to additions and removals of one range each. An addition puts one
range in, and it may do so before the neighbours of that range are taken into it; a removal puts one in
only to split a range in two. So a call needs at most one slot more than the set had ranges before it, and
whatever a run of calls does, the set ends up with at most one slot more than it had ranges at some time
before the last call.

The set that a run starts from needs no mention when there is more than one call: after the first call on
a set of at most one range, there is at most one slot more than there are ranges.
-/

namespace RangeSets

open Scale

variable {α : Type}

/-! ### Calls -/

/-- An addition or a removal of one range. -/
inductive Call (α : Type) where
  | add (lo hi : α)
  | remove (lo hi : α)
  deriving DecidableEq

/-- What has to be called to make a change. -/
def Call.ofChange : Change α → Call α
  | .gained r => .add r.lo r.hi
  | .lost r => .remove r.lo r.hi

namespace RangeSet

theorem inTurn_map {β γ : Type} (f : RangeSet α → γ → RangeSet α × List (Change α)) (g : β → γ)
    (s : RangeSet α) (xs : List β) : inTurn f s (xs.map g) = inTurn (fun s x => f s (g x)) s xs := by
  induction xs generalizing s with
  | nil => rfl
  | cons x rest ih => rw [List.map_cons, inTurn_cons, inTurn_cons, ih]

@[simp] theorem inTurn_singleton {β : Type} (f : RangeSet α → β → RangeSet α × List (Change α))
    (s : RangeSet α) (x : β) : inTurn f s [x] = f s x := by
  rw [inTurn_cons]
  exact Prod.ext rfl (List.append_nil _)

section Calls

variable [Scale α]

def call (s : RangeSet α) : Call α → RangeSet α × List (Change α)
  | .add lo hi => s.add lo hi
  | .remove lo hi => s.remove lo hi

/-- The calls that a mutation comes down to. Clearing makes none. -/
def calls (s : RangeSet α) : Mutation α → List (Call α)
  | .add lo hi => [.add lo hi]
  | .remove lo hi => [.remove lo hi]
  | .removeFrom v => if s.IsEmpty then [] else [.remove v s.max]
  | .removeAbove v => if v < s.max then [.remove (next v) s.max] else []
  | .removeUpTo v => if s.IsEmpty then [] else [.remove s.min v]
  | .removeBelow v => if s.min < v then [.remove s.min (prev v)] else []
  | .clear => []
  | .extend ranges => ranges.map fun r => .add r.lo r.hi
  | .undo change => [.ofChange change.inverse]
  | .undoAll changes => changes.reverse.map fun change => .ofChange change.inverse

/-- The calls of a list of mutations, the first one made first. -/
def callsOf (s : RangeSet α) : List (Mutation α) → List (Call α)
  | [] => []
  | m :: ms => s.calls m ++ callsOf (s.mutate m).1 ms

/-- The number of ranges before each call. -/
def countsBefore (s : RangeSet α) : List (Call α) → List Nat
  | [] => []
  | c :: cs => s.count :: countsBefore (s.call c).1 cs

variable (s : RangeSet α)

theorem undo_eq_call (change : Change α) : s.undo change = s.call (.ofChange change.inverse) := by
  cases change <;> rfl

theorem mutate_eq_calls {m : Mutation α} (hm : m ≠ .clear) :
    s.mutate m = inTurn call s (s.calls m) := by
  cases m with
  | add | remove => exact (inTurn_singleton ..).symm
  | undo change => exact (s.undo_eq_call change).trans (inTurn_singleton ..).symm
  | removeFrom v => rw [mutate, removeFrom, calls]; split <;> simp [inTurn, call]
  | removeAbove v => rw [mutate, removeAbove, calls]; split <;> simp [inTurn, call]
  | removeUpTo v => rw [mutate, removeUpTo, calls]; split <;> simp [inTurn, call]
  | removeBelow v => rw [mutate, removeBelow, calls]; split <;> simp [inTurn, call]
  | clear => exact absurd rfl hm
  | extend ranges => exact (inTurn_map call (fun r => .add r.lo r.hi) s ranges).symm
  | undoAll changes =>
      rw [calls, inTurn_map, mutate, undoAll]
      congr 1
      funext s change
      exact s.undo_eq_call change

theorem inTurn_mutate_eq {ms : List (Mutation α)} (hms : ∀ m ∈ ms, m ≠ .clear) :
    inTurn mutate s ms = inTurn call s (s.callsOf ms) := by
  induction ms generalizing s with
  | nil => rfl
  | cons m rest ih =>
      have hfirst := s.mutate_eq_calls (hms m (by simp))
      have hrest := ih (s.mutate m).1 fun m hm => hms m (List.mem_cons_of_mem _ hm)
      rw [inTurn_cons, callsOf, inTurn_append, hrest, hfirst]

end Calls

/-! ### The ranges that a call puts in -/

theorem countP_retire (es : List (Entry α Unit)) :
    (es.map fun e => (.retire e.slot : Edit α Unit)).countP Edit.places = 0 := by
  rw [List.countP_map]
  exact List.countP_eq_zero.mpr fun _ _ => nofun

variable [Scale α] {s : RangeSet α} {p : Layout α Unit} {lo hi : α}

/-- An addition puts one range in, or none when its bounds are not in order. -/
theorem countP_addPlan_le (s : RangeSet α) (lo hi : α) :
    (s.addPlan lo hi).edits.countP Edit.places ≤ 1 := by
  rw [addPlan]
  split
  · rw [List.countP_append, countP_retire, joinEdits]
    split
    · exact Nat.le_refl 1
    · rw [List.countP_append, countP_retire]
      exact Nat.le_refl 1
  · exact Nat.zero_le 1

theorem countP_carveEdits {e : Entry α Unit} (he : ¬ (e.lo < lo ∧ hi < e.hi)) :
    (carveEdits lo hi e).countP Edit.places = 0 := by
  rw [carveEdits]
  split
  · rw [if_neg fun hlt => he ⟨‹_›, hlt⟩]
    rfl
  · split <;> rfl

/-- A removal puts no range in, or it splits one range and does nothing else. -/
theorem Represents.removePlan_splits (h : s.Represents p) (lo hi : α) :
    (s.removePlan lo hi).edits.countP Edit.places = 0 ∨
      ∃ i above, (s.removePlan lo hi).edits =
        [.setHi i (prev lo), .placeAfter (some i) (next hi) above ()] := by
  by_cases hle : lo ≤ hi
  · rw [removePlan, if_pos hle, h.entries_eq]
    have hfits := Cut.of_fits h.ascending.ordered hle
    generalize Cut.of lo hi p.entries = cut at hfits ⊢
    by_cases hsplit : ∃ e ∈ cut.touched, e.lo < lo ∧ hi < e.hi
    · obtain ⟨e, he, hbelow, habove⟩ := hsplit
      have hsingle := hfits.touched_eq_singleton h.ascending.ordered he
        (Int.le_of_lt (lt_iff.mp hbelow).2.2) (Int.le_of_lt (lt_iff.mp habove).2.2)
      refine .inr ⟨e.slot, e.hi, ?_⟩
      simp only [hsingle, List.flatMap_singleton, carveEdits, if_pos hbelow, if_pos habove]
    · refine .inl (List.countP_eq_zero.mpr fun edit hedit => ?_)
      obtain ⟨e, he, hmem⟩ := List.mem_flatMap.mp hedit
      exact List.countP_eq_zero.mp (countP_carveEdits fun hboth => hsplit ⟨e, he, hboth⟩) edit hmem
  · rw [removePlan, if_neg hle]
    exact .inl rfl

/-! ### The slots after a call -/

theorem Represents.exists_addPlan_steps (h : s.Represents p) (lo hi : α) :
    ∃ q, Layout.Steps p (s.addPlan lo hi).edits q := by
  by_cases hle : lo ≤ hi
  · obtain ⟨q, hsteps, _⟩ := h.addPlan_steps hle
    exact ⟨q, hsteps⟩
  · rw [addPlan, if_neg hle]
    exact ⟨p, .nil p⟩

theorem Represents.exists_removePlan_steps (h : s.Represents p) (lo hi : α) :
    ∃ q, Layout.Steps p (s.removePlan lo hi).edits q := by
  by_cases hle : lo ≤ hi
  · obtain ⟨q, hsteps, _⟩ := h.removePlan_steps hle
    exact ⟨q, hsteps⟩
  · rw [removePlan, if_neg hle]
    exact ⟨p, .nil p⟩

theorem Sound.slots_add_le (h : s.Sound) (lo hi : α) :
    (s.add lo hi).1.chain.slots.size ≤ s.chain.slots.size ∨
      (s.add lo hi).1.chain.slots.size ≤ s.count + 1 := by
  obtain ⟨p, hp⟩ := h
  obtain ⟨q, hsteps⟩ := hp.exists_addPlan_steps lo hi
  have hsize : (s.add lo hi).1.chain.slots.size ≤ _ := hp.holds.slots_size_le hsteps
  have hplaces := countP_addPlan_le s lo hi
  rw [count]
  omega

/-- A removal takes no new slot, or it leaves one range more than there was. -/
theorem Sound.slots_remove_le (h : s.Sound) (lo hi : α) :
    (s.remove lo hi).1.chain.slots.size ≤ s.chain.slots.size ∨
      ((s.remove lo hi).1.count = s.count + 1 ∧
        (s.remove lo hi).1.chain.slots.size ≤ s.count + 1) := by
  obtain ⟨p, hp⟩ := h
  obtain ⟨q, hsteps⟩ := hp.exists_removePlan_steps lo hi
  have hsize : (s.remove lo hi).1.chain.slots.size ≤ _ := hp.holds.slots_size_le hsteps
  rcases hp.removePlan_splits lo hi with hnone | ⟨i, above, hsplit⟩
  · have hfits : s.chain.size ≤ s.chain.slots.size := by
      rw [hp.holds.size_eq, hp.holds.slots_size]
      omega
    omega
  · have hcount : (s.remove lo hi).1.count = s.count + 1 := by
      have hremoved : (s.remove lo hi).1.chain = s.chain.applyAll (s.removePlan lo hi).edits := rfl
      rw [count, hremoved, hsplit]
      rfl
    have hplaces : (s.removePlan lo hi).edits.countP Edit.places = 1 := by
      rw [hsplit]
      rfl
    rw [hplaces] at hsize
    rw [hcount, count]
    omega

/-- A call needs at most one slot more than there are ranges before it. -/
theorem Sound.slots_call_le (h : s.Sound) (c : Call α) :
    (s.call c).1.chain.slots.size ≤ s.chain.slots.size ∨
      (s.call c).1.chain.slots.size ≤ s.count + 1 := by
  cases c with
  | add lo hi => exact h.slots_add_le lo hi
  | remove lo hi => exact (h.slots_remove_le lo hi).imp_right And.right

theorem Sound.call (h : s.Sound) (c : Call α) : (s.call c).1.Sound := by
  cases c with
  | add lo hi => exact (h.add lo hi).1
  | remove lo hi => exact (h.remove lo hi).1

theorem Sound.one_le_count_add (h : s.Sound) (hle : lo ≤ hi) : 1 ≤ (s.add lo hi).1.count := by
  obtain ⟨hadded, hcontains⟩ := h.add lo hi
  have hlo := (hcontains lo).mpr (.inr ⟨(le_iff.mp hle).1, hle⟩)
  obtain ⟨r, hr, _⟩ := (hadded.decomposes_spans.mem_iff lo).mp hlo
  rw [hadded.count_eq]
  exact List.length_pos_of_mem hr

/-! ### The slots after a run -/

/-- After a run there are no more slots than before it, or at most one slot more than there were ranges
before one of its calls. -/
theorem Sound.slots_run_le (h : s.Sound) (cs : List (Call α)) :
    (inTurn RangeSet.call s cs).1.chain.slots.size ≤ s.chain.slots.size ∨
      ∃ n ∈ s.countsBefore cs, (inTurn RangeSet.call s cs).1.chain.slots.size ≤ n + 1 := by
  induction cs generalizing s with
  | nil => exact .inl (Nat.le_refl _)
  | cons c rest ih =>
      have hstep := h.slots_call_le c
      rw [inTurn_cons, countsBefore]
      rcases ih (h.call c) with hsame | ⟨n, hn, hle⟩
      · rcases hstep with hstep | hstep
        · exact .inl (Nat.le_trans hsame hstep)
        · exact .inr ⟨s.count, by simp, Nat.le_trans hsame hstep⟩
      · exact .inr ⟨n, List.mem_cons_of_mem _ hn, hle⟩

/-- When a run starts with at most one slot more than there are ranges, its calls account for all slots. -/
theorem Sound.slots_run_le_of_ne_nil (h : s.Sound) (hfew : s.chain.slots.size ≤ s.count + 1)
    {cs : List (Call α)} (hcs : cs ≠ []) :
    ∃ n ∈ s.countsBefore cs, (inTurn RangeSet.call s cs).1.chain.slots.size ≤ n + 1 := by
  rcases h.slots_run_le cs with hsame | hrun
  · cases cs with
    | nil => exact absurd rfl hcs
    | cons c rest => exact ⟨s.count, by simp [countsBefore], Nat.le_trans hsame hfew⟩
  · exact hrun

/-! ### Sets that a run starts from -/

/-- A set as it is made empty or from one range, or as clearing leaves it. -/
inductive Fresh : RangeSet α → Prop
  | empty : Fresh empty
  | tryRange {lo hi : α} {s : RangeSet α} : RangeSet.tryRange lo hi = .ok s → Fresh s
  | requireRange {lo hi : α} {s : RangeSet α} : RangeSet.requireRange lo hi = .ok s → Fresh s
  | whole : Fresh whole
  | cleared {s : RangeSet α} : s.Reachable → Fresh s.clear.1

theorem Fresh.reachable (h : s.Fresh) : s.Reachable := by
  cases h with
  | empty => exact .empty
  | tryRange hs => exact .tryRange hs
  | requireRange hs => exact .requireRange hs
  | whole => exact .whole
  | cleared hs => exact .mutate .clear hs

theorem Fresh.slots_le (h : s.Fresh) : s.chain.slots.size = s.count ∧ s.count ≤ 1 := by
  have hofRange : ∀ lo hi : α, (ofRange lo hi).chain.slots.size = 1 ∧ (ofRange lo hi).count = 1 :=
    fun _ _ => ⟨rfl, rfl⟩
  cases h with
  | empty | cleared => exact ⟨rfl, Nat.zero_le 1⟩
  | whole => simp [RangeSet.whole, hofRange]
  | @tryRange lo hi s hs =>
      rw [RangeSet.tryRange] at hs
      split at hs
      · cases hs
        simp [hofRange]
      · cases hs
  | @requireRange lo hi s hs =>
      rw [RangeSet.requireRange] at hs
      split at hs
      · cases hs
        simp [hofRange]
      · cases hs

theorem Fresh.slots_call_le (h : s.Fresh) (c : Call α) :
    (s.call c).1.chain.slots.size ≤ (s.call c).1.count + 1 := by
  obtain ⟨hslots, hcount⟩ := h.slots_le
  have hs := h.reachable.sound
  cases c with
  | add lo hi =>
      by_cases hle : lo ≤ hi
      · have hsize := hs.slots_add_le lo hi
        have hone := hs.one_le_count_add hle
        simp only [RangeSet.call]
        omega
      · rw [RangeSet.call, (idle_of_not_le s hle).1]
        exact Nat.le_succ_of_le (Nat.le_of_eq hslots)
  | remove lo hi =>
      simp only [RangeSet.call]
      rcases hs.slots_remove_le lo hi with hsame | ⟨hmore, hsize⟩ <;> omega

/-! ### Slots are used again -/

/-- A run of mutations without clearing, on a set that starts with one range at most, comes down to a run
of calls, and after it there is at most one slot more than there were ranges before one of the calls. When
there is more than one call, it is not the first one that has to be looked at. So a set that never has
more than `k` ranges while it is changed has no slot with a number above `k`, however long the run is. -/
theorem slots_bounded_by_ranges (hs : s.Fresh) (ms : List (Mutation α)) (hms : ∀ m ∈ ms, m ≠ .clear) :
    inTurn mutate s ms = inTurn RangeSet.call s (s.callsOf ms) ∧
      (s.callsOf ms ≠ [] →
        ∃ n ∈ s.countsBefore (s.callsOf ms), (inTurn mutate s ms).1.chain.slots.size ≤ n + 1) ∧
      (1 < (s.callsOf ms).length →
        ∃ n ∈ (s.countsBefore (s.callsOf ms)).tail,
          (inTurn mutate s ms).1.chain.slots.size ≤ n + 1) ∧
      ∀ k, (∀ n ∈ s.countsBefore (s.callsOf ms), n ≤ k) →
        (inTurn mutate s ms).1.chain.slots.size ≤ k + 1 ∧
          ∀ i ∈ (inTurn mutate s ms).1.chain.live, i ≤ k := by
  have hcalls := s.inTurn_mutate_eq hms
  have hsound := hs.reachable.sound
  obtain ⟨hslots, hcount⟩ := hs.slots_le
  have hfew : s.chain.slots.size ≤ s.count + 1 := by omega
  refine ⟨hcalls, fun hne => ?_, fun hmany => ?_, fun k hk => ?_⟩
  · rw [hcalls]
    exact hsound.slots_run_le_of_ne_nil hfew hne
  · rw [hcalls]
    cases hlist : s.callsOf ms with
    | nil => simp [hlist] at hmany
    | cons c rest =>
        rw [hlist] at hmany
        have hrest : rest ≠ [] := fun hnil => by simp [hnil] at hmany
        exact (hsound.call c).slots_run_le_of_ne_nil (hs.slots_call_le c) hrest
  · have hsize : (inTurn mutate s ms).1.chain.slots.size ≤ k + 1 := by
      rw [hcalls]
      rcases hsound.slots_run_le (s.callsOf ms) with hsame | ⟨n, hn, hle⟩
      · omega
      · have := hk n hn
        omega
    refine ⟨hsize, fun i hi => ?_⟩
    obtain ⟨p, hp⟩ := inTurn_induction (P := Sound) (fun _ m hs => hs.mutate m) hsound ms
    rw [hp.holds.live_eq] at hi
    have := hp.holds.mem_iff.mp (List.mem_append_left _ hi)
    omega

/-- The octets from 1 to 10. -/
def firstTen : RangeSet Octet := ofRange (.ofInt 1) (.ofInt 10)

/-- Two ranges that come right next to the first ten octets, and a cut through the middle. -/
def grownAndCut : List (Mutation Octet) :=
  [.extend [⟨.ofInt 11, .ofInt 20⟩, ⟨.ofInt 21, .ofInt 30⟩], .remove (.ofInt 14) (.ofInt 16),
    .removeAbove (.ofInt 12)]

theorem slots_of_firstTen :
    firstTen.Fresh ∧ (∀ m ∈ grownAndCut, m ≠ .clear) ∧
      firstTen.countsBefore (firstTen.callsOf grownAndCut) = [1, 1, 1, 2] ∧
      ((inTurn mutate firstTen grownAndCut).1.chain.slots.size = 2) ∧
      1 < (firstTen.callsOf grownAndCut).length ∧
      (∃ n ∈ (firstTen.countsBefore (firstTen.callsOf grownAndCut)).tail,
        (inTurn mutate firstTen grownAndCut).1.chain.slots.size ≤ n + 1) ∧
      (∀ n ∈ firstTen.countsBefore (firstTen.callsOf grownAndCut), n ≤ 2) ∧
      ∀ i ∈ (inTurn mutate firstTen grownAndCut).1.chain.live, i ≤ 2 := by
  have hfresh : firstTen.Fresh :=
    .tryRange (show RangeSet.tryRange (.ofInt 1) (.ofInt 10) = .ok firstTen by decide +kernel)
  have hms : ∀ m ∈ grownAndCut, m ≠ .clear := by decide
  have hcounts : firstTen.countsBefore (firstTen.callsOf grownAndCut) = [1, 1, 1, 2] := by
    decide +kernel
  have hmany : 1 < (firstTen.callsOf grownAndCut).length := by decide +kernel
  have hk : ∀ n ∈ firstTen.countsBefore (firstTen.callsOf grownAndCut), n ≤ 2 := by
    rw [hcounts]
    decide
  obtain ⟨_, _, hbetween, hbound⟩ := slots_bounded_by_ranges hfresh grownAndCut hms
  exact ⟨hfresh, hms, hcounts, by decide +kernel, hmany, hbetween hmany, hk, (hbound 2 hk).2⟩

end RangeSet

end RangeSets
