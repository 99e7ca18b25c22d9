import RangeSets.Proofs.WorthMap.Adding
/-!
# The worth maps that can be reached

A worth map is sound when it represents some layout. An addition that comes to no fault leaves a sound
map sound, and all other changes are additions or forget all ranges. So a map that is reached in
whatever way has a consistent chain with one worth for every slot, and its ranges are in order, of
worths other than zero, with different worths where one comes right after another.
-/

namespace RangeSets.WorthMap

open Scale

variable {α : Type}

/-- What every change of a list keeps, all of them keep in turn. -/
theorem inTurn_induction {m after : WorthMap α} {changes : List (Change α)} {P : WorthMap α → Prop}
    {f : WorthMap α → Piece α → Except Fault (WorthMap α × List (Change α))}
    (hf : ∀ m piece after changes, P m → f m piece = .ok (after, changes) → P after)
    {pieces : List (Piece α)} (hm : P m) (h : inTurn f m pieces = .ok (after, changes)) :
    P after := by
  induction pieces generalizing m changes with
  | nil =>
      cases h
      exact hm
  | cons piece rest ih =>
      obtain ⟨⟨mid, told⟩, hfirst, hmore⟩ := exists_of_bind_eq_ok h
      obtain ⟨⟨final, later⟩, hrest, hresult⟩ := exists_of_bind_eq_ok hmore
      cases hresult
      exact ih (hf m piece mid told hm hfirst) hrest

variable [Scale α]

/-! ### Sound maps -/

/-- The map keeps blocks in ascending order, none of worth zero. -/
def Sound (m : WorthMap α) : Prop := ∃ p, m.Represents p

variable {m after : WorthMap α} {lo hi : α} {worth : Worth} {changes : List (Change α)}

theorem sound_empty : (empty : WorthMap α).Sound := ⟨_, represents_empty⟩

theorem Sound.isEmpty_iff (h : m.Sound) : m.IsEmpty ↔ ∀ v, m.worth v = Worth.zero := by
  obtain ⟨p, hp⟩ := h
  exact hp.isEmpty_iff

/-- Adding a worth raises the worth of every value of the range. -/
theorem Sound.add (h : m.Sound) (hadd : m.add lo hi worth = .ok (after, changes)) :
    after.Sound ∧ ∀ v, (after.worth v).val =
      (m.worth v).val + if lo ≤ v ∧ v ≤ hi then worth.val else 0 := by
  obtain ⟨p, hp⟩ := h
  obtain ⟨q, hq, hweight⟩ := hp.add hadd
  refine ⟨⟨q, hq⟩, fun v => ?_⟩
  rw [hq.val_worth, hp.val_worth, hweight]

theorem remove_cases (hremove : m.remove lo hi worth = .ok (after, changes)) :
    ∃ negated : Worth, negated.val = -worth.val ∧ m.add lo hi negated = .ok (after, changes) := by
  obtain ⟨negated, hneg, hadd⟩ := exists_of_bind_eq_ok hremove
  rw [Worth.orFault_eq_ok_iff] at hneg
  exact ⟨negated, Fixed.ofInt?_eq_some_iff.mp hneg, hadd⟩

theorem Sound.remove (h : m.Sound) (hremove : m.remove lo hi worth = .ok (after, changes)) :
    after.Sound ∧ ∀ v, (after.worth v).val =
      (m.worth v).val - if lo ≤ v ∧ v ≤ hi then worth.val else 0 := by
  obtain ⟨negated, hval, hadd⟩ := remove_cases hremove
  obtain ⟨hsound, hworth⟩ := h.add hadd
  refine ⟨hsound, fun v => ?_⟩
  rw [hworth, hval]
  split <;> omega

/-! ### Reachable maps -/

/-- The maps that come from the empty one by changes without a fault. A copy of a map has the same
slots and worths, so it is the map itself. -/
inductive Reachable : WorthMap α → Prop
  | empty : Reachable empty
  | add {m after : WorthMap α} {lo hi : α} {worth : Worth} {changes : List (Change α)} :
      Reachable m → m.add lo hi worth = .ok (after, changes) → Reachable after
  | remove {m after : WorthMap α} {lo hi : α} {worth : Worth} {changes : List (Change α)} :
      Reachable m → m.remove lo hi worth = .ok (after, changes) → Reachable after
  | addMap {m n after : WorthMap α} {changes : List (Change α)} :
      Reachable m → m.addMap n = .ok (after, changes) → Reachable after
  | removeMap {m n after : WorthMap α} {changes : List (Change α)} :
      Reachable m → m.removeMap n = .ok (after, changes) → Reachable after
  | clear {m : WorthMap α} : Reachable m → Reachable m.clear.1

theorem Reachable.sound (h : m.Reachable) : m.Sound := by
  induction h with
  | empty => exact sound_empty
  | add _ hadd hm => exact (hm.add hadd).1
  | remove _ hremove hm => exact (hm.remove hremove).1
  | addMap _ hadd hm =>
      exact inTurn_induction (fun _ _ _ _ hm hadd => (hm.add hadd).1) hm hadd
  | removeMap _ hremove hm =>
      exact inTurn_induction (fun _ _ _ _ hm hremove => (hm.remove hremove).1) hm hremove
  | clear _ _ => exact sound_empty

/-! ### The invariant -/

/-- What is kept by a map between one use and the next. -/
structure Invariant (m : WorthMap α) : Prop where
  consistent : m.chain.Consistent
  /-- There is one worth for every slot. -/
  size_eq : m.worths.size = m.chain.slots.size
  proper : ∀ r ∈ m.ranges, r.lo ≤ r.hi
  nonzero : ∀ r ∈ m.ranges, r.worth ≠ Worth.zero
  /-- Each range ends below every later one, and has another worth where it comes right before it. -/
  apart : m.ranges.Pairwise fun r t =>
    r.hi < t.lo ∧ (Scale.Same (next r.hi) t.lo → r.worth ≠ t.worth)

theorem Represents.invariant {p : Layout α Worth} (h : m.Represents p) : m.Invariant := by
  refine ⟨h.holds.chain.consistent, h.holds.size_eq, fun r hr => ?_, fun r hr => ?_, ?_⟩
  · rw [h.ranges_eq] at hr
    obtain ⟨e, he, rfl⟩ := List.mem_map.mp hr
    exact h.ascending.proper e.block (List.mem_map_of_mem he)
  · rw [h.ranges_eq] at hr
    obtain ⟨e, he, rfl⟩ := List.mem_map.mp hr
    exact h.nonzero e.block (List.mem_map_of_mem he)
  · rw [h.ranges_eq, List.pairwise_map]
    have hapart := h.ascending.apart
    rw [Layout.blocks, List.pairwise_map] at hapart
    refine hapart.imp_of_mem fun {d e} hd he hgap => ?_
    obtain ⟨_, hhi, _⟩ := le_iff.mp (h.ascending.proper d.block (List.mem_map_of_mem hd))
    obtain ⟨hlo, _, _⟩ := le_iff.mp (h.ascending.proper e.block (List.mem_map_of_mem he))
    simp only [Block.Apart, Entry.hi_block, Entry.lo_block, Entry.label_block] at hhi hlo hgap
    have hlt : d.hi < e.lo := (lt_iff_place hhi hlo).mpr hgap.1
    refine ⟨hlt, fun hsame => hgap.2 ?_⟩
    rw [← place_next_of_lt hlt]
    exact (same_iff.mp hsame).2.2

/-- Every map that can be reached keeps the invariant. -/
theorem invariant_of_changes (h : m.Reachable) : m.Invariant := by
  obtain ⟨p, hp⟩ := h.sound
  exact hp.invariant

def raised : WorthMap Octet where
  chain := ⟨#[⟨.ofInt 1, .ofInt 10, none, none⟩], some 0, some 0, none, 1⟩
  worths := #[.ofInt 5]

theorem reachable_raised : raised.Reachable := by
  have hadd : empty.add (.ofInt 1) (.ofInt 10) (.ofInt 5) =
      .ok (raised, [.gained ⟨.ofInt 1, .ofInt 10⟩]) := by
    decide +kernel
  exact .add .empty hadd

/-- The worth 5 from 1 to 10, but for the values from 3 to 6. The slot of the middle part is spare. -/
def dented : WorthMap Octet where
  chain := ⟨#[⟨.ofInt 3, .ofInt 6, none, none⟩, ⟨.ofInt 1, .ofInt 2, none, some 2⟩,
    ⟨.ofInt 7, .ofInt 10, some 1, none⟩], some 1, some 2, some 0, 2⟩
  worths := #[Worth.zero, .ofInt 5, .ofInt 5]

theorem reachable_dented : dented.Reachable := by
  have hremove : raised.remove (.ofInt 3) (.ofInt 6) (.ofInt 5) =
      .ok (dented, [.lost ⟨.ofInt 3, .ofInt 6⟩]) := by
    decide +kernel
  exact .remove reachable_raised hremove

theorem invariant_dented : dented.Reachable ∧ dented.count = 2 ∧ dented.Invariant :=
  ⟨reachable_dented, rfl, invariant_of_changes reachable_dented⟩

end RangeSets.WorthMap
