import RangeSets.Proofs.RangeSet.Membership
import RangeSets.Proofs.WorthMap.Reachable
/-!
# Totals

Worths are added to ranges and taken away from ranges, one after another. As long as that comes to no
fault, the worth of a value is the exact sum of all that was added to it, less all that was taken
away, and all that a map tells about its values tells it about these sums.
-/

namespace RangeSets

open Scale

variable {α : Type}

/-- A worth that is added to a range or taken away from it. -/
inductive Adjustment (α : Type) where
  | add (lo hi : α) (worth : Worth)
  | remove (lo hi : α) (worth : Worth)

namespace Adjustment

def amount : Adjustment α → Int
  | add _ _ worth => worth.val
  | remove _ _ worth => -worth.val

variable [Scale α]

def Covers (v : α) : Adjustment α → Prop
  | add lo hi _ | remove lo hi _ => lo ≤ v ∧ v ≤ hi

instance (v : α) : (a : Adjustment α) → Decidable (a.Covers v)
  | add _ _ _ | remove _ _ _ => inferInstanceAs (Decidable (_ ∧ _))

/-- The sum of what a value gains. -/
def total (v : α) : List (Adjustment α) → Int
  | [] => 0
  | a :: rest => (if a.Covers v then a.amount else 0) + total v rest

end Adjustment

namespace WorthMap

open Adjustment

variable [Scale α]

def adjust (m : WorthMap α) : Adjustment α → Except Fault (WorthMap α × List (Change α))
  | .add lo hi worth => m.add lo hi worth
  | .remove lo hi worth => m.remove lo hi worth

/-- The map after adjustments, the first one made first, until a fault. -/
def adjustAll (m : WorthMap α) : List (Adjustment α) → Except Fault (WorthMap α)
  | [] => .ok m
  | a :: rest => do
      let (after, _) ← m.adjust a
      adjustAll after rest

theorem Sound.adjust {m after : WorthMap α} {a : Adjustment α} {changes : List (Change α)}
    (hm : m.Sound) (h : m.adjust a = .ok (after, changes)) :
    after.Sound ∧ ∀ v, (after.worth v).val = (m.worth v).val + if a.Covers v then a.amount else 0 := by
  cases a with
  | add lo hi worth => exact hm.add h
  | remove lo hi worth =>
      obtain ⟨hsound, hworth⟩ := hm.remove h
      refine ⟨hsound, fun v => ?_⟩
      have hcovers : (Adjustment.remove lo hi worth).Covers v ↔ lo ≤ v ∧ v ≤ hi := Iff.rfl
      rw [hworth]
      simp only [hcovers, amount]
      split <;> omega

theorem Sound.adjustAll {m n : WorthMap α} {as : List (Adjustment α)} (hm : m.Sound)
    (h : m.adjustAll as = .ok n) :
    n.Sound ∧ ∀ v, (n.worth v).val = (m.worth v).val + total v as := by
  induction as generalizing m with
  | nil =>
      obtain rfl := Except.ok.inj h
      exact ⟨hm, fun v => (Int.add_zero _).symm⟩
  | cons a rest ih =>
      obtain ⟨⟨mid, changes⟩, hfirst, hrest⟩ := exists_of_bind_eq_ok h
      obtain ⟨hsound, hworth⟩ := hm.adjust hfirst
      obtain ⟨hfinal, htotal⟩ := ih hsound hrest
      refine ⟨hfinal, fun v => ?_⟩
      rw [htotal, hworth, total]
      omega

/-! ### What a map tells of its values -/

namespace Represents

variable {m : WorthMap α} {p : Layout α Worth}

theorem contains_support (h : m.Represents p) (v : α) :
    m.support.Contains v ↔ Covered p.blocks v := by
  rw [support, RangeSet.contains_ofSpans, h.ranges_eq, Layout.blocks, List.map_map]
  refine ⟨fun h => ?_, fun h => ?_⟩
  · obtain ⟨r, hr, hv⟩ := h
    obtain ⟨e, he, rfl⟩ := List.mem_map.mp hr
    exact ⟨e.block, List.mem_map_of_mem he, hv⟩
  · obtain ⟨b, hb, hv⟩ := h
    obtain ⟨e, he, rfl⟩ := List.mem_map.mp hb
    exact ⟨_, List.mem_map_of_mem he, hv⟩

end Represents

/-- After adjustments without a fault the worth of every value is its total. The map contains the
values whose total is not zero, it knows the least and the greatest of them, and its support is the
set of them. -/
theorem worth_after_adjustments {m : WorthMap α} {as : List (Adjustment α)}
    (h : empty.adjustAll as = .ok m) :
    (∀ v, (m.worth v).val = total v as) ∧
      (∀ v, m.Contains v ↔ total v as ≠ 0) ∧
      ((∃ v, total v as ≠ 0) →
        (total m.min as ≠ 0 ∧ ∀ v, total v as ≠ 0 → m.min ≤ v) ∧
          (total m.max as ≠ 0 ∧ ∀ v, total v as ≠ 0 → v ≤ m.max)) ∧
      ((∀ v, total v as = 0) → m.min = top ∧ m.max = bottom) ∧
      m.support.Invariant ∧ ∀ v, m.support.Contains v ↔ total v as ≠ 0 := by
  obtain ⟨⟨p, hp⟩, hworth⟩ := sound_empty.adjustAll h
  have htotal : ∀ v, (m.worth v).val = total v as := by
    intro v
    have hzero : ((empty : WorthMap α).worth v).val = 0 := represents_empty.val_worth v
    rw [hworth, hzero, Int.zero_add]
  have hcovered : ∀ v, Covered p.blocks v ↔ total v as ≠ 0 := by
    intro v
    rw [hp.covered_iff, ← hp.val_worth, htotal]
  obtain ⟨hmin, hnoMin⟩ := hp.holds.chain.least hp.ascending.ordered
  obtain ⟨hmax, hnoMax⟩ := hp.holds.chain.greatest hp.ascending.ordered
  simp only [hcovered, Classical.not_not] at hmin hnoMin hmax hnoMax
  refine ⟨htotal, fun v => ?_, fun hex => ⟨hmin hex, hmax hex⟩,
    fun hnone => ⟨hnoMin hnone, hnoMax hnone⟩, ?_, fun v => ?_⟩
  · rw [hp.contains_iff, hcovered]
  · obtain ⟨q, hq⟩ := RangeSet.sound_empty.extend (m.ranges.map Piece.span)
    exact hq.invariant
  · rw [hp.contains_support, hcovered]

theorem worth_dented :
    empty.adjustAll [.add (.ofInt 1) (.ofInt 10) (.ofInt 5),
      .remove (.ofInt 3) (.ofInt 6) (.ofInt 5)] = .ok dented ∧
    (dented.worth (.ofInt 2)).val = 5 ∧ ¬ dented.Contains (.ofInt 4) := by
  have hadjusted : empty.adjustAll [.add (.ofInt 1) (.ofInt 10) (.ofInt 5),
      .remove (.ofInt 3) (.ofInt 6) (.ofInt 5)] = .ok dented := by
    decide +kernel
  obtain ⟨hworth, hcontains, _⟩ := worth_after_adjustments hadjusted
  refine ⟨hadjusted, ?_, ?_⟩
  · rw [hworth]
    decide
  · rw [hcontains]
    decide

end WorthMap

end RangeSets
