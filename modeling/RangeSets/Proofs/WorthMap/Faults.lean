import RangeSets.Proofs.WorthMap.Differences
import RangeSets.Proofs.WorthMap.Overflow
import RangeSets.Proofs.WorthMap.Telling
/-!
# The faults of worth maps

Each fault says what could not be worked out, and what it says is so: the sum that it names is no worth,
nor is the difference, nor the negation. Sums come up in every change but the one that forgets all
ranges, negations only where something is taken away, and differences only when they are asked for.
-/

namespace RangeSets

open Worth

namespace Fault

def OfSum : Fault → Prop
  | sum stored added => add? stored added = none
  | _ => False

def OfDifference : Fault → Prop
  | difference left right => sub? left right = none
  | _ => False

def OfNegation : Fault → Prop
  | negation worth => neg? worth = none
  | _ => False

end Fault

namespace WorthMap

variable {α : Type} [Scale α] {m n : WorthMap α} {lo hi : α} {worth : Worth} {fault : Fault}

/-! ### Changes -/

theorem Sound.add_fault (h : m.Sound) (hfault : m.add lo hi worth = .error fault) : fault.OfSum := by
  rcases h.add_fault_cases lo hi worth with ⟨_, after, changes, hok⟩ | ⟨v, hfirst, hsum⟩
  · rw [hok] at hfault
    cases hfault
  · rw [hsum] at hfault
    cases hfault
    show add? (m.worth v) worth = none
    exact add?_eq_none_iff.mpr hfirst.overflows

theorem Sound.remove_fault (h : m.Sound) (hfault : m.remove lo hi worth = .error fault) :
    fault.OfSum ∨ fault.OfNegation := by
  rcases of_bind_eq_error hfault with hneg | ⟨negated, _, hadd⟩
  · obtain ⟨hnone, rfl⟩ := orFault_eq_error_iff.mp hneg
    exact .inr hnone
  · exact .inl (h.add_fault hadd)

omit [Scale α] in
/-- The fault of work in turn is that of one step of it. -/
theorem inTurn_fault {f : WorthMap α → Piece α → Except Fault (WorthMap α × List (Change α))}
    {P : WorthMap α → Prop} {Q : Fault → Prop}
    (hkept : ∀ m piece after changes, P m → f m piece = .ok (after, changes) → P after)
    (hf : ∀ m piece fault, P m → f m piece = .error fault → Q fault) {pieces : List (Piece α)}
    (hm : P m) (hfault : inTurn f m pieces = .error fault) : Q fault := by
  induction pieces generalizing m with
  | nil => cases hfault
  | cons piece rest ih =>
      rcases of_bind_eq_error hfault with hfirst | ⟨⟨after, changes⟩, hfirst, hmore⟩
      · exact hf m piece fault hm hfirst
      · rcases of_bind_eq_error hmore with hrest | ⟨_, _, hdone⟩
        · exact ih (hkept m piece after changes hm hfirst) hrest
        · cases hdone

/-- The fault may come up in the change. -/
def Revision.Admits {α : Type} (fault : Fault) : Revision α → Prop
  | .adjust (.add _ _ _) | .addMap _ => fault.OfSum
  | .adjust (.remove _ _ _) | .removeMap _ => fault.OfSum ∨ fault.OfNegation
  | .clear => False

theorem Sound.revise_fault {r : Revision α} (h : m.Sound) (hfault : m.revise r = .error fault) :
    r.Admits fault := by
  cases r with
  | adjust a =>
      cases a with
      | add lo hi worth => exact h.add_fault hfault
      | remove lo hi worth => exact h.remove_fault hfault
  | addMap other =>
      apply inTurn_fault (Q := Fault.OfSum) _ _ h hfault
      · intro m piece after changes hm hadd
        exact (hm.add hadd).1
      · intro m piece fault hm hadd
        exact hm.add_fault hadd
  | removeMap other =>
      apply inTurn_fault (Q := fun fault => fault.OfSum ∨ fault.OfNegation) _ _ h hfault
      · intro m piece after changes hm hremove
        exact (hm.remove hremove).1
      · intro m piece fault hm hremove
        exact hm.remove_fault hremove
  | clear => cases hfault

/-! ### Differences -/

theorem extremeDifference_fault {side : Side} (hfault : m.extremeDifference n side = .error fault) :
    fault.OfDifference := by
  by_cases hempty : m.IsEmpty ∧ n.IsEmpty
  · rw [extremeDifference_of_empty hempty.1 hempty.2] at hfault
    cases hfault
  · rw [extremeDifference_eq hempty] at hfault
    rcases of_bind_eq_error hfault with hall | ⟨ds, _, hdone⟩
    · obtain ⟨_, piece, _, _, hfails, _⟩ := of_mapM_eq_error hall
      obtain ⟨hnot, rfl⟩ := differenceOn_eq_error_iff.mp hfails
      show sub? piece.worth _ = none
      exact sub?_eq_none_iff.mpr hnot
    · cases ds with
      | nil => cases hdone
      | cons d ds => cases hdone

end WorthMap

end RangeSets
