import RangeSets.Proofs.Runs
import RangeSets.Change
/-!
# Replaying changes

What a set holds is a property of values, and a change leads from one property to another. A change
fits where it stands when it tells no more than what happened: none of the values of a run that is
gained were there before, and all values of a run that is lost were. A replay is a list of changes that
fit one after another, from one property to another.

A change that fits can be taken back exactly, which is why a list of changes that was told can be undone
from its end.
-/

namespace RangeSets

open Scale

variable {α : Type} [Scale α]

namespace Change

/-- The change tells of a run of values, none of which were there before if they are gained, and all of
which were if they are lost. -/
def Fits (P : α → Prop) : Change α → Prop
  | gained r => r.lo ≤ r.hi ∧ ∀ v, r.Contains v → ¬ P v
  | lost r => r.lo ≤ r.hi ∧ ∀ v, r.Contains v → P v

/-- What is there after the change. -/
def After (P : α → Prop) : Change α → α → Prop
  | gained r, v => P v ∨ r.Contains v
  | lost r, v => P v ∧ ¬ r.Contains v

variable {P Q : α → Prop} {c : Change α}

theorem Fits.congr (h : c.Fits P) (hiff : ∀ v, P v ↔ Q v) : c.Fits Q := by
  cases c with
  | gained r => exact ⟨h.1, fun v hv hq => h.2 v hv ((hiff v).mpr hq)⟩
  | lost r => exact ⟨h.1, fun v hv => (hiff v).mp (h.2 v hv)⟩

theorem After.congr (hiff : ∀ v, P v ↔ Q v) (v : α) : c.After P v ↔ c.After Q v := by
  cases c <;> simp only [After, hiff]

end Change

/-- The changes lead from one property to another, and each of them fits where it stands. -/
inductive Replay : (α → Prop) → List (Change α) → (α → Prop) → Prop
  | nil {P Q : α → Prop} : (∀ v, P v ↔ Q v) → Replay P [] Q
  | cons {P Q : α → Prop} {c : Change α} {cs : List (Change α)} :
      c.Fits P → Replay (c.After P) cs Q → Replay P (c :: cs) Q

namespace Replay

variable {P Q R : α → Prop} {cs ds : List (Change α)}

theorem refl (P : α → Prop) : Replay P [] P := .nil fun _ => Iff.rfl

theorem congr_left (h : Replay P cs R) (hiff : ∀ v, P v ↔ Q v) : Replay Q cs R := by
  induction h generalizing Q with
  | nil hsame => exact .nil fun v => (hiff v).symm.trans (hsame v)
  | cons hfits _ ih => exact .cons (hfits.congr hiff) (ih (Change.After.congr hiff))

theorem append (h : Replay P cs Q) (hlater : Replay Q ds R) : Replay P (cs ++ ds) R := by
  induction h with
  | nil hsame => exact hlater.congr_left fun v => (hsame v).symm
  | cons hfits _ ih => exact .cons hfits (ih hlater)

theorem congr_right (h : Replay P cs Q) (hiff : ∀ v, Q v ↔ R v) : Replay P cs R := by
  induction h with
  | nil hsame => exact .nil fun v => (hsame v).trans (hiff v)
  | cons hfits _ ih => exact .cons hfits (ih hiff)

/-- Runs that were not there, and are apart from each other, can be gained one after another. -/
theorem of_gained {runs : List (Span α)} (hruns : Decomposes Q runs) (hnew : ∀ v, Q v → ¬ P v)
    (hR : ∀ v, R v ↔ P v ∨ Q v) : Replay P (runs.map .gained) R := by
  induction runs generalizing P Q with
  | nil =>
      refine .nil fun v => ?_
      rw [hR, hruns.mem_iff]
      simp
  | cons r rest ih =>
      obtain ⟨hfirst, hrest⟩ := hruns.uncons
      refine .cons ⟨hruns.proper (by simp), fun v hv => hnew v (hfirst v hv)⟩
        (ih hrest ?_ ?_)
      · rintro v ⟨hq, hnot⟩ (hp | hv)
        · exact hnew v hq hp
        · exact hnot hv
      · intro v
        have := hfirst v
        rw [hR]
        simp only [Change.After]
        grind

/-- Runs that were there, and are apart from each other, can be lost one after another. -/
theorem of_lost {runs : List (Span α)} (hruns : Decomposes Q runs) (hold : ∀ v, Q v → P v)
    (hR : ∀ v, R v ↔ P v ∧ ¬ Q v) : Replay P (runs.map .lost) R := by
  induction runs generalizing P Q with
  | nil =>
      refine .nil fun v => ?_
      rw [hR, hruns.mem_iff]
      simp
  | cons r rest ih =>
      obtain ⟨hfirst, hrest⟩ := hruns.uncons
      refine .cons ⟨hruns.proper (by simp), fun v hv => hold v (hfirst v hv)⟩
        (ih hrest ?_ ?_)
      · rintro v ⟨hq, hnot⟩
        exact ⟨hold v hq, hnot⟩
      · intro v
        have := hfirst v
        rw [hR]
        simp only [Change.After]
        grind

end Replay

end RangeSets
