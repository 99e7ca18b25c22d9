import RangeSets.Scale
/-!
# Spans

A span is a pair of bounds, read as all the values between them with both bounds included. Bounds
that are not in order, or do not compare, span nothing.
-/

namespace RangeSets

open Scale

/-- The values from `lo` to `hi`, both included. -/
structure Span (α : Type) where
  lo : α
  hi : α
  deriving DecidableEq

namespace Span

variable {α : Type} [Scale α]

def Contains (s : Span α) (v : α) : Prop := s.lo ≤ v ∧ v ≤ s.hi

instance (s : Span α) (v : α) : Decidable (s.Contains v) := inferInstanceAs (Decidable (_ ∧ _))

def IsEmpty (s : Span α) : Prop := ¬ s.lo ≤ s.hi

instance (s : Span α) : Decidable s.IsEmpty := inferInstanceAs (Decidable (¬ _))

/-- The span from the highest value down to the lowest. -/
def empty : Span α := ⟨top, bottom⟩

def Same (s t : Span α) : Prop := Scale.Same s.lo t.lo ∧ Scale.Same s.hi t.hi

instance (s t : Span α) : Decidable (s.Same t) := inferInstanceAs (Decidable (_ ∧ _))

/-- Two lists of spans have the same bounds, one by one. -/
def SameAll : List (Span α) → List (Span α) → Prop
  | [], [] => True
  | s :: ss, t :: ts => s.Same t ∧ SameAll ss ts
  | _, _ => False

instance decidableSameAll : (ss ts : List (Span α)) → Decidable (SameAll ss ts)
  | [], [] => inferInstanceAs (Decidable True)
  | s :: ss, t :: ts =>
      have := decidableSameAll ss ts
      inferInstanceAs (Decidable (s.Same t ∧ SameAll ss ts))
  | [], _ :: _ => inferInstanceAs (Decidable False)
  | _ :: _, [] => inferInstanceAs (Decidable False)

instance [ToString α] : ToString (Span α) :=
  ⟨fun s => "Interval \x7b start: " ++ toString s.lo ++ ", end: " ++ toString s.hi ++ " \x7d"⟩

end Span

/-- A written list of elements between braces. -/
def braced (elements : List String) : String := "\x7b" ++ ", ".intercalate elements ++ "\x7d"

end RangeSets
