import RangeSets.Fault
/-!
# Work without a fault

Work in steps that came to a result came to a result at every step, and work that came to none failed
at its first step that did.
-/

namespace RangeSets

@[simp] theorem ok_bind {ε α β : Type} (a : α) (f : α → Except ε β) :
    ((Except.ok a : Except ε α) >>= f) = f a := rfl

@[simp] theorem error_bind {ε α β : Type} (fault : ε) (f : α → Except ε β) :
    ((Except.error fault : Except ε α) >>= f) = .error fault := rfl

theorem exists_of_bind_eq_ok {ε α β : Type} {x : Except ε α} {f : α → Except ε β} {b : β}
    (h : (x >>= f) = .ok b) : ∃ a, x = .ok a ∧ f a = .ok b := by
  cases x with
  | error fault => cases h
  | ok a => exact ⟨a, rfl, h⟩

theorem of_bind_eq_error {ε α β : Type} {x : Except ε α} {f : α → Except ε β} {fault : ε}
    (h : (x >>= f) = .error fault) : x = .error fault ∨ ∃ a, x = .ok a ∧ f a = .error fault := by
  cases x with
  | error cause =>
      cases h
      exact .inl rfl
  | ok a => exact .inr ⟨a, rfl, h⟩

theorem exists_of_map_eq_ok {ε α β : Type} {x : Except ε α} {f : α → β} {b : β}
    (h : x.map f = .ok b) : ∃ a, x = .ok a ∧ f a = b := by
  cases x with
  | error fault => cases h
  | ok a => exact ⟨a, rfl, Except.ok.inj h⟩

theorem exists_of_mapError_eq_error {ε ε' α : Type} {x : Except ε α} {φ : ε → ε'} {cause : ε'}
    (h : x.mapError φ = .error cause) : ∃ fault, x = .error fault ∧ cause = φ fault := by
  cases x with
  | error fault => exact ⟨fault, rfl, (Except.error.inj h).symm⟩
  | ok a => cases h

theorem of_mapError_eq_ok {ε ε' α : Type} {x : Except ε α} {φ : ε → ε'} {a : α}
    (h : x.mapError φ = .ok a) : x = .ok a := by
  cases x with
  | error fault => cases h
  | ok b =>
      cases h
      rfl

/-- Results that are all there are the results of the elements. -/
theorem of_mapM_eq_ok {ε α β : Type} {f : α → Except ε β} {xs : List α} {ys : List β}
    (h : xs.mapM f = .ok ys) :
    (∀ x ∈ xs, ∃ y ∈ ys, f x = .ok y) ∧ ∀ y ∈ ys, ∃ x ∈ xs, f x = .ok y := by
  induction xs generalizing ys with
  | nil =>
      cases h
      exact ⟨by simp, by simp⟩
  | cons x rest ih =>
      rw [List.mapM_cons] at h
      obtain ⟨y, hfirst, hmore⟩ := exists_of_bind_eq_ok h
      obtain ⟨zs, hrest, hresult⟩ := exists_of_bind_eq_ok hmore
      cases hresult
      obtain ⟨hto, hfrom⟩ := ih hrest
      constructor
      · intro a ha
        rcases List.mem_cons.mp ha with rfl | ha
        · exact ⟨y, by simp, hfirst⟩
        · obtain ⟨b, hb, hfb⟩ := hto a ha
          exact ⟨b, List.mem_cons_of_mem _ hb, hfb⟩
      · intro b hb
        rcases List.mem_cons.mp hb with rfl | hb
        · exact ⟨x, by simp, hfirst⟩
        · obtain ⟨a, ha, hfb⟩ := hfrom b hb
          exact ⟨a, List.mem_cons_of_mem _ ha, hfb⟩

/-- Where there are no results, the failure is that of the first element that fails. -/
theorem of_mapM_eq_error {ε α β : Type} {f : α → Except ε β} {xs : List α} {fault : ε}
    (h : xs.mapM f = .error fault) :
    ∃ front x back, xs = front ++ x :: back ∧ f x = .error fault ∧
      ∀ a ∈ front, ∃ b, f a = .ok b := by
  induction xs with
  | nil => cases h
  | cons x rest ih =>
      rw [List.mapM_cons] at h
      cases hfirst : f x with
      | error fault' =>
          rw [hfirst] at h
          cases h
          exact ⟨[], x, rest, rfl, hfirst, by simp⟩
      | ok y =>
          rw [hfirst] at h
          cases hrest : rest.mapM f with
          | ok ys =>
              rw [hrest] at h
              cases h
          | error fault' =>
              rw [hrest] at h
              cases h
              obtain ⟨front, d, back, rfl, hfails, hfront⟩ := ih hrest
              refine ⟨x :: front, d, back, rfl, hfails, fun a ha => ?_⟩
              rcases List.mem_cons.mp ha with rfl | ha
              · exact ⟨y, hfirst⟩
              · exact hfront a ha

/-- Failures that stand for others element by element do so for the whole list. -/
theorem mapM_mapError {ε ε' α β : Type} {f : α → Except ε' β} {g : α → Except ε β} {φ : ε → ε'}
    (h : ∀ x, f x = (g x).mapError φ) (xs : List α) : xs.mapM f = (xs.mapM g).mapError φ := by
  induction xs with
  | nil => rfl
  | cons x rest ih =>
      rw [List.mapM_cons, List.mapM_cons, h x, ih]
      cases g x with
      | error fault => rfl
      | ok y => cases rest.mapM g <;> rfl

theorem Worth.orFault_eq_ok_iff {worth? : Option Worth} {fault : Fault} {worth : Worth} :
    Worth.orFault worth? fault = .ok worth ↔ worth? = some worth := by
  cases worth? with
  | none => simp [orFault]
  | some w => simp [orFault]

end RangeSets
