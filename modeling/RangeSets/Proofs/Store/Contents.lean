import RangeSets.Proofs.Store.Telling
import RangeSets.Proofs.WorthMap.Reachable
/-!
# What is kept in a store

A watch has no part in the value that it is on. So the values on a shelf stay as they are but for the one
that is put there or changed, and what all of them have in common, they keep, if the change keeps it.
-/

namespace RangeSets

namespace Shelf

variable {σ α ε : Type} {shelf after : Shelf σ} {trails told : Trails α} {name : String}
  {P : σ → Prop}

theorem value?_put (shelf : Shelf σ) (name other : String) (watched : Watched σ) :
    Shelf.value? (shelf.put name watched) other =
      if other = name then some watched.value else shelf.value? other := by
  by_cases hname : other = name
  · subst hname
    rw [if_pos rfl, value?, Named.get?_put_self, Option.map_some]
  · rw [if_neg hname, value?, Named.get?_put_of_ne hname, value?]

theorem value?_setWatch (shelf : Shelf σ) (name : String) (watch? : Option Watch) (other : String) :
    (shelf.setWatch name watch?).value? other = shelf.value? other := by
  cases hget : shelf.get? name with
  | none => simp only [setWatch, hget]
  | some watched =>
      simp only [setWatch, hget, value?_put]
      split
      · rename_i hname
        rw [hname, value?, hget, Option.map_some]
      · rfl

/-- A change that succeeds leaves every value as it was, but for the changed one. -/
theorem tryChange_cases {f : σ → Except ε (σ × List (Change α))}
    (hok : shelf.tryChange trails name f = .ok (after, told)) (other : String) :
    after.value? other = shelf.value? other ∨
      other = name ∧ ∃ value changed changes, shelf.value? name = some value ∧
        f value = .ok (changed, changes) ∧ after.value? other = some changed := by
  cases hget : shelf.get? name with
  | none =>
      simp only [tryChange, hget] at hok
      cases hok
      exact .inl rfl
  | some watched =>
      simp only [tryChange, hget] at hok
      obtain ⟨⟨changed, changes⟩, hchanged, hresult⟩ := exists_of_map_eq_ok hok
      cases hresult
      rw [value?_put]
      split
      · rename_i hname
        exact .inr ⟨hname, watched.value, changed, changes, by rw [value?, hget]; rfl, hchanged, rfl⟩
      · exact .inl rfl

theorem exists_of_tryChange_eq_error {f : σ → Except ε (σ × List (Change α))} {fault : ε}
    (hfault : shelf.tryChange trails name f = .error fault) :
    ∃ value, shelf.value? name = some value ∧ f value = .error fault := by
  cases hget : shelf.get? name with
  | none =>
      simp only [tryChange, hget] at hfault
      cases hfault
  | some watched =>
      simp only [tryChange, hget] at hfault
      refine ⟨watched.value, by rw [value?, hget]; rfl, ?_⟩
      cases hf : f watched.value with
      | ok result =>
          rw [hf] at hfault
          cases hfault
      | error cause =>
          rw [hf] at hfault
          cases hfault
          rfl

/-- Only what a change does to the value under the name matters. -/
theorem tryChange_congr {f g : σ → Except ε (σ × List (Change α))}
    (hfg : ∀ value, shelf.value? name = some value → f value = g value) :
    shelf.tryChange trails name f = shelf.tryChange trails name g := by
  cases hget : shelf.get? name with
  | none => simp only [tryChange, hget]
  | some watched =>
      have hvalue : shelf.value? name = some watched.value := by rw [value?, hget]; rfl
      simp only [tryChange, hget, hfg _ hvalue]

/-! ### What all values have in common -/

/-- All values on the shelf have the property. -/
def All (P : σ → Prop) (shelf : Shelf σ) : Prop :=
  ∀ name value, shelf.value? name = some value → P value

theorem All.place (h : shelf.All P) {value : σ} (hvalue : P value) :
    (shelf.place name value).All P := by
  intro other found hfound
  rw [Shelf.place, value?_put] at hfound
  split at hfound
  · cases hfound
    exact hvalue
  · exact h other found hfound

theorem All.setWatch (h : shelf.All P) (watch? : Option Watch) :
    (shelf.setWatch name watch?).All P := by
  intro other found hfound
  rw [value?_setWatch] at hfound
  exact h other found hfound

theorem All.tryChange (h : shelf.All P) {f : σ → Except ε (σ × List (Change α))}
    (hf : ∀ value changed changes, P value → f value = .ok (changed, changes) → P changed)
    (hok : shelf.tryChange trails name f = .ok (after, told)) : after.All P := by
  intro other found hfound
  rcases tryChange_cases hok other with hsame | ⟨rfl, value, changed, changes, hvalue, hchanged, heq⟩
  · rw [hsame] at hfound
    exact h other found hfound
  · rw [heq] at hfound
    cases hfound
    exact hf value found changes (h other value hvalue) hchanged

end Shelf

/-! ### Sets and maps by name -/

namespace Store

variable {α : Type}

/-- The set under a name. A name that is not used stands for an empty set. -/
def set (store : Store α) (name : String) : RangeSet α :=
  (store.sets.value? name).getD RangeSet.empty

/-- The map under a name. A name that is not used stands for an empty map. -/
def map (store : Store α) (name : String) : WorthMap α :=
  (store.maps.value? name).getD WorthMap.empty

variable [Scale α] {store : Store α}

structure Sound (store : Store α) : Prop where
  sets : store.sets.All RangeSet.Sound
  maps : store.maps.All WorthMap.Sound

theorem sound_empty : (empty : Store α).Sound where
  sets _ _ hvalue := nomatch hvalue
  maps _ _ hvalue := nomatch hvalue

theorem Sound.set (h : store.Sound) (name : String) : (store.set name).Sound := by
  rw [Store.set]
  cases hvalue : store.sets.value? name with
  | none => exact RangeSet.sound_empty
  | some s => exact h.sets name s hvalue

theorem Sound.map (h : store.Sound) (name : String) : (store.map name).Sound := by
  rw [Store.map]
  cases hvalue : store.maps.value? name with
  | none => exact WorthMap.sound_empty
  | some m => exact h.maps name m hvalue

end Store

end RangeSets
