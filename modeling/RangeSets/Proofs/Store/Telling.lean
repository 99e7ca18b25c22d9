import RangeSets.Proofs.Fault
import RangeSets.Proofs.RangeSet.Reachable
import RangeSets.Store
/-!
# What a change tells

Changing a set in a store puts the changed set under the same name, with the same watch, and tells its
changes to the trail of the watch, under its tag and after all that was heard there before. No other
trail hears anything.
-/

namespace RangeSets

variable {σ α : Type}

/-! ### Values by name -/

namespace Named

theorem get?_put_self (n : Named σ) (name : String) (value : σ) :
    (n.put name value).get? name = some value := by
  simp [put, get?]

theorem lookup_filter_of_ne {name other : String} (hne : other ≠ name) (pairs : List (String × σ)) :
    (pairs.filter fun pair => pair.1 ≠ name).lookup other = pairs.lookup other := by
  induction pairs with
  | nil => rfl
  | cons pair rest ih =>
      obtain ⟨key, value⟩ := pair
      by_cases hkey : key = name
      · rw [List.filter_cons_of_neg (by simp [hkey]), ih, List.lookup_cons,
          beq_false_of_ne (hkey ▸ hne)]
      · rw [List.filter_cons_of_pos (by simp [hkey]), List.lookup_cons, List.lookup_cons, ih]

theorem get?_put_of_ne {name other : String} (hne : other ≠ name) (n : Named σ) (value : σ) :
    (n.put name value).get? other = n.get? other := by
  simp only [put, get?]
  rw [List.lookup_cons, beq_false_of_ne hne]
  exact lookup_filter_of_ne hne n.pairs

end Named

/-! ### Trails -/

namespace Trails

theorem trail_put_self (t : Trails α) (name : String) (trail : Trail α) :
    Trails.trail (t.put name trail) name = trail := by
  rw [Trails.trail, Named.get?_put_self, Option.getD_some]

theorem trail_put_of_ne {name other : String} (hne : other ≠ name) (t : Trails α)
    (trail : Trail α) : Trails.trail (t.put name trail) other = t.trail other := by
  rw [Trails.trail, Trails.trail, Named.get?_put_of_ne hne]

/-- The trail of the watch has one event for each of the changes, in their order and under the tag of the
watch, behind the events that it had before. What was taken out of it last is still the same, and no
other trail heard anything. -/
structure Heard (before after : Trails α) (watch : Watch) (changes : List (Change α)) : Prop where
  heard_eq : (after.trail watch.trail).heard =
    (before.trail watch.trail).heard ++ changes.map fun change => ⟨watch.tag, change⟩
  taken_eq : (after.trail watch.trail).taken = (before.trail watch.trail).taken
  others : ∀ name, name ≠ watch.trail → after.trail name = before.trail name

theorem heard_tell (t : Trails α) (watch : Watch) (changes : List (Change α)) :
    t.Heard (t.tell (some watch) changes) watch changes where
  heard_eq := by rw [tell, trail_put_self, Trail.hear]
  taken_eq := by rw [tell, trail_put_self, Trail.hear]
  others _ hne := trail_put_of_ne hne ..

theorem trail_take_self (t : Trails α) (name : String) :
    (t.take name).trail name = (t.trail name).take :=
  trail_put_self ..

variable {before mid after : Trails α} {watch : Watch} {changes later : List (Change α)}

theorem Heard.refl (t : Trails α) (watch : Watch) : t.Heard t watch [] where
  heard_eq := (List.append_nil _).symm
  taken_eq := rfl
  others _ _ := rfl

theorem Heard.trans (h : before.Heard mid watch changes) (hlater : mid.Heard after watch later) :
    before.Heard after watch (changes ++ later) where
  heard_eq := by rw [hlater.heard_eq, h.heard_eq, List.map_append, List.append_assoc]
  taken_eq := hlater.taken_eq.trans h.taken_eq
  others name hne := (hlater.others name hne).trans (h.others name hne)

end Trails

/-! ### Values on a shelf -/

/-- A change that succeeds gave a result for the value under the name, and it was told. -/
theorem Shelf.tryChange_of_get? {ε : Type} {shelf : Shelf σ} {trails : Trails α} {name : String}
    {value : σ} {watch : Watch} (hget : shelf.get? name = some ⟨value, some watch⟩)
    {f : σ → Except ε (σ × List (Change α))} {result : Shelf σ × Trails α}
    (hok : shelf.tryChange trails name f = .ok result) :
    ∃ after changes, f value = .ok (after, changes) ∧
      result.1.get? name = some ⟨after, some watch⟩ ∧ trails.Heard result.2 watch changes := by
  simp only [tryChange, hget] at hok
  cases hf : f value with
  | error fault =>
      rw [hf] at hok
      cases hok
  | ok changed =>
      rw [hf] at hok
      cases hok
      exact ⟨changed.1, changed.2, rfl, Named.get?_put_self .., Trails.heard_tell ..⟩

/-! ### Sets in a store -/

namespace Store

variable {store : Store α} {name : String} {s : RangeSet α} {watch : Watch}

theorem changeSet_of_get? (hget : store.sets.get? name = some ⟨s, some watch⟩)
    (f : RangeSet α → RangeSet α × List (Change α)) :
    (store.changeSet name f).sets.get? name = some ⟨(f s).1, some watch⟩ ∧
      store.trails.Heard (store.changeSet name f).trails watch (f s).2 := by
  simp only [changeSet, Shelf.change, hget]
  exact ⟨Named.get?_put_self .., Trails.heard_tell ..⟩

/-- A change that came to no fault gave a result for the map under the name. -/
theorem changeMap_of_get? {later : Store α} {m : WorthMap α}
    (hget : store.maps.get? name = some ⟨m, some watch⟩)
    {f : WorthMap α → Except Fault (WorthMap α × List (Change α))}
    (hok : store.changeMap name f = .ok later) :
    ∃ after changes, f m = .ok (after, changes) ∧
      later.maps.get? name = some ⟨after, some watch⟩ ∧
      store.trails.Heard later.trails watch changes := by
  obtain ⟨result, hchanged, hafter⟩ := exists_of_map_eq_ok hok
  cases hafter
  exact Shelf.tryChange_of_get? hget hchanged

theorem changeMap_eq_ok {m after : WorthMap α} {changes : List (Change α)}
    (hget : store.maps.get? name = some ⟨m, some watch⟩)
    {f : WorthMap α → Except Fault (WorthMap α × List (Change α))} (hf : f m = .ok (after, changes)) :
    store.changeMap name f = .ok { store with
      maps := store.maps.put name ⟨after, some watch⟩
      trails := store.trails.tell (some watch) changes } := by
  simp only [changeMap, Shelf.tryChange, hget, hf]
  rfl

variable [Scale α]

/-- The store after mutations of one set, the first one made first. -/
def mutateAll (store : Store α) (name : String) (ms : List (Mutation α)) : Store α :=
  ms.foldl (fun store m => store.changeSet name fun s => s.mutate m) store

theorem mutateAll_of_get? (hget : store.sets.get? name = some ⟨s, some watch⟩)
    (ms : List (Mutation α)) :
    (store.mutateAll name ms).sets.get? name =
        some ⟨(RangeSet.inTurn RangeSet.mutate s ms).1, some watch⟩ ∧
      store.trails.Heard (store.mutateAll name ms).trails watch
        (RangeSet.inTurn RangeSet.mutate s ms).2 := by
  induction ms generalizing store s with
  | nil => exact ⟨hget, .refl ..⟩
  | cons m rest ih =>
      obtain ⟨hfirst, hheard⟩ := changeSet_of_get? hget fun s => s.mutate m
      obtain ⟨hrest, hlater⟩ := ih hfirst
      exact ⟨hrest, hheard.trans hlater⟩

end Store

namespace PointStore

variable {f : IntegerFormat} {points after : PointStore f} {name : String} {p : PointSet f}
  {watch : Watch}

/-- A change that was not refused gave a result for the set under the name. -/
theorem change_of_get? (hget : points.sets.get? name = some ⟨p, some watch⟩)
    {g : PointSet f → Except (Refusal (Fixed f)) (PointSet f × List (Change (Fixed f)))}
    (hok : points.change name g = .ok after) :
    ∃ q changes, g p = .ok (q, changes) ∧ after.sets.get? name = some ⟨q, some watch⟩ ∧
      points.trails.Heard after.trails watch changes := by
  obtain ⟨result, hchanged, hafter⟩ := exists_of_map_eq_ok hok
  cases hafter
  exact Shelf.tryChange_of_get? hget hchanged

end PointStore

end RangeSets
