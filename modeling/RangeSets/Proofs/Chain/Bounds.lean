import RangeSets.Proofs.Chain.Splice
/-!
# Bounds and links

The bounds of a slot do not matter to its links. Setting them may be put off until slots around were
given back, and a range that is put in with some bounds and then given others might as well have been
put in with the others.
-/

namespace RangeSets

variable {α : Type}

/-- The function changes the bounds of a slot and does not look at its links. -/
structure Slot.KeepsLinks (f : Slot α → Slot α) : Prop where
  prev_eq : ∀ s, (f s).prev = s.prev
  next_eq : ∀ s, (f s).next = s.next
  setPrev : ∀ s j?, f { s with prev := j? } = { f s with prev := j? }
  setNext : ∀ s j?, f { s with next := j? } = { f s with next := j? }

theorem Slot.keepsLinks_setLo (lo : α) : KeepsLinks fun s : Slot α => { s with lo } :=
  ⟨fun _ => rfl, fun _ => rfl, fun _ _ => rfl, fun _ _ => rfl⟩

theorem Slot.keepsLinks_setHi (hi : α) : KeepsLinks fun s : Slot α => { s with hi } :=
  ⟨fun _ => rfl, fun _ => rfl, fun _ _ => rfl, fun _ _ => rfl⟩

namespace Chain

variable {c : Chain α} {n : Nat} {f g : Slot α → Slot α}

theorem modify_comm (h : ∀ s, f (g s) = g (f s)) (c : Chain α) (i j : Nat) :
    (c.modify i f).modify j g = (c.modify j g).modify i f := by
  have hslots : ((c.modify i f).modify j g).slots = ((c.modify j g).modify i f).slots := by
    apply Array.ext_getElem?
    intro k
    simp only [slots_modify]
    by_cases hi : i = k <;> by_cases hj : j = k
    · simp only [hi, hj, if_true, Option.map_map]
      congr 1
      funext s
      exact (h s).symm
    · simp only [hi, hj, if_true, if_false]
    · simp only [hi, hj, if_true, if_false]
    · simp only [hi, hj, if_false]
  exact congrArg (fun slots => { c with slots }) hslots

variable (hf : Slot.KeepsLinks f)

include hf

theorem modify_setNext (c : Chain α) (i? j? : Option Nat) :
    (c.modify n f).setNext i? j? = (c.setNext i? j?).modify n f := by
  cases i? with
  | none => rfl
  | some i => exact modify_comm (fun s => hf.setNext s j?) c n i

theorem modify_setPrev (c : Chain α) (i? j? : Option Nat) :
    (c.modify n f).setPrev i? j? = (c.setPrev i? j?).modify n f := by
  cases i? with
  | none => rfl
  | some i => exact modify_comm (fun s => hf.setPrev s j?) c n i

theorem modify_next? (c : Chain α) (i : Nat) : (c.modify n f).next? i = c.next? i := by
  rw [next?, next?, slots_modify]
  split
  · cases c.slots[i]? with
    | none => rfl
    | some s => exact hf.next_eq s
  · rfl

theorem modify_prev? (c : Chain α) (i : Nat) : (c.modify n f).prev? i = c.prev? i := by
  rw [prev?, prev?, slots_modify]
  split
  · cases c.slots[i]? with
    | none => rfl
    | some s => exact hf.prev_eq s
  · rfl

theorem retire_modify (c : Chain α) (i : Nat) :
    (c.modify n f).retire i = (c.retire i).modify n f := by
  have hlink : ∀ s : Slot α, f { s with prev := none, next := c.spare } =
      { f s with prev := none, next := c.spare } := by
    intro s
    rw [hf.setNext { s with prev := none } c.spare, hf.setPrev]
  have hmodify := modify_comm hlink
    ((c.setNext (c.prev? i) (c.next? i)).setPrev (c.next? i) (c.prev? i)) n i
  rw [retire, retire, modify_next? hf, modify_prev? hf, modify_setNext hf, modify_setPrev hf,
    spare_modify]
  exact congrArg (fun d : Chain α => { d with spare := some i, size := c.size - 1 }) hmodify

theorem placeBetween_modify (hspare : ∀ i, c.spare = some i → i < c.slots.size)
    (prev? next? : Option Nat) {lo hi lo' hi' : α}
    (hbounds : f ⟨lo, hi, prev?, next?⟩ = ⟨lo', hi', prev?, next?⟩) :
    (c.placeBetween prev? next? lo hi).modify c.nextSlot f = c.placeBetween prev? next? lo' hi' := by
  have hlinked : (((c.fill ⟨lo, hi, prev?, next?⟩).setNext prev? (some c.nextSlot)).setPrev next?
      (some c.nextSlot)).modify c.nextSlot f =
      ((c.fill ⟨lo', hi', prev?, next?⟩).setNext prev? (some c.nextSlot)).setPrev next?
        (some c.nextSlot) := by
    rw [← modify_setPrev hf, ← modify_setNext hf, modify_fill _ _ _ hspare, hbounds]
  exact congrArg (fun d : Chain α => { d with size := c.size + 1 }) hlinked

end Chain

end RangeSets
