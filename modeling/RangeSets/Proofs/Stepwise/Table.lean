import RangeSets.Proofs.Stepwise.Search
import RangeSets.Proofs.WorthMap.Table
/-!
# Worth maps, access by access

The edits of a worth map again, each followed by what it does to the table. A worth is read and written
by the number of a slot, and there has to be one. When a range is put in, the table is first brought up
to the number of slots, so that its worth can be written.
-/

namespace RangeSets

namespace Stepwise

variable {α : Type}

def readWorth (m : WorthMap α) (i : Nat) : Except Stop Worth :=
  match m.worths[i]? with
  | some worth => .ok worth
  | none => .error (.breach (.noWorth i))

def writeWorth (m : WorthMap α) (i : Nat) (worth : Worth) : Except Stop (WorthMap α) := do
  let _ ← readWorth m i
  return { m with worths := m.worths.setIfInBounds i worth }

def setWorth (m : WorthMap α) (i : Nat) (worth : Worth) : Except Stop (WorthMap α) :=
  let missing := Array.replicate (m.chain.slots.size - m.worths.size) Worth.zero
  writeWorth { m with worths := m.worths ++ missing } i worth

/-- Adds to the worth in a slot. A sum that is no worth is a fault. -/
def addWorth (m : WorthMap α) (i : Nat) (added : Worth) : Except Stop (WorthMap α) := do
  let worth ← readWorth m i
  match Worth.add? worth added with
  | some sum => writeWorth m i sum
  | none => .error (.fault (.sum worth added))

/-- Puts a range of a worth right before a slot, or behind all. -/
def putBefore (m : WorthMap α) (slot? : Option Nat) (lo hi : α) (worth : Worth) :
    Except Stop (WorthMap α) := do
  let (chain, i) ← insertBefore m.chain slot? lo hi
  setWorth { m with chain } i worth

/-- Puts a range of a worth right after a slot, or in front of all. -/
def putAfter (m : WorthMap α) (slot? : Option Nat) (lo hi : α) (worth : Worth) :
    Except Stop (WorthMap α) := do
  let (chain, i) ← insertAfter m.chain slot? lo hi
  setWorth { m with chain } i worth

def setLo (m : WorthMap α) (i : Nat) (lo : α) : Except Stop (WorthMap α) := do
  let chain ← writeSlot m.chain i fun s => { s with lo }
  return { m with chain }

def setHi (m : WorthMap α) (i : Nat) (hi : α) : Except Stop (WorthMap α) := do
  let chain ← writeSlot m.chain i fun s => { s with hi }
  return { m with chain }

/-- Gives a slot back. Its worth is left behind in the table. -/
def giveBack (m : WorthMap α) (i : Nat) : Except Stop (WorthMap α) := do
  let chain ← release m.chain i
  return { m with chain }

theorem readWorth_eq {m : WorthMap α} {i : Nat} {worth : Worth} (h : m.worths[i]? = some worth) :
    readWorth m i = .ok worth := by
  rw [readWorth, h]

theorem writeWorth_eq {m : WorthMap α} {i : Nat} (h : i < m.worths.size) (worth : Worth) :
    writeWorth m i worth = .ok { m with worths := m.worths.setIfInBounds i worth } := by
  rw [writeWorth, readWorth_eq (Array.getElem?_eq_getElem h)]
  rfl

theorem setWorth_eq {m : WorthMap α} {i : Nat} (h : i < m.chain.slots.size) (worth : Worth) :
    setWorth m i worth = .ok (m.setWorth i worth) := by
  rw [setWorth, writeWorth_eq]
  · rfl
  · simp only [Array.size_append, Array.size_replicate]
    omega

end Stepwise

namespace WorthMap

@[simp] theorem applyAll_nil {α : Type} (m : WorthMap α) : m.applyAll [] = m := rfl

@[simp] theorem applyAll_cons {α : Type} (m : WorthMap α) (edit : Edit α Worth)
    (edits : List (Edit α Worth)) : m.applyAll (edit :: edits) = (m.apply edit).applyAll edits := rfl

@[simp] theorem applyAll_append {α : Type} (m : WorthMap α) (edits more : List (Edit α Worth)) :
    m.applyAll (edits ++ more) = (m.applyAll edits).applyAll more :=
  List.foldl_append ..

namespace Holds

open Stepwise

variable {α : Type} {m : WorthMap α} {p : Layout α Worth} {xs ys : List (Entry α Worth)}
  {e : Entry α Worth} {spares : List Nat}

theorem readWorth_eq (h : m.Holds p) (he : e ∈ p.entries) : readWorth m e.slot = .ok e.label :=
  Stepwise.readWorth_eq (h.worths_eq e he)

theorem addWorth_eq (h : m.Holds ⟨xs ++ e :: ys, spares⟩) (added : Worth) :
    addWorth m e.slot added =
      match Worth.add? e.label added with
      | some sum => .ok (m.apply (.setLabel e.slot sum))
      | none => .error (.fault (.sum e.label added)) := by
  have hlt : e.slot < m.worths.size := by
    rw [h.size_eq]
    exact h.chain.slot_lt
  rw [addWorth, h.readWorth_eq (by simp)]
  simp only [ok_bind]
  cases Worth.add? e.label added with
  | some sum => exact writeWorth_eq hlt sum
  | none => rfl

theorem putBefore_eq (h : m.Holds ⟨xs ++ ys, spares⟩) (lo hi : α) (worth : Worth) :
    putBefore m (firstSlot ys none) lo hi worth =
      .ok (m.apply (.placeBefore (firstSlot ys none) lo hi worth)) := by
  have hplaced := h.chain.step (Layout.Step.placeBefore xs ys spares lo hi worth)
  rw [putBefore, h.chain.insertBefore_eq]
  simp only [ok_bind]
  refine setWorth_eq ?_ worth
  rw [h.chain.nextSlot_eq]
  exact hplaced.slot_lt

theorem putAfter_eq (h : m.Holds ⟨xs ++ ys, spares⟩) (lo hi : α) (worth : Worth) :
    putAfter m (lastSlot none xs) lo hi worth =
      .ok (m.apply (.placeAfter (lastSlot none xs) lo hi worth)) := by
  have hplaced := h.chain.step (Layout.Step.placeAfter xs ys spares lo hi worth)
  rw [putAfter, h.chain.insertAfter_eq]
  simp only [ok_bind]
  refine setWorth_eq ?_ worth
  rw [h.chain.nextSlot_eq]
  exact hplaced.slot_lt

theorem setLo_eq (h : m.Holds ⟨xs ++ e :: ys, spares⟩) (lo : α) :
    setLo m e.slot lo = .ok (m.apply (.setLo e.slot lo)) := by
  rw [setLo, writeSlot_eq h.chain.slot_lt]
  rfl

theorem setHi_eq (h : m.Holds ⟨xs ++ e :: ys, spares⟩) (hi : α) :
    setHi m e.slot hi = .ok (m.apply (.setHi e.slot hi)) := by
  rw [setHi, writeSlot_eq h.chain.slot_lt]
  rfl

theorem giveBack_eq (h : m.Holds ⟨xs ++ e :: ys, spares⟩) :
    giveBack m e.slot = .ok (m.apply (.retire e.slot)) := by
  rw [giveBack, h.chain.release_eq]
  rfl

end Holds

end WorthMap

end RangeSets
