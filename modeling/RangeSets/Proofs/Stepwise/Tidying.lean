import RangeSets.Proofs.Stepwise.Table
import RangeSets.Proofs.WorthMap.Tidying
/-!
# Tidying up, access by access

The second and the third pass of an addition. Both look up what comes next before the slot under the
cursor is given back. The third one reads the worths of two neighbours only when one comes right after
the other, and it stops behind the first range above the end, which may still be joined with the one
before it.
-/

namespace RangeSets

open Scale

namespace Stepwise

variable {α : Type} [Scale α]

def pruneFrom (hi : α) : Nat → WorthMap α → Option Nat → Except Stop (WorthMap α)
  | _, m, none => .ok m
  | 0, _, some _ => .error (.breach .endless)
  | steps + 1, m, some i => do
      let s ← readSlot m.chain i
      if hi < s.lo then return m
      else if (← readWorth m i) = Worth.zero then
        pruneFrom hi steps (← giveBack m i) s.next
      else pruneFrom hi steps m s.next

/-- Takes a range into the one before it if it comes right after it and has its worth. -/
def joinBefore (m : WorthMap α) (i : Nat) (s : Slot α) : Except Stop (WorthMap α) :=
  match s.prev with
  | some b => do
      let t ← readSlot m.chain b
      if Adjacent t.hi s.lo then
        if (← readWorth m b) = (← readWorth m i) then giveBack (← setHi m b s.hi) i
        else return m
      else return m
  | none => .ok m

def joinFrom (hi : α) : Nat → WorthMap α → Option Nat → Except Stop (WorthMap α)
  | _, m, none => .ok m
  | 0, _, some _ => .error (.breach .endless)
  | steps + 1, m, some i => do
      let s ← readSlot m.chain i
      let joined ← joinBefore m i s
      if hi < s.lo then return joined else joinFrom hi steps joined s.next

/-- The second pass, from a slot on or from the head. -/
def prune (m : WorthMap α) (slot? : Option Nat) (hi : α) : Except Stop (WorthMap α) :=
  pruneFrom hi m.chain.slots.size m (slot?.or m.chain.head)

/-- The third pass, from a slot on or from the head. -/
def join (m : WorthMap α) (slot? : Option Nat) (hi : α) : Except Stop (WorthMap α) :=
  joinFrom hi m.chain.slots.size m (slot?.or m.chain.head)

end Stepwise

namespace WorthMap

open Stepwise

variable {α : Type} [Scale α] {m : WorthMap α} {hi : α} {xs es : List (Entry α Worth)}
  {e : Entry α Worth} {spares : List Nat} {steps : Nat}

theorem pruneEdits_cons (hi : α) (e : Entry α Worth) (es : List (Entry α Worth)) :
    pruneEdits hi (e :: es) =
      if hi < e.lo then []
      else if e.label = Worth.zero then .retire e.slot :: pruneEdits hi es
      else pruneEdits hi es := by
  by_cases habove : hi < e.lo
  · simp [pruneEdits, habove]
  · by_cases hzero : e.label = Worth.zero <;> simp [pruneEdits, habove, hzero]

namespace Holds

theorem pruneFrom_eq (h : m.Holds ⟨xs ++ es, spares⟩) (hsteps : es.length ≤ steps) :
    pruneFrom hi steps m (firstSlot es none) = .ok (m.applyAll (pruneEdits hi es)) := by
  induction es generalizing m xs spares steps with
  | nil => cases steps <;> rfl
  | cons e rest ih =>
      cases steps with
      | zero => simp at hsteps
      | succ steps =>
          have hsteps : rest.length ≤ steps := by simpa using hsteps
          rw [firstSlot_cons, pruneFrom, h.chain.readSlot_eq, h.readWorth_eq (by simp),
            pruneEdits_cons]
          simp only [ok_bind]
          split
          · rfl
          split
          · have hgiven := h.step (Layout.Step.retire xs e rest spares)
            rw [h.giveBack_eq]
            exact ih hgiven hsteps
          · rw [List.append_cons] at h
            exact ih h hsteps

theorem joinBefore_of_merge {b : Entry α Worth} (h : m.Holds ⟨(xs ++ [b]) ++ e :: es, spares⟩)
    (hmerge : Adjacent b.hi e.lo ∧ b.label = e.label) (next? : Option Nat) :
    joinBefore m e.slot ⟨e.lo, e.hi, some b.slot, next?⟩ =
      .ok (m.applyAll [.setHi b.slot e.hi, .retire e.slot]) := by
  have hbefore : m.Holds ⟨xs ++ b :: (e :: es), spares⟩ := by simpa using h
  have hwidened := hbefore.step (Layout.Step.setHi xs b (e :: es) spares e.hi)
  rw [List.append_cons] at hwidened
  simp only [joinBefore, hbefore.chain.readSlot_eq, ok_bind]
  rw [if_pos hmerge.1, hbefore.readWorth_eq (by simp), h.readWorth_eq (by simp)]
  simp only [ok_bind]
  rw [if_pos hmerge.2, hbefore.setHi_eq]
  exact hwidened.giveBack_eq

theorem joinBefore_of_apart (h : m.Holds ⟨xs ++ e :: es, spares⟩)
    (hapart : ∀ b ∈ xs.getLast?, ¬ (Adjacent b.hi e.lo ∧ b.label = e.label))
    (next? : Option Nat) :
    joinBefore m e.slot ⟨e.lo, e.hi, lastSlot none xs, next?⟩ = .ok m := by
  rcases List.eq_nil_or_concat xs with rfl | ⟨zs, b, rfl⟩
  · rfl
  · rw [List.concat_eq_append] at h hapart ⊢
    have hbefore : m.Holds ⟨zs ++ b :: (e :: es), spares⟩ := by simpa using h
    have hnot := hapart b (by simp)
    simp only [lastSlot_append, lastSlot_cons, lastSlot_nil, joinBefore, hbefore.chain.readSlot_eq,
      ok_bind]
    split
    · rename_i hadjacent
      rw [hbefore.readWorth_eq (by simp), h.readWorth_eq (by simp)]
      simp only [ok_bind]
      rw [if_neg fun hlabel => hnot ⟨hadjacent, hlabel⟩]
      rfl
    · rfl

theorem joinFrom_eq (h : m.Holds ⟨xs ++ es, spares⟩) (hsteps : es.length ≤ steps) :
    joinFrom hi steps m (firstSlot es none) = .ok (m.applyAll (joinEdits hi xs.getLast? es)) := by
  induction es generalizing m xs spares steps with
  | nil => cases steps <;> rfl
  | cons e rest ih =>
      cases steps with
      | zero => simp at hsteps
      | succ steps =>
          have hsteps : rest.length ≤ steps := by simpa using hsteps
          rw [firstSlot_cons, joinFrom, h.chain.readSlot_eq]
          simp only [ok_bind]
          by_cases hmerge : ∃ b ∈ xs.getLast?, Adjacent b.hi e.lo ∧ b.label = e.label
          · obtain ⟨b, hlast, hmerge⟩ := hmerge
            obtain ⟨zs, rfl⟩ := List.getLast?_eq_some_iff.mp hlast
            have hwidened := h.step (by
              rw [List.append_assoc]
              exact Layout.Step.setHi zs b (e :: rest) spares e.hi)
            rw [List.append_cons] at hwidened
            have hjoined := hwidened.step (Layout.Step.retire _ e rest spares)
            rw [hlast, joinEdits_of_merge hmerge, lastSlot_append, lastSlot_cons, lastSlot_nil,
              h.joinBefore_of_merge hmerge]
            simp only [ok_bind]
            split
            · rfl
            · have hrest := ih hjoined hsteps
              rw [List.getLast?_append, List.getLast?_singleton, Option.some_or] at hrest
              exact hrest
          · have hapart : ∀ b ∈ xs.getLast?, ¬ (Adjacent b.hi e.lo ∧ b.label = e.label) :=
              fun b hb hboth => hmerge ⟨b, hb, hboth⟩
            rw [joinEdits_of_apart hapart, h.joinBefore_of_apart hapart]
            simp only [ok_bind]
            split
            · rfl
            · rw [List.append_cons] at h
              have hrest := ih h hsteps
              rw [List.getLast?_append, List.getLast?_singleton, Option.some_or] at hrest
              exact hrest

/-! ### The passes over a map -/

omit [Scale α] in
theorem firstSlot_from (h : m.Holds ⟨xs ++ es, spares⟩) :
    ((xs.getLast?.map Entry.slot).or m.chain.head) = firstSlot (xs.getLast?.toList ++ es) none := by
  rw [h.chain.threads.1]
  rcases List.eq_nil_or_concat xs with rfl | ⟨zs, l, rfl⟩ <;> simp

omit [Scale α] in
theorem holds_from (h : m.Holds ⟨xs ++ es, spares⟩) :
    m.Holds ⟨xs.dropLast ++ (xs.getLast?.toList ++ es), spares⟩ := by
  rcases List.eq_nil_or_concat xs with rfl | ⟨zs, l, rfl⟩
  · exact h
  · simpa using h

theorem prune_eq (h : m.Holds ⟨xs ++ es, spares⟩) :
    Stepwise.prune m (xs.getLast?.map Entry.slot) hi =
      .ok (m.prune (xs.getLast?.map Entry.slot) hi) := by
  have hnodup := (List.nodup_append.mp h.chain.nodup).1
  have hlength := h.holds_from.chain.length_le
  rw [List.length_append] at hlength
  rw [Stepwise.prune, h.firstSlot_from, h.holds_from.pruneFrom_eq (by omega), WorthMap.prune,
    h.entries_eq, splitAtSlot_getLast? xs es hnodup]

theorem join_eq (h : m.Holds ⟨xs ++ es, spares⟩) :
    Stepwise.join m (xs.getLast?.map Entry.slot) hi =
      .ok (m.join (xs.getLast?.map Entry.slot) hi) := by
  have hnodup := (List.nodup_append.mp h.chain.nodup).1
  have hlength := h.holds_from.chain.length_le
  rw [List.length_append] at hlength
  rw [Stepwise.join, h.firstSlot_from, h.holds_from.joinFrom_eq (by omega), WorthMap.join,
    h.entries_eq, splitAtSlot_getLast? xs es hnodup]

end Holds

end WorthMap

end RangeSets
