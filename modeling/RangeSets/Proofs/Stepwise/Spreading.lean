import RangeSets.Proofs.Stepwise.Table
import RangeSets.Proofs.WorthMap.Overflow
/-!
# Spreading a worth, access by access

The first pass of an addition with a cursor and the value that it has come to. New ranges are put in
before and behind the slot that the cursor stands on, so the slots that it comes to are those that were
there before: the link to the next one is read when the work on a slot is done. The pass comes to an end
after at most as many slots as there were, and if it stops, then at a sum that is no worth.
-/

namespace RangeSets

open Scale

namespace Stepwise

variable {α : Type} [Scale α]

/-- Fills the gap between `lo` and a range that begins above it. -/
def fillGap (m : WorthMap α) (i : Nat) (lo first : α) (added : Worth) : Except Stop (WorthMap α) :=
  if lo < first then putBefore m (some i) lo (prev first) added else .ok m

/-- Cuts off what a range has below `lo`. That part keeps the worth. -/
def cutBelow (m : WorthMap α) (i : Nat) (lo first : α) : Except Stop (WorthMap α) :=
  if first < lo then do
    let worth ← readWorth m i
    let kept ← putBefore m (some i) first (prev lo) worth
    setLo kept i lo
  else .ok m

/-- Cuts off what a range has above `hi`. That part keeps the worth. -/
def cutAbove (m : WorthMap α) (i : Nat) (hi last : α) : Except Stop (WorthMap α) :=
  if hi < last then do
    let worth ← readWorth m i
    let kept ← putAfter m (some i) (next hi) last worth
    setHi kept i hi
  else .ok m

/-- What the first pass does at one range, whose bounds are known. -/
def spreadOver (m : WorthMap α) (lo hi : α) (added : Worth) (i : Nat) (r : Span α) :
    Except Stop (WorthMap α) := do
  let filled ← fillGap m i lo r.lo added
  let headed ← cutBelow filled i (if lo < r.lo then r.lo else lo) r.lo
  let cut ← cutAbove headed i hi r.hi
  addWorth cut i added

def spreadFrom (hi : α) (added : Worth) :
    Nat → WorthMap α → α → Option Nat → Except Stop (WorthMap α)
  | _, m, lo, none => putBefore m none lo hi added
  | 0, _, _, some _ => .error (.breach .endless)
  | steps + 1, m, lo, some i => do
      let s ← readSlot m.chain i
      if hi < s.lo then putBefore m (some i) lo hi added
      else
        let raised ← spreadOver m lo hi added i ⟨s.lo, s.hi⟩
        if hi < s.hi then return raised
        else if hi ≤ s.hi then return raised
        else spreadFrom hi added steps raised (next s.hi) (← following raised.chain (some i))

end Stepwise

namespace WorthMap.Holds

open Stepwise Worth

variable {α : Type} [Scale α] {m : WorthMap α} {lo hi : α} {added : Worth}
  {xs ys : List (Entry α Worth)} {e : Entry α Worth} {spares : List Nat}

/-! ### One range -/

theorem fillGap_eq (h : m.Holds ⟨xs ++ e :: ys, spares⟩) (lo : α) (added : Worth) :
    fillGap m e.slot lo e.lo added =
      .ok (m.applyAll (if lo < e.lo then [.placeBefore (some e.slot) lo (prev e.lo) added] else [])) := by
  rw [fillGap]
  split
  · exact h.putBefore_eq lo (prev e.lo) added
  · rfl

theorem cutBelow_eq (h : m.Holds ⟨xs ++ e :: ys, spares⟩) (lo : α) :
    cutBelow m e.slot lo e.lo = .ok (m.applyAll (if e.lo < lo then
      [.placeBefore (some e.slot) e.lo (prev lo) e.label, .setLo e.slot lo] else [])) := by
  rw [cutBelow, h.readWorth_eq (by simp)]
  split
  · have hput := h.putBefore_eq e.lo (prev lo) e.label
    have hplaced := h.step (Layout.Step.placeBefore xs (e :: ys) spares e.lo (prev lo) e.label)
    rw [firstSlot_cons] at hput hplaced
    rw [List.append_cons] at hplaced
    simp only [ok_bind, hput, hplaced.setLo_eq, applyAll_cons, applyAll_nil]
  · rfl

theorem cutAbove_eq (h : m.Holds ⟨xs ++ e :: ys, spares⟩) (hi : α) :
    cutAbove m e.slot hi e.hi = .ok (m.applyAll (if hi < e.hi then
      [.placeAfter (some e.slot) (next hi) e.hi e.label, .setHi e.slot hi] else [])) := by
  rw [cutAbove, h.readWorth_eq (by simp)]
  split
  · have hbehind : m.Holds ⟨(xs ++ [e]) ++ ys, spares⟩ := by simpa using h
    have hput := hbehind.putAfter_eq (next hi) e.hi e.label
    obtain ⟨n, hplaced⟩ := Layout.Step.placeAfter_entry xs e ys spares (next hi) e.hi e.label
    have hplaced := h.step hplaced
    rw [lastSlot_append, lastSlot_cons, lastSlot_nil] at hput
    rw [List.append_assoc, List.cons_append] at hplaced
    simp only [ok_bind, hput, hplaced.setHi_eq, applyAll_cons, applyAll_nil]
  · rfl

theorem spreadOver_eq (h : m.Holds ⟨xs ++ e :: ys, spares⟩) (lo hi : α) (added : Worth) :
    spreadOver m lo hi added e.slot ⟨e.lo, e.hi⟩ =
      match add? e.label added with
      | some sum => .ok (m.applyAll (entryEdits lo hi added sum e))
      | none => .error (.fault (.sum e.label added)) := by
  obtain ⟨gs, sparesGap, hgap, _⟩ := steps_gap xs e ys spares lo hi added
  obtain ⟨hs, sparesHead, hhead, _⟩ := steps_head (xs ++ gs) e ys sparesGap (entryPoint lo e)
  obtain ⟨ts, rest, htail, _⟩ := steps_tail (xs ++ gs ++ hs)
    { e with lo := if e.lo < entryPoint lo e then entryPoint lo e else e.lo } ys sparesHead hi
  have hfilled := h.steps hgap
  have hheaded := hfilled.steps hhead
  have hcut := hheaded.steps htail
  have hbelow := hfilled.cutBelow_eq (entryPoint lo e)
  have habove := hheaded.cutAbove_eq hi
  have hadd := hcut.addWorth_eq added
  rw [entryPoint] at hbelow
  rw [spreadOver, h.fillGap_eq lo added]
  simp only [ok_bind]
  rw [hbelow]
  simp only [ok_bind]
  rw [← entryPoint, habove]
  simp only [ok_bind]
  rw [hadd]
  cases add? e.label added with
  | none => rfl
  | some sum => simp only [entryEdits, applyAll_append, applyAll_cons, applyAll_nil]

/-! ### The pass -/

theorem spreadFrom_above {steps : Nat} (h : m.Holds ⟨xs ++ ys, spares⟩)
    (habove : ∀ y ∈ ys, hi < y.lo) (hsteps : ys.length ≤ steps) (lo : α) (added : Worth) :
    spreadFrom hi added steps m lo (firstSlot ys none) =
      .ok (m.apply (.placeBefore (firstSlot ys none) lo hi added)) := by
  have hput := h.putBefore_eq lo hi added
  cases ys with
  | nil => cases steps <;> exact hput
  | cons y rest =>
      cases steps with
      | zero => simp at hsteps
      | succ steps =>
          rw [firstSlot_cons] at hput ⊢
          rw [spreadFrom, h.chain.readSlot_eq]
          simp only [ok_bind]
          rw [if_pos (habove y (by simp))]
          exact hput

/-- The pass makes the edits of the plan, or it stops at the fault of the plan. -/
theorem spreadFrom_eq {ts : List (Entry α Worth)} {steps : Nat}
    (h : m.Holds ⟨xs ++ (ts ++ ys), spares⟩) (hts : Ordered (ts.map Entry.block))
    (hhi : Comparable hi) (htouch : ∀ t ∈ ts, place t.lo ≤ place hi)
    (habove : ∀ y ∈ ys, hi < y.lo) (hsteps : (ts ++ ys).length ≤ steps) (lo : α) (added : Worth) :
    spreadFrom hi added steps m lo (firstSlot (ts ++ ys) none) =
      ((spreadEdits (firstSlot ys none) hi added lo ts).map m.applyAll).mapError .fault := by
  induction ts generalizing m lo xs spares steps with
  | nil => exact h.spreadFrom_above habove hsteps lo added
  | cons t rest ih =>
      obtain ⟨htouchFirst, htouchRest⟩ := List.forall_mem_cons.mp htouch
      rw [List.cons_append] at h hsteps ⊢
      cases steps with
      | zero => simp at hsteps
      | succ steps =>
          rw [firstSlot_cons, spreadFrom, h.chain.readSlot_eq]
          simp only [ok_bind]
          rw [if_neg (not_lt_of_touched hts hhi htouchFirst), h.spreadOver_eq]
          cases hsum : add? t.label added with
          | none =>
              rw [spreadEdits_of_none hsum]
              rfl
          | some sum =>
              rw [spreadEdits_of_some hsum]
              simp only [ok_bind]
              by_cases hlast : hi ≤ t.hi
              · simp only [if_pos hlast, ite_self]
                rfl
              · have hnot : ¬ hi < t.hi := fun hlt => by
                  obtain ⟨_, htHi, hplace⟩ := lt_iff.mp hlt
                  exact hlast ((le_iff_place hhi htHi).mpr (Int.le_of_lt hplace))
                obtain ⟨fs, outs, spares', hsteps', _, houts⟩ :=
                  steps_entryEdits xs t (rest ++ ys) spares lo hi added sum
                rw [Block.above_of_not_lt hnot, List.map_eq_nil_iff] at houts
                subst houts
                have hraised := h.steps hsteps'
                have hnext := hraised.chain.following_eq
                simp only [lastSlot_append, lastSlot_cons, lastSlot_nil, middle] at hnext
                rw [if_neg hnot, if_neg hlast, hnext]
                simp only [ok_bind]
                rw [ih hraised hts.tail htouchRest (by simpa using hsteps), if_neg hlast]
                cases spreadEdits (firstSlot ys none) hi added (next t.hi) rest with
                | error fault => rfl
                | ok more => exact congrArg Except.ok (applyAll_append ..).symm

end WorthMap.Holds

end RangeSets
