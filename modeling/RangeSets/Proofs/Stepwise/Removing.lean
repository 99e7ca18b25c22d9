import RangeSets.Proofs.RangeSet.Removing
import RangeSets.Proofs.Stepwise.Search
/-!
# Removing a range, access by access

A cursor goes over the ranges that are touched. It looks up what comes next before the range under it is
cut or given back, and it stops behind a range that was cut in two, since the range that is removed ends
within it.
-/

namespace RangeSets

open Scale

namespace Stepwise

variable {α : Type} [Scale α]

/-- Takes the values from `lo` to `hi` out of the range in a slot, whose bounds are known. -/
def carve (c : Chain α) (lo hi : α) (i : Nat) (r : Span α) : Except Stop (Chain α) :=
  if r.lo < lo then do
    let cut ← writeSlot c i fun s => { s with hi := prev lo }
    if hi < r.hi then
      let (placed, _) ← insertAfter cut (some i) (next hi) r.hi
      return placed
    else return cut
  else if hi < r.hi then writeSlot c i fun s => { s with lo := next hi }
  else release c i

def carveFrom (lo hi : α) :
    Nat → Chain α → List (Span α) → Option Nat → Except Stop (Chain α × List (Span α))
  | _, c, lost, none => .ok (c, lost)
  | 0, _, _, some _ => .error (.breach .endless)
  | steps + 1, c, lost, some i => do
      let s ← readSlot c i
      if hi < s.lo then return (c, lost)
      else
        let carved ← carve c lo hi i ⟨s.lo, s.hi⟩
        let run : Span α := ⟨if s.lo < lo then lo else s.lo, if hi < s.hi then hi else s.hi⟩
        if s.lo < lo ∧ hi < s.hi then return (carved, lost ++ [run])
        else carveFrom lo hi steps carved (lost ++ [run]) s.next

def remove (s : RangeSet α) (lo hi : α) : Except Stop (RangeSet α × List (Change α)) :=
  if lo ≤ hi then do
    let first? ← firstReaching s.chain lo
    let (carved, lost) ← carveFrom lo hi s.chain.slots.size s.chain [] first?
    return (⟨carved⟩, lost.map .lost)
  else .ok (s, [])

end Stepwise

namespace Chain.Holds

open Stepwise RangeSet Layout

variable {α : Type} [Scale α] {c : Chain α} {lo hi : α} {xs ys : List (Entry α Unit)}
  {e : Entry α Unit} {spares : List Nat}

theorem carve_eq (h : c.Holds ⟨xs ++ e :: ys, spares⟩) (lo hi : α) :
    carve c lo hi e.slot ⟨e.lo, e.hi⟩ = .ok (c.applyAll (carveEdits lo hi e)) := by
  rw [carve, carveEdits]
  split
  · rw [writeSlot_eq h.slot_lt]
    simp only [ok_bind]
    have hcut := h.step (Step.setHi xs e ys spares (prev lo))
    split
    · have hbehind : (c.apply (.setHi e.slot (prev lo) : Edit α Unit)).Holds
          ⟨(xs ++ [{ e with hi := prev lo }]) ++ ys, spares⟩ := by
        rw [List.append_assoc]
        exact hcut
      have hplaced := hbehind.insertAfter_eq (next hi) e.hi
      rw [lastSlot_append, lastSlot_cons, lastSlot_nil] at hplaced
      simp only [Chain.apply] at hplaced
      rw [hplaced]
      rfl
    · rfl
  · split
    · exact writeSlot_eq h.slot_lt _
    · exact h.release_eq

theorem carveFrom_above {lost : List (Span α)} {steps : Nat} (h : c.Holds ⟨xs ++ ys, spares⟩)
    (habove : ∀ y ∈ ys, hi < y.lo) (hsteps : ys.length ≤ steps) :
    carveFrom lo hi steps c lost (firstSlot ys none) = .ok (c, lost) := by
  cases ys with
  | nil => cases steps <;> rfl
  | cons y rest =>
      cases steps with
      | zero => simp at hsteps
      | succ steps =>
          rw [firstSlot_cons, carveFrom, h.readSlot_eq]
          simp only [ok_bind]
          rw [if_pos (habove y (by simp))]
          rfl

/-- The loop makes the edits of the plan, one touched entry after another. -/
theorem carveFrom_eq {ts : List (Entry α Unit)} {lost : List (Span α)} {steps : Nat}
    (h : c.Holds ⟨xs ++ (ts ++ ys), spares⟩) (hts : Ordered (ts.map Entry.block))
    (hhi : Comparable hi) (htouch : ∀ t ∈ ts, place t.lo ≤ place hi)
    (habove : ∀ y ∈ ys, hi < y.lo) (hsteps : (ts ++ ys).length ≤ steps) :
    carveFrom lo hi steps c lost (firstSlot (ts ++ ys) none) = .ok
      (c.applyAll (ts.flatMap (carveEdits lo hi)),
        lost ++ ts.map fun t => ⟨higherOf t.lo lo, lowerOf t.hi hi⟩) := by
  induction ts generalizing c xs spares lost steps with
  | nil =>
      rw [List.map_nil, List.append_nil]
      exact carveFrom_above h habove hsteps
  | cons t rest ih =>
      obtain ⟨htouchFirst, htouchRest⟩ := List.forall_mem_cons.mp htouch
      rw [List.cons_append] at h hsteps ⊢
      cases steps with
      | zero => simp at hsteps
      | succ steps =>
          obtain ⟨es, spares', hcarved, _⟩ := steps_carveEdits lo hi xs t (rest ++ ys) spares
          have hcarved := h.steps hcarved
          rw [firstSlot_cons, carveFrom, h.readSlot_eq]
          simp only [ok_bind]
          rw [if_neg (not_lt_of_touched hts hhi htouchFirst), h.carve_eq]
          simp only [ok_bind]
          split
          · rename_i hsplit
            obtain rfl := eq_nil_of_reaches hts (by have := (lt_iff.mp hsplit.2).2.2; omega) htouchRest
            simp only [List.flatMap_cons, List.flatMap_nil, List.append_nil, List.map_cons,
              List.map_nil]
            rfl
          · have hcarved : (c.applyAll (carveEdits lo hi t)).Holds
                ⟨(xs ++ es) ++ (rest ++ ys), spares'⟩ := hcarved
            rw [ih hcarved hts.tail htouchRest (by simpa using hsteps)]
            simp only [List.flatMap_cons, applyAll_append, List.map_cons, List.append_assoc,
              List.singleton_append]
            rfl

end Chain.Holds

namespace RangeSet.Represents

open Stepwise

variable {α : Type} [Scale α] {s : RangeSet α} {p : Layout α Unit}

/-- A range is removed without a breach, and what comes of it is the planned removal. -/
theorem remove_ok (h : s.Represents p) (lo hi : α) :
    Stepwise.remove s lo hi = .ok (s.remove lo hi) := by
  by_cases hle : lo ≤ hi
  · obtain ⟨hlo, hhi, _⟩ := le_iff.mp hle
    have hfits := Cut.of_fits h.ascending.ordered hle
    have hreached := Cut.reached_eq lo hi p.entries
    rw [Stepwise.remove, if_pos hle, RangeSet.remove, perform, removePlan, if_pos hle, h.entries_eq,
      h.holds.firstReaching_eq, hreached]
    generalize Cut.of lo hi p.entries = cut at hfits hreached ⊢
    obtain ⟨es, spares⟩ := p
    obtain rfl : es = cut.below ++ cut.touched ++ cut.above := hfits.entries_eq
    have hordered := h.ascending.ordered
    have hholds := h.holds
    have hsteps : (cut.touched ++ cut.above).length ≤ s.chain.slots.size := by
      have hlength := hholds.length_le
      simp only [List.length_append] at hlength ⊢
      omega
    rw [List.append_assoc] at hholds
    simp only [ok_bind]
    rw [hholds.carveFrom_eq (hfits.ordered_touched hordered) hhi
      (fun t ht => (hfits.touched t ht).2) (hfits.lt_above hordered hhi) hsteps]
    simp only [ok_bind, List.nil_append, List.map_map]
    rfl
  · rw [Stepwise.remove, if_neg hle, RangeSet.remove, removePlan, if_neg hle]
    rfl

end RangeSet.Represents

end RangeSets
