import RangeSets.Proofs.Chain.Bounds
import RangeSets.Proofs.RangeSet.Adding
import RangeSets.Proofs.Stepwise.Search
/-!
# Adding a range, access by access

A cursor goes over the ranges that are touched, gives each of them back and remembers what it has seen:
where the part of the range begins that is not covered so far, the gaps, and where the joined range
ends. The joined range goes behind the slot that came before the first one touched, which was remembered
before that slot was given back. Neighbours that it comes right next to are taken in last, each by
widening the new range and giving the neighbour back.

The cursor moves on before the slot that it stood on is given back. The slots behind are not affected by
that, and they are in the layout still, so that the cursor never stands on a spare slot.
-/

namespace RangeSets

open Scale

namespace Stepwise

variable {α : Type} [Scale α]

/-- What the cursor has come to. -/
structure Merging (α : Type) where
  chain : Chain α
  /-- The end of the joined range. -/
  last : α
  /-- Where the part that is not covered so far begins. -/
  uncovered? : Option α
  gained : List (Span α)

/-- The part up to `hi` that was left uncovered. -/
def remainder (hi : α) (uncovered? : Option α) : List (Span α) :=
  match uncovered? with
  | some lo => [⟨lo, hi⟩]
  | none => []

def mergeFrom (hi : α) : Nat → Merging α → Option Nat → Except Stop (Merging α)
  | _, m, none => .ok m
  | 0, _, some _ => .error (.breach .endless)
  | steps + 1, m, some i => do
      let s ← readSlot m.chain i
      if hi < s.lo then return m
      else
        let gap := match m.uncovered? with
          | some lo => if lo < s.lo then [⟨lo, prev s.lo⟩] else []
          | none => []
        let rest ← release m.chain i
        if s.hi < hi then
          mergeFrom hi steps ⟨rest, m.last, some (next s.hi), m.gained ++ gap⟩ s.next
        else mergeFrom hi steps ⟨rest, s.hi, none, m.gained ++ gap⟩ s.next

/-- Replaces the touched ranges, from a slot on, by one range joined of them all. -/
def mergeOverlapping (c : Chain α) (first : Nat) (lo hi : α) :
    Except Stop (Chain α × Nat × List (Span α)) := do
  let s ← readSlot c first
  let m ← mergeFrom hi c.slots.size ⟨c, hi, some lo, []⟩ (some first)
  let (placed, i) ← insertAfter m.chain s.prev (lowerOf lo s.lo) m.last
  return (placed, i, m.gained ++ remainder hi m.uncovered?)

/-- Puts a range that touches none before a slot, or behind all. -/
def insertApart (c : Chain α) (slot? : Option Nat) (lo hi : α) :
    Except Stop (Chain α × Nat × List (Span α)) := do
  let (placed, i) ← insertBefore c slot? lo hi
  return (placed, i, [⟨lo, hi⟩])

/-- Puts a range in, joined with what it touches, and says in which slot and what was gained. -/
def insertJoined (c : Chain α) (lo hi : α) : Except Stop (Chain α × Nat × List (Span α)) := do
  match ← firstReaching c lo with
  | some i =>
      let s ← readSlot c i
      if s.lo ≤ hi then mergeOverlapping c i lo hi else insertApart c (some i) lo hi
  | none => insertApart c none lo hi

/-- Takes in the range before a slot if it comes right before it. -/
def absorbLower (c : Chain α) (i : Nat) : Except Stop (Chain α) := do
  let s ← readSlot c i
  match s.prev with
  | some b =>
      let t ← readSlot c b
      if Adjacent t.hi s.lo then
        let widened ← writeSlot c i fun s => { s with lo := t.lo }
        release widened b
      else return c
  | none => return c

/-- Takes in the range behind a slot if it comes right behind it. -/
def absorbUpper (c : Chain α) (i : Nat) : Except Stop (Chain α) := do
  let s ← readSlot c i
  match s.next with
  | some b =>
      let t ← readSlot c b
      if Adjacent s.hi t.lo then
        let widened ← writeSlot c i fun s => { s with hi := t.hi }
        release widened b
      else return c
  | none => return c

def add (s : RangeSet α) (lo hi : α) : Except Stop (RangeSet α × List (Change α)) :=
  if lo ≤ hi then do
    let (placed, i, gained) ← insertJoined s.chain lo hi
    let lowered ← absorbLower placed i
    let joined ← absorbUpper lowered i
    return (⟨joined⟩, gained.map .gained)
  else .ok (s, [])

end Stepwise

/-! ### The ranges that are touched -/

namespace Chain.Holds

open Stepwise RangeSet Layout

variable {α : Type} [Scale α] {c : Chain α} {lo hi : α} {xs ys : List (Entry α Unit)}
  {spares : List Nat}

/-- The loop ends at the first entry above the range, or behind all. -/
theorem mergeFrom_above {m : Merging α} {steps : Nat} (h : m.chain.Holds ⟨xs ++ ys, spares⟩)
    (habove : ∀ y ∈ ys, hi < y.lo) (hsteps : ys.length ≤ steps) :
    mergeFrom hi steps m (firstSlot ys none) = .ok m := by
  cases ys with
  | nil => cases steps <;> rfl
  | cons y rest =>
      cases steps with
      | zero => simp at hsteps
      | succ steps =>
          rw [firstSlot_cons, mergeFrom, h.readSlot_eq]
          simp only [ok_bind]
          rw [if_pos (habove y (by simp))]
          rfl

/-- The loop gives back the touched entries. What it remembers are the gaps between them and the end of
the range joined with them. -/
theorem mergeFrom_eq {ts : List (Entry α Unit)} {steps : Nat}
    (h : c.Holds ⟨xs ++ (ts ++ ys), spares⟩) (hts : Ordered (ts.map Entry.block))
    (hhi : Comparable hi) (htouch : ∀ t ∈ ts, place t.lo ≤ place hi)
    (habove : ∀ y ∈ ys, hi < y.lo) (hsteps : (ts ++ ys).length ≤ steps) (lo : α)
    (gained : List (Span α)) :
    ∃ uncovered? told, mergeFrom hi steps ⟨c, hi, some lo, gained⟩ (firstSlot (ts ++ ys) none) =
        .ok ⟨c.applyAll (ts.map fun t => (.retire t.slot : Edit α Unit)), joinedHi hi ts, uncovered?,
          told⟩ ∧
      told ++ remainder hi uncovered? = gained ++ gaps lo hi ts := by
  induction ts generalizing c spares lo gained steps with
  | nil => exact ⟨some lo, gained, mergeFrom_above h habove hsteps, rfl⟩
  | cons t rest ih =>
      obtain ⟨htouchFirst, htouchRest⟩ := List.forall_mem_cons.mp htouch
      rw [List.cons_append] at h hsteps ⊢
      cases steps with
      | zero => simp at hsteps
      | succ steps =>
          have hsteps : (rest ++ ys).length ≤ steps := by simpa using hsteps
          rw [firstSlot_cons, mergeFrom, h.readSlot_eq]
          simp only [ok_bind]
          rw [if_neg (not_lt_of_touched hts hhi htouchFirst), h.release_eq]
          simp only [ok_bind]
          by_cases hend : t.hi < hi
          · obtain ⟨uncovered?, told, hmerge, htold⟩ := ih h.retire hts.tail htouchRest
              hsteps (next t.hi) (gained ++ if lo < t.lo then [⟨lo, prev t.lo⟩] else [])
            have hjoined : joinedHi hi (t :: rest) = joinedHi hi rest := by
              cases rest with
              | nil => simp [joinedHi, higherOf, hend]
              | cons d ds => rfl
            refine ⟨uncovered?, told, ?_, ?_⟩
            · rw [if_pos hend, hmerge, hjoined]
              rfl
            · rw [htold, gaps, if_pos hend, List.append_assoc]
          · have hproper : t.lo ≤ t.hi := hts.proper t.block (by simp)
            have hreach : place hi ≤ place t.hi := by
              rw [lt_iff_place (le_iff.mp hproper).2.1 hhi] at hend
              omega
            obtain rfl := eq_nil_of_reaches hts hreach htouchRest
            have hjoined : joinedHi hi [t] = t.hi := by simp [joinedHi, higherOf, hend]
            refine ⟨none, gained ++ if lo < t.lo then [⟨lo, prev t.lo⟩] else [], ?_, ?_⟩
            · rw [if_neg hend, hjoined]
              exact mergeFrom_above h.retire habove hsteps
            · rw [gaps, if_neg hend, remainder, List.append_nil]

/-! ### The joined range -/

omit [Scale α] in
theorem insertApart_eq (h : c.Holds ⟨xs ++ ys, spares⟩) (lo hi : α) :
    insertApart c (firstSlot ys none) lo hi = .ok
      (c.placeBefore (firstSlot ys none) lo hi, Layout.nextSlot ⟨xs ++ ys, spares⟩, [⟨lo, hi⟩]) := by
  rw [insertApart, h.insertBefore_eq, h.nextSlot_eq]
  rfl

theorem mergeOverlapping_eq {t : Entry α Unit} {ts : List (Entry α Unit)}
    (h : c.Holds ⟨xs ++ (t :: ts ++ ys), spares⟩) (hts : Ordered ((t :: ts).map Entry.block))
    (hhi : Comparable hi) (htouch : ∀ d ∈ t :: ts, place d.lo ≤ place hi)
    (habove : ∀ y ∈ ys, hi < y.lo) (lo : α) :
    mergeOverlapping c t.slot lo hi = .ok
      ((c.applyAll ((t :: ts).map fun t => (.retire t.slot : Edit α Unit))).placeAfter
          (lastSlot none xs) (joinedLo lo (t :: ts)) (joinedHi hi (t :: ts)),
        Layout.nextSlot ⟨xs ++ ys, sparesAfter (t :: ts) spares⟩, gaps lo hi (t :: ts)) := by
  have hsteps : (t :: ts ++ ys).length ≤ c.slots.size := by
    have := h.length_le
    simp only [List.length_append] at this ⊢
    omega
  have hread : c.Holds ⟨xs ++ t :: (ts ++ ys), spares⟩ := h
  obtain ⟨uncovered?, told, hmerge, htold⟩ :=
    h.mergeFrom_eq hts hhi htouch habove hsteps lo []
  have hretired : (c.applyAll ((t :: ts).map fun t => (.retire t.slot : Edit α Unit))).Holds
      ⟨xs ++ ys, sparesAfter (t :: ts) spares⟩ := by
    have hall := Steps.retire_all xs (t :: ts) ys spares
    rw [List.append_assoc] at hall
    exact h.steps hall
  rw [List.cons_append, firstSlot_cons] at hmerge
  rw [mergeOverlapping, hread.readSlot_eq]
  simp only [ok_bind]
  rw [hmerge]
  simp only [ok_bind]
  rw [hretired.insertAfter_eq, hretired.nextSlot_eq, htold]
  rfl

/-- A range that is put in goes where the plan to add it says, and gains what the plan says. -/
theorem insertJoined_eq {cut : Cut α Unit}
    (h : c.Holds ⟨cut.below ++ cut.touched ++ cut.above, spares⟩) (hle : lo ≤ hi)
    (hes : Ordered ((cut.below ++ cut.touched ++ cut.above).map Entry.block))
    (hfits : cut.Fits lo hi (cut.below ++ cut.touched ++ cut.above))
    (hreached : (cut.below ++ cut.touched ++ cut.above).dropWhile (fun e => e.EndsBelow lo) =
      cut.touched ++ cut.above) :
    insertJoined c lo hi = .ok
      (c.applyAll (joinEdits cut (joinedLo lo cut.touched) (joinedHi hi cut.touched)),
        Layout.nextSlot ⟨cut.below ++ cut.above, sparesAfter cut.touched spares⟩,
        gaps lo hi cut.touched) := by
  obtain ⟨hlo, hhi, _⟩ := le_iff.mp hle
  have habove := hfits.lt_above hes hhi
  have htouched := hfits.ordered_touched hes
  rw [insertJoined, h.firstReaching_eq, hreached]
  simp only [ok_bind]
  obtain ⟨below, touched, above⟩ := cut
  rw [List.append_assoc] at h
  cases touched with
  | nil =>
      have hapart := h.insertApart_eq lo hi
      rw [List.nil_append] at hapart
      cases above with
      | nil => exact hapart
      | cons y rest =>
          have hnot : ¬ y.lo ≤ hi := by
            intro hle
            have := (lt_iff.mp (habove y (by simp))).2.2
            have := (le_iff.mp hle).2.2
            omega
          simp only [List.nil_append, firstSlot_cons]
          rw [Chain.Holds.readSlot_eq h]
          simp only [ok_bind]
          rw [if_neg hnot]
          exact hapart
  | cons t ts =>
      have htLo : Comparable t.lo := (le_iff.mp (htouched.proper t.block (by simp))).1
      have hbegins : t.lo ≤ hi := (le_iff_place htLo hhi).mpr (hfits.touched t (by simp)).2
      have hmerge := h.mergeOverlapping_eq htouched hhi
        (fun d hd => (hfits.touched d hd).2) habove lo
      simp only [List.cons_append, firstSlot_cons]
      rw [Chain.Holds.readSlot_eq h]
      simp only [ok_bind]
      rw [if_pos hbegins, hmerge]
      simp only [joinEdits, ← lastSlot_eq_getLast?, Chain.applyAll, List.foldl_append]
      rfl

/-! ### Neighbours taken in -/

/-- The edits that widen the range in a slot to the range below it, which is given back. -/
def lowerEdits (i : Nat) (lower? : Option (Entry α Unit)) : List (Edit α Unit) :=
  match lower? with
  | some l => [.setLo i l.lo, .retire l.slot]
  | none => []

def upperEdits (i : Nat) (upper? : Option (Entry α Unit)) : List (Edit α Unit) :=
  match upper? with
  | some u => [.setHi i u.hi, .retire u.slot]
  | none => []

theorem absorbLower_eq {e : Entry α Unit} (h : c.Holds ⟨xs ++ e :: ys, spares⟩) :
    absorbLower c e.slot = .ok (c.applyAll (lowerEdits e.slot (lower? e.lo xs))) ∧
      ∃ zs d rest, (c.applyAll (lowerEdits e.slot (lower? e.lo xs))).Holds ⟨zs ++ d :: ys, rest⟩ ∧
        d.slot = e.slot ∧ d.hi = e.hi := by
  rw [absorbLower, h.readSlot_eq]
  simp only [ok_bind]
  rcases List.eq_nil_or_concat xs with rfl | ⟨zs, l, rfl⟩
  · exact ⟨rfl, [], e, spares, h, rfl, rfl⟩
  · rw [List.concat_eq_append] at h ⊢
    have hlower : c.Holds ⟨zs ++ l :: ([] ++ e :: ys), spares⟩ := by simpa using h
    have hfound : lower? e.lo (zs ++ [l]) = if Adjacent l.hi e.lo then some l else none := by
      simp [lower?, Option.filter_some]
    simp only [lastSlot_append, lastSlot_cons, lastSlot_nil, hlower.readSlot_eq, ok_bind, hfound]
    split
    · have hwidened := h.step (Step.setLo (zs ++ [l]) e ys spares l.lo)
      rw [List.append_assoc] at hwidened
      rw [writeSlot_eq h.slot_lt]
      simp only [ok_bind]
      exact ⟨hwidened.release_eq, zs, { e with lo := l.lo }, l.slot :: spares, hwidened.retire, rfl,
        rfl⟩
    · exact ⟨rfl, zs ++ [l], e, spares, h, rfl, rfl⟩

theorem absorbUpper_eq {e : Entry α Unit} (h : c.Holds ⟨xs ++ e :: ys, spares⟩) :
    absorbUpper c e.slot = .ok (c.applyAll (upperEdits e.slot (upper? e.hi ys))) := by
  rw [absorbUpper, h.readSlot_eq]
  simp only [ok_bind]
  cases ys with
  | nil => rfl
  | cons u rest =>
      have hupper : c.Holds ⟨(xs ++ [e]) ++ u :: rest, spares⟩ := by simpa using h
      have hfound : upper? e.hi (u :: rest) = if Adjacent e.hi u.lo then some u else none := by
        simp [upper?, Option.filter_some]
      simp only [firstSlot_cons, hupper.readSlot_eq, ok_bind, hfound]
      split
      · have hwidened := h.step (Step.setHi xs e (u :: rest) spares u.hi)
        rw [writeSlot_eq h.slot_lt]
        simp only [ok_bind]
        have hlast : (c.modify e.slot fun s => { s with hi := u.hi }).Holds
            ⟨(xs ++ [{ e with hi := u.hi }]) ++ u :: rest, spares⟩ := by
          rw [List.append_assoc]
          exact hwidened
        exact hlast.release_eq
      · rfl

/-! ### The whole addition -/

omit [Scale α] in
/-- Putting a range in and then setting its bounds puts it in with these bounds. -/
theorem joinEdits_bounds {cut : Cut α Unit} {first last lo' hi' : α} {f : Slot α → Slot α}
    (h : c.Holds ⟨cut.below ++ cut.touched ++ cut.above, spares⟩) (hf : Slot.KeepsLinks f)
    (hbounds : ∀ prev? next?, f ⟨first, last, prev?, next?⟩ = ⟨lo', hi', prev?, next?⟩) :
    (c.applyAll (joinEdits cut first last)).modify
        (Layout.nextSlot ⟨cut.below ++ cut.above, sparesAfter cut.touched spares⟩) f =
      c.applyAll (joinEdits cut lo' hi') := by
  obtain ⟨below, touched, above⟩ := cut
  cases touched with
  | nil =>
      have hnext : Layout.nextSlot ⟨below ++ above, sparesAfter ([] : List (Entry α Unit)) spares⟩ =
          c.nextSlot := by
        rw [h.nextSlot_eq, List.append_nil]
        rfl
      rw [hnext]
      exact placeBetween_modify hf (fun i hi => h.spare_lt hi) _ _ (hbounds _ _)
  | cons t ts =>
      have hretired := h.steps (Steps.retire_all below (t :: ts) above spares)
      have hnext : Layout.nextSlot ⟨below ++ above, sparesAfter (t :: ts) spares⟩ =
          (c.applyAll ((t :: ts).map fun t => (.retire t.slot : Edit α Unit))).nextSlot :=
        hretired.nextSlot_eq.symm
      rw [hnext]
      simp only [joinEdits, Chain.applyAll, List.foldl_append]
      exact placeBetween_modify hf (fun i hi => hretired.spare_lt hi) _ _ (hbounds _ _)

/-- Taking in the neighbours after a range was put in comes to the edits of the plan, which puts it in
with its final bounds. -/
theorem applyAll_absorbed {cut : Cut α Unit} {n : Nat}
    (h : c.Holds ⟨cut.below ++ cut.touched ++ cut.above, spares⟩) (first last : α)
    (hn : n = Layout.nextSlot ⟨cut.below ++ cut.above, sparesAfter cut.touched spares⟩) :
    (c.applyAll (joinEdits cut first last)).applyAll
        (lowerEdits n (lower? first cut.below) ++ upperEdits n (upper? last cut.above)) =
      c.applyAll (joinEdits cut (RangeSet.least first cut.below) (RangeSet.most last cut.above) ++
        ((lower? first cut.below).toList ++ (upper? last cut.above).toList).map fun e =>
          .retire e.slot) := by
  have hlo : ∀ lo', (c.applyAll (joinEdits cut first last)).modify n (fun s => { s with lo := lo' }) =
      c.applyAll (joinEdits cut lo' last) := by
    intro lo'
    rw [hn]
    exact h.joinEdits_bounds (Slot.keepsLinks_setLo lo') fun _ _ => rfl
  have hhi : ∀ lo' hi', (c.applyAll (joinEdits cut lo' last)).modify n (fun s => { s with hi := hi' }) =
      c.applyAll (joinEdits cut lo' hi') := by
    intro lo' hi'
    rw [hn]
    exact h.joinEdits_bounds (Slot.keepsLinks_setHi hi') fun _ _ => rfl
  unfold RangeSet.least RangeSet.most
  rw [applyAll_append, applyAll_append]
  cases lower? first cut.below with
  | none =>
      cases upper? last cut.above with
      | none => rfl
      | some u =>
          have hwidened := hhi first u.hi
          exact congrArg (fun d : Chain α => d.retire u.slot) hwidened
  | some l =>
      cases upper? last cut.above with
      | none =>
          have hwidened := hlo l.lo
          exact congrArg (fun d : Chain α => d.retire l.slot) hwidened
      | some u =>
          have hretire := retire_modify (n := n) (Slot.keepsLinks_setHi u.hi)
            (c.applyAll (joinEdits cut l.lo last)) l.slot
          have hwidened : ((c.applyAll (joinEdits cut first last)).modify n
              fun s => { s with lo := l.lo }).retire l.slot =
              (c.applyAll (joinEdits cut l.lo last)).retire l.slot := by
            rw [hlo]
          simp only [lowerEdits, upperEdits, applyAll_cons, applyAll_nil, Chain.apply, hwidened,
            Option.map_some, Option.getD_some, Option.toList_some, List.singleton_append,
            List.map_cons, List.map_nil, ← hretire, hhi]

end Chain.Holds

namespace RangeSet.Represents

open Stepwise Layout

variable {α : Type} [Scale α] {s : RangeSet α} {p : Layout α Unit}

/-- A range is added without a breach, and what comes of it is the planned addition. -/
theorem add_ok (h : s.Represents p) (lo hi : α) : Stepwise.add s lo hi = .ok (s.add lo hi) := by
  by_cases hle : lo ≤ hi
  · have hfits := Cut.of_fits h.ascending.ordered hle
    have hreached := Cut.reached_eq lo hi p.entries
    rw [Stepwise.add, if_pos hle, RangeSet.add, perform, addPlan, if_pos hle, h.entries_eq]
    generalize Cut.of lo hi p.entries = cut at hfits hreached ⊢
    obtain ⟨es, spares⟩ := p
    obtain rfl : es = cut.below ++ cut.touched ++ cut.above := hfits.entries_eq
    have hholds := h.holds
    have hordered := h.ascending.ordered
    rw [hholds.insertJoined_eq hle hordered hfits hreached]
    simp only [ok_bind]
    have hplaced := hholds.steps (steps_joinEdits cut spares (joinedLo lo cut.touched)
      (joinedHi hi cut.touched))
    obtain ⟨hlower, zs, d, rest, hlowered, hslot, hhi⟩ := hplaced.absorbLower_eq
    have hupper := hlowered.absorbUpper_eq
    have habsorbed := hholds.applyAll_absorbed (joinedLo lo cut.touched)
      (joinedHi hi cut.touched) rfl
    rw [Chain.applyAll_append] at habsorbed
    rw [hslot, hhi] at hupper
    rw [hlower]
    simp only [ok_bind]
    rw [hupper]
    simp only [ok_bind]
    rw [habsorbed]
    rfl
  · rw [Stepwise.add, if_neg hle, RangeSet.add, addPlan, if_neg hle]
    rfl

end RangeSet.Represents

end RangeSets
