import RangeSets.Proofs.Stepwise.Questions
import RangeSets.Proofs.Stepwise.Table
import RangeSets.Proofs.WorthMap.Reachable
/-!
# Asking worth maps, access by access

A walk over the ranges of a map reads the worth of each, and so does the cut of a range into pieces,
which goes on from the first range that reaches it. All other questions go through these two, but for
the ends of the map and the worth of a value. Differences of two maps may be faults.
-/

namespace RangeSets

open Scale

namespace WorthMap

inductive Question (α : Type) where
  | count
  | isEmpty
  | min
  | max
  | ranges
  | text
  | contains (v : α)
  | worth (v : α)
  | minWorth (lo hi : α)
  | maxWorth (lo hi : α)

def answer {α : Type} [Scale α] [ToString α] (m : WorthMap α) : Question α → Answer α
  | .count => .number m.count
  | .isEmpty => .flag (decide m.IsEmpty)
  | .min => .value m.min
  | .max => .value m.max
  | .ranges => .pieces m.ranges
  | .text => .text (toString m)
  | .contains v => .flag (decide (m.Contains v))
  | .worth v => .worth (m.worth v)
  | .minWorth lo hi => .worth (m.minWorth lo hi)
  | .maxWorth lo hi => .worth (m.maxWorth lo hi)

end WorthMap

namespace Stepwise

variable {α : Type}

def walkPieces (m : WorthMap α) : Except Stop (List (Piece α)) := do
  let es ← walk m.chain
  es.mapM fun e => (readWorth m e.slot).map fun worth => ⟨e.lo, e.hi, worth⟩

variable [Scale α]

/-- The pieces from `lo` to `hi`, from the range in a slot on. -/
def segmentsFrom (m : WorthMap α) (hi : α) : Nat → α → Option Nat → Except Stop (List (Piece α))
  | _, lo, none => .ok [⟨lo, hi, Worth.zero⟩]
  | 0, _, some _ => .error (.breach .endless)
  | steps + 1, lo, some i => do
      let s ← readSlot m.chain i
      if hi < s.lo then return [⟨lo, hi, Worth.zero⟩]
      else
        let gap := if lo < s.lo then [⟨lo, prev s.lo, Worth.zero⟩] else []
        let worth ← readWorth m i
        if s.hi < hi then
          let more ← segmentsFrom m hi steps (next s.hi) s.next
          return gap ++ ⟨higherOf lo s.lo, s.hi, worth⟩ :: more
        else return gap ++ [⟨higherOf lo s.lo, hi, worth⟩]

def segments (m : WorthMap α) (lo hi : α) : Except Stop (List (Piece α)) :=
  if lo ≤ hi then do
    let first? ← firstReaching m.chain lo
    segmentsFrom m hi m.chain.slots.size lo first?
  else .ok []

def foldWorths (pick : Worth → Worth → Worth) : List Worth → Worth
  | [] => Worth.zero
  | w :: ws => ws.foldl pick w

def minWorth (m : WorthMap α) (lo hi : α) : Except Stop Worth :=
  (segments m lo hi).map fun pieces => foldWorths Worth.min (pieces.map Piece.worth)

def maxWorth (m : WorthMap α) (lo hi : α) : Except Stop Worth :=
  (segments m lo hi).map fun pieces => foldWorths Worth.max (pieces.map Piece.worth)

/-- The values from `lo` to `hi` in pieces of certain worths. -/
def choose (m : WorthMap α) (lo hi : α) (chosen : Worth → Bool) : Except Stop (RangeSet α) := do
  let pieces ← segments m lo hi
  ofSpans ((pieces.filter fun piece => chosen piece.worth).map Piece.span)

def withMinWorth (m : WorthMap α) (lo hi : α) : Except Stop (RangeSet α) := do
  let least ← minWorth m lo hi
  choose m lo hi fun worth => worth = least

def withMaxWorth (m : WorthMap α) (lo hi : α) : Except Stop (RangeSet α) := do
  let greatest ← maxWorth m lo hi
  choose m lo hi fun worth => worth = greatest

def supportWithin (m : WorthMap α) (lo hi : α) : Except Stop (RangeSet α) :=
  choose m lo hi fun worth => worth ≠ Worth.zero

def support (m : WorthMap α) : Except Stop (RangeSet α) := do
  let ranges ← walkPieces m
  ofSpans (ranges.map Piece.span)

def worth (m : WorthMap α) (v : α) : Except Stop Worth := do
  match ← locate m.chain v with
  | .inside i => readWorth m i
  | _ => return Worth.zero

def contains (m : WorthMap α) (v : α) : Except Stop Bool := do
  match ← locate m.chain v with
  | .inside _ => return true
  | _ => return false

/-- Whether two maps are the same. Maps of different counts are not walked over. -/
def sameMap (m n : WorthMap α) : Except Stop Bool :=
  if m.count = n.count then do
    let left ← walkPieces m
    let right ← walkPieces n
    return decide (Span.SameAll (left.map Piece.span) (right.map Piece.span) ∧
      left.map Piece.worth = right.map Piece.worth)
  else .ok false

/-- The difference on a piece to an extreme worth of another map. -/
def differenceOn (extreme : α → α → Except Stop Worth) (piece : Piece α) : Except Stop Worth := do
  let other ← extreme piece.lo piece.hi
  match Worth.sub? piece.worth other with
  | some difference => return difference
  | none => .error (.fault (.difference piece.worth other))

def foldDifferences (m n : WorthMap α) (pick : Worth → Worth → Worth)
    (extreme : α → α → Except Stop Worth) : Except Stop Worth :=
  if m.IsEmpty ∧ n.IsEmpty then .ok Worth.zero
  else do
    let lo := lowerOf (← readLeast m.chain) (← readLeast n.chain)
    let hi := higherOf (← readGreatest m.chain) (← readGreatest n.chain)
    let pieces ← segments m lo hi
    return foldWorths pick (← pieces.mapM (differenceOn extreme))

def minDifference (m n : WorthMap α) : Except Stop Worth :=
  foldDifferences m n Worth.min (maxWorth n)

def maxDifference (m n : WorthMap α) : Except Stop Worth :=
  foldDifferences m n Worth.max (minWorth n)

def answerMap [ToString α] (m : WorthMap α) : WorthMap.Question α → Except Stop (Answer α)
  | .count => .ok (.number m.count)
  | .isEmpty => .ok (.flag (decide m.IsEmpty))
  | .min => (readLeast m.chain).map .value
  | .max => (readGreatest m.chain).map .value
  | .ranges => (walkPieces m).map .pieces
  | .text => (walkPieces m).map fun pieces => .text (braced (pieces.map fun piece =>
      toString piece.span ++ ": " ++ toString piece.worth))
  | .contains v => (contains m v).map .flag
  | .worth v => (worth m v).map .worth
  | .minWorth lo hi => (minWorth m lo hi).map .worth
  | .maxWorth lo hi => (maxWorth m lo hi).map .worth

end Stepwise

/-! ### What is answered -/

namespace WorthMap

open Stepwise

variable {α : Type} [Scale α] {m n : WorthMap α} {p q : Layout α Worth}

theorem Holds.segmentsFrom_ok {xs es : List (Entry α Worth)} {spares : List Nat} {steps : Nat}
    (h : m.Holds ⟨xs ++ es, spares⟩) (hsteps : es.length ≤ steps) (lo hi : α) :
    segmentsFrom m hi steps lo (firstSlot es none) = .ok (piecesAmong lo hi es) := by
  induction es generalizing lo xs steps with
  | nil => cases steps <;> rfl
  | cons e rest ih =>
      cases steps with
      | zero => simp at hsteps
      | succ steps =>
          rw [firstSlot_cons, segmentsFrom, h.chain.readSlot_eq, h.readWorth_eq (by simp),
            piecesAmong]
          rw [List.append_cons] at h
          simp only [ok_bind, ih h (by simpa using hsteps)]
          split
          · rfl
          · split <;> rfl

theorem Holds.segments_ok (h : m.Holds p) (lo hi : α) : segments m lo hi = .ok (m.pieces lo hi) := by
  have hsplit := List.takeWhile_append_dropWhile (p := fun e : Entry α Worth => e.EndsBelow lo)
    (l := p.entries)
  have hlength := h.chain.length_le
  rw [Stepwise.segments, pieces, h.chain.firstReaching_eq, h.entries_eq]
  simp only [ok_bind]
  rw [← hsplit, List.length_append] at hlength
  split
  · have hholds : m.Holds ⟨(p.entries.takeWhile fun e => e.EndsBelow lo) ++
        p.entries.dropWhile fun e => e.EndsBelow lo, p.spares⟩ := by
      rw [hsplit]
      exact h
    exact hholds.segmentsFrom_ok (by omega) lo hi
  · rfl

omit [Scale α] in
theorem Holds.walkPieces_ok (h : m.Holds p) : walkPieces m = .ok m.ranges := by
  have hread : ∀ es ⊆ p.entries,
      (es.map Entry.bare).mapM (fun e => (readWorth m e.slot).map fun worth =>
        (⟨e.lo, e.hi, worth⟩ : Piece α)) =
      .ok (es.map fun e => ⟨e.lo, e.hi, e.label⟩) := by
    intro es hes
    induction es with
    | nil => rfl
    | cons e rest ih =>
        obtain ⟨he, hrest⟩ := List.cons_subset.mp hes
        have hworth := h.readWorth_eq he
        rw [List.map_cons, List.mapM_cons, ih hrest]
        simp only [Entry.bare, hworth]
        rfl
  rw [walkPieces, h.chain.walk_eq, h.chain.entries_eq, ranges, h.entries_eq]
  exact hread p.entries (List.Subset.refl _)

theorem Holds.minWorth_ok (h : m.Holds p) (lo hi : α) :
    Stepwise.minWorth m lo hi = .ok (m.minWorth lo hi) := by
  rw [Stepwise.minWorth, h.segments_ok, minWorth, Except.map]
  cases (m.pieces lo hi).map Piece.worth <;> rfl

theorem Holds.maxWorth_ok (h : m.Holds p) (lo hi : α) :
    Stepwise.maxWorth m lo hi = .ok (m.maxWorth lo hi) := by
  rw [Stepwise.maxWorth, h.segments_ok, maxWorth, Except.map]
  cases (m.pieces lo hi).map Piece.worth <;> rfl

theorem Holds.choose_ok (h : m.Holds p) (lo hi : α) (chosen : Worth → Bool) :
    choose m lo hi chosen =
      .ok (.ofSpans (((m.pieces lo hi).filter fun piece => chosen piece.worth).map Piece.span)) := by
  rw [choose, h.segments_ok]
  exact RangeSet.ofSpans_ok _

theorem Holds.withMinWorth_ok (h : m.Holds p) (lo hi : α) :
    Stepwise.withMinWorth m lo hi = .ok (m.withMinWorth lo hi) := by
  rw [Stepwise.withMinWorth, h.minWorth_ok]
  exact h.choose_ok lo hi fun worth => worth = m.minWorth lo hi

theorem Holds.withMaxWorth_ok (h : m.Holds p) (lo hi : α) :
    Stepwise.withMaxWorth m lo hi = .ok (m.withMaxWorth lo hi) := by
  rw [Stepwise.withMaxWorth, h.maxWorth_ok]
  exact h.choose_ok lo hi fun worth => worth = m.maxWorth lo hi

theorem Holds.supportWithin_ok (h : m.Holds p) (lo hi : α) :
    Stepwise.supportWithin m lo hi = .ok (m.supportWithin lo hi) :=
  h.choose_ok lo hi _

theorem Holds.support_ok (h : m.Holds p) : Stepwise.support m = .ok m.support := by
  rw [Stepwise.support, h.walkPieces_ok]
  exact RangeSet.ofSpans_ok _

theorem Holds.readLeast_ok (h : m.Holds p) : readLeast m.chain = .ok m.min :=
  h.chain.readLeast_eq

theorem Holds.readGreatest_ok (h : m.Holds p) : readGreatest m.chain = .ok m.max :=
  h.chain.readGreatest_eq

theorem Holds.sameMap_ok (hm : m.Holds p) (hn : n.Holds q) :
    sameMap m n = .ok (decide (m.Same n)) := by
  rw [sameMap, hm.walkPieces_ok, hn.walkPieces_ok]
  simp only [ok_bind, Same]
  split
  · rename_i hcount
    simp only [hcount, true_and]
    rfl
  · rename_i hcount
    simp only [hcount, false_and, decide_false]

theorem Represents.position_stops (h : m.Represents p) (v : α) :
    Position.Stops v p.entries (Position.of v m.entries) := by
  rw [h.holds.entries_eq]
  exact Position.stops fun e he => h.ascending.proper e.block (List.mem_map_of_mem he)

theorem Represents.locate_ok (h : m.Represents p) (v : α) :
    locate m.chain v = .ok (Position.of v m.entries) := by
  rw [h.holds.chain.locate_eq, h.holds.entries_eq]

theorem Represents.worth_ok (h : m.Represents p) (v : α) :
    Stepwise.worth m v = .ok (m.worth v) := by
  have hstops := h.position_stops v
  rw [Stepwise.worth, h.locate_ok, worth, slot?]
  generalize Position.of v m.entries = position at hstops ⊢
  cases hstops with
  | @inside xs ys e hsplit _ _ =>
      have hmem : e ∈ p.entries := by simp [hsplit]
      simp only [ok_bind, h.holds.readWorth_eq hmem, Option.map_some, h.holds.worthOf_eq hmem]
      rfl
  | before _ _ _ => rfl
  | pastEnd _ => rfl

theorem Represents.contains_ok (h : m.Represents p) (v : α) :
    Stepwise.contains m v = .ok (decide (m.Contains v)) := by
  have hcontains : decide (m.Contains v) = (m.slot? v).isSome := Bool.decide_eq_true
  rw [hcontains, Stepwise.contains, h.locate_ok, slot?]
  cases Position.of v m.entries <;> rfl

/-! ### Differences -/

theorem foldDifferences_eq (hm : m.Holds p) (hn : n.Holds q) {pick : Worth → Worth → Worth}
    {extreme : α → α → Except Stop Worth} {bound : α → α → Worth}
    (hextreme : ∀ lo hi, extreme lo hi = .ok (bound lo hi)) :
    foldDifferences m n pick extreme =
      if m.IsEmpty ∧ n.IsEmpty then .ok Worth.zero
      else ((m.differences n bound).map (foldWorths pick)).mapError .fault := by
  have hpiece : ∀ piece, Stepwise.differenceOn extreme piece =
      (Worth.orFault (Worth.sub? piece.worth (bound piece.lo piece.hi))
        (.difference piece.worth (bound piece.lo piece.hi))).mapError .fault := by
    intro piece
    rw [Stepwise.differenceOn, hextreme]
    simp only [ok_bind]
    cases Worth.sub? piece.worth (bound piece.lo piece.hi) <;> rfl
  rw [foldDifferences, hm.readLeast_ok, hm.readGreatest_ok, hn.readLeast_ok, hn.readGreatest_ok]
  simp only [ok_bind, hm.segments_ok, mapM_mapError hpiece]
  split
  · rfl
  · rw [differences]
    cases (m.pieces (lowerOf m.min n.min) (higherOf m.max n.max)).mapM fun piece =>
      Worth.orFault (Worth.sub? piece.worth (bound piece.lo piece.hi))
        (.difference piece.worth (bound piece.lo piece.hi)) <;> rfl

theorem Holds.minDifference_eq (hm : m.Holds p) (hn : n.Holds q) :
    Stepwise.minDifference m n = (m.minDifference n).mapError .fault := by
  rw [Stepwise.minDifference, foldDifferences_eq hm hn hn.maxWorth_ok, minDifference]
  split
  · rfl
  · cases m.differences n n.maxWorth with
    | error fault => rfl
    | ok ds => cases ds <;> rfl

theorem Holds.maxDifference_eq (hm : m.Holds p) (hn : n.Holds q) :
    Stepwise.maxDifference m n = (m.maxDifference n).mapError .fault := by
  rw [Stepwise.maxDifference, foldDifferences_eq hm hn hn.minWorth_ok, maxDifference]
  split
  · rfl
  · cases m.differences n n.minWorth with
    | error fault => rfl
    | ok ds => cases ds <;> rfl

/-- A question about a map comes to no breach, and is answered as it is in one step. -/
theorem Represents.answer_ok [ToString α] (h : m.Represents p) (question : Question α) :
    Stepwise.answerMap m question = .ok (m.answer question) := by
  cases question with
  | count => rfl
  | isEmpty => rfl
  | min =>
      rw [answerMap, h.holds.readLeast_ok]
      rfl
  | max =>
      rw [answerMap, h.holds.readGreatest_ok]
      rfl
  | ranges =>
      rw [answerMap, h.holds.walkPieces_ok]
      rfl
  | text =>
      rw [answerMap, h.holds.walkPieces_ok]
      rfl
  | contains v =>
      rw [answerMap, h.contains_ok]
      rfl
  | worth v =>
      rw [answerMap, h.worth_ok]
      rfl
  | minWorth lo hi =>
      rw [answerMap, h.holds.minWorth_ok]
      rfl
  | maxWorth lo hi =>
      rw [answerMap, h.holds.maxWorth_ok]
      rfl

end WorthMap

end RangeSets
