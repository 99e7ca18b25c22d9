import RangeSets.Proofs.RangeSet.Neighbours
import RangeSets.Proofs.Stepwise.Mutation
import RangeSets.WorthMap.Basic
/-!
# Asking range sets, access by access

The questions about a set as a type, so that something can be said of all of them. Two of them name a
slot. They may only be asked with a slot that the set itself has handed out, in the answer to another
question, and that was not changed since: such a slot is on the chain.
-/

namespace RangeSets

open Scale

/-- What comes back from a question about a set or a map. -/
inductive Answer (α : Type) where
  | flag (flag : Bool)
  | number (n : Nat)
  | count? (n? : Option Nat)
  | value (v : α)
  | value? (v? : Option α)
  | slot? (slot? : Option Nat)
  | position (position : Position)
  | span? (span? : Option (Span α))
  | spans (spans : List (Span α))
  | extent (extent : Extent)
  | coverage (coverage : Coverage)
  | worth (worth : Worth)
  | pieces (pieces : List (Piece α))
  | text (text : String)

/-- The slots that an answer hands out. -/
def Answer.slots {α : Type} : Answer α → List Nat
  | .slot? i? => i?.toList
  | .position (.inside i) | .position (.before i) => [i]
  | _ => []

namespace RangeSet

inductive Question (α : Type) where
  | count
  | isEmpty
  | hasNone
  | hasOne
  | min
  | max
  | extent
  | hull
  | cardinality
  | spans
  | text
  | contains (v : α)
  | position (v : α)
  | slot (v : α)
  | above (v : α)
  | below (v : α)
  | coverage (lo hi : α)
  /-- The slot of the first range. -/
  | firstSlot
  /-- The slot behind a slot. -/
  | nextSlot (i : Nat)
  /-- The range in a slot. -/
  | spanIn (i : Nat)

/-- The slot that a question names. -/
def Question.slot? {α : Type} : Question α → Option Nat
  | nextSlot i | spanIn i => some i
  | _ => none

def answer {α : Type} [Scale α] [ToString α] (s : RangeSet α) : Question α → Answer α
  | .count => .number s.count
  | .isEmpty => .flag (decide s.IsEmpty)
  | .hasNone => .flag s.hasNone
  | .hasOne => .flag s.hasOne
  | .min => .value s.min
  | .max => .value s.max
  | .extent => .extent s.extent
  | .hull => .span? (some s.hull)
  | .cardinality => .count? s.cardinality?
  | .spans => .spans s.spans
  | .text => .text (toString s)
  | .contains v => .flag (decide (s.Contains v))
  | .position v => .position (s.position v)
  | .slot v => .slot? (s.slot? v)
  | .above v => .value? (s.above? v)
  | .below v => .value? (s.below? v)
  | .coverage lo hi => .coverage (s.coverage lo hi)
  | .firstSlot => .slot? s.chain.head
  | .nextSlot i => .slot? (s.chain.next? i)
  | .spanIn i => .span? (s.chain.span? i)

end RangeSet

namespace Stepwise

variable {α : Type} [Scale α]

/-! ### The questions -/

/-- Adds up the values of ranges, held down to a capacity. -/
def tally (most : Nat) (total : Nat) : List (Span α) → Except Stop Nat
  | [] => .ok total
  | r :: rest =>
      match count? r.lo r.hi with
      | some n => tally most (Nat.min (total + n) most) rest
      | none => .error (.breach .disordered)

def cardinality? (s : RangeSet α) : Except Stop (Option Nat) :=
  match capacity α with
  | some most => do
      let ranges ← walkSpans s
      return some (← tally most 0 ranges)
  | none => .ok none

def extent (s : RangeSet α) : Except Stop Extent :=
  if s.IsEmpty then .ok .empty
  else do return Extent.ofBounds (← readLeast s.chain) (← readGreatest s.chain)

def hull (s : RangeSet α) : Except Stop (Span α) :=
  if s.IsEmpty then .ok Span.empty
  else do return ⟨← readLeast s.chain, ← readGreatest s.chain⟩

def hasNone (s : RangeSet α) : Except Stop Bool := do
  match ← cardinality? s with
  | some n => return n = 0
  | none => return s.IsEmpty

def hasOne (s : RangeSet α) : Except Stop Bool := do
  match ← cardinality? s with
  | some n => return n = 1
  | none => return (← extent s) = .single

def slot? (s : RangeSet α) (v : α) : Except Stop (Option Nat) := do
  match ← locate s.chain v with
  | .inside i => return some i
  | _ => return none

def above? (s : RangeSet α) (v : α) : Except Stop (Option α) := do
  match ← locate s.chain v with
  | .inside i =>
      let r ← readSpan s.chain i
      if v < r.hi then return some (next v)
      else
        let next? ← following s.chain (some i)
        return (← readSpan? s.chain next?).map Span.lo
  | .before i => return some (← readSpan s.chain i).lo
  | .pastEnd => return none

def below? (s : RangeSet α) (v : α) : Except Stop (Option α) := do
  match ← locate s.chain v with
  | .inside i =>
      let r ← readSpan s.chain i
      if r.lo < v then return some (prev v)
      else
        let prev? ← preceding s.chain (some i)
        return (← readSpan? s.chain prev?).map Span.hi
  | .before i =>
      let prev? ← preceding s.chain (some i)
      return (← readSpan? s.chain prev?).map Span.hi
  | .pastEnd =>
      return ((← readSpan? s.chain s.chain.tail).map Span.hi).filter fun hi => hi < v

def coverage (s : RangeSet α) (lo hi : α) : Except Stop Coverage :=
  if lo ≤ hi then do
    match ← locate s.chain lo with
    | .inside i => return if hi ≤ (← readSpan s.chain i).hi then .all else .part
    | .before i => return if (← readSpan s.chain i).lo ≤ hi then .part else .nothing
    | .pastEnd => return .nothing
  else .ok .nothing

/-- Whether two sets are the same. Sets of different counts are not walked over. -/
def same (s t : RangeSet α) : Except Stop Bool :=
  if s.count = t.count then do
    return decide (Span.SameAll (← walkSpans s) (← walkSpans t))
  else .ok false

def answer [ToString α] (s : RangeSet α) : RangeSet.Question α → Except Stop (Answer α)
  | .count => .ok (.number s.count)
  | .isEmpty => .ok (.flag (decide s.IsEmpty))
  | .hasNone => (hasNone s).map .flag
  | .hasOne => (hasOne s).map .flag
  | .min => (readLeast s.chain).map .value
  | .max => (readGreatest s.chain).map .value
  | .extent => (extent s).map .extent
  | .hull => (hull s).map fun r => .span? (some r)
  | .cardinality => (cardinality? s).map .count?
  | .spans => (walkSpans s).map .spans
  | .text => (walkSpans s).map fun ranges => .text (braced (ranges.map toString))
  | .contains v => (slot? s v).map fun slot? => .flag slot?.isSome
  | .position v => (locate s.chain v).map .position
  | .slot v => (slot? s v).map .slot?
  | .above v => (above? s v).map .value?
  | .below v => (below? s v).map .value?
  | .coverage lo hi => (coverage s lo hi).map .coverage
  | .firstSlot => .ok (.slot? s.chain.head)
  | .nextSlot i => (readSlot s.chain i).map fun slot => .slot? slot.next
  | .spanIn i => (readSpan s.chain i).map fun r => .span? (some r)

end Stepwise

/-! ### What is answered -/

namespace RangeSet

open Stepwise

variable {α : Type} [Scale α] {s t : RangeSet α} {p : Layout α Unit}

theorem tally_ok {ranges : List (Span α)} {most : Nat} (hmost : capacity α = some most)
    (hproper : ∀ r ∈ ranges, r.lo ≤ r.hi) (total : Nat) :
    (tally most total ranges).map some = .ok
      (ranges.foldlM (fun total r => (count? r.lo r.hi).map fun n => Nat.min (total + n) most)
        total) := by
  induction ranges generalizing total with
  | nil => rfl
  | cons r rest ih =>
      obtain ⟨i, j, hlo, hhi, hij⟩ := (le_iff_rank r.lo r.hi).mp (hproper r (by simp))
      have hcount : count? r.lo r.hi = some (Nat.min (j - i + 1).toNat most) := by
        rw [count?, hmost, hlo, hhi]
        exact if_pos hij
      rw [tally, hcount, List.foldlM_cons, hcount]
      exact ih (fun d hd => hproper d (List.mem_cons_of_mem _ hd)) _

theorem Sound.cardinality?_ok (h : s.Sound) : Stepwise.cardinality? s = .ok s.cardinality? := by
  rw [Stepwise.cardinality?, RangeSet.cardinality?]
  cases hmost : capacity α with
  | none => rfl
  | some most =>
      have htally := tally_ok hmost h.invariant.proper 0
      rw [h.walkSpans_ok]
      exact htally

namespace Represents

theorem position_ok (h : s.Represents p) (v : α) : locate s.chain v = .ok (s.position v) := by
  rw [h.holds.locate_eq, position, h.entries_eq]

theorem extent_ok (h : s.Represents p) : Stepwise.extent s = .ok s.extent := by
  rw [Stepwise.extent, h.readLeast_ok, h.readGreatest_ok, RangeSet.extent]
  split <;> rfl

theorem hull_ok (h : s.Represents p) : Stepwise.hull s = .ok s.hull := by
  rw [Stepwise.hull, h.readLeast_ok, h.readGreatest_ok, RangeSet.hull]
  split <;> rfl

theorem slot?_ok (h : s.Represents p) (v : α) : Stepwise.slot? s v = .ok (s.slot? v) := by
  rw [Stepwise.slot?, h.position_ok, RangeSet.slot?]
  cases s.position v <;> rfl

/-- The range behind an entry, read through the link of the entry. -/
theorem readSpan?_next (h : s.Represents p) {xs ys : List (Entry α Unit)} {e : Entry α Unit}
    (hsplit : p.entries = xs ++ e :: ys) :
    (do readSpan? s.chain (← following s.chain (some e.slot))) =
      .ok (s.chain.spanAfter? e.slot) := by
  have hread := h.holds.readSpan?_eq ys.head? fun d hd => by
    simp [hsplit, List.mem_of_head? hd]
  have hholds := h.holds
  obtain ⟨entries, spares⟩ := p
  cases hsplit
  rw [following, hholds.readSlot_eq, Chain.spanAfter?, (hholds.links_of_split rfl).2,
    firstSlot_eq_head?]
  exact hread

/-- The range before an entry, read through the link of the entry. -/
theorem readSpan?_prev (h : s.Represents p) {xs ys : List (Entry α Unit)} {e : Entry α Unit}
    (hsplit : p.entries = xs ++ e :: ys) :
    (do readSpan? s.chain (← preceding s.chain (some e.slot))) =
      .ok (s.chain.spanBefore? e.slot) := by
  have hread := h.holds.readSpan?_eq xs.getLast? fun d hd => by
    simp [hsplit, List.mem_of_getLast? hd]
  have hholds := h.holds
  obtain ⟨entries, spares⟩ := p
  cases hsplit
  rw [preceding, hholds.readSlot_eq, Chain.spanBefore?, (hholds.links_of_split rfl).1,
    lastSlot_eq_getLast?]
  exact hread

theorem above?_ok (h : s.Represents p) (v : α) : Stepwise.above? s v = .ok (s.above? v) := by
  have hstops := h.stops v
  rw [Stepwise.above?, h.position_ok, RangeSet.above?]
  generalize s.position v = position at hstops ⊢
  cases hstops with
  | @inside xs ys e hsplit _ _ =>
      have hmem : e ∈ p.entries := by simp [hsplit]
      have hnext := h.readSpan?_next hsplit
      simp only [ok_bind, h.holds.readSpan_eq hmem, h.holds.span?_eq hmem]
      split
      · rfl
      · rw [← bind_assoc, hnext]
        rfl
  | @before xs ys e hsplit _ _ =>
      have hmem : e ∈ p.entries := by simp [hsplit]
      simp only [ok_bind, h.holds.readSpan_eq hmem, h.holds.span?_eq hmem]
      rfl
  | pastEnd _ => rfl

theorem below?_ok (h : s.Represents p) (v : α) : Stepwise.below? s v = .ok (s.below? v) := by
  have hstops := h.stops v
  rw [Stepwise.below?, h.position_ok, RangeSet.below?]
  generalize s.position v = position at hstops ⊢
  cases hstops with
  | @inside xs ys e hsplit _ _ =>
      have hmem : e ∈ p.entries := by simp [hsplit]
      have hprev := h.readSpan?_prev hsplit
      simp only [ok_bind, h.holds.readSpan_eq hmem, h.holds.span?_eq hmem]
      split
      · rfl
      · rw [← bind_assoc, hprev]
        rfl
  | @before xs ys e hsplit _ _ =>
      have hprev := h.readSpan?_prev hsplit
      simp only [ok_bind]
      rw [← bind_assoc, hprev]
      rfl
  | pastEnd _ =>
      have hlast := h.holds.readSpan?_eq p.entries.getLast? fun d hd =>
        List.mem_of_getLast? hd
      rw [← lastSlot_eq_getLast?, ← h.holds.threads.2.1] at hlast
      simp only [ok_bind, hlast]
      rfl

theorem coverage_ok (h : s.Represents p) (lo hi : α) :
    Stepwise.coverage s lo hi = .ok (s.coverage lo hi) := by
  have hstops := h.stops lo
  rw [Stepwise.coverage, h.position_ok, RangeSet.coverage]
  generalize s.position lo = position at hstops ⊢
  split
  · cases hstops with
    | @inside xs ys e hsplit _ _ =>
        have hmem : e ∈ p.entries := by simp [hsplit]
        simp only [ok_bind, h.holds.readSpan_eq hmem, h.holds.span?_eq hmem]
        rfl
    | @before xs ys e hsplit _ _ =>
        have hmem : e ∈ p.entries := by simp [hsplit]
        simp only [ok_bind, h.holds.readSpan_eq hmem, h.holds.span?_eq hmem]
        rfl
    | pastEnd _ => rfl
  · rfl

/-- The position of a value names a slot on the chain, or none. -/
theorem position_live (h : s.Represents p) (v : α) {i : Nat}
    (hi : i ∈ (Answer.position (s.position v) : Answer α).slots) : i ∈ s.chain.live := by
  have hstops := h.stops v
  rw [h.holds.live_eq]
  generalize s.position v = position at hstops hi
  cases hstops with
  | inside hsplit _ _ =>
      obtain rfl := List.mem_singleton.mp hi
      simp [hsplit]
  | before hsplit _ _ =>
      obtain rfl := List.mem_singleton.mp hi
      simp [hsplit]
  | pastEnd _ => cases hi

end Represents

theorem Sound.same_ok (hs : s.Sound) (ht : t.Sound) :
    Stepwise.same s t = .ok (decide (s.Same t)) := by
  rw [Stepwise.same, hs.walkSpans_ok, ht.walkSpans_ok]
  simp only [ok_bind, Same]
  split
  · rename_i hcount
    simp only [hcount, true_and]
    rfl
  · rename_i hcount
    simp only [hcount, false_and, decide_false]

/-- A question that names no slot but of the chain comes to no breach, and is answered as it is in one
step. -/
theorem Sound.answer_ok [ToString α] (h : s.Sound) (question : Question α)
    (hslot : ∀ i, question.slot? = some i → i ∈ s.chain.live) :
    Stepwise.answer s question = .ok (s.answer question) := by
  obtain ⟨p, hp⟩ := id h
  cases question with
  | count => rfl
  | isEmpty => rfl
  | hasNone =>
      rw [Stepwise.answer, Stepwise.hasNone, h.cardinality?_ok, RangeSet.answer, RangeSet.hasNone]
      simp only [ok_bind]
      cases s.cardinality? <;> rfl
  | hasOne =>
      rw [Stepwise.answer, Stepwise.hasOne, h.cardinality?_ok, RangeSet.answer, RangeSet.hasOne]
      simp only [ok_bind]
      cases s.cardinality? with
      | none =>
          rw [hp.extent_ok]
          rfl
      | some n => rfl
  | min =>
      rw [Stepwise.answer, hp.readLeast_ok]
      rfl
  | max =>
      rw [Stepwise.answer, hp.readGreatest_ok]
      rfl
  | extent =>
      rw [Stepwise.answer, hp.extent_ok]
      rfl
  | hull =>
      rw [Stepwise.answer, hp.hull_ok]
      rfl
  | cardinality =>
      rw [Stepwise.answer, h.cardinality?_ok]
      rfl
  | spans =>
      rw [Stepwise.answer, h.walkSpans_ok]
      rfl
  | text =>
      rw [Stepwise.answer, h.walkSpans_ok]
      rfl
  | contains v =>
      rw [Stepwise.answer, hp.slot?_ok]
      exact congrArg (fun b => Except.ok (Answer.flag b)) Bool.decide_eq_true.symm
  | position v =>
      rw [Stepwise.answer, hp.position_ok]
      rfl
  | slot v =>
      rw [Stepwise.answer, hp.slot?_ok]
      rfl
  | above v =>
      rw [Stepwise.answer, hp.above?_ok]
      rfl
  | below v =>
      rw [Stepwise.answer, hp.below?_ok]
      rfl
  | coverage lo hi =>
      rw [Stepwise.answer, hp.coverage_ok]
      rfl
  | firstSlot => rfl
  | nextSlot i =>
      obtain ⟨xs, e, ys, hsplit, rfl⟩ := hp.holds.exists_entry (hslot i rfl)
      rw [Stepwise.answer, RangeSet.answer, (hp.holds.links_of_split hsplit).2]
      have hholds := hp.holds
      obtain ⟨entries, spares⟩ := p
      cases hsplit
      rw [hholds.readSlot_eq]
      rfl
  | spanIn i =>
      obtain ⟨xs, e, ys, hsplit, rfl⟩ := hp.holds.exists_entry (hslot i rfl)
      have hmem : e ∈ p.entries := by simp [hsplit]
      rw [Stepwise.answer, RangeSet.answer, hp.holds.readSpan_eq hmem, hp.holds.span?_eq hmem]
      rfl

/-- The slots that a set hands out are on its chain. -/
theorem Sound.answer_live [ToString α] (h : s.Sound) {question : Question α}
    (hslot : ∀ i, question.slot? = some i → i ∈ s.chain.live) :
    ∀ i ∈ (s.answer question).slots, i ∈ s.chain.live := by
  obtain ⟨p, hp⟩ := id h
  intro i hi
  cases question with
  | position v => exact hp.position_live v hi
  | slot v =>
      refine hp.position_live v ?_
      rw [RangeSet.answer, RangeSet.slot?] at hi
      generalize s.position v = position at hi ⊢
      cases position with
      | inside j => simpa [Answer.slots] using hi
      | before j => cases hi
      | pastEnd => cases hi
  | firstSlot =>
      have hhead : s.chain.head = some i := by simpa [RangeSet.answer, Answer.slots] using hi
      rw [hp.holds.consistent.head_eq] at hhead
      exact List.mem_of_head? hhead
  | nextSlot j =>
      have hnext : s.chain.next? j = some i := by simpa [RangeSet.answer, Answer.slots] using hi
      exact (hp.holds.prev_next (hslot j rfl) hnext).1
  | _ => cases hi

end RangeSet

end RangeSets
