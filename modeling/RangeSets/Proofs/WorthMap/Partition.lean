import Mathlib.Data.List.Chain
import RangeSets.Proofs.Stepwise.Pieces
import RangeSets.Proofs.WorthMap.Uniform
/-!
# Partitions of a range

The pieces of a range leave nothing out and count nothing twice. The first one begins where the range
begins and the last one ends where it ends, with the very bounds that were asked for; each other piece
begins right after the one before it. All values of a piece have its worth, and no piece could be longer,
since the pieces on either side of it have other worths.

The cut goes from entry to entry with what is left of the range, and what is left begins right behind
the last entry. So neighbouring pieces are adjacent by the way they are cut, whatever the entries are
like; that they differ in worth is a matter of the map, which joins neighbours of one worth.
-/

namespace RangeSets.WorthMap

open Scale

variable {α : Type} [Scale α]

/-- The pieces are the values from `lo` to `hi`, cut into longest runs of one worth. -/
structure Partitions (m : WorthMap α) (lo hi : α) (pieces : List (Piece α)) : Prop where
  first : pieces.head?.map Piece.lo = some lo
  last : pieces.getLast?.map Piece.hi = some hi
  proper : ∀ piece ∈ pieces, piece.lo ≤ piece.hi
  consecutive : pieces.IsChain fun a b => Adjacent a.hi b.lo
  differ : pieces.IsChain fun a b => a.worth ≠ b.worth
  worth_eq : ∀ piece ∈ pieces, ∀ v, piece.span.Contains v → m.worth v = piece.worth
  contains_iff : ∀ v, (∃ piece ∈ pieces, piece.span.Contains v) ↔ lo ≤ v ∧ v ≤ hi
  /-- A value lies in one piece at most. -/
  unique : ∀ a ∈ pieces, ∀ b ∈ pieces, ∀ v, a.span.Contains v → b.span.Contains v → a = b
  longest : ∀ piece ∈ pieces,
    piece.span.IsLongestRun fun v => (⟨lo, hi⟩ : Span α).Contains v ∧ m.worth v = piece.worth

/-! ### How pieces are cut -/

variable {lo hi : α} {es : List (Entry α Worth)}

theorem higherOf_of_not_lt {a b : α} (h : ¬ a < b) : higherOf a b = a := if_neg h

theorem higherOf_of_lt {a b : α} (h : a < b) : higherOf a b = b := if_pos h

theorem head?_piecesAmong (lo hi : α) (es : List (Entry α Worth)) :
    (piecesAmong lo hi es).head?.map Piece.lo = some lo := by
  cases es with
  | nil => rfl
  | cons e rest =>
      rw [piecesAmong]
      by_cases habove : hi < e.lo
      · rw [if_pos habove]
        rfl
      rw [if_neg habove]
      by_cases hgap : lo < e.lo
      · rw [if_pos hgap]
        rfl
      · rw [if_neg hgap, higherOf_of_not_lt hgap]
        dsimp only
        split <;> rfl

theorem getLast?_piecesAmong (lo hi : α) (es : List (Entry α Worth)) :
    (piecesAmong lo hi es).getLast?.map Piece.hi = some hi := by
  induction es generalizing lo with
  | nil => rfl
  | cons e rest ih =>
      by_cases habove : hi < e.lo
      · rw [piecesAmong, if_pos habove]
        rfl
      rw [piecesAmong_cons habove, List.getLast?_append]
      split
      · obtain ⟨piece, hpiece, hend⟩ := Option.map_eq_some_iff.mp (ih (next e.hi))
        rw [List.getLast?_cons, hpiece]
        exact congrArg some hend
      · rfl

/-- A gap before an entry ends right before the piece of the entry. -/
theorem isChain_gapBefore_append {first beyond : α} {piece : Piece α} {rest : List (Piece α)}
    (hpiece : piece.lo = higherOf first beyond)
    (hrest : (piece :: rest).IsChain fun a b => Adjacent a.hi b.lo) :
    (gapBefore first beyond ++ piece :: rest).IsChain fun a b => Adjacent a.hi b.lo := by
  unfold gapBefore
  split
  · rename_i hlt
    have hbeyond := (lt_iff.mp hlt).2.1
    have hprev := place_prev_of_lt hlt
    refine List.isChain_cons_cons.mpr ⟨?_, hrest⟩
    rw [hpiece, higherOf_of_lt hlt]
    exact adjacent_iff.mpr ⟨comparable_prev hbeyond, hbeyond, by simp only; omega⟩
  · exact hrest

theorem isChain_piecesAmong (lo hi : α) (es : List (Entry α Worth)) :
    (piecesAmong lo hi es).IsChain fun a b => Adjacent a.hi b.lo := by
  induction es generalizing lo with
  | nil => exact .singleton _
  | cons e rest ih =>
      by_cases habove : hi < e.lo
      · rw [piecesAmong, if_pos habove]
        exact .singleton _
      rw [piecesAmong_cons habove]
      split
      · rename_i hmore
        refine isChain_gapBefore_append rfl (List.isChain_cons.mpr ⟨fun b hb => ?_, ih (next e.hi)⟩)
        have hhead := head?_piecesAmong (next e.hi) hi rest
        rw [Option.mem_def.mp hb, Option.map_some, Option.some.injEq] at hhead
        have hend := (lt_iff.mp hmore).1
        rw [hhead]
        exact adjacent_iff.mpr ⟨hend, comparable_next hend, (place_next_of_lt hmore).symm⟩
      · exact isChain_gapBefore_append rfl (.singleton _)

/-! ### Pieces in order -/

theorem isChain_and {β : Type} {R S : β → β → Prop} {l : List β} (hR : l.IsChain R)
    (hS : l.IsChain S) : l.IsChain fun a b => R a b ∧ S a b := by
  induction l with
  | nil => exact .nil
  | cons a rest ih =>
      rw [List.isChain_cons] at hR hS ⊢
      exact ⟨fun b hb => ⟨hR.1 b hb, hS.1 b hb⟩, ih hR.2 hS.2⟩

variable {m : WorthMap α}

/-- Neighbouring pieces differ in worth, because they are adjacent and not to be joined. -/
theorem Sound.isChain_worth_ne (h : m.Sound) (hchain : (m.pieces lo hi).IsChain fun a b =>
    Adjacent a.hi b.lo) : (m.pieces lo hi).IsChain fun a b => a.worth ≠ b.worth := by
  have hapart := (List.pairwise_map.mp (h.ascending_pieces lo hi).apart).isChain
  refine (isChain_and hchain hapart).imp fun a b hboth => ?_
  exact hboth.2.2 (adjacent_iff.mp hboth.1).2.2

theorem Sound.eq_of_contains (h : m.Sound) {a b : Piece α} (ha : a ∈ m.pieces lo hi)
    (hb : b ∈ m.pieces lo hi) {v : α} (hva : a.span.Contains v) (hvb : b.span.Contains v) :
    a = b := by
  have hbefore := List.pairwise_map.mp (h.ascending_pieces lo hi).ordered.before
  have hsymm : Std.Symm fun a b : Piece α => ¬ (a.span.Contains v ∧ b.span.Contains v) :=
    ⟨fun _ _ hnot hboth => hnot hboth.symm⟩
  have hapart : (m.pieces lo hi).Pairwise fun a b =>
      ¬ (a.span.Contains v ∧ b.span.Contains v) := by
    refine hbefore.imp fun {c d} hlt hboth => ?_
    have hlt : place c.hi < place d.lo := hlt
    have hc : place v ≤ place c.hi := (le_iff.mp hboth.1.2).2.2
    have hd : place d.lo ≤ place v := (le_iff.mp hboth.2.1).2.2
    omega
  by_contra hne
  exact hapart.forall ha hb hne ⟨hva, hvb⟩

theorem Sound.partitions (h : m.Sound) (hle : lo ≤ hi) : m.Partitions lo hi (m.pieces lo hi) := by
  have hpieces : m.pieces lo hi =
      piecesAmong lo hi (m.entries.dropWhile fun e => e.EndsBelow lo) := if_pos hle
  have hchain : (m.pieces lo hi).IsChain fun a b => Adjacent a.hi b.lo := by
    rw [hpieces]
    exact isChain_piecesAmong ..
  refine ⟨?_, ?_, fun piece => h.proper_of_mem_pieces, hchain, h.isChain_worth_ne hchain,
    fun piece hmem v hv => ?_, fun v => ⟨fun hv => ?_, fun hv => ?_⟩,
    fun a ha b hb v => h.eq_of_contains ha hb, fun piece hmem => ?_⟩
  · rw [hpieces]
    exact head?_piecesAmong ..
  · rw [hpieces]
    exact getLast?_piecesAmong ..
  · exact (h.assigns_pieces.mp ⟨piece, hmem, hv, rfl⟩).2
  · obtain ⟨piece, hmem, hin⟩ := hv
    exact (h.assigns_pieces.mp ⟨piece, hmem, hin, rfl⟩).1
  · have hassigns : Assigns (m.pieces lo hi) v (m.worth v) := h.assigns_pieces.mpr ⟨hv, rfl⟩
    obtain ⟨piece, hmem, hin, _⟩ := hassigns
    exact ⟨piece, hmem, hin⟩
  · exact (h.decomposes_worth lo hi piece.worth).isLongestRun
      (List.mem_map_of_mem (List.mem_filter.mpr ⟨hmem, by simp⟩))

/-- Cutting a range comes to no breach on a map that can be reached, and the pieces are a partition of
the range into longest runs of one worth. -/
theorem range_partitioned (h : m.Reachable) (hle : lo ≤ hi) :
    Stepwise.segments m lo hi = .ok (m.pieces lo hi) ∧ m.Partitions lo hi (m.pieces lo hi) := by
  obtain ⟨p, hp⟩ := h.sound
  exact ⟨hp.holds.segments_ok lo hi, h.sound.partitions hle⟩

theorem dented_partitioned :
    dented.Reachable ∧ (Fixed.ofInt 2 : Octet) ≤ top ∧
      dented.Partitions (.ofInt 2) top
        [⟨.ofInt 2, .ofInt 2, .ofInt 5⟩, ⟨.ofInt 3, .ofInt 6, Worth.zero⟩,
          ⟨.ofInt 7, .ofInt 10, .ofInt 5⟩, ⟨.ofInt 11, top, Worth.zero⟩] := by
  have hle : (Fixed.ofInt 2 : Octet) ≤ top := by decide
  have hpieces : dented.pieces (.ofInt 2) top =
      [⟨.ofInt 2, .ofInt 2, .ofInt 5⟩, ⟨.ofInt 3, .ofInt 6, Worth.zero⟩,
        ⟨.ofInt 7, .ofInt 10, .ofInt 5⟩, ⟨.ofInt 11, top, Worth.zero⟩] := by
    decide
  obtain ⟨_, hpartitions⟩ := range_partitioned reachable_dented hle
  exact ⟨reachable_dented, hle, hpieces ▸ hpartitions⟩

end RangeSets.WorthMap
