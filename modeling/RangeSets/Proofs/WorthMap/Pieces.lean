import RangeSets.Proofs.RangeSet.Changes
import RangeSets.Proofs.WorthMap.Totals
/-!
# The pieces of a range

A range is cut into pieces wherever the worth may change: a piece of worth zero for each gap between
the ranges of the map, and one piece for each range, as far as it lies in the range that is asked for.
The pieces say of each value of the range what it counts for, and of no other value. That is all that
the questions about a range need of them, since none of those looks at where a piece begins.
-/

namespace RangeSets.WorthMap

open Scale

variable {α : Type} [Scale α]

/-- Some piece holds the value and has the worth. -/
def Assigns (pieces : List (Piece α)) (v : α) (w : Worth) : Prop :=
  ∃ piece ∈ pieces, piece.span.Contains v ∧ piece.worth = w

variable {pieces more : List (Piece α)} {lo hi v : α} {w : Worth}

@[simp] theorem not_assigns_nil : ¬ Assigns ([] : List (Piece α)) v w := by
  simp [Assigns]

@[simp] theorem assigns_cons {piece : Piece α} :
    Assigns (piece :: pieces) v w ↔
      (piece.span.Contains v ∧ piece.worth = w) ∨ Assigns pieces v w := by
  simp [Assigns]

@[simp] theorem assigns_append :
    Assigns (pieces ++ more) v w ↔ Assigns pieces v w ∨ Assigns more v w := by
  simp [Assigns, or_and_right, exists_or]

theorem Assigns.comparable (h : Assigns pieces v w) : Comparable v := by
  obtain ⟨_, _, hv, _⟩ := h
  exact (le_iff.mp hv.1).2.1

/-- The piece of worth zero in front of a range that begins above the value. -/
def gapBefore (first beyond : α) : List (Piece α) :=
  if first < beyond then [⟨first, prev beyond, Worth.zero⟩] else []

theorem assigns_gapBefore {first beyond : α} (hfirst : Comparable first)
    (hbeyond : Comparable beyond) :
    Assigns (gapBefore first beyond) v w ↔ (first ≤ v ∧ v < beyond) ∧ w = Worth.zero := by
  have hruns := (RangeSet.decomposes_runBefore hfirst hbeyond).mem_iff v
  rw [hruns, gapBefore, RangeSet.runBefore]
  split
  · simp [Assigns, Piece.span, eq_comm]
  · simp [Assigns]

theorem piecesAmong_cons {e : Entry α Worth} (h : ¬ hi < e.lo) (rest : List (Entry α Worth)) :
    piecesAmong lo hi (e :: rest) = gapBefore lo e.lo ++
      if e.hi < hi then ⟨higherOf lo e.lo, e.hi, e.label⟩ :: piecesAmong (next e.hi) hi rest
      else [⟨higherOf lo e.lo, hi, e.label⟩] := by
  rw [piecesAmong, if_neg h, gapBefore]

/-- A value below the first entry has weight zero, one in it has its worth, and for one above it only
the other entries count. -/
theorem weight_entries_cons {e : Entry α Worth} {rest : List (Entry α Worth)}
    (h : Ordered ((e :: rest).map Entry.block)) (hv : Comparable v) :
    weight v ((e :: rest).map Entry.block) =
      if place v < place e.lo then 0
      else if place v ≤ place e.hi then e.label.val
      else weight v (rest.map Entry.block) := by
  have hproper : e.block.lo ≤ e.block.hi := h.proper e.block (by simp)
  have hin := Block.contains_iff hproper hv
  simp only [Entry.lo_block, Entry.hi_block] at hin
  have hrest : place v ≤ place e.hi → weight v (rest.map Entry.block) = 0 := by
    intro hle
    apply weight_of_not_covered
    intro hcovered
    obtain ⟨b, hb, hbv⟩ := hcovered
    have hbefore : place e.hi < place b.lo := (List.pairwise_cons.mp h.before).1 b hb
    have := (le_iff.mp hbv.1).2.2
    omega
  have hlohi : place e.lo ≤ place e.hi := (le_iff.mp hproper).2.2
  rw [List.map_cons, weight_cons]
  by_cases hbelow : place v < place e.lo
  · rw [if_neg (by rw [hin]; omega), if_pos hbelow, hrest (by omega), Int.add_zero]
  · rw [if_neg hbelow]
    by_cases hle : place v ≤ place e.hi
    · rw [if_pos (by rw [hin]; omega), if_pos hle, hrest hle, Int.add_zero, Entry.label_block]
    · rw [if_neg (by rw [hin]; omega), if_neg hle, Int.zero_add]

/-- The pieces assign to each value of the range the worth that the entries give it, and zero where
they give it none. The induction follows the cuts from below: what is left of the range after an entry
begins right behind that entry. -/
theorem assigns_piecesAmong {es : List (Entry α Worth)} (hes : Ordered (es.map Entry.block))
    (hle : lo ≤ hi) (hreach : ∀ e ∈ es, place lo ≤ place e.hi) :
    Assigns (piecesAmong lo hi es) v w ↔
      (lo ≤ v ∧ v ≤ hi) ∧ w.val = weight v (es.map Entry.block) := by
  by_cases hv : Comparable v
  swap
  · exact iff_of_false (fun h => hv h.comparable) fun h => hv (le_iff.mp h.1.1).2.1
  have hzero : w = Worth.zero ↔ w.val = 0 := Fixed.ext_iff
  induction es generalizing lo with
  | nil =>
      rw [piecesAmong, assigns_cons, or_iff_left not_assigns_nil, eq_comm (b := w), hzero]
      rfl
  | cons e rest ih =>
      obtain ⟨hlo, hhi, hlohi⟩ := le_iff.mp hle
      have hproper : e.lo ≤ e.hi := hes.proper e.block (by simp)
      obtain ⟨heLo, heHi, hele⟩ := le_iff.mp hproper
      have hstart := hreach e (by simp)
      have hlabel : e.label = w ↔ w.val = e.label.val := by rw [Fixed.ext_iff, eq_comm]
      rw [weight_entries_cons hes hv]
      by_cases habove : hi < e.lo
      · rw [piecesAmong, if_pos habove, assigns_cons, or_iff_left not_assigns_nil,
          eq_comm (b := w), hzero]
        apply and_congr_right
        intro hbetween
        have hbeyond := (lt_iff.mp habove).2.2
        have hreached : place v ≤ place hi := (le_iff.mp hbetween.2).2.2
        rw [if_pos (by omega)]
      · rw [piecesAmong_cons habove, assigns_append, assigns_gapBefore hlo heLo, hzero]
        have hfirst := comparable_higherOf hlo heLo
        have hplace := place_higherOf hlo heLo
        rw [lt_iff_place hhi heLo] at habove
        by_cases hmore : e.hi < hi
        · have hnext := comparable_next heHi
          have hstep := place_next_of_lt hmore
          have hplaceMore := (lt_iff.mp hmore).2.2
          have hbehind : ∀ d ∈ rest, place (next e.hi) ≤ place d.hi := by
            intro d hd
            have hbefore : place e.hi < place d.lo :=
              (List.pairwise_cons.mp hes.before).1 d.block (List.mem_map_of_mem hd)
            have hd : place d.lo ≤ place d.hi :=
              (le_iff.mp (hes.proper d.block (by simp [List.mem_map_of_mem hd]))).2.2
            omega
          have hleft : next e.hi ≤ hi := (le_iff_place hnext hhi).mpr (by omega)
          rw [if_pos hmore, assigns_cons, hlabel]
          simp only [ih hes.tail hleft hbehind, Piece.span, Span.Contains, le_iff_place hlo hv,
            lt_iff_place hv heLo, le_iff_place hfirst hv, le_iff_place hv heHi,
            le_iff_place hnext hv, le_iff_place hv hhi]
          split
          · omega
          · split <;> omega
        · rw [if_neg hmore, assigns_cons, or_iff_left not_assigns_nil, hlabel]
          rw [lt_iff_place heHi hhi] at hmore
          simp only [Piece.span, Span.Contains, le_iff_place hlo hv, lt_iff_place hv heLo,
            le_iff_place hfirst hv, le_iff_place hv hhi]
          split
          · omega
          · split <;> omega

/-! ### The pieces of a map -/

variable {m : WorthMap α} {p : Layout α Worth}

theorem Represents.worth_eq_iff (h : m.Represents p) : m.worth v = w ↔ w.val = weight v p.blocks := by
  rw [Fixed.ext_iff, h.val_worth, eq_comm]

/-- The entries that end below a range give no worth to its values. -/
theorem weight_dropWhile {es : List (Entry α Worth)} (hes : Ordered (es.map Entry.block))
    (hv : lo ≤ v ∧ v ≤ hi) :
    weight v ((es.dropWhile fun e => e.EndsBelow lo).map Entry.block) =
      weight v (es.map Entry.block) := by
  have hle : lo ≤ hi := by
    obtain ⟨hlo, _, hge⟩ := le_iff.mp hv.1
    obtain ⟨_, hhi, hreached⟩ := le_iff.mp hv.2
    exact (le_iff_place hlo hhi).mpr (by omega)
  have hnone : ¬ Covered ((es.takeWhile fun e => e.EndsBelow lo).map Entry.block) v :=
    fun hcovered => (Cut.of_fits hes hle).not_between (.inl hcovered) hv
  conv => rhs; rw [← List.takeWhile_append_dropWhile (p := fun e => e.EndsBelow lo) (l := es)]
  rw [List.map_append, weight_append, weight_of_not_covered hnone, Int.zero_add]

theorem Represents.assigns_pieces (h : m.Represents p) :
    Assigns (m.pieces lo hi) v w ↔ (lo ≤ v ∧ v ≤ hi) ∧ m.worth v = w := by
  have hordered := h.ascending.ordered
  rw [pieces, h.holds.entries_eq, h.worth_eq_iff]
  by_cases hle : lo ≤ hi
  · have hkept := (List.dropWhile_suffix (l := p.entries) fun e => e.EndsBelow lo).sublist
    have hreach := le_of_mem_dropWhile hordered (le_iff.mp hle).1
    rw [if_pos hle, assigns_piecesAmong (hordered.sublist (hkept.map _)) hle hreach]
    apply and_congr_right
    intro hv
    rw [weight_dropWhile hordered hv, Layout.blocks]
  · rw [if_neg hle]
    exact iff_of_false not_assigns_nil fun h => not_between hle v h.1

theorem Sound.assigns_pieces (h : m.Sound) :
    Assigns (m.pieces lo hi) v w ↔ (lo ≤ v ∧ v ≤ hi) ∧ m.worth v = w := by
  obtain ⟨p, hp⟩ := h
  exact hp.assigns_pieces

/-! ### The support -/

theorem Sound.contains_support (h : m.Sound) (v : α) :
    m.support.Contains v ↔ m.worth v ≠ Worth.zero := by
  obtain ⟨p, hp⟩ := h
  rw [hp.contains_support, hp.covered_iff, ← hp.val_worth, ne_eq, ne_eq, Fixed.ext_iff]
  rfl

theorem Sound.contains_supportWithin (h : m.Sound) (lo hi v : α) :
    (m.supportWithin lo hi).Contains v ↔ (lo ≤ v ∧ v ≤ hi) ∧ m.worth v ≠ Worth.zero := by
  rw [supportWithin, RangeSet.contains_ofSpans]
  constructor
  · intro hcontains
    obtain ⟨r, hr, hv⟩ := hcontains
    obtain ⟨piece, hpiece, rfl⟩ := List.mem_map.mp hr
    obtain ⟨hmem, hne⟩ := List.mem_filter.mp hpiece
    obtain ⟨hbetween, hworth⟩ := h.assigns_pieces.mp ⟨piece, hmem, hv, rfl⟩
    exact ⟨hbetween, hworth ▸ of_decide_eq_true hne⟩
  · intro hv
    have hassigns : Assigns (m.pieces lo hi) v (m.worth v) := h.assigns_pieces.mpr ⟨hv.1, rfl⟩
    obtain ⟨piece, hmem, hcontains, hworth⟩ := hassigns
    have hne : piece.worth ≠ Worth.zero := hworth ▸ hv.2
    exact ⟨piece.span, List.mem_map_of_mem (List.mem_filter.mpr ⟨hmem, by simpa using hne⟩), hcontains⟩

end RangeSets.WorthMap
