import RangeSets.Proofs.Equality
import RangeSets.Proofs.WorthMap.Pieces
/-!
# Pieces of one worth

The pieces of a range are as long as they can be. They ascend as blocks labelled with their worths: the
piece in front of a range of the map has worth zero, which no range of the map has, and two ranges that
come right after one another differ in worth. So the pieces of one worth are the longest runs of the
values of that worth.
-/

namespace RangeSets

open Scale

variable {α : Type} [Scale α]

/-! ### Labelled blocks as runs -/

/-- Of blocks that ascend, those of one label are the runs of the values with that label. -/
theorem decomposes_label {pieces : List (Piece α)} (h : Ascending (pieces.map Piece.block))
    (w : Worth) :
    Decomposes (fun v => ∃ piece ∈ pieces, piece.span.Contains v ∧ piece.worth = w)
      ((pieces.filter fun piece => piece.worth = w).map Piece.span) := by
  refine ⟨⟨fun b hb => ?_, ?_⟩, fun v => ?_⟩
  · obtain ⟨r, hr, rfl⟩ := List.mem_map.mp hb
    obtain ⟨piece, hpiece, rfl⟩ := List.mem_map.mp hr
    exact h.proper piece.block (List.mem_map_of_mem (List.mem_filter.mp hpiece).1)
  · have hapart := h.apart
    rw [List.pairwise_map] at hapart
    rw [List.pairwise_map, List.pairwise_map]
    refine (hapart.sublist List.filter_sublist).imp_of_mem fun {a b} ha hb hgap => ?_
    have hlabels : a.block.label = b.block.label :=
      (of_decide_eq_true (List.mem_filter.mp ha).2).trans
        (of_decide_eq_true (List.mem_filter.mp hb).2).symm
    exact ⟨hgap.1, fun hnext => absurd hlabels (hgap.2 hnext)⟩
  · rw [covered_block]
    simp only [List.mem_map, List.mem_filter, decide_eq_true_eq]
    constructor
    · intro hv
      obtain ⟨r, ⟨piece, ⟨hmem, hworth⟩, rfl⟩, hin⟩ := hv
      exact ⟨piece, hmem, hin, hworth⟩
    · intro hv
      obtain ⟨piece, hmem, hin, hworth⟩ := hv
      exact ⟨_, ⟨piece, ⟨hmem, hworth⟩, rfl⟩, hin⟩

namespace WorthMap

variable {lo hi : α}

/-! ### The pieces that entries cut out -/

theorem ascending_gapBefore (first beyond : α) :
    Ascending ((gapBefore first beyond).map Piece.block) := by
  unfold gapBefore
  split
  · rename_i hlt
    obtain ⟨hfirst, hbeyond, hplace⟩ := lt_iff.mp hlt
    have hprev := place_prev_of_lt hlt
    exact ascending_singleton ((le_iff_place hfirst (comparable_prev hbeyond)).mpr (by omega))
  · exact Ascending.nil

/-- The pieces ascend. Each of them begins within the range and has worth zero or the worth of an entry
that does not begin above it. -/
theorem ascending_piecesAmong {es : List (Entry α Worth)} (hes : Ascending (es.map Entry.block))
    (hne : ∀ e ∈ es, e.label ≠ Worth.zero) (hle : lo ≤ hi)
    (hreach : ∀ e ∈ es, place lo ≤ place e.hi) :
    Ascending ((piecesAmong lo hi es).map Piece.block) ∧
      ∀ c ∈ piecesAmong lo hi es, place lo ≤ place c.lo ∧
        (c.worth = Worth.zero ∨ ∃ d ∈ es, c.worth = d.label ∧ place d.lo ≤ place c.lo) := by
  have hwhole : Ascending ([(⟨lo, hi, Worth.zero⟩ : Piece α)].map Piece.block) :=
    ascending_singleton hle
  induction es generalizing lo with
  | nil => exact ⟨hwhole, by simp [piecesAmong]⟩
  | cons e rest ih =>
      by_cases habove : hi < e.lo
      · rw [piecesAmong, if_pos habove]
        exact ⟨hwhole, by simp⟩
      obtain ⟨hlo, hhi, hlohi⟩ := le_iff.mp hle
      have hproper : e.lo ≤ e.hi := hes.proper e.block (by simp)
      obtain ⟨heLo, heHi, hele⟩ := le_iff.mp hproper
      have hstart := hreach e (by simp)
      have hfirst := comparable_higherOf hlo heLo
      have hplace := place_higherOf hlo heLo
      have hlabel : e.label ≠ Worth.zero := hne e (by simp)
      rw [lt_iff_place hhi heLo] at habove
      have hgap : ∀ b ∈ gapBefore lo e.lo, b.worth = Worth.zero ∧ place b.lo = place lo ∧
          place b.hi < place (higherOf lo e.lo) := by
        intro b hb
        unfold gapBefore at hb
        split at hb
        · rename_i hlt
          obtain rfl := List.mem_singleton.mp hb
          have hprev := place_prev_of_lt hlt
          exact ⟨rfl, rfl, by simp only; omega⟩
        · cases hb
      have hfront : ∀ (E : α) (b : Block α Worth), b ∈ (gapBefore lo e.lo).map Piece.block →
          b.Apart (⟨higherOf lo e.lo, E, e.label⟩ : Piece α).block := by
        intro E b hb
        obtain ⟨c, hc, rfl⟩ := List.mem_map.mp hb
        obtain ⟨hzero, _, hbefore⟩ := hgap c hc
        exact ⟨hbefore, fun _ hsame => hlabel (hsame.symm.trans hzero)⟩
      rw [piecesAmong_cons (by rwa [lt_iff_place hhi heLo]), List.map_append]
      by_cases hmore : e.hi < hi
      · have hnext := comparable_next heHi
        have hstep := place_next_of_lt hmore
        have hplaceMore := (lt_iff.mp hmore).2.2
        have hapart := (List.pairwise_cons.mp hes.apart).1
        have hbehind : ∀ d ∈ rest, place (next e.hi) ≤ place d.hi := by
          intro d hd
          have hbefore := (hapart d.block (List.mem_map_of_mem hd)).1
          have hd := (le_iff.mp (hes.proper d.block (by simp [List.mem_map_of_mem hd]))).2.2
          simp only [Entry.lo_block, Entry.hi_block] at hbefore hd
          omega
        have hleft : next e.hi ≤ hi := (le_iff_place hnext hhi).mpr (by omega)
        obtain ⟨hasc, hbegin⟩ := ih (hes.sublist (List.sublist_cons_self ..))
          (fun d hd => hne d (List.mem_cons_of_mem _ hd)) hleft hbehind (ascending_singleton hleft)
        rw [if_pos hmore]
        refine ⟨(ascending_gapBefore ..).append_cons (c := Piece.block _) ?_ (hfront _), ?_⟩
        · have hone : Ascending [(⟨higherOf lo e.lo, e.hi, e.label⟩ : Piece α).block] :=
            ascending_singleton ((le_iff_place hfirst heHi).mpr (by omega))
          refine ascending_append.mpr ⟨hone, hasc, fun b hb c hc => ?_⟩
          obtain rfl := List.mem_singleton.mp hb
          obtain ⟨piece, hpiece, rfl⟩ := List.mem_map.mp hc
          obtain ⟨hbeyond, hworth⟩ := hbegin piece hpiece
          have hlt : place e.hi < place piece.lo := by omega
          refine ⟨hlt, fun hjoined hsame => ?_⟩
          have hjoined : place e.hi + 1 = place piece.lo := hjoined
          have hsame : e.label = piece.worth := hsame
          rcases hworth with hzero | ⟨d, hd, hdLabel, hdLo⟩
          · exact hlabel (hsame.trans hzero)
          · obtain ⟨hbefore, hdiffer⟩ := hapart d.block (List.mem_map_of_mem hd)
            simp only [Entry.hi_block, Entry.lo_block, Entry.label_block] at hbefore hdiffer
            exact hdiffer (by omega) (hsame.trans hdLabel)
        · intro c hc
          rcases List.mem_append.mp hc with hc | hc
          · obtain ⟨hzero, hbegins, _⟩ := hgap c hc
            exact ⟨by omega, .inl hzero⟩
          · rcases List.mem_cons.mp hc with rfl | hc
            · exact ⟨by simp only; omega, .inr ⟨e, by simp, rfl, by simp only; omega⟩⟩
            · obtain ⟨hbeyond, hworth⟩ := hbegin c hc
              refine ⟨by omega, hworth.imp_right fun h => ?_⟩
              obtain ⟨d, hd, hrest⟩ := h
              exact ⟨d, List.mem_cons_of_mem _ hd, hrest⟩
      · rw [if_neg hmore]
        refine ⟨(ascending_gapBefore ..).append_cons (c := Piece.block _) ?_ (hfront _), ?_⟩
        · exact ascending_singleton ((le_iff_place hfirst hhi).mpr (by omega))
        · intro c hc
          rcases List.mem_append.mp hc with hc | hc
          · obtain ⟨hzero, hbegins, _⟩ := hgap c hc
            exact ⟨by omega, .inl hzero⟩
          · obtain rfl := List.mem_singleton.mp hc
            exact ⟨by simp only; omega, .inr ⟨e, by simp, rfl, by simp only; omega⟩⟩

/-! ### The pieces of a map -/

variable {m : WorthMap α} {p : Layout α Worth}

theorem Represents.ascending_pieces (h : m.Represents p) (lo hi : α) :
    Ascending ((m.pieces lo hi).map Piece.block) := by
  rw [pieces, h.holds.entries_eq]
  by_cases hle : lo ≤ hi
  · have hkept := List.dropWhile_suffix (l := p.entries) fun e => e.EndsBelow lo
    rw [if_pos hle]
    exact (ascending_piecesAmong (h.ascending.sublist (hkept.sublist.map _))
      (fun e he => h.nonzero e.block (List.mem_map_of_mem (hkept.subset he))) hle
      (le_of_mem_dropWhile h.ascending.ordered (le_iff.mp hle).1)).1
  · rw [if_neg hle]
    exact Ascending.nil

theorem Sound.ascending_pieces (h : m.Sound) (lo hi : α) :
    Ascending ((m.pieces lo hi).map Piece.block) := by
  obtain ⟨p, hp⟩ := h
  exact hp.ascending_pieces lo hi

theorem Sound.proper_of_mem_pieces (h : m.Sound) {piece : Piece α} (hmem : piece ∈ m.pieces lo hi) :
    piece.lo ≤ piece.hi :=
  (h.ascending_pieces lo hi).proper piece.block (List.mem_map_of_mem hmem)

/-- The run is a longest one of values of one worth within a span. -/
def IsPiece (m : WorthMap α) (within r : Span α) : Prop :=
  ∃ w, r.IsLongestRun fun v => within.Contains v ∧ m.worth v = w

theorem Sound.decomposes_worth (h : m.Sound) (lo hi : α) (w : Worth) :
    Decomposes (fun v => (⟨lo, hi⟩ : Span α).Contains v ∧ m.worth v = w)
      (((m.pieces lo hi).filter fun piece => piece.worth = w).map Piece.span) :=
  (decomposes_label (h.ascending_pieces lo hi) w).congr fun _ => h.assigns_pieces

theorem Sound.isPiece_of_mem (h : m.Sound) {piece : Piece α} (hmem : piece ∈ m.pieces lo hi) :
    m.IsPiece ⟨lo, hi⟩ piece.span :=
  ⟨piece.worth, (h.decomposes_worth lo hi piece.worth).isLongestRun
    (List.mem_map_of_mem (List.mem_filter.mpr ⟨hmem, by simp⟩))⟩

theorem Sound.exists_mem_of_isPiece (h : m.Sound) {r : Span α} (hr : m.IsPiece ⟨lo, hi⟩ r) :
    ∃ piece ∈ m.pieces lo hi, r.Same piece.span := by
  obtain ⟨w, hlongest⟩ := hr
  obtain ⟨t, ht, hsame⟩ := (h.decomposes_worth lo hi w).longestRuns.complete r hlongest
  obtain ⟨piece, hpiece, rfl⟩ := List.mem_map.mp ht
  exact ⟨piece, (List.mem_filter.mp hpiece).1, hsame⟩

end WorthMap

end RangeSets
