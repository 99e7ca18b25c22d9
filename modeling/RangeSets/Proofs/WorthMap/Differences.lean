import RangeSets.Proofs.WorthMap.Extremes
import RangeSets.Proofs.Worth
/-!
# Extreme differences

The difference of two maps is looked at over the joint hull, the least span with the ranges of both. On
a piece of the hull the left map has one worth, so that the differences there are that worth less the
worths of the right map, and the extreme difference on one side comes from the extreme worth of the
right map on the opposite side. The extreme difference of the hull is the extreme one of those of its
pieces. There is a fault when that of some piece is no worth, even though no value is looked at.
-/

namespace RangeSets

open Scale Worth

namespace WorthMap

variable {α : Type} [Scale α]

/-- The differences of the worths of the values of a span. -/
def differencesOver (m n : WorthMap α) (within : Span α) : Set Int :=
  {d | ∃ v, within.Contains v ∧ d = (m.worth v).val - (n.worth v).val}

/-- The span from the lesser of two least values to the greater of two greatest ones. -/
def jointHull (m n : WorthMap α) : Span α := ⟨lowerOf m.min n.min, higherOf m.max n.max⟩

def extremeDifference (m n : WorthMap α) : Side → Except Fault Worth
  | .least => m.minDifference n
  | .greatest => m.maxDifference n

variable {m n : WorthMap α} {side : Side} {lo hi : α} {r t : Span α} {d : Int}

theorem differencesOver_congr (h : r.Same t) : m.differencesOver n r = m.differencesOver n t := by
  obtain ⟨hlo, hhi⟩ := h
  obtain ⟨hrLo, htLo, hlo⟩ := same_iff.mp hlo
  obtain ⟨hrHi, htHi, hhi⟩ := same_iff.mp hhi
  have hcontains : ∀ v, r.Contains v ↔ t.Contains v := by
    intro v
    simp only [Span.Contains, le_iff, hrLo, htLo, hrHi, htHi, hlo, hhi]
  simp only [differencesOver, hcontains]

/-! ### The joint hull -/

theorem Sound.comparable_ends (hm : m.Sound) : Comparable m.min ∧ Comparable m.max := by
  obtain ⟨p, hp⟩ := hm
  obtain ⟨hmin, hnoMin⟩ := hp.holds.chain.least hp.ascending.ordered
  obtain ⟨hmax, hnoMax⟩ := hp.holds.chain.greatest hp.ascending.ordered
  by_cases hex : ∃ v, Covered p.blocks v
  · exact ⟨(hmin hex).1.comparable, (hmax hex).1.comparable⟩
  · have hnone := not_exists.mp hex
    constructor
    · rw [WorthMap.min, hnoMin hnone]
      exact comparable_top
    · rw [WorthMap.max, hnoMax hnone]
      exact comparable_bottom

theorem Sound.min_le_max (hm : m.Sound) (hsome : ¬ m.IsEmpty) : place m.min ≤ place m.max := by
  obtain ⟨p, hp⟩ := hm
  have hex : ∃ v, Covered p.blocks v := by
    rw [hp.isEmpty_iff, not_forall] at hsome
    obtain ⟨v, hv⟩ := hsome
    refine ⟨v, (hp.covered_iff v).mpr ?_⟩
    rw [← hp.val_worth]
    exact fun hzero => hv (Fixed.ext hzero)
  have hleast := (hp.holds.chain.least hp.ascending.ordered).1 hex
  have hgreatest := (hp.holds.chain.greatest hp.ascending.ordered).1 hex
  exact (le_iff.mp (hleast.2 _ hgreatest.1)).2.2

theorem Sound.jointHull_proper (hm : m.Sound) (hn : n.Sound) (hsome : ¬ (m.IsEmpty ∧ n.IsEmpty)) :
    (m.jointHull n).lo ≤ (m.jointHull n).hi := by
  obtain ⟨hmMin, hmMax⟩ := hm.comparable_ends
  obtain ⟨hnMin, hnMax⟩ := hn.comparable_ends
  have hlo := place_lowerOf hmMin hnMin
  have hhi := place_higherOf hmMax hnMax
  refine (le_iff_place (comparable_lowerOf hmMin hnMin) (comparable_higherOf hmMax hnMax)).mpr ?_
  by_cases hempty : m.IsEmpty
  · have hle := hn.min_le_max fun hnone => hsome ⟨hempty, hnone⟩
    omega
  · have hle := hm.min_le_max hempty
    omega

theorem Sound.jointHull_comm (hm : m.Sound) (hn : n.Sound) (v : α) :
    (m.jointHull n).Contains v ↔ (n.jointHull m).Contains v := by
  obtain ⟨hmMin, hmMax⟩ := hm.comparable_ends
  obtain ⟨hnMin, hnMax⟩ := hn.comparable_ends
  simp only [jointHull, Span.Contains, le_iff, comparable_lowerOf, comparable_higherOf, hmMin, hmMax,
    hnMin, hnMax, place_lowerOf, place_higherOf, true_and, Int.min_comm, Int.max_comm]

/-! ### One piece -/

/-- The extreme difference on a side over a piece. -/
def pieceDifference (n : WorthMap α) (side : Side) (piece : Piece α) : Int :=
  piece.worth.val - (n.extremeWorth side.opposite piece.lo piece.hi).val

theorem Sound.isExtreme_pieceDifference (hm : m.Sound) (hn : n.Sound) {piece : Piece α}
    (hmem : piece ∈ m.pieces lo hi) (side : Side) :
    side.IsExtreme (m.differencesOver n piece.span) (n.pieceDifference side piece) := by
  have hworth : ∀ v, piece.span.Contains v → m.worth v = piece.worth :=
    fun v hv => (hm.assigns_pieces.mp ⟨piece, hmem, hv, rfl⟩).2
  have hother := hn.isExtreme_extremeWorth side.opposite (hm.proper_of_mem_pieces hmem)
  rw [Side.isExtreme_iff] at hother ⊢
  obtain ⟨hattained, hbeyond⟩ := hother
  constructor
  · obtain ⟨v, hv, hval⟩ := hattained
    exact ⟨v, hv, by rw [pieceDifference, hval, hworth v hv]⟩
  · intro e he
    obtain ⟨v, hv, rfl⟩ := he
    rw [hworth v hv]
    exact (hbeyond _ ⟨v, hv, rfl⟩).sub _

/-! ### All pieces -/

/-- The extreme difference on a side over a piece, when it is a worth. -/
def differenceOn (n : WorthMap α) (side : Side) (piece : Piece α) : Except Fault Worth :=
  let other := n.extremeWorth side.opposite piece.lo piece.hi
  orFault (sub? piece.worth other) (.difference piece.worth other)

theorem differenceOn_eq_ok_iff {piece : Piece α} {w : Worth} :
    n.differenceOn side piece = .ok w ↔ w.val = n.pieceDifference side piece := by
  rw [differenceOn, orFault_eq_ok_iff, sub?, Fixed.ofInt?_eq_some_iff, pieceDifference]

theorem differenceOn_eq_error_iff {piece : Piece α} {fault : Fault} :
    n.differenceOn side piece = .error fault ↔ ¬ Fits (n.pieceDifference side piece) ∧
      fault = .difference piece.worth (n.extremeWorth side.opposite piece.lo piece.hi) := by
  rw [differenceOn, orFault_eq_error_iff, sub?_eq_none_iff, pieceDifference]

theorem extremeDifference_of_empty (hm : m.IsEmpty) (hn : n.IsEmpty) (side : Side) :
    m.extremeDifference n side = .ok Worth.zero := by
  cases side with
  | least => exact if_pos ⟨hm, hn⟩
  | greatest => exact if_pos ⟨hm, hn⟩

theorem extremeDifference_eq (hsome : ¬ (m.IsEmpty ∧ n.IsEmpty)) (side : Side) :
    m.extremeDifference n side =
      (m.pieces (m.jointHull n).lo (m.jointHull n).hi).mapM (n.differenceOn side) >>= fun ds =>
        match ds with
        | [] => .ok Worth.zero
        | d :: ds => .ok (ds.foldl side.pick d) := by
  cases side with
  | least => exact if_neg hsome
  | greatest => exact if_neg hsome

/-- The differences of the pieces include the extreme one of all values. -/
theorem Sound.isExtreme_of_pieces (hm : m.Sound) (hn : n.Sound) {within : Span α}
    (h : side.IsExtreme
      {e | ∃ piece ∈ m.pieces within.lo within.hi, e = n.pieceDifference side piece} d) :
    side.IsExtreme (m.differencesOver n within) d := by
  rw [Side.isExtreme_iff] at h ⊢
  obtain ⟨⟨piece, hmem, rfl⟩, hbeyond⟩ := h
  constructor
  · obtain ⟨v, hv, heq⟩ := (hm.isExtreme_pieceDifference hn hmem side).mem
    exact ⟨v, (hm.assigns_pieces.mp ⟨piece, hmem, hv, rfl⟩).1, heq⟩
  · intro e he
    obtain ⟨v, hv, rfl⟩ := he
    have hassigns : Assigns (m.pieces within.lo within.hi) v (m.worth v) :=
      hm.assigns_pieces.mpr ⟨hv, rfl⟩
    obtain ⟨other, hother, hin, _⟩ := hassigns
    have hextreme := Side.isExtreme_iff.mp (hm.isExtreme_pieceDifference hn hother side)
    exact (hbeyond _ ⟨other, hother, rfl⟩).trans (hextreme.2 _ ⟨v, hin, rfl⟩)

/-- Either all extreme differences over the pieces fit, and the result is the one of the hull, or the
result is a fault at the first piece whose extreme difference does not fit. -/
theorem Sound.extremeDifference_cases (hm : m.Sound) (hn : n.Sound)
    (hsome : ¬ (m.IsEmpty ∧ n.IsEmpty)) (side : Side) :
    ((∀ piece ∈ m.pieces (m.jointHull n).lo (m.jointHull n).hi,
        Fits (n.pieceDifference side piece)) ∧
      ∃ d, m.extremeDifference n side = .ok d ∧
        side.IsExtreme (m.differencesOver n (m.jointHull n)) d.val) ∨
    ∃ front piece back,
      m.pieces (m.jointHull n).lo (m.jointHull n).hi = front ++ piece :: back ∧
      (∀ other ∈ front, Fits (n.pieceDifference side other)) ∧
      ¬ Fits (n.pieceDifference side piece) ∧
      m.extremeDifference n side =
        .error (.difference piece.worth (n.extremeWorth side.opposite piece.lo piece.hi)) := by
  rw [extremeDifference_eq hsome]
  cases hall : (m.pieces (m.jointHull n).lo (m.jointHull n).hi).mapM (n.differenceOn side) with
  | ok ds =>
      refine .inl ?_
      obtain ⟨hto, hfrom⟩ := of_mapM_eq_ok hall
      refine ⟨fun piece hmem => ?_, ?_⟩
      · obtain ⟨w, _, hw⟩ := hto piece hmem
        rw [← differenceOn_eq_ok_iff.mp hw]
        exact w.fits_val
      cases ds with
      | nil =>
          have hnonempty := hm.pieces_ne_nil (hm.jointHull_proper hn hsome)
          obtain ⟨piece, hmem⟩ := List.exists_mem_of_ne_nil _ hnonempty
          obtain ⟨_, hw, _⟩ := hto piece hmem
          cases hw
      | cons d ds =>
          refine ⟨ds.foldl side.pick d, rfl, hm.isExtreme_of_pieces hn ?_⟩
          have hdifferences : {a | ∃ w ∈ d :: ds, a = w.val} =
              {e | ∃ piece ∈ m.pieces (m.jointHull n).lo (m.jointHull n).hi,
                e = n.pieceDifference side piece} := by
            ext a
            constructor
            · intro ha
              obtain ⟨w, hw, rfl⟩ := ha
              obtain ⟨piece, hmem, hpiece⟩ := hfrom w hw
              exact ⟨piece, hmem, differenceOn_eq_ok_iff.mp hpiece⟩
            · intro ha
              obtain ⟨piece, hmem, rfl⟩ := ha
              obtain ⟨w, hw, hpiece⟩ := hto piece hmem
              exact ⟨w, hw, (differenceOn_eq_ok_iff.mp hpiece).symm⟩
          rw [← hdifferences]
          exact side.isExtreme_foldl d ds
  | error fault =>
      refine .inr ?_
      obtain ⟨front, piece, back, hsplit, hfails, hfront⟩ := of_mapM_eq_error hall
      obtain ⟨hnot, rfl⟩ := differenceOn_eq_error_iff.mp hfails
      refine ⟨front, piece, back, hsplit, fun other hother => ?_, hnot, rfl⟩
      obtain ⟨w, hw⟩ := hfront other hother
      rw [← differenceOn_eq_ok_iff.mp hw]
      exact w.fits_val

/-! ### The results -/

/-- What comes of looking for the extreme difference on a side. -/
structure FindsExtreme (IsExtreme : Set Int → Int → Prop) (m n : WorthMap α)
    (result : Except Fault Worth) : Prop where
  /-- There is a fault exactly when the extreme difference over some piece of one worth does not fit. -/
  fails_iff : (∃ fault, result = .error fault) ↔ ∃ r d, m.IsPiece (m.jointHull n) r ∧
    IsExtreme (m.differencesOver n r) d ∧ ¬ Fits d
  /-- The fault names the worths of the lowest such piece. -/
  names_lowest : ∀ fault, result = .error fault → ∃ r other, m.IsPiece (m.jointHull n) r ∧
    fault = .difference (m.worth r.lo) other ∧
    IsExtreme (m.differencesOver n r) ((m.worth r.lo).val - other.val) ∧
    ¬ Fits ((m.worth r.lo).val - other.val) ∧
    ∀ t d, m.IsPiece (m.jointHull n) t → t.hi < r.lo → IsExtreme (m.differencesOver n t) d → Fits d
  exact : ¬ (m.IsEmpty ∧ n.IsEmpty) → ∀ d, result = .ok d →
    IsExtreme (m.differencesOver n (m.jointHull n)) d.val
  of_empty : m.IsEmpty → n.IsEmpty → result = .ok Worth.zero

theorem Sound.exists_piece (hm : m.Sound) (hn : n.Sound) (hr : m.IsPiece (m.jointHull n) r)
    (hd : side.IsExtreme (m.differencesOver n r) d) :
    ∃ piece ∈ m.pieces (m.jointHull n).lo (m.jointHull n).hi,
      r.Same piece.span ∧ d = n.pieceDifference side piece := by
  obtain ⟨piece, hmem, hsame⟩ := hm.exists_mem_of_isPiece hr
  rw [differencesOver_congr hsame] at hd
  exact ⟨piece, hmem, hsame, hd.unique (hm.isExtreme_pieceDifference hn hmem side)⟩

/-- Of the pieces, those that end below one of them are in front of it. -/
theorem Sound.mem_front (hm : m.Sound) {front back : List (Piece α)} {piece other : Piece α}
    (hsplit : m.pieces lo hi = front ++ piece :: back) (hmem : other ∈ m.pieces lo hi)
    (hbelow : place other.hi < place piece.lo) : other ∈ front := by
  have hascending := hm.ascending_pieces lo hi
  have hother := (le_iff.mp (hm.proper_of_mem_pieces hmem)).2.2
  rw [hsplit, List.map_append, List.map_cons, ascending_append] at hascending
  rw [hsplit] at hmem
  rcases List.mem_append.mp hmem with hfront | hrest
  · exact hfront
  · rcases List.mem_cons.mp hrest with rfl | hback
    · omega
    · have happart := (List.pairwise_cons.mp hascending.2.1.apart).1
      have hgap : place piece.hi < place other.lo :=
        (happart other.block (List.mem_map_of_mem hback)).1
      have hproper : piece.lo ≤ piece.hi := hascending.2.1.proper piece.block (by simp)
      have := (le_iff.mp hproper).2.2
      omega

theorem Sound.findsExtreme (hm : m.Sound) (hn : n.Sound) (side : Side) :
    FindsExtreme side.IsExtreme m n (m.extremeDifference n side) := by
  by_cases hempty : m.IsEmpty ∧ n.IsEmpty
  · rw [extremeDifference_of_empty hempty.1 hempty.2]
    refine ⟨iff_of_false (fun hfault => ?_) fun hpiece => ?_, fun _ hfault => (nomatch hfault),
      fun hsome => absurd hempty hsome, fun _ _ => rfl⟩
    · obtain ⟨_, hfault⟩ := hfault
      cases hfault
    · obtain ⟨r, d, _, hd, hnot⟩ := hpiece
      obtain ⟨v, _, rfl⟩ := hd.mem
      rw [hm.isEmpty_iff.mp hempty.1, hn.isEmpty_iff.mp hempty.2, Int.sub_self] at hnot
      exact hnot Worth.zero.fits_val
  rcases hm.extremeDifference_cases hn hempty side with
    ⟨hfits, d, hresult, hextreme⟩ | ⟨front, piece, back, hsplit, hfront, hnot, hresult⟩
  · rw [hresult]
    refine ⟨iff_of_false (fun hfault => ?_) fun hpiece => ?_, fun _ hfault => (nomatch hfault),
      fun _ e he => ?_, fun hm hn => absurd ⟨hm, hn⟩ hempty⟩
    · obtain ⟨_, hfault⟩ := hfault
      cases hfault
    · obtain ⟨r, e, hr, he, hnot⟩ := hpiece
      obtain ⟨piece, hmem, _, rfl⟩ := hm.exists_piece hn hr he
      exact hnot (hfits piece hmem)
    · obtain rfl := Except.ok.inj he
      exact hextreme
  · have hmem : piece ∈ m.pieces (m.jointHull n).lo (m.jointHull n).hi := by simp [hsplit]
    have hpiece := hm.isPiece_of_mem hmem
    have hextreme := hm.isExtreme_pieceDifference hn hmem side
    have hworth : m.worth piece.span.lo = piece.worth := (hm.worth_lo hmem).2
    rw [hresult]
    refine ⟨iff_of_true ⟨_, rfl⟩ ⟨_, _, hpiece, hextreme, hnot⟩, fun fault hfault => ?_,
      fun _ _ hok => (nomatch hok), fun hm hn => absurd ⟨hm, hn⟩ hempty⟩
    obtain rfl := Except.error.inj hfault
    refine ⟨piece.span, n.extremeWorth side.opposite piece.lo piece.hi, hpiece, ?_⟩
    rw [hworth]
    refine ⟨rfl, hextreme, hnot, fun t d ht hbelow hd => ?_⟩
    obtain ⟨other, hother, hsame, rfl⟩ := hm.exists_piece hn ht hd
    refine hfront other (hm.mem_front hsplit hother ?_)
    have hends : place t.hi = place other.hi := (Scale.same_iff.mp hsame.2).2.2
    have hlt : place t.hi < place piece.lo := (lt_iff.mp hbelow).2.2
    omega

/-- There is no fault when all differences over the hull fit. -/
theorem Sound.extremeDifference_succeeds (hm : m.Sound) (hn : n.Sound)
    (hfits : ∀ v, (m.jointHull n).Contains v → Fits ((m.worth v).val - (n.worth v).val))
    (side : Side) : ∃ d, m.extremeDifference n side = .ok d := by
  cases hresult : m.extremeDifference n side with
  | ok d => exact ⟨d, rfl⟩
  | error fault =>
      obtain ⟨r, d, hr, hd, hnot⟩ := (hm.findsExtreme hn side).fails_iff.mp ⟨fault, hresult⟩
      obtain ⟨v, hv, rfl⟩ := hd.mem
      obtain ⟨w, hrun⟩ := hr
      exact absurd (hfits v (hrun.holds v hv).1) hnot

/-- Seen from the other map, the greatest difference is the least one with its sign changed. -/
theorem Sound.greatest_eq_neg_least (hm : m.Sound) (hn : n.Sound) {a b : Worth}
    (ha : m.maxDifference n = .ok a) (hb : n.minDifference m = .ok b) : a.val = -b.val := by
  by_cases hempty : m.IsEmpty ∧ n.IsEmpty
  · have hzero := (hm.findsExtreme hn .greatest).of_empty hempty.1 hempty.2
    have hzero' := (hn.findsExtreme hm .least).of_empty hempty.2 hempty.1
    obtain rfl := Except.ok.inj (ha.symm.trans hzero)
    obtain rfl := Except.ok.inj (hb.symm.trans hzero')
    rfl
  have hgreatest := (hm.findsExtreme hn .greatest).exact hempty a ha
  have hleast := (hn.findsExtreme hm .least).exact (fun h => hempty h.symm) b hb
  obtain ⟨⟨v, hv, hva⟩, habove⟩ := hgreatest
  obtain ⟨⟨u, hu, hub⟩, hbelow⟩ := hleast
  have hle : (m.worth u).val - (n.worth u).val ≤ a.val :=
    habove ⟨u, (hm.jointHull_comm hn u).mpr hu, rfl⟩
  have hge : b.val ≤ (n.worth v).val - (m.worth v).val :=
    hbelow ⟨v, (hm.jointHull_comm hn v).mp hv, rfl⟩
  omega

/-- The least and the greatest difference over the joint hull are found as they should be, on both sides
with a fault exactly where the extreme difference over some piece does not fit. There is none when all
differences over the hull fit, and results for the two maps in both orders are opposite numbers. -/
theorem extreme_differences (hm : m.Reachable) (hn : n.Reachable) :
    FindsExtreme IsLeast m n (m.minDifference n) ∧
      FindsExtreme IsGreatest m n (m.maxDifference n) ∧
      ((∀ v, (m.jointHull n).Contains v → Fits ((m.worth v).val - (n.worth v).val)) →
        (∃ d, m.minDifference n = .ok d) ∧ ∃ d, m.maxDifference n = .ok d) ∧
      ∀ a b, m.maxDifference n = .ok a → n.minDifference m = .ok b → a.val = -b.val := by
  have hm := hm.sound
  have hn := hn.sound
  refine ⟨hm.findsExtreme hn .least, hm.findsExtreme hn .greatest, fun hfits => ⟨?_, ?_⟩, ?_⟩
  · exact hm.extremeDifference_succeeds hn hfits .least
  · exact hm.extremeDifference_succeeds hn hfits .greatest
  · exact fun a b ha hb => hm.greatest_eq_neg_least hn ha hb

/-- Between 3 and 6 the dented map lacks the worth 5 that the other one has, and nothing elsewhere. -/
theorem differences_where_dented :
    dented.Reachable ∧ raised.Reachable ∧
      IsLeast (dented.differencesOver raised ⟨.ofInt 1, .ofInt 10⟩) (-5) ∧
      IsGreatest (dented.differencesOver raised ⟨.ofInt 1, .ofInt 10⟩) 0 ∧
      raised.maxDifference dented = .ok (.ofInt 5) := by
  obtain ⟨hleast, hgreatest, _⟩ := extreme_differences reachable_dented reachable_raised
  have hsome : ¬ (dented.IsEmpty ∧ raised.IsEmpty) := by decide
  have hmin : dented.minDifference raised = .ok (.ofInt (-5)) := by decide +kernel
  have hmax : dented.maxDifference raised = .ok Worth.zero := by decide +kernel
  refine ⟨reachable_dented, reachable_raised, ?_, ?_, by decide +kernel⟩
  · exact hleast.exact hsome _ hmin
  · exact hgreatest.exact hsome _ hmax

end WorthMap

end RangeSets
