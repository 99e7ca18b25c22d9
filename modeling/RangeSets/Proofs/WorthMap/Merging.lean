import RangeSets.Proofs.Equality
import RangeSets.Proofs.WorthMap.Overflow
/-!
# Adding whole maps, and taking them away

A map is added to another one range by range. The ranges of a map are disjoint, so that what one of
them did to the other map is not seen by the next: each value is reached once, with the worth that it
had in the beginning. An addition of a map therefore comes to a fault exactly when some sum does not
fit. Taking a map away is adding the negated ranges, as long as all its worths can be negated.
-/

namespace RangeSets

open Scale Worth

variable {α : Type}

/-- The piece that takes away what the piece adds, where its worth can be negated. -/
def Piece.negated (piece : Piece α) : Piece α :=
  { piece with worth := (neg? piece.worth).getD Worth.zero }

theorem Piece.val_worth_negated {piece : Piece α} (h : piece.worth.val ≠ worthFormat.min) :
    piece.negated.worth.val = -piece.worth.val := by
  have hsome : neg? piece.worth ≠ none := fun hnone => h (neg?_eq_none_iff.mp hnone)
  obtain ⟨negated, hnegated⟩ := Option.ne_none_iff_exists'.mp hsome
  rw [Piece.negated, hnegated, Option.getD_some]
  exact Fixed.ofInt?_eq_some_iff.mp hnegated

namespace WorthMap

/-! ### Changes in turn -/

section Turns

variable {f g : WorthMap α → Piece α → Except Fault (WorthMap α × List (Change α))}

theorem inTurn_cons (f : WorthMap α → Piece α → Except Fault (WorthMap α × List (Change α)))
    (m : WorthMap α) (piece : Piece α) (rest : List (Piece α)) :
    inTurn f m (piece :: rest) = f m piece >>= fun (after, changes) =>
      inTurn f after rest >>= fun (final, later) => .ok (final, changes ++ later) := rfl

theorem inTurn_of_error {m : WorthMap α} {piece : Piece α} {fault : Fault}
    (h : f m piece = .error fault) (rest : List (Piece α)) :
    inTurn f m (piece :: rest) = .error fault := by
  rw [inTurn_cons, h]
  rfl

theorem inTurn_of_ok {m after : WorthMap α} {piece : Piece α} {changes : List (Change α)}
    (h : f m piece = .ok (after, changes)) (rest : List (Piece α)) :
    inTurn f m (piece :: rest) =
      inTurn f after rest >>= fun (final, later) => .ok (final, changes ++ later) := by
  rw [inTurn_cons, h]
  rfl

theorem inTurn_congr {h : Piece α → Piece α} {pieces : List (Piece α)}
    (hfg : ∀ piece ∈ pieces, ∀ m, f m piece = g m (h piece)) (m : WorthMap α) :
    inTurn f m pieces = inTurn g m (pieces.map h) := by
  induction pieces generalizing m with
  | nil => rfl
  | cons piece rest ih =>
      rw [List.map_cons, inTurn_cons, inTurn_cons, hfg piece (by simp)]
      congr
      funext ⟨after, changes⟩
      dsimp only
      rw [ih fun d hd => hfg d (List.mem_cons_of_mem _ hd)]

/-- A piece that every map fails at makes the whole turn fail, at this piece or before. -/
theorem inTurn_error_of_mem {pieces : List (Piece α)} {piece : Piece α} (hmem : piece ∈ pieces)
    (hfails : ∀ m, ∃ fault, f m piece = .error fault) (m : WorthMap α) :
    ∃ fault, inTurn f m pieces = .error fault := by
  induction pieces generalizing m with
  | nil => cases hmem
  | cons first rest ih =>
      cases hfirst : f m first with
      | error fault => exact ⟨fault, inTurn_of_error hfirst rest⟩
      | ok result =>
          rcases List.mem_cons.mp hmem with rfl | hmem
          · obtain ⟨fault, hfault⟩ := hfails m
            rw [hfirst] at hfault
            cases hfault
          · obtain ⟨fault, hfault⟩ := ih hmem result.1
            refine ⟨fault, ?_⟩
            rw [inTurn_of_ok hfirst, hfault]
            rfl

end Turns

variable [Scale α] {m n : WorthMap α} {p q : Layout α Worth} {pieces : List (Piece α)}

/-! ### Adding disjoint pieces -/

def addPiece (m : WorthMap α) (piece : Piece α) : Except Fault (WorthMap α × List (Change α)) :=
  m.add piece.lo piece.hi piece.worth

def removePiece (m : WorthMap α) (piece : Piece α) : Except Fault (WorthMap α × List (Change α)) :=
  m.remove piece.lo piece.hi piece.worth

/-- What comes of shifting the worth of every value by some amount: the shifted worths when all of them
fit, and a fault otherwise. -/
inductive Shifts (m : WorthMap α) (amount : α → Int) :
    Except Fault (WorthMap α × List (Change α)) → Prop
  | fits {after : WorthMap α} {changes : List (Change α)} :
      (∀ v, Fits ((m.worth v).val + amount v)) → after.Sound →
      (∀ v, (after.worth v).val = (m.worth v).val + amount v) → Shifts m amount (.ok (after, changes))
  | overflows {v : α} {fault : Fault} :
      ¬ Fits ((m.worth v).val + amount v) → Shifts m amount (.error fault)

theorem Shifts.congr {amount amount' : α → Int}
    {result : Except Fault (WorthMap α × List (Change α))} (h : Shifts m amount result)
    (heq : ∀ v, amount v = amount' v) : Shifts m amount' result := by
  obtain rfl : amount = amount' := funext heq
  exact h

theorem Shifts.exists_error_iff {amount : α → Int}
    {result : Except Fault (WorthMap α × List (Change α))} (h : Shifts m amount result) :
    (∃ fault, result = .error fault) ↔ ∃ v, ¬ Fits ((m.worth v).val + amount v) := by
  cases h with
  | fits hall _ _ =>
      refine iff_of_false (fun hfault => ?_) fun hover => ?_
      · obtain ⟨_, hfault⟩ := hfault
        cases hfault
      · obtain ⟨v, hnot⟩ := hover
        exact hnot (hall v)
  | overflows hnot => exact iff_of_true ⟨_, rfl⟩ ⟨_, hnot⟩

theorem Shifts.ok {amount : α → Int} {after : WorthMap α} {changes : List (Change α)}
    (h : Shifts m amount (.ok (after, changes))) :
    after.Sound ∧ ∀ v, (after.worth v).val = (m.worth v).val + amount v := by
  cases h with
  | fits _ hsound hworth => exact ⟨hsound, hworth⟩

theorem Sound.shifts_addPiece (hm : m.Sound) (piece : Piece α) :
    Shifts m (fun v => weight v [piece.block]) (m.addPiece piece) := by
  have hamount : ∀ v, weight v [piece.block] =
      if piece.lo ≤ v ∧ v ≤ piece.hi then piece.worth.val else 0 := by
    intro v
    rw [weight_cons, weight_nil, Int.add_zero]
    rfl
  rcases hm.add_fault_cases piece.lo piece.hi piece.worth with
    ⟨hall, after, changes, hadd⟩ | ⟨v, hfirst, hadd⟩
  · obtain ⟨hsound, hworth⟩ := hm.add hadd
    rw [addPiece, hadd]
    refine .fits (fun v => ?_) hsound fun v => ?_
    · rw [hamount]
      split
      · rename_i hv
        exact hall v hv
      · rw [Int.add_zero]
        exact (m.worth v).fits_val
    · rw [hworth, hamount]
  · rw [addPiece, hadd]
    refine .overflows (v := v) ?_
    rw [hamount, if_pos hfirst.between]
    exact hfirst.overflows

/-- Disjoint pieces that are added in turn shift each worth once. -/
theorem Sound.shifts_inTurn (hm : m.Sound) (hpieces : Ordered (pieces.map Piece.block)) :
    Shifts m (fun v => weight v (pieces.map Piece.block)) (inTurn addPiece m pieces) := by
  induction pieces generalizing m with
  | nil =>
      refine .fits (fun v => ?_) hm fun v => ?_
      · exact (Int.add_zero _).symm ▸ (m.worth v).fits_val
      · exact (Int.add_zero _).symm
  | cons piece rest ih =>
      have hfirst := hm.shifts_addPiece piece
      cases hadd : m.addPiece piece with
      | error fault =>
          rw [hadd] at hfirst
          rw [inTurn_of_error hadd]
          cases hfirst with
          | @overflows v _ hnot =>
              refine .overflows (v := v) ?_
              have hin : piece.block.Contains v := by
                by_contra hout
                rw [weight_of_not_covered (mt covered_singleton.mp hout), Int.add_zero] at hnot
                exact hnot (m.worth v).fits_val
              rwa [weight_of_mem hpieces (by simp) hin,
                ← weight_of_mem (ascending_singleton (hpieces.proper _ (by simp))).ordered
                  (List.mem_singleton_self _) hin]
      | ok result =>
          rw [hadd] at hfirst
          obtain ⟨hmid, hworth⟩ := hfirst.ok
          have hrest := ih hmid hpieces.tail
          have hsum : ∀ v, (result.1.worth v).val + weight v (rest.map Piece.block) =
              (m.worth v).val + weight v ((piece :: rest).map Piece.block) := by
            intro v
            rw [hworth, List.map_cons, weight_cons, weight_cons, weight_nil]
            omega
          rw [inTurn_of_ok hadd]
          cases hmore : inTurn addPiece result.1 rest with
          | error fault =>
              rw [hmore] at hrest
              cases hrest with
              | overflows hnot => exact .overflows (hsum _ ▸ hnot)
          | ok more =>
              rw [hmore] at hrest
              cases hrest with
              | fits hall hsound hafter =>
                  exact .fits (fun v => hsum v ▸ hall v) hsound fun v => hsum v ▸ hafter v

/-! ### Whole maps -/

theorem Represents.weight_ranges (h : n.Represents q) (v : α) :
    weight v (n.ranges.map Piece.block) = (n.worth v).val := by
  rw [h.map_block, h.val_worth]

theorem Represents.ordered_ranges (h : n.Represents q) : Ordered (n.ranges.map Piece.block) :=
  h.map_block ▸ h.ascending.ordered

theorem Sound.ordered_ranges (h : n.Sound) : Ordered (n.ranges.map Piece.block) := by
  obtain ⟨q, hq⟩ := h
  exact hq.ordered_ranges

theorem Sound.shifts_addMap (hm : m.Sound) (hn : n.Sound) :
    Shifts m (fun v => (n.worth v).val) (m.addMap n) := by
  obtain ⟨q, hq⟩ := hn
  exact (hm.shifts_inTurn hq.ordered_ranges).congr hq.weight_ranges

/-- Some value has the lowest of all worths, which cannot be negated. -/
def HoldsLowest (m : WorthMap α) : Prop := ∃ v, (m.worth v).val = worthFormat.min

theorem Represents.holdsLowest_iff (h : n.Represents q) :
    n.HoldsLowest ↔ ∃ piece ∈ n.ranges, piece.worth.val = worthFormat.min := by
  have hordered := h.ordered_ranges
  refine ⟨fun hlow => ?_, fun hpiece => ?_⟩
  · obtain ⟨v, hv⟩ := hlow
    rw [← h.weight_ranges] at hv
    have hcovered : Covered (n.ranges.map Piece.block) v := by
      by_contra hnot
      rw [weight_of_not_covered hnot] at hv
      exact absurd hv (by decide)
    obtain ⟨b, hb, hbv⟩ := hcovered
    rw [weight_of_mem hordered hb hbv] at hv
    obtain ⟨piece, hmem, rfl⟩ := List.mem_map.mp hb
    exact ⟨piece, hmem, hv⟩
  · obtain ⟨piece, hmem, hlow⟩ := hpiece
    have hb : piece.block ∈ n.ranges.map Piece.block := List.mem_map_of_mem hmem
    have hproper := hordered.proper _ hb
    refine ⟨piece.block.lo, ?_⟩
    rw [← h.weight_ranges, weight_of_mem hordered hb ⟨(le_iff.mp hproper).1, hproper⟩]
    exact hlow

theorem weight_negated (h : ∀ piece ∈ pieces, piece.worth.val ≠ worthFormat.min) (v : α) :
    weight v ((pieces.map Piece.negated).map Piece.block) = -weight v (pieces.map Piece.block) := by
  induction pieces with
  | nil => rfl
  | cons piece rest ih =>
      have hval : piece.negated.block.label.val = -piece.block.label.val :=
        Piece.val_worth_negated (h piece (by simp))
      have hsame : piece.negated.block.Contains v ↔ piece.block.Contains v := Iff.rfl
      simp only [List.map_cons, weight_cons, hval, hsame,
        ih fun d hd => h d (List.mem_cons_of_mem _ hd)]
      split <;> omega

theorem ordered_negated (h : Ordered (pieces.map Piece.block)) :
    Ordered ((pieces.map Piece.negated).map Piece.block) := by
  obtain ⟨hproper, hbefore⟩ := h
  rw [List.pairwise_map] at hbefore
  refine ⟨fun b hb => ?_, ?_⟩
  · rw [List.map_map, List.mem_map] at hb
    obtain ⟨piece, hmem, rfl⟩ := hb
    exact hproper piece.block (List.mem_map_of_mem hmem)
  · rw [List.map_map, List.pairwise_map]
    exact hbefore

theorem removeMap_eq (h : ∀ piece ∈ n.ranges, piece.worth.val ≠ worthFormat.min) :
    m.removeMap n = inTurn addPiece m (n.ranges.map Piece.negated) := by
  refine inTurn_congr (f := removePiece) (fun piece hmem m => ?_) m
  exact remove_eq_add (Piece.val_worth_negated (h piece hmem)) piece.lo piece.hi

theorem Sound.shifts_removeMap (hm : m.Sound) (hn : n.Sound) (hlow : ¬ n.HoldsLowest) :
    Shifts m (fun v => -(n.worth v).val) (m.removeMap n) := by
  obtain ⟨q, hq⟩ := hn
  have hneg : ∀ piece ∈ n.ranges, piece.worth.val ≠ worthFormat.min :=
    fun piece hmem hval => hlow (hq.holdsLowest_iff.mpr ⟨piece, hmem, hval⟩)
  rw [removeMap_eq hneg]
  refine (hm.shifts_inTurn (ordered_negated hq.ordered_ranges)).congr fun v => ?_
  rw [weight_negated hneg, hq.weight_ranges]

theorem remove_lowest {worth : Worth} (h : worth.val = worthFormat.min) (lo hi : α)
    (m : WorthMap α) : m.remove lo hi worth = .error (.negation worth) := by
  rw [WorthMap.remove, neg?_eq_none_iff.mpr h]
  rfl

theorem Sound.exists_removeMap_error_iff (hm : m.Sound) (hn : n.Sound) :
    (∃ fault, m.removeMap n = .error fault) ↔
      n.HoldsLowest ∨ ∃ v, ¬ Fits ((m.worth v).val - (n.worth v).val) := by
  by_cases hlow : n.HoldsLowest
  · refine iff_of_true ?_ (.inl hlow)
    obtain ⟨q, hq⟩ := hn
    obtain ⟨piece, hmem, hval⟩ := hq.holdsLowest_iff.mp hlow
    exact inTurn_error_of_mem (f := removePiece) hmem
      (fun m => ⟨_, remove_lowest hval piece.lo piece.hi m⟩) m
  · rw [or_iff_right hlow, (hm.shifts_removeMap hn hlow).exists_error_iff]
    simp only [Int.sub_eq_add_neg]

/-- Taking away a map comes to no result when some worth in it cannot be negated. -/
theorem Sound.removeMap_ok (hm : m.Sound) (hn : n.Sound) {after : WorthMap α}
    {changes : List (Change α)} (h : m.removeMap n = .ok (after, changes)) :
    after.Sound ∧ ∀ v, (after.worth v).val = (m.worth v).val - (n.worth v).val := by
  have hlow : ¬ n.HoldsLowest := by
    intro hlow
    obtain ⟨fault, hfault⟩ := (hm.exists_removeMap_error_iff hn).mpr (.inl hlow)
    rw [hfault] at h
    cases h
  have hshifts := hm.shifts_removeMap hn hlow
  rw [h] at hshifts
  obtain ⟨hsound, hworth⟩ := hshifts.ok
  exact ⟨hsound, fun v => by rw [hworth, Int.sub_eq_add_neg]⟩

theorem Sound.removeMap_succeeds (hm : m.Sound) (hn : n.Sound) (hlow : ¬ n.HoldsLowest)
    (hfits : ∀ v, Fits ((m.worth v).val - (n.worth v).val)) :
    ∃ after changes, m.removeMap n = .ok (after, changes) := by
  cases hremove : m.removeMap n with
  | error fault =>
      rcases (hm.exists_removeMap_error_iff hn).mp ⟨fault, hremove⟩ with hholds | ⟨v, hnot⟩
      · exact absurd hholds hlow
      · exact absurd (hfits v) hnot
  | ok result => exact ⟨result.1, result.2, rfl⟩

theorem Sound.same_iff (hm : m.Sound) (hn : n.Sound) : m.Same n ↔ ∀ v, m.worth v = n.worth v := by
  obtain ⟨p, hp⟩ := hm
  obtain ⟨q, hq⟩ := hn
  exact hp.same_iff hq

/-- Adding a map comes to a fault exactly when some sum of worths does not fit, and it gives all the
sums otherwise. Taking a map away comes to a fault exactly when the map holds the lowest worth or some
difference does not fit, and it gives all the differences otherwise. So a map without the lowest worth
that was added can be taken away again, which leads back to a map that is the same as the one before,
and taken away from itself it leaves the empty map. -/
theorem whole_maps_added_and_removed (hm : m.Reachable) (hn : n.Reachable) :
    ((∃ fault, m.addMap n = .error fault) ↔ ∃ v, ¬ Fits ((m.worth v).val + (n.worth v).val)) ∧
      (∀ after changes, m.addMap n = .ok (after, changes) →
        ∀ v, (after.worth v).val = (m.worth v).val + (n.worth v).val) ∧
      ((∃ fault, m.removeMap n = .error fault) ↔
        n.HoldsLowest ∨ ∃ v, ¬ Fits ((m.worth v).val - (n.worth v).val)) ∧
      (∀ after changes, m.removeMap n = .ok (after, changes) →
        ∀ v, (after.worth v).val = (m.worth v).val - (n.worth v).val) ∧
      (¬ n.HoldsLowest → ∀ after changes, m.addMap n = .ok (after, changes) →
        ∃ back told, after.removeMap n = .ok (back, told) ∧ back.Same m) ∧
      (¬ m.HoldsLowest → ∃ after changes, m.removeMap m = .ok (after, changes) ∧
        after.IsEmpty ∧ after.Same empty) := by
  have hm := hm.sound
  have hn := hn.sound
  have hadds := hm.shifts_addMap hn
  refine ⟨hadds.exists_error_iff, fun after changes hadd => ?_, hm.exists_removeMap_error_iff hn,
    fun after changes hremove => (hm.removeMap_ok hn hremove).2, fun hlow after changes hadd => ?_,
    fun hlow => ?_⟩
  · rw [hadd] at hadds
    exact hadds.ok.2
  · rw [hadd] at hadds
    obtain ⟨hafter, hsum⟩ := hadds.ok
    have hback : ∀ v, (after.worth v).val - (n.worth v).val = (m.worth v).val := by
      intro v
      rw [hsum]
      omega
    obtain ⟨back, told, hremove⟩ := hafter.removeMap_succeeds hn hlow fun v =>
      hback v ▸ (m.worth v).fits_val
    obtain ⟨hsound, hworth⟩ := hafter.removeMap_ok hn hremove
    exact ⟨back, told, hremove,
      (hsound.same_iff hm).mpr fun v => Fixed.ext ((hworth v).trans (hback v))⟩
  · have hnothing : ∀ v, (m.worth v).val - (m.worth v).val = Worth.zero.val := fun v => Int.sub_self _
    obtain ⟨after, changes, hremove⟩ := hm.removeMap_succeeds hm hlow fun v =>
      hnothing v ▸ Worth.zero.fits_val
    obtain ⟨hsound, hworth⟩ := hm.removeMap_ok hm hremove
    have hzero : ∀ v, after.worth v = Worth.zero :=
      fun v => Fixed.ext ((hworth v).trans (hnothing v))
    exact ⟨after, changes, hremove, hsound.isEmpty_iff.mpr hzero,
      (hsound.same_iff sound_empty).mpr hzero⟩

/-- The worths of 5 doubled and brought back, and then taken away. -/
theorem dented_doubled_and_cleared :
    dented.Reachable ∧ ¬ dented.HoldsLowest ∧
      (∃ after changes back told, dented.addMap dented = .ok (after, changes) ∧
        (after.worth (.ofInt 2)).val = 10 ∧ after.removeMap dented = .ok (back, told) ∧
        back.Same dented) ∧
      ∃ after changes, dented.removeMap dented = .ok (after, changes) ∧ after.IsEmpty := by
  have hlow : ¬ dented.HoldsLowest := by
    obtain ⟨p, hp⟩ := reachable_dented.sound
    rw [hp.holdsLowest_iff]
    decide +kernel
  obtain ⟨_, hsum, _, _, hback, hself⟩ :=
    whole_maps_added_and_removed reachable_dented reachable_dented
  have hok : (dented.addMap dented).toOption.isSome := by decide +kernel
  cases hadd : dented.addMap dented with
  | error fault =>
      rw [hadd] at hok
      cases hok
  | ok result =>
      have hworth := hsum result.1 result.2 hadd (.ofInt 2)
      obtain ⟨back, told, hremove, hsame⟩ := hback hlow result.1 result.2 hadd
      obtain ⟨after, changes, hcleared, hempty, _⟩ := hself hlow
      have hten : (dented.worth (.ofInt 2)).val + (dented.worth (.ofInt 2)).val = 10 := by
        decide +kernel
      exact ⟨reachable_dented, hlow, ⟨result.1, result.2, back, told, rfl, hworth.trans hten,
        hremove, hsame⟩, after, changes, hcleared, hempty⟩

end WorthMap

end RangeSets
