import RangeSets.Proofs.WorthMap.Reachable
import RangeSets.Proofs.Worth
/-!
# Sums that are no worths

An addition adds to each touched entry once, to the worth that the entry had before, in ascending
order. The gaps get the added worth as it is, and what sticks out of the range keeps its worth, so
that nothing but the touched entries can bring an addition to a fault. The first touched entry whose
sum does not fit holds the least value of the range at which the sum does not fit.
-/

namespace RangeSets.WorthMap

open Scale Worth

variable {α : Type} [Scale α] {lo hi v : α} {added : Worth}

/-! ### The first pass -/

theorem spreadEdits_of_none {e : Entry α Worth} (h : add? e.label added = none)
    (above? : Option Nat) (rest : List (Entry α Worth)) :
    spreadEdits above? hi added lo (e :: rest) = .error (.sum e.label added) := by
  rw [spreadEdits, h]
  rfl

theorem spreadEdits_of_some {e : Entry α Worth} {sum : Worth} (h : add? e.label added = some sum)
    (lo hi : α) (above? : Option Nat) (rest : List (Entry α Worth)) :
    spreadEdits above? hi added lo (e :: rest) =
      if hi ≤ e.hi then .ok (entryEdits lo hi added sum e)
      else do return entryEdits lo hi added sum e ++ (← spreadEdits above? hi added (next e.hi) rest) := by
  rw [spreadEdits, h]
  rfl

/-- The first pass comes to an end, or it stops at the first entry whose sum does not fit. -/
theorem spreadEdits_cases {es : List (Entry α Worth)} (hes : Ordered (es.map Entry.block))
    (htouch : ∀ e ∈ es, place e.lo ≤ place hi) (above? : Option Nat) (added : Worth) (lo : α) :
    ((∀ e ∈ es, Fits (e.label.val + added.val)) ∧
        ∃ edits, spreadEdits above? hi added lo es = .ok edits) ∨
      ∃ xs e ys, es = xs ++ e :: ys ∧ (∀ d ∈ xs, Fits (d.label.val + added.val)) ∧
        ¬ Fits (e.label.val + added.val) ∧
        spreadEdits above? hi added lo es = .error (.sum e.label added) := by
  induction es generalizing lo with
  | nil => exact .inl ⟨by simp, _, rfl⟩
  | cons e rest ih =>
      obtain ⟨_, htouchRest⟩ := List.forall_mem_cons.mp htouch
      cases hsum : add? e.label added with
      | none =>
          exact .inr ⟨[], e, rest, rfl, by simp, add?_eq_none_iff.mp hsum,
            spreadEdits_of_none hsum above? rest⟩
      | some sum =>
          have hfits : Fits (e.label.val + added.val) := by
            by_contra hnot
            rw [add?_eq_none_iff.mpr hnot] at hsum
            cases hsum
          have hstep := spreadEdits_of_some hsum lo hi above? rest
          by_cases hlast : hi ≤ e.hi
          · obtain rfl := eq_nil_of_reaches hes (le_iff.mp hlast).2.2 htouchRest
            rw [if_pos hlast] at hstep
            exact .inl ⟨by simpa using hfits, _, hstep⟩
          · rw [if_neg hlast] at hstep
            rcases ih hes.tail htouchRest (next e.hi) with ⟨hall, more, hmore⟩ |
              ⟨xs, d, ys, rfl, hxs, hd, hmore⟩
            · rw [hmore] at hstep
              exact .inl ⟨by simpa using ⟨hfits, hall⟩, _, hstep⟩
            · rw [hmore] at hstep
              exact .inr ⟨e :: xs, d, ys, rfl, by simpa using ⟨hfits, hxs⟩, hd, hstep⟩

/-! ### Worths by the touched entries -/

variable {m : WorthMap α} {p : Layout α Worth}

/-- Within the range only the touched entries count. -/
theorem Represents.val_worth_touched (h : m.Represents p) {cut : Cut α Worth}
    (hfits : cut.Fits lo hi p.entries) (hv : lo ≤ v ∧ v ≤ hi) :
    (m.worth v).val = weight v (cut.touched.map Entry.block) := by
  have hbelow : ¬ Covered (cut.below.map Entry.block) v :=
    fun hcovered => hfits.not_between (.inl hcovered) hv
  have habove : ¬ Covered (cut.above.map Entry.block) v :=
    fun hcovered => hfits.not_between (.inr hcovered) hv
  rw [h.val_worth, Layout.blocks, hfits.entries_eq, List.map_append, List.map_append,
    weight_append, weight_append, weight_of_not_covered hbelow, weight_of_not_covered habove]
  omega

/-- The least value of a range at which the worth and an added one have no sum. -/
structure FirstOverflow (m : WorthMap α) (lo hi : α) (added : Worth) (v : α) : Prop where
  between : lo ≤ v ∧ v ≤ hi
  overflows : ¬ Fits ((m.worth v).val + added.val)
  least : ∀ u, lo ≤ u ∧ u ≤ hi → ¬ Fits ((m.worth u).val + added.val) → v ≤ u

/-- The first touched entry whose sum does not fit begins, within the range, at the least value whose
sum does not fit. -/
theorem Represents.firstOverflow (h : m.Represents p) {cut : Cut α Worth} (hle : lo ≤ hi)
    (hfits : cut.Fits lo hi p.entries) {xs ys : List (Entry α Worth)} {e : Entry α Worth}
    (hsplit : cut.touched = xs ++ e :: ys) (hxs : ∀ d ∈ xs, Fits (d.label.val + added.val))
    (he : ¬ Fits (e.label.val + added.val)) :
    m.FirstOverflow lo hi added (higherOf lo e.lo) ∧ m.worth (higherOf lo e.lo) = e.label := by
  obtain ⟨hlo, hhi, hlohi⟩ := le_iff.mp hle
  have hordered := hfits.ordered_touched h.ascending.ordered
  have hmem : e.block ∈ cut.touched.map Entry.block := by simp [hsplit]
  obtain ⟨htouchLo, htouchHi⟩ := hfits.touched e (by simp [hsplit])
  obtain ⟨heLo, heHi, hproper⟩ := le_iff.mp (hordered.proper e.block hmem)
  simp only [Entry.lo_block, Entry.hi_block] at heLo heHi hproper
  have hstart := comparable_higherOf hlo heLo
  have hplace := place_higherOf hlo heLo
  have hbetween : lo ≤ higherOf lo e.lo ∧ higherOf lo e.lo ≤ hi :=
    ⟨(le_iff_place hlo hstart).mpr (by omega), (le_iff_place hstart hhi).mpr (by omega)⟩
  have hcontains : e.block.Contains (higherOf lo e.lo) :=
    ⟨(le_iff_place heLo hstart).mpr (by omega), (le_iff_place hstart heHi).mpr (by omega)⟩
  have hworth : (m.worth (higherOf lo e.lo)).val = e.label.val := by
    rw [h.val_worth_touched hfits hbetween, weight_of_mem hordered hmem hcontains, Entry.label_block]
  refine ⟨⟨hbetween, by rwa [hworth], fun u hu hover => ?_⟩, Fixed.ext hworth⟩
  -- A value whose sum does not fit has a worth other than zero, so some touched entry holds it.
  have hcovered : Covered (cut.touched.map Entry.block) u := by
    by_contra hnot
    rw [h.val_worth_touched hfits hu, weight_of_not_covered hnot, Int.zero_add] at hover
    exact hover added.fits_val
  obtain ⟨b, hb, hbu⟩ := hcovered
  rw [h.val_worth_touched hfits hu, weight_of_mem hordered hb hbu] at hover
  have hgeLo := (le_iff.mp hu.1).2.2
  have hgeB := (le_iff.mp hbu.1).2.2
  rw [le_iff_place hstart hbu.comparable]
  rw [hsplit, List.map_append, List.map_cons, List.mem_append, List.mem_cons] at hb
  rcases hb with hb | rfl | hb
  · obtain ⟨d, hd, rfl⟩ := List.mem_map.mp hb
    exact absurd (hxs d hd) hover
  · simp only [Entry.lo_block] at hgeB
    omega
  · rw [hsplit, List.map_append, List.map_cons] at hordered
    have hbefore := (List.pairwise_cons.mp (ordered_append.mp hordered).2.1.before).1 b hb
    simp only [Entry.hi_block] at hbefore
    omega

/-! ### Additions -/

/-- An addition comes to a result when all sums of the range fit, and to the fault of the least value
whose sum does not fit when there is one. -/
theorem Represents.add_fault_cases (h : m.Represents p) (lo hi : α) (added : Worth) :
    ((∀ v, lo ≤ v ∧ v ≤ hi → Fits ((m.worth v).val + added.val)) ∧
        ∃ after changes, m.add lo hi added = .ok (after, changes)) ∨
      ∃ v, m.FirstOverflow lo hi added v ∧ m.add lo hi added = .error (.sum (m.worth v) added) := by
  by_cases hdoes : lo ≤ hi ∧ added ≠ Worth.zero
  · have hfits := Cut.of_fits h.ascending.ordered hdoes.1
    have hordered := hfits.ordered_touched h.ascending.ordered
    rw [WorthMap.add, if_pos hdoes, h.holds.entries_eq]
    dsimp only
    rcases spreadEdits_cases hordered (fun e he => (hfits.touched e he).2)
      ((Cut.of lo hi p.entries).above.head?.map Entry.slot) added lo with
      ⟨hall, edits, hspread⟩ | ⟨xs, e, ys, hsplit, hxs, he, hspread⟩
    · rw [hspread]
      refine .inl ⟨fun v hv => ?_, _, _, rfl⟩
      rw [h.val_worth_touched hfits hv]
      by_cases hcovered : Covered ((Cut.of lo hi p.entries).touched.map Entry.block) v
      · obtain ⟨b, hb, hbv⟩ := hcovered
        rw [weight_of_mem hordered hb hbv]
        obtain ⟨e, he, rfl⟩ := List.mem_map.mp hb
        exact hall e he
      · rw [weight_of_not_covered hcovered, Int.zero_add]
        exact added.fits_val
    · obtain ⟨hfirst, hworth⟩ := h.firstOverflow hdoes.1 hfits hsplit hxs he
      rw [hspread]
      exact .inr ⟨_, hfirst, by rw [hworth]; rfl⟩
  · rw [WorthMap.add, if_neg hdoes]
    refine .inl ⟨fun v hv => ?_, _, _, rfl⟩
    have hzero : added = Worth.zero := by
      by_cases hle : lo ≤ hi
      · exact Classical.not_not.mp fun hne => hdoes ⟨hle, hne⟩
      · exact absurd hv (not_between hle v)
    rw [hzero, val_zero, Int.add_zero]
    exact (m.worth v).fits_val

theorem Sound.add_fault_cases (h : m.Sound) (lo hi : α) (added : Worth) :
    ((∀ v, lo ≤ v ∧ v ≤ hi → Fits ((m.worth v).val + added.val)) ∧
        ∃ after changes, m.add lo hi added = .ok (after, changes)) ∨
      ∃ v, m.FirstOverflow lo hi added v ∧ m.add lo hi added = .error (.sum (m.worth v) added) := by
  obtain ⟨p, hp⟩ := h
  exact hp.add_fault_cases lo hi added

theorem Sound.exists_add_error_iff (h : m.Sound) :
    (∃ fault, m.add lo hi added = .error fault) ↔
      ∃ v, (lo ≤ v ∧ v ≤ hi) ∧ ¬ Fits ((m.worth v).val + added.val) := by
  rcases h.add_fault_cases lo hi added with ⟨hall, after, changes, hadd⟩ | ⟨v, hfirst, hadd⟩
  · rw [hadd]
    refine iff_of_false (fun hfault => ?_) fun hover => ?_
    · obtain ⟨fault, hfault⟩ := hfault
      cases hfault
    · obtain ⟨v, hv, hnot⟩ := hover
      exact hnot (hall v hv)
  · exact iff_of_true ⟨_, hadd⟩ ⟨v, hfirst.between, hfirst.overflows⟩

/-- Taking a worth away is adding its negation, where it has one. -/
theorem remove_eq_add {negated worth : Worth} (h : negated.val = -worth.val) (lo hi : α) :
    m.remove lo hi worth = m.add lo hi negated := by
  have hneg : neg? worth = some negated := Fixed.ofInt?_eq_some_iff.mpr h
  rw [WorthMap.remove, hneg]
  rfl

/-- Adding a worth to a range comes to a fault exactly when the range holds a value at which the sum
does not fit. The fault then names the worth at the least such value and the added one. Otherwise each
value of the range gets its sum, which in a gap is the added worth, and no other worth moves. Taking
away a worth that can be negated is adding its negation, with the same faults. -/
theorem add_overflows_iff (hm : m.Reachable) (lo hi : α) (worth : Worth) :
    ((∃ fault, m.add lo hi worth = .error fault) ↔
        lo ≤ hi ∧ ∃ v, (lo ≤ v ∧ v ≤ hi) ∧ ¬ Fits ((m.worth v).val + worth.val)) ∧
      (∀ fault, m.add lo hi worth = .error fault →
        ∃ v, m.FirstOverflow lo hi worth v ∧ fault = .sum (m.worth v) worth ∧
          fault.message = "Worth overflow: " ++ toString (m.worth v) ++ " + " ++ toString worth ++
            " does not fit in an i32.") ∧
      (∀ after changes, m.add lo hi worth = .ok (after, changes) → ∀ v,
        (lo ≤ v ∧ v ≤ hi → (after.worth v).val = (m.worth v).val + worth.val) ∧
          (¬ (lo ≤ v ∧ v ≤ hi) → after.worth v = m.worth v)) ∧
      (worth.val ≠ worthFormat.min → ∃ negated : Worth, negated.val = -worth.val ∧
        m.remove lo hi worth = m.add lo hi negated ∧
        ((∃ fault, m.remove lo hi worth = .error fault) ↔
          ∃ fault, m.add lo hi negated = .error fault)) := by
  have hm := hm.sound
  refine ⟨?_, fun fault hadd => ?_, fun after changes hadd v => ?_, fun hne => ?_⟩
  · rw [hm.exists_add_error_iff, iff_and_self]
    intro hover
    obtain ⟨v, hv, _⟩ := hover
    by_contra hle
    exact not_between hle v hv
  · rcases hm.add_fault_cases lo hi worth with ⟨_, after, changes, hok⟩ | ⟨v, hfirst, hfault⟩
    · rw [hok] at hadd
      cases hadd
    · rw [hfault] at hadd
      cases hadd
      exact ⟨v, hfirst, rfl, rfl⟩
  · have hworth := (hm.add hadd).2 v
    refine ⟨fun hv => ?_, fun hv => Fixed.ext ?_⟩
    · rw [hworth, if_pos hv]
    · rw [hworth, if_neg hv, Int.add_zero]
  · obtain ⟨negated, hnegated⟩ : ∃ negated, neg? worth = some negated := by
      rw [← Option.ne_none_iff_exists']
      exact fun hnone => hne (neg?_eq_none_iff.mp hnone)
    have hval := Fixed.ofInt?_eq_some_iff.mp hnegated
    have heq := remove_eq_add (m := m) hval lo hi
    exact ⟨negated, hval, heq, by rw [heq]⟩

/-- The greatest worth goes into the gap from 3 to 6, but not on top of the worth of 7. -/
theorem overflow_behind_gap :
    dented.Reachable ∧
      dented.add (.ofInt 3) (.ofInt 8) (.ofInt 2147483647) =
        .error (.sum (.ofInt 5) (.ofInt 2147483647)) ∧
      (∃ v : Octet, (.ofInt 3 ≤ v ∧ v ≤ .ofInt 8) ∧ ¬ Fits ((dented.worth v).val + 2147483647)) ∧
      ∃ v : Octet, dented.FirstOverflow (.ofInt 3) (.ofInt 8) (.ofInt 2147483647) v ∧
        dented.worth v = .ofInt 5 := by
  have hfault : dented.add (.ofInt 3) (.ofInt 8) (.ofInt 2147483647) =
      .error (.sum (.ofInt 5) (.ofInt 2147483647)) := by
    decide +kernel
  obtain ⟨hiff, hnamed, _⟩ :=
    add_overflows_iff reachable_dented (.ofInt 3) (.ofInt 8) (.ofInt 2147483647)
  obtain ⟨v, hfirst, hnames, _⟩ := hnamed _ hfault
  exact ⟨reachable_dented, hfault, (hiff.mp ⟨_, hfault⟩).2, v, hfirst, (Fault.sum.inj hnames).1.symm⟩

end RangeSets.WorthMap
