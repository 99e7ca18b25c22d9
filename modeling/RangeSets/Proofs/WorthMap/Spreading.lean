import RangeSets.Proofs.Fault
import RangeSets.Proofs.WorthMap.Contents
/-!
# Spreading a worth

The first pass of an addition goes over the touched entries from below and keeps the value that it
has come to. At each entry it fills the gap before it, cuts off what sticks out on either side, and
adds the worth to the rest. What it makes are blocks in order whose weights are the old ones, raised
by the added worth between the ends of the range.

All that it makes ends at or below the upper end of the range, but for a last part that may stick
out there. That part is what the entry had before, so it goes with what is above as the entry did.
-/

namespace RangeSets.WorthMap

open Scale Layout

variable {α : Type}

section Edits

variable [Scale α]

/-! ### The edits at one entry -/

/-- The value that an entry is entered at. -/
def entryPoint (lo : α) (e : Entry α Worth) : α := if lo < e.lo then e.lo else lo

/-- The edits that the first pass makes at an entry that it comes to from `lo`. -/
def entryEdits (lo hi : α) (added sum : Worth) (e : Entry α Worth) : List (Edit α Worth) :=
  (if lo < e.lo then [.placeBefore (some e.slot) lo (prev e.lo) added] else []) ++
    (if e.lo < entryPoint lo e then
      [.placeBefore (some e.slot) e.lo (prev (entryPoint lo e)) e.label,
        .setLo e.slot (entryPoint lo e)]
    else []) ++
    (if hi < e.hi then
      [.placeAfter (some e.slot) (next hi) e.hi e.label, .setHi e.slot hi]
    else []) ++
    [.setLabel e.slot sum]

theorem spreadEdits_cons {above? : Option Nat} {lo hi : α} {added : Worth} {e : Entry α Worth}
    {rest : List (Entry α Worth)} {edits : List (Edit α Worth)}
    (h : spreadEdits above? hi added lo (e :: rest) = .ok edits) :
    ∃ sum : Worth, sum.val = e.label.val + added.val ∧
      ((hi ≤ e.hi ∧ edits = entryEdits lo hi added sum e) ∨
        (¬ hi ≤ e.hi ∧ ∃ more, spreadEdits above? hi added (next e.hi) rest = .ok more ∧
          edits = entryEdits lo hi added sum e ++ more)) := by
  rw [spreadEdits] at h
  obtain ⟨sum, hadd, hrest⟩ := exists_of_bind_eq_ok h
  rw [Worth.orFault_eq_ok_iff] at hadd
  refine ⟨sum, Fixed.ofInt?_eq_some_iff.mp hadd, ?_⟩
  by_cases hle : hi ≤ e.hi
  · rw [if_pos hle] at hrest
    exact .inl ⟨hle, (Except.ok.inj hrest).symm⟩
  · rw [if_neg hle] at hrest
    obtain ⟨more, hmore, hedits⟩ := exists_of_bind_eq_ok hrest
    exact .inr ⟨hle, more, hmore, (Except.ok.inj hedits).symm⟩

/-- What is left of an entry between the value that it is entered at and the end of the range. -/
def middle (lo hi : α) (sum : Worth) (e : Entry α Worth) : Entry α Worth where
  slot := e.slot
  lo := if e.lo < entryPoint lo e then entryPoint lo e else e.lo
  hi := if hi < e.hi then hi else e.hi
  label := sum

variable (xs : List (Entry α Worth)) (e : Entry α Worth) (ys : List (Entry α Worth))
  (spares : List Nat)

theorem steps_gap (lo hi : α) (added : Worth) :
    ∃ gs rest, Steps ⟨xs ++ e :: ys, spares⟩
        (if lo < e.lo then [.placeBefore (some e.slot) lo (prev e.lo) added] else [])
        ⟨xs ++ gs ++ e :: ys, rest⟩ ∧
      gs.map Entry.block = (⟨lo, hi, added⟩ : Block α Worth).below e.lo := by
  by_cases hlt : lo < e.lo
  · obtain ⟨n, hplaced⟩ := Step.placeBefore_entry xs e ys spares lo (prev e.lo) added
    rw [if_pos hlt, Block.below_of_lt hlt]
    exact ⟨_, _, hplaced.single, rfl⟩
  · rw [if_neg hlt, Block.below_of_not_lt hlt]
    exact ⟨[], spares, by simpa using Steps.nil _, rfl⟩

theorem steps_head (v : α) :
    ∃ hs rest, Steps ⟨xs ++ e :: ys, spares⟩
        (if e.lo < v then
          [.placeBefore (some e.slot) e.lo (prev v) e.label, .setLo e.slot v] else [])
        ⟨xs ++ hs ++ { e with lo := if e.lo < v then v else e.lo } :: ys, rest⟩ ∧
      hs.map Entry.block = e.block.below v := by
  by_cases hlt : e.lo < v
  · obtain ⟨n, hplaced⟩ := Step.placeBefore_entry xs e ys spares e.lo (prev v) e.label
    rw [if_pos hlt, if_pos hlt, Block.below_of_lt hlt]
    exact ⟨_, _, .cons hplaced (Step.setLo _ e ys _ v).single, rfl⟩
  · rw [if_neg hlt, if_neg hlt, Block.below_of_not_lt hlt]
    exact ⟨[], spares, by simpa using Steps.nil _, rfl⟩

theorem steps_tail (v : α) :
    ∃ ts rest, Steps ⟨xs ++ e :: ys, spares⟩
        (if v < e.hi then
          [.placeAfter (some e.slot) (next v) e.hi e.label, .setHi e.slot v] else [])
        ⟨xs ++ { e with hi := if v < e.hi then v else e.hi } :: (ts ++ ys), rest⟩ ∧
      ts.map Entry.block = e.block.above v := by
  by_cases hlt : v < e.hi
  · obtain ⟨n, hplaced⟩ := Step.placeAfter_entry xs e ys spares (next v) e.hi e.label
    simp only [List.append_assoc, List.cons_append, List.nil_append] at hplaced
    rw [if_pos hlt, if_pos hlt, Block.above_of_lt hlt]
    exact ⟨[_], _, .cons hplaced (Step.setHi xs e _ _ v).single, rfl⟩
  · rw [if_neg hlt, if_neg hlt, Block.above_of_not_lt hlt]
    exact ⟨[], spares, by simpa using Steps.nil _, rfl⟩

theorem steps_entryEdits (lo hi : α) (added sum : Worth) :
    ∃ fs ts rest, Steps ⟨xs ++ e :: ys, spares⟩ (entryEdits lo hi added sum e)
        ⟨xs ++ (fs ++ middle lo hi sum e :: ts) ++ ys, rest⟩ ∧
      fs.map Entry.block = (⟨lo, hi, added⟩ : Block α Worth).below e.lo ++
        e.block.below (entryPoint lo e) ∧
      ts.map Entry.block = e.block.above hi := by
  obtain ⟨gs, sparesGap, hgap, hgs⟩ := steps_gap xs e ys spares lo hi added
  obtain ⟨hs, sparesHead, hhead, hhs⟩ := steps_head (xs ++ gs) e ys sparesGap (entryPoint lo e)
  obtain ⟨ts, rest, htail, hts⟩ := steps_tail (xs ++ gs ++ hs)
    { e with lo := if e.lo < entryPoint lo e then entryPoint lo e else e.lo } ys sparesHead hi
  refine ⟨gs ++ hs, ts, rest, ?_, by rw [List.map_append, hgs, hhs], hts⟩
  have hlabel := Step.setLabel (xs ++ gs ++ hs)
    { middle lo hi sum e with label := e.label } (ts ++ ys) rest sum
  have hall := ((hgap.append hhead).append htail).append hlabel.single
  simp only [entryEdits, List.append_assoc, List.cons_append] at hall ⊢
  exact hall

end Edits

/-! ### The blocks made of one entry -/

variable [Scale α] {lo hi : α} {added : Worth} {e : Entry α Worth}

theorem middle_spec (sum : Worth) (hle : lo ≤ hi) (he : e.lo ≤ e.hi)
    (htouch : place lo ≤ place e.hi ∧ place e.lo ≤ place hi) :
    (middle lo hi sum e).lo ≤ (middle lo hi sum e).hi ∧
      place (middle lo hi sum e).lo = Max.max (place lo) (place e.lo) ∧
      place (middle lo hi sum e).hi = Min.min (place hi) (place e.hi) := by
  obtain ⟨hlo, hhi, hlohi⟩ := le_iff.mp hle
  obtain ⟨heLo, heHi, helohi⟩ := le_iff.mp he
  have hfirst : Comparable (middle lo hi sum e).lo ∧
      place (middle lo hi sum e).lo = Max.max (place lo) (place e.lo) := by
    unfold middle entryPoint
    simp only [lt_iff_place hlo heLo]
    split <;> simp only [lt_iff_place heLo heLo, lt_iff_place heLo hlo] <;> split <;>
      exact ⟨by assumption, by omega⟩
  have hlast : Comparable (middle lo hi sum e).hi ∧
      place (middle lo hi sum e).hi = Min.min (place hi) (place e.hi) := by
    unfold middle
    simp only [lt_iff_place hhi heHi]
    split <;> exact ⟨by assumption, by omega⟩
  refine ⟨(le_iff_place hfirst.1 hlast.1).mpr ?_, hfirst.2, hlast.2⟩
  omega

/-- What stands before the rest of an entry: the gap below the entry or the part of it that sticks
out below, whichever there is. -/
def lead (lo hi : α) (added : Worth) (e : Entry α Worth) : List (Block α Worth) :=
  (⟨lo, hi, added⟩ : Block α Worth).below e.lo ++ e.block.below (entryPoint lo e)

theorem lead_spec (added : Worth) (hle : lo ≤ hi) (he : e.lo ≤ e.hi)
    (htouch : place lo ≤ place e.hi ∧ place e.lo ≤ place hi) :
    Ordered (lead lo hi added e) ∧
      (∀ c ∈ lead lo hi added e, place c.lo = Min.min (place lo) (place e.lo) ∧
        place c.hi + 1 = Max.max (place lo) (place e.lo)) ∧
      ∀ v, Comparable v → weight v (lead lo hi added e) =
        (if place e.lo ≤ place v ∧ place v < place lo then e.label.val else 0) +
          if place lo ≤ place v ∧ place v < place e.lo then added.val else 0 := by
  obtain ⟨hlo, hhi, hlohi⟩ := le_iff.mp hle
  obtain ⟨heLo, heHi, helohi⟩ := le_iff.mp he
  by_cases hlt : lo < e.lo
  · have hplace := (lt_iff_place hlo heLo).mp hlt
    have hself : ¬ e.lo < e.lo := fun h => by have := (lt_iff.mp h).2.2; omega
    have hlead : lead lo hi added e = (⟨lo, hi, added⟩ : Block α Worth).below e.lo := by
      simp [lead, entryPoint, hlt, Block.below, hself]
    rw [hlead]
    refine ⟨(Block.ascending_below ..).ordered, fun c hc => ?_, fun v hv => ?_⟩
    · have := Block.place_of_mem_below hc
      simp only at this
      omega
    · rw [weight_below hle heLo htouch.2 hv]
      simp only
      rw [if_neg (show ¬ (place e.lo ≤ place v ∧ place v < place lo) by omega), Int.zero_add]
  · have hplace := mt (lt_iff_place hlo heLo).mpr hlt
    have hlead : lead lo hi added e = e.block.below lo := by
      rw [lead, entryPoint, if_neg hlt, Block.below, if_neg hlt, List.nil_append]
    rw [hlead]
    refine ⟨(Block.ascending_below ..).ordered, fun c hc => ?_, fun v hv => ?_⟩
    · have := Block.place_of_mem_below hc
      simp only [Entry.lo_block] at this
      omega
    · rw [weight_below he hlo htouch.1 hv]
      rw [Entry.lo_block, Entry.label_block,
        if_neg (show ¬ (place lo ≤ place v ∧ place v < place e.lo) by omega), Int.add_zero]

/-- The blocks that are made of an entry up to the end of the range: they are in order and end where
both the range and the entry do, or before, and they weigh what the entry did and what is added. -/
structure Front (lo hi : α) (added : Worth) (b : Block α Worth) (fs : List (Block α Worth)) :
    Prop where
  ordered : Ordered fs
  le_lo : ∀ c ∈ fs, ∀ n, n ≤ place lo → n ≤ place b.lo → n ≤ place c.lo
  hi_le : ∀ c ∈ fs, place c.hi ≤ place hi ∧ place c.hi ≤ place b.hi
  weight_eq : ∀ v, Comparable v → weight v fs =
    (if place b.lo ≤ place v ∧ place v ≤ place hi ∧ place v ≤ place b.hi then b.label.val else 0) +
      if place lo ≤ place v ∧ place v ≤ place hi ∧ place v ≤ place b.hi then added.val else 0

theorem front_entry {sum : Worth} (hle : lo ≤ hi) (he : e.lo ≤ e.hi)
    (htouch : place lo ≤ place e.hi ∧ place e.lo ≤ place hi)
    (hsum : sum.val = e.label.val + added.val) :
    Front lo hi added e.block (lead lo hi added e ++ [(middle lo hi sum e).block]) := by
  obtain ⟨hmiddle, hmiddleLo, hmiddleHi⟩ := middle_spec sum hle he htouch
  obtain ⟨hordered, hends, hweight⟩ := lead_spec added hle he htouch
  have hlohi := (le_iff.mp hle).2.2
  have helohi := (le_iff.mp he).2.2
  refine ⟨?_, fun c hc n hnLo hnE => ?_, fun c hc => ?_, fun v hv => ?_⟩
  · refine ordered_append.mpr ⟨hordered, (ascending_singleton hmiddle).ordered, fun c hc d hd => ?_⟩
    obtain rfl := List.mem_singleton.mp hd
    have := hends c hc
    simp only [Entry.lo_block]
    omega
  · rw [Entry.lo_block] at hnE
    rcases List.mem_append.mp hc with hc | hc
    · have := hends c hc
      omega
    · obtain rfl := List.mem_singleton.mp hc
      simp only [Entry.lo_block]
      omega
  · rw [Entry.hi_block]
    rcases List.mem_append.mp hc with hc | hc
    · have := hends c hc
      omega
    · obtain rfl := List.mem_singleton.mp hc
      simp only [Entry.hi_block]
      omega
  · have hmid := weight_singleton (b := (middle lo hi sum e).block) hmiddle hv
    have hlabel : (middle lo hi sum e).block.label = sum := rfl
    simp only [Entry.lo_block, Entry.hi_block, hmiddleLo, hmiddleHi, hlabel, hsum] at hmid
    simp only [weight_append, hweight v hv, hmid, Entry.lo_block, Entry.hi_block,
      Entry.label_block]
    grind

/-! ### The blocks made of all entries -/

/-- What spreading a worth makes of blocks: `ins` lie below the end of the range and `outs` above
it. -/
structure Spread (lo hi : α) (added : Worth) (bs ins outs : List (Block α Worth)) : Prop where
  ordered : Ordered (ins ++ outs)
  le_lo : ∀ c ∈ ins ++ outs, ∀ n, n ≤ place lo → (∀ b ∈ bs, n ≤ place b.lo) → n ≤ place c.lo
  ins_le : ∀ c ∈ ins, place c.hi ≤ place hi
  lt_outs : ∀ c ∈ outs, place hi < place c.lo
  outs_ascending : Ascending outs
  /-- What sticks out ends as some block did and has its label. -/
  outs_end : ∀ c ∈ outs, ∃ b ∈ bs, place c.hi = place b.hi ∧ c.label = b.label
  weight_eq : ∀ v, weight v (ins ++ outs) =
    weight v bs + if lo ≤ v ∧ v ≤ hi then added.val else 0

theorem spread_nil (hle : lo ≤ hi) : Spread lo hi added [] [⟨lo, hi, added⟩] [] where
  ordered := (ascending_singleton hle).ordered
  le_lo := by simp
  ins_le := by simp
  lt_outs := by simp
  outs_ascending := Ascending.nil
  outs_end := by simp
  weight_eq := by
    intro v
    by_cases hv : lo ≤ v ∧ v ≤ hi <;> simp [Block.Contains, hv]

theorem Front.spread_last {b : Block α Worth} {fs : List (Block α Worth)}
    (hle : lo ≤ hi) (hb : b.lo ≤ b.hi) (htouch : place b.lo ≤ place hi)
    (hreach : place hi ≤ place b.hi) (hfront : Front lo hi added b fs) :
    Spread lo hi added [b] fs (b.above hi) where
  ordered := by
    refine ordered_append.mpr ⟨hfront.ordered, (b.ascending_above hi).ordered, fun c hc d hd => ?_⟩
    have := hfront.hi_le c hc
    have := Block.place_of_mem_above hd
    omega
  le_lo := by
    intro c hc n hnLo hnb
    have hn := hnb b (by simp)
    rcases List.mem_append.mp hc with hc | hc
    · exact hfront.le_lo c hc n hnLo hn
    · have := Block.place_of_mem_above hc
      omega
  ins_le c hc := (hfront.hi_le c hc).1
  lt_outs := by
    intro c hc
    have := Block.place_of_mem_above hc
    omega
  outs_ascending := b.ascending_above hi
  outs_end := by
    intro c hc
    obtain ⟨_, _, hend, hlabel⟩ := Block.place_of_mem_above hc
    exact ⟨b, by simp, hend, hlabel⟩
  weight_eq := by
    intro v
    obtain ⟨hlo, hhi, _⟩ := le_iff.mp hle
    by_cases hv : Comparable v
    · rw [weight_append, hfront.weight_eq v hv, weight_above hb hhi htouch hv,
        weight_singleton hb hv]
      simp only [le_iff_place hlo hv, le_iff_place hv hhi]
      grind
    · have hnot : ¬ (lo ≤ v ∧ v ≤ hi) := fun h => hv (le_iff.mp h.1).2.1
      rw [weight_of_not_comparable hv, weight_of_not_comparable hv, if_neg hnot]
      rfl

theorem Front.spread_cons {b : Block α Worth} {fs bs ins outs : List (Block α Worth)}
    (hle : lo ≤ hi) (hb : b.lo ≤ b.hi) (hlast : b.hi < hi)
    (hbefore : ∀ c ∈ bs, place b.hi < place c.lo) (hreach : place lo ≤ place b.hi)
    (hfront : Front lo hi added b fs)
    (hrest : Spread (next b.hi) hi added bs ins outs) :
    Spread lo hi added (b :: bs) (fs ++ ins) outs := by
  obtain ⟨hlo, hhi, _⟩ := le_iff.mp hle
  obtain ⟨hbLo, hbHi, hblohi⟩ := le_iff.mp hb
  have hnext := place_next_of_lt hlast
  have hend := (lt_iff.mp hlast).2.2
  have hafter : ∀ c ∈ ins ++ outs, place b.hi + 1 ≤ place c.lo := fun c hc =>
    hrest.le_lo c hc _ (by omega) hbefore
  refine ⟨?_, fun c hc n hnLo hnb => ?_, fun c hc => ?_, hrest.lt_outs, hrest.outs_ascending,
    fun c hc => ?_, fun v => ?_⟩
  · rw [List.append_assoc]
    refine ordered_append.mpr ⟨hfront.ordered, hrest.ordered, fun c hc d hd => ?_⟩
    have := (hfront.hi_le c hc).2
    have := hafter d hd
    omega
  · have hn := hnb b (by simp)
    rw [List.append_assoc] at hc
    rcases List.mem_append.mp hc with hc | hc
    · exact hfront.le_lo c hc n hnLo hn
    · have := hafter c hc
      omega
  · rcases List.mem_append.mp hc with hc | hc
    · exact (hfront.hi_le c hc).1
    · exact hrest.ins_le c hc
  · obtain ⟨d, hd, hhi, hlabel⟩ := hrest.outs_end c hc
    exact ⟨d, List.mem_cons_of_mem _ hd, hhi, hlabel⟩
  · rw [List.append_assoc, weight_append, hrest.weight_eq, weight_cons]
    by_cases hv : Comparable v
    · simp only [hfront.weight_eq v hv, Block.contains_iff hb hv, le_iff_place hlo hv,
        le_iff_place hv hhi, le_iff_place (comparable_next hbHi) hv]
      grind
    · have hnot : ¬ (lo ≤ v ∧ v ≤ hi) := fun h => hv (le_iff.mp h.1).2.1
      have hnotNext : ¬ (next b.hi ≤ v ∧ v ≤ hi) := fun h => hv (le_iff.mp h.1).2.1
      have hnotIn : ¬ b.Contains v := fun h => hv h.comparable
      rw [weight_of_not_comparable hv, if_neg hnot, if_neg hnotNext, if_neg hnotIn]
      omega

/-- The entries behind one that ends within the range are touched by what remains of the range. -/
theorem touched_rest {rest : List (Entry α Worth)} (hes : Ordered ((e :: rest).map Entry.block))
    (hend : e.hi < hi) (htouch : ∀ d ∈ rest, place d.lo ≤ place hi) :
    ∀ d ∈ rest, place (next e.hi) ≤ place d.hi ∧ place d.lo ≤ place hi := by
  intro d hd
  have hnext := place_next_of_lt hend
  have hmem : d.block ∈ rest.map Entry.block := List.mem_map_of_mem hd
  have hbefore := (List.pairwise_cons.mp hes.before).1 d.block hmem
  have hproper := (le_iff.mp (hes.tail.proper d.block hmem)).2.2
  have := htouch d hd
  simp only [Entry.lo_block, Entry.hi_block] at hbefore hproper
  omega

/-- The first pass turns the touched entries into what spreading makes of their blocks. -/
theorem exists_spread {es ys : List (Entry α Worth)} {edits : List (Edit α Worth)}
    (hes : Ordered (es.map Entry.block)) (hle : lo ≤ hi)
    (htouch : ∀ e ∈ es, place lo ≤ place e.hi ∧ place e.lo ≤ place hi)
    (h : spreadEdits (firstSlot ys none) hi added lo es = .ok edits)
    (xs : List (Entry α Worth)) (spares : List Nat) :
    ∃ ins outs rest, Steps ⟨xs ++ (es ++ ys), spares⟩ edits ⟨xs ++ (ins ++ outs ++ ys), rest⟩ ∧
      Spread lo hi added (es.map Entry.block) (ins.map Entry.block) (outs.map Entry.block) := by
  induction es generalizing lo xs spares edits with
  | nil =>
      obtain rfl := Except.ok.inj h
      have hplaced := Step.placeBefore xs ys spares lo hi added
      exact ⟨[_], [], _, hplaced.single, spread_nil hle⟩
  | cons e rest ih =>
      obtain ⟨_, hhi, _⟩ := le_iff.mp hle
      have he : e.lo ≤ e.hi := hes.proper e.block (by simp)
      obtain ⟨_, heHi, _⟩ := le_iff.mp he
      have htouchE := htouch e (by simp)
      have htouchRest : ∀ d ∈ rest, place d.lo ≤ place hi :=
        fun d hd => (htouch d (List.mem_cons_of_mem _ hd)).2
      obtain ⟨sum, hsum, hcases⟩ := spreadEdits_cons h
      have hfront := front_entry (e := e) hle he htouchE hsum
      rcases hcases with ⟨hlast, rfl⟩ | ⟨hnot, more, hmore, rfl⟩
      · have hreach := (le_iff.mp hlast).2.2
        obtain rfl := eq_nil_of_reaches hes hreach htouchRest
        obtain ⟨fs, ts, spares', hsteps, hfs, hts⟩ := steps_entryEdits xs e ys spares lo hi added sum
        refine ⟨fs ++ [middle lo hi sum e], ts, spares', by simpa using hsteps, ?_⟩
        rw [hts, List.map_append, hfs]
        exact hfront.spread_last hle he htouchE.2 hreach
      · rw [le_iff_place hhi heHi] at hnot
        have hend : e.hi < hi := (lt_iff_place heHi hhi).mpr (by omega)
        have hplace := place_next_of_lt hend
        have hnext : next e.hi ≤ hi := (le_iff_place (comparable_next heHi) hhi).mpr (by omega)
        obtain ⟨fs, ts, spares', hsteps, hfs, hts⟩ :=
          steps_entryEdits xs e (rest ++ ys) spares lo hi added sum
        have hover : ¬ hi < e.block.hi := fun h => by
          have := (lt_iff.mp h).2.2
          simp only [Entry.hi_block] at this
          omega
        rw [Block.above, if_neg hover, List.map_eq_nil_iff] at hts
        subst hts
        obtain ⟨ins, outs, rest', hmoreSteps, hspread⟩ :=
          ih hes.tail hnext (touched_rest hes hend htouchRest) hmore
            (xs ++ (fs ++ [middle lo hi sum e])) spares'
        refine ⟨fs ++ [middle lo hi sum e] ++ ins, outs, rest', ?_, ?_⟩
        · simp only [List.append_assoc, List.cons_append, List.nil_append] at hsteps hmoreSteps ⊢
          exact hsteps.append hmoreSteps
        · have hbefore := (List.pairwise_cons.mp hes.before).1
          rw [List.map_append, List.map_append, hfs]
          exact hfront.spread_cons hle he hend hbefore htouchE.1 hspread

end RangeSets.WorthMap
