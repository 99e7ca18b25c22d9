import RangeSets.Proofs.Chain.Layout
/-!
# Splicing a chain

Every edit of a chain at a place that it has is an edit of its layout. Links are set on one side of
the place at a time: a link written to the last slot before the place leaves all that stands behind
it as it was, and the other way round, because no slot is on both sides.

`Step` says which edits a layout allows and what comes of them; `Holds.step` is the fact that the
chain follows. The slot that an insertion uses is the top of the stack of spare slots, and a new one
only when the stack is empty.
-/

namespace RangeSets

variable {α β : Type}

namespace Chain

/-! ### What an edit of links leaves alone -/

section Frames

variable (c : Chain α) (i? j? : Option Nat) (i : Nat) (f : Slot α → Slot α)

@[simp] theorem head_modify : (c.modify i f).head = c.head := rfl

@[simp] theorem tail_modify : (c.modify i f).tail = c.tail := rfl

@[simp] theorem spare_modify : (c.modify i f).spare = c.spare := rfl

@[simp] theorem size_modify : (c.modify i f).size = c.size := rfl

@[simp] theorem slots_size_modify : (c.modify i f).slots.size = c.slots.size :=
  Array.size_modify

theorem slots_modify (k : Nat) :
    (c.modify i f).slots[k]? = if i = k then c.slots[k]?.map f else c.slots[k]? :=
  Array.getElem?_modify

@[simp] theorem tail_setNext : (c.setNext i? j?).tail = c.tail := by
  cases i? <;> rfl

@[simp] theorem spare_setNext : (c.setNext i? j?).spare = c.spare := by
  cases i? <;> rfl

@[simp] theorem slots_size_setNext : (c.setNext i? j?).slots.size = c.slots.size := by
  cases i? <;> simp [setNext]

@[simp] theorem head_setPrev : (c.setPrev i? j?).head = c.head := by
  cases i? <;> rfl

@[simp] theorem spare_setPrev : (c.setPrev i? j?).spare = c.spare := by
  cases i? <;> rfl

@[simp] theorem slots_size_setPrev : (c.setPrev i? j?).slots.size = c.slots.size := by
  cases i? <;> simp [setPrev]

variable {c i?}

theorem slots_setNext_of_ne {k : Nat} (hne : i? ≠ some k) :
    (c.setNext i? j?).slots[k]? = c.slots[k]? := by
  cases i? with
  | none => rfl
  | some i => rw [setNext, slots_modify, if_neg fun h => hne (by rw [h])]

theorem slots_setPrev_of_ne {k : Nat} (hne : i? ≠ some k) :
    (c.setPrev i? j?).slots[k]? = c.slots[k]? := by
  cases i? with
  | none => rfl
  | some i => rw [setPrev, slots_modify, if_neg fun h => hne (by rw [h])]

end Frames

/-! ### Links at a place -/

variable {c : Chain α} {xs ys : List (Entry α β)}

theorem LeadsTo.setNext {after? : Option Nat} (h : c.LeadsTo xs after?)
    (hnodup : (xs.map Entry.slot).Nodup) (j? : Option Nat) :
    (c.setNext (lastSlot none xs) j?).LeadsTo xs j? := by
  rcases List.eq_nil_or_concat xs with rfl | ⟨zs, e, rfl⟩
  · exact ⟨rfl, trivial⟩
  · simp only [List.concat_eq_append, LeadsTo, linked_append, Linked, firstSlot_append,
      firstSlot_cons, firstSlot_nil, lastSlot_append, lastSlot_cons, lastSlot_nil, and_true] at h ⊢
    obtain ⟨hhead, hzs, he⟩ := h
    simp only [List.concat_eq_append, List.map_append, List.nodup_append, List.map_cons,
      List.map_nil, List.mem_singleton] at hnodup
    have hother : ∀ i ∈ zs.map Entry.slot,
        (c.setNext (some e.slot) j?).slots[i]? = c.slots[i]? := by
      intro i hi
      apply slots_setNext_of_ne
      intro heq
      exact hnodup.2.2 i hi e.slot rfl (Option.some.inj heq).symm
    refine ⟨hhead, hzs.congr hother, ?_⟩
    rw [Chain.setNext, slots_modify, if_pos rfl, he]
    rfl

theorem EndsFrom.setPrev {before? : Option Nat} (h : c.EndsFrom before? ys)
    (hnodup : (ys.map Entry.slot).Nodup) (i? : Option Nat) :
    (c.setPrev (firstSlot ys none) i?).EndsFrom i? ys := by
  cases ys with
  | nil => exact ⟨rfl, trivial⟩
  | cons e rest =>
      obtain ⟨htail, he, hrest⟩ := h
      rw [List.map_cons, List.nodup_cons] at hnodup
      have hother : ∀ i ∈ rest.map Entry.slot,
          (c.setPrev (some e.slot) i?).slots[i]? = c.slots[i]? := by
        intro i hi
        apply slots_setPrev_of_ne
        intro heq
        exact hnodup.1 (Option.some.inj heq ▸ hi)
      refine ⟨htail, ?_, hrest.congr hother⟩
      rw [firstSlot_cons, Chain.setPrev, slots_modify, if_pos rfl, he]
      rfl

theorem LeadsTo.setPrev_firstSlot {after? : Option Nat} (h : c.LeadsTo xs after?)
    (hdisjoint : ∀ i ∈ xs.map Entry.slot, i ∉ ys.map Entry.slot) (i? : Option Nat) :
    (c.setPrev (firstSlot ys none) i?).LeadsTo xs after? := by
  refine h.congr (head_setPrev ..) fun i hi => slots_setPrev_of_ne _ fun heq => ?_
  exact hdisjoint i hi (mem_of_firstSlot heq)

theorem EndsFrom.setNext_lastSlot {before? : Option Nat} (h : c.EndsFrom before? ys)
    (hdisjoint : ∀ i ∈ xs.map Entry.slot, i ∉ ys.map Entry.slot) (j? : Option Nat) :
    (c.setNext (lastSlot none xs) j?).EndsFrom before? ys := by
  refine h.congr (tail_setNext ..) fun i hi => slots_setNext_of_ne _ fun heq => ?_
  exact hdisjoint i (mem_of_lastSlot heq) hi

/-- Both links across a place set: what stands before it now leads to `j?`, and what stands behind
it starts from `i?`. -/
theorem link_across {before? after? : Option Nat} (hxs : c.LeadsTo xs after?)
    (hys : c.EndsFrom before? ys) (hnodup : ((xs ++ ys).map Entry.slot).Nodup)
    (i? j? : Option Nat) :
    ((c.setNext (lastSlot none xs) j?).setPrev (firstSlot ys none) i?).LeadsTo xs j? ∧
      ((c.setNext (lastSlot none xs) j?).setPrev (firstSlot ys none) i?).EndsFrom i? ys := by
  rw [List.map_append, List.nodup_append] at hnodup
  obtain ⟨hnodupXs, hnodupYs, hne⟩ := hnodup
  have hdisjoint : ∀ i ∈ xs.map Entry.slot, i ∉ ys.map Entry.slot :=
    fun i hi hi' => hne i hi i hi' rfl
  exact ⟨(hxs.setNext hnodupXs j?).setPrev_firstSlot hdisjoint i?,
    (hys.setNext_lastSlot hdisjoint j?).setPrev hnodupYs i?⟩

/-- A slot on neither side of a place keeps its contents when the links across are set. -/
theorem slots_link_across {k : Nat} (hk : k ∉ (xs ++ ys).map Entry.slot) (i? j? : Option Nat) :
    ((c.setNext (lastSlot none xs) j?).setPrev (firstSlot ys none) i?).slots[k]? = c.slots[k]? := by
  rw [List.map_append, List.mem_append, not_or] at hk
  rw [slots_setPrev_of_ne _ fun heq => hk.2 (mem_of_firstSlot heq),
    slots_setNext_of_ne _ fun heq => hk.1 (mem_of_lastSlot heq)]

/-! ### Edits in turn -/

@[simp] theorem applyAll_nil (c : Chain α) : c.applyAll ([] : List (Edit α β)) = c := rfl

@[simp] theorem applyAll_cons (c : Chain α) (edit : Edit α β) (edits : List (Edit α β)) :
    c.applyAll (edit :: edits) = (c.apply edit).applyAll edits := rfl

@[simp] theorem applyAll_append (c : Chain α) (edits more : List (Edit α β)) :
    c.applyAll (edits ++ more) = (c.applyAll edits).applyAll more :=
  List.foldl_append ..

/-! ### Filling a slot -/

theorem fill_of_none (hspare : c.spare = none) (s : Slot α) :
    c.fill s = { c with slots := c.slots.push s } := by
  rw [fill, hspare]

theorem fill_of_some {i : Nat} (hspare : c.spare = some i) (s : Slot α) :
    c.fill s = { c with slots := c.slots.setIfInBounds i s, spare := c.next? i } := by
  rw [fill, hspare]

theorem head_fill (c : Chain α) (s : Slot α) : (c.fill s).head = c.head := by
  cases hspare : c.spare with
  | none => rw [fill_of_none hspare]
  | some i => rw [fill_of_some hspare]

theorem tail_fill (c : Chain α) (s : Slot α) : (c.fill s).tail = c.tail := by
  cases hspare : c.spare with
  | none => rw [fill_of_none hspare]
  | some i => rw [fill_of_some hspare]

theorem slots_fill_of_ne (c : Chain α) (s : Slot α) {k : Nat} (hk : k ≠ c.nextSlot) :
    (c.fill s).slots[k]? = c.slots[k]? := by
  rw [nextSlot] at hk
  cases hspare : c.spare with
  | none =>
      rw [hspare, Option.getD_none] at hk
      rw [fill_of_none hspare]
      show (c.slots.push s)[k]? = c.slots[k]?
      rw [Array.getElem?_push, if_neg hk]
  | some i =>
      rw [hspare, Option.getD_some] at hk
      rw [fill_of_some hspare]
      exact Array.getElem?_setIfInBounds_ne (Ne.symm hk)

theorem slots_fill_nextSlot (c : Chain α) (s : Slot α)
    (h : ∀ i, c.spare = some i → i < c.slots.size) :
    (c.fill s).slots[c.nextSlot]? = some s := by
  rw [nextSlot]
  cases hspare : c.spare with
  | none =>
      rw [fill_of_none hspare, Option.getD_none]
      exact Array.getElem?_push_size
  | some i =>
      rw [fill_of_some hspare, Option.getD_some]
      exact Array.getElem?_setIfInBounds_self_of_lt (h i hspare)

/-- Writing to a slot that was just filled fills it with something else. -/
theorem modify_fill (c : Chain α) (s : Slot α) (f : Slot α → Slot α)
    (h : ∀ i, c.spare = some i → i < c.slots.size) :
    (c.fill s).modify c.nextSlot f = c.fill (f s) := by
  have hslots : ((c.fill s).modify c.nextSlot f).slots = (c.fill (f s)).slots := by
    apply Array.ext_getElem?
    intro k
    rw [slots_modify]
    by_cases hk : c.nextSlot = k
    · subst hk
      rw [if_pos rfl, slots_fill_nextSlot c s h, slots_fill_nextSlot c (f s) h]
      rfl
    · rw [if_neg hk, slots_fill_of_ne c s (Ne.symm hk), slots_fill_of_ne c _ (Ne.symm hk)]
  cases hspare : c.spare with
  | none =>
      rw [fill_of_none hspare, fill_of_none hspare] at hslots ⊢
      exact congrArg (fun slots => { c with slots }) hslots
  | some i =>
      rw [fill_of_some hspare, fill_of_some hspare] at hslots ⊢
      exact congrArg (fun slots => { c with slots, spare := c.next? i }) hslots

end Chain

/-! ### Steps of a layout -/

namespace Layout

def nextSlot (p : Layout α β) : Nat := p.spares.head?.getD (p.entries.length + p.spares.length)

/-- What an edit makes of a layout. Places and slots have to be there. -/
inductive Step : Layout α β → Edit α β → Layout α β → Prop
  | placeAfter (xs ys : List (Entry α β)) (spares : List Nat) (lo hi : α) (label : β) :
      Step ⟨xs ++ ys, spares⟩ (.placeAfter (lastSlot none xs) lo hi label)
        ⟨xs ++ ⟨nextSlot ⟨xs ++ ys, spares⟩, lo, hi, label⟩ :: ys, spares.tail⟩
  | placeBefore (xs ys : List (Entry α β)) (spares : List Nat) (lo hi : α) (label : β) :
      Step ⟨xs ++ ys, spares⟩ (.placeBefore (firstSlot ys none) lo hi label)
        ⟨xs ++ ⟨nextSlot ⟨xs ++ ys, spares⟩, lo, hi, label⟩ :: ys, spares.tail⟩
  | retire (xs : List (Entry α β)) (e : Entry α β) (ys : List (Entry α β)) (spares : List Nat) :
      Step ⟨xs ++ e :: ys, spares⟩ (.retire e.slot) ⟨xs ++ ys, e.slot :: spares⟩
  | setLo (xs : List (Entry α β)) (e : Entry α β) (ys : List (Entry α β)) (spares : List Nat)
      (lo : α) : Step ⟨xs ++ e :: ys, spares⟩ (.setLo e.slot lo) ⟨xs ++ { e with lo } :: ys, spares⟩
  | setHi (xs : List (Entry α β)) (e : Entry α β) (ys : List (Entry α β)) (spares : List Nat)
      (hi : α) : Step ⟨xs ++ e :: ys, spares⟩ (.setHi e.slot hi) ⟨xs ++ { e with hi } :: ys, spares⟩
  | setLabel (xs : List (Entry α β)) (e : Entry α β) (ys : List (Entry α β)) (spares : List Nat)
      (label : β) :
      Step ⟨xs ++ e :: ys, spares⟩ (.setLabel e.slot label)
        ⟨xs ++ { e with label } :: ys, spares⟩
  | clear (p : Layout α β) : Step p .clear ⟨[], []⟩

/-- What a list of edits makes of a layout, the first one made first. -/
inductive Steps : Layout α β → List (Edit α β) → Layout α β → Prop
  | nil (p : Layout α β) : Steps p [] p
  | cons {p q r : Layout α β} {edit : Edit α β} {edits : List (Edit α β)} :
      Step p edit q → Steps q edits r → Steps p (edit :: edits) r

theorem Step.placeAfter_entry (xs : List (Entry α β)) (e : Entry α β) (ys : List (Entry α β))
    (spares : List Nat) (lo hi : α) (label : β) :
    ∃ n, Step ⟨xs ++ e :: ys, spares⟩ (.placeAfter (some e.slot) lo hi label)
      ⟨xs ++ [e, ⟨n, lo, hi, label⟩] ++ ys, spares.tail⟩ := by
  have hplaced := Step.placeAfter (xs ++ [e]) ys spares lo hi label
  simp only [lastSlot_append, lastSlot_cons, lastSlot_nil, List.append_assoc,
    List.singleton_append] at hplaced
  exact ⟨nextSlot ⟨xs ++ e :: ys, spares⟩, by rwa [List.append_assoc]⟩

theorem Step.placeBefore_entry (xs : List (Entry α β)) (e : Entry α β) (ys : List (Entry α β))
    (spares : List Nat) (lo hi : α) (label : β) :
    ∃ n, Step ⟨xs ++ e :: ys, spares⟩ (.placeBefore (some e.slot) lo hi label)
      ⟨xs ++ [⟨n, lo, hi, label⟩] ++ e :: ys, spares.tail⟩ := by
  have hplaced := Step.placeBefore xs (e :: ys) spares lo hi label
  exact ⟨nextSlot ⟨xs ++ e :: ys, spares⟩, by simpa using hplaced⟩

theorem Step.single {p q : Layout α β} {edit : Edit α β} (h : Step p edit q) :
    Steps p [edit] q :=
  .cons h (.nil q)

theorem Steps.append {p q r : Layout α β} {edits more : List (Edit α β)}
    (hfirst : Steps p edits q) (hsecond : Steps q more r) : Steps p (edits ++ more) r := by
  induction hfirst with
  | nil => exact hsecond
  | cons hstep _ ih => exact .cons hstep (ih hsecond)

/-- Giving back some of the entries between two places, from the first one on. -/
theorem Steps.retire_filter (retired : Entry α β → Bool) (xs es ys : List (Entry α β))
    (spares : List Nat) :
    Steps ⟨xs ++ es ++ ys, spares⟩ ((es.filter retired).map fun e => .retire e.slot)
      ⟨xs ++ es.filter (fun e => !retired e) ++ ys,
        ((es.filter retired).map Entry.slot).reverse ++ spares⟩ := by
  induction es generalizing xs spares with
  | nil => simpa using Steps.nil _
  | cons e rest ih =>
      cases hretired : retired e with
      | true =>
          have hstep := Step.retire xs e (rest ++ ys) spares
          have hrest := ih xs (e.slot :: spares)
          rw [List.append_assoc] at hrest
          simpa [hretired] using Steps.cons hstep hrest
      | false => simpa [hretired] using ih (xs ++ [e]) spares

theorem Steps.retire_all (xs es ys : List (Entry α β)) (spares : List Nat) :
    Steps ⟨xs ++ es ++ ys, spares⟩ (es.map fun e => .retire e.slot)
      ⟨xs ++ ys, (es.map Entry.slot).reverse ++ spares⟩ := by
  have hall : es.filter (fun _ => true) = es := List.filter_eq_self.mpr fun _ _ => rfl
  have hnone : es.filter (fun _ => !true) = [] := List.filter_eq_nil_iff.mpr fun _ _ => nofun
  have hsteps := Steps.retire_filter (fun _ => true) xs es ys spares
  rwa [hall, hnone, List.append_nil] at hsteps

end Layout

namespace Chain.Holds

variable {c : Chain α} {xs ys : List (Entry α β)} {e : Entry α β} {spares : List Nat}

theorem nextSlot_eq {p : Layout α β} (h : c.Holds p) : c.nextSlot = p.nextSlot := by
  rw [Chain.nextSlot, h.spare_eq, h.slots_size, Layout.nextSlot]

theorem spare_lt {p : Layout α β} (h : c.Holds p) {i : Nat} (hi : c.spare = some i) :
    i < c.slots.size := by
  rw [← h.mem_iff, List.mem_append]
  rw [h.spare_eq] at hi
  exact .inr (List.mem_of_head? hi)

theorem nextSlot_not_mem {p : Layout α β} (h : c.Holds p) :
    p.nextSlot ∉ p.entries.map Entry.slot := by
  intro hmem
  cases hspares : p.spares with
  | nil =>
      have hlt := h.mem_iff.mp (List.mem_append_left _ hmem)
      rw [Layout.nextSlot, hspares, h.slots_size, hspares] at hlt
      simp at hlt
  | cons i rest =>
      have hnodup := h.nodup
      rw [List.nodup_append] at hnodup
      rw [Layout.nextSlot, hspares] at hmem
      exact hnodup.2.2 i hmem i (by simp [hspares]) rfl

theorem slots_perm_placed (h : c.Holds ⟨xs ++ ys, spares⟩) (s : Slot α) :
    (xs.map Entry.slot ++ c.nextSlot :: ys.map Entry.slot ++ spares.tail).Perm
      (List.range (c.fill s).slots.size) := by
  have hperm := h.slots_perm
  have hspare := h.spare_eq
  rw [nextSlot]
  cases spares with
  | nil =>
      rw [List.head?_nil] at hspare
      rw [fill_of_none hspare]
      simp only [hspare, List.map_append, List.append_nil, Option.getD_none, List.tail_nil,
        Array.size_push, List.range_succ] at hperm ⊢
      exact List.perm_middle.trans ((hperm.cons _).trans (List.perm_append_singleton _ _).symm)
  | cons i rest =>
      rw [List.head?_cons] at hspare
      rw [fill_of_some hspare]
      simp only [hspare, List.map_append, Option.getD_some, List.tail_cons,
        Array.size_setIfInBounds] at hperm ⊢
      refine List.Perm.trans ?_ hperm
      rw [List.append_assoc, List.append_assoc, List.cons_append]
      refine List.Perm.append_left _ ?_
      exact List.perm_middle.symm

theorem stacked_placed (h : c.Holds ⟨xs ++ ys, spares⟩) (s : Slot α) :
    (c.fill s).Stacked (c.fill s).spare spares.tail := by
  have hstacked := h.stacked
  have hspare := h.spare_eq
  have hnodup := h.nodup
  rw [List.nodup_append] at hnodup
  cases spares with
  | nil =>
      rw [List.head?_nil] at hspare
      rw [fill_of_none hspare]
      exact hspare
  | cons i rest =>
      rw [List.head?_cons] at hspare
      have hrest : ∀ j ∈ rest, (c.fill s).slots[j]? = c.slots[j]? := by
        intro j hj
        apply slots_fill_of_ne
        rw [nextSlot, hspare, Option.getD_some]
        intro heq
        exact (List.nodup_cons.mp hnodup.2.1).1 (heq ▸ hj)
      have htop : (c.fill s).spare = c.next? i := by rw [fill_of_some hspare]
      rw [htop, List.tail_cons]
      exact hstacked.2.congr hrest

theorem placeBetween (h : c.Holds ⟨xs ++ ys, spares⟩) (lo hi : α) (label : β) :
    (c.placeBetween (lastSlot none xs) (firstSlot ys none) lo hi).Holds
      ⟨xs ++ ⟨Layout.nextSlot ⟨xs ++ ys, spares⟩, lo, hi, label⟩ :: ys, spares.tail⟩ := by
  have hnew := h.nextSlot_not_mem
  have hnodup := h.nodup
  rw [List.nodup_append] at hnodup
  obtain ⟨hnodupEntries, hnodupSpares, hne⟩ := hnodup
  rw [← h.nextSlot_eq] at hnew ⊢
  have hperm := h.slots_perm_placed
  generalize hn : c.nextSlot = n at hnew hperm ⊢
  generalize hs : (⟨lo, hi, lastSlot none xs, firstSlot ys none⟩ : Slot α) = s
  have hfill : ∀ k, k ≠ n → (c.fill s).slots[k]? = c.slots[k]? :=
    fun k hk => slots_fill_of_ne c s (hn ▸ hk)
  have hlive : ∀ i ∈ (xs ++ ys).map Entry.slot, i ≠ n := fun i hi heq => hnew (heq ▸ hi)
  rw [List.map_append] at hlive
  obtain ⟨hxs, hys⟩ := threads_append.mp h.threads
  have hxsFilled : (c.fill s).LeadsTo xs (firstSlot ys none) :=
    hxs.congr (head_fill c s) fun i hi => hfill i (hlive i (List.mem_append_left _ hi))
  have hysFilled : (c.fill s).EndsFrom (lastSlot none xs) ys :=
    hys.congr (tail_fill c s) fun i hi => hfill i (hlive i (List.mem_append_right _ hi))
  obtain ⟨hxsLinked, hysLinked⟩ := link_across hxsFilled hysFilled hnodupEntries (some n) (some n)
  have hslot := slots_link_across (c := c.fill s) hnew (some n) (some n)
  rw [show (c.fill s).slots[n]? = some s from
    hn ▸ slots_fill_nextSlot c s fun i hi => h.spare_lt hi] at hslot
  have hplaced : c.placeBetween (lastSlot none xs) (firstSlot ys none) lo hi =
      { ((c.fill s).setNext (lastSlot none xs) (some n)).setPrev (firstSlot ys none) (some n) with
        size := c.size + 1 } := by
    rw [Chain.placeBetween, hn, hs]
  rw [hplaced]
  refine ⟨?_, ?_, ?_, ?_⟩
  · rw [threads_append]
    refine ⟨hxsLinked.congr rfl fun _ _ => rfl, hysLinked.1, ?_, hysLinked.2.congr fun _ _ => rfl⟩
    exact hslot.trans (by rw [← hs])
  · have hspares : ∀ i ∈ spares.tail, i ∉ (xs ++ ys).map Entry.slot :=
      fun i hi hmem => hne i hmem i (List.mem_of_mem_tail hi) rfl
    refine Stacked.congr (c := c.fill s) ?_ fun i hi => slots_link_across (hspares i hi) _ _
    simpa using h.stacked_placed s
  · simp [h.size_eq]
    omega
  · simpa using hperm s

theorem slots_entry (h : c.Holds ⟨xs ++ e :: ys, spares⟩) :
    c.slots[e.slot]? = some ⟨e.lo, e.hi, lastSlot none xs, firstSlot ys none⟩ :=
  (threads_append.mp h.threads).2.2.1

theorem slots_perm_retired (h : c.Holds ⟨xs ++ e :: ys, spares⟩) :
    ((xs ++ ys).map Entry.slot ++ e.slot :: spares).Perm (List.range c.slots.size) := by
  refine List.Perm.trans ?_ h.slots_perm
  rw [List.map_append, List.map_append, List.map_cons, List.append_assoc, List.append_assoc]
  exact List.Perm.append_left _ List.perm_middle

theorem retire (h : c.Holds ⟨xs ++ e :: ys, spares⟩) :
    (c.retire e.slot).Holds ⟨xs ++ ys, e.slot :: spares⟩ := by
  have hslot := h.slots_entry
  have hprev : c.prev? e.slot = lastSlot none xs := by simp [Chain.prev?, hslot]
  have hnext : c.next? e.slot = firstSlot ys none := by simp [Chain.next?, hslot]
  obtain ⟨hxs, hys⟩ := threads_append.mp h.threads
  have hafter : c.EndsFrom (some e.slot) ys := ⟨hys.1, hys.2.2⟩
  have hnodup := h.slots_perm_retired.nodup_iff.mpr List.nodup_range
  rw [List.nodup_append, List.nodup_cons] at hnodup
  obtain ⟨hnodupEntries, ⟨hnew, _⟩, hne⟩ := hnodup
  obtain ⟨hxsLinked, hysLinked⟩ :=
    link_across hxs hafter hnodupEntries (lastSlot none xs) (firstSlot ys none)
  have hacross : ∀ k, k ∉ (xs ++ ys).map Entry.slot →
      ((c.setNext (lastSlot none xs) (firstSlot ys none)).setPrev (firstSlot ys none)
        (lastSlot none xs)).slots[k]? = c.slots[k]? :=
    fun k hk => slots_link_across hk _ _
  have hsize : ((c.setNext (lastSlot none xs) (firstSlot ys none)).setPrev (firstSlot ys none)
      (lastSlot none xs)).slots.size = c.slots.size := by simp
  generalize hd : (c.setNext (lastSlot none xs) (firstSlot ys none)).setPrev (firstSlot ys none)
    (lastSlot none xs) = d at hxsLinked hysLinked hacross hsize
  have hretired : c.retire e.slot =
      { d.modify e.slot fun s => { s with prev := none, next := c.spare } with
        spare := some e.slot
        size := c.size - 1 } := by
    rw [Chain.retire, hprev, hnext, hd]
  have hother : ∀ k, k ≠ e.slot → (c.retire e.slot).slots[k]? = d.slots[k]? := by
    intro k hk
    rw [hretired]
    exact (slots_modify d e.slot _ k).trans (if_neg (Ne.symm hk))
  have hlive : ∀ i ∈ (xs ++ ys).map Entry.slot, (c.retire e.slot).slots[i]? = d.slots[i]? :=
    fun i hi => hother i (hne i hi e.slot (by simp))
  rw [List.map_append] at hlive
  have hspares : ∀ i ∈ spares, (c.retire e.slot).slots[i]? = c.slots[i]? := by
    intro i hi
    rw [hother i fun heq => hnew (heq ▸ hi)]
    exact hacross i fun hmem => hne i hmem i (by simp [hi]) rfl
  refine ⟨?_, ?_, ?_, ?_⟩
  · have hhead : (c.retire e.slot).head = d.head := by rw [hretired]; rfl
    have htail : (c.retire e.slot).tail = d.tail := by rw [hretired]; rfl
    exact threads_append.mpr
      ⟨hxsLinked.congr hhead fun i hi => hlive i (List.mem_append_left _ hi),
        hysLinked.congr htail fun i hi => hlive i (List.mem_append_right _ hi)⟩
  · have hspare : (c.retire e.slot).spare = some e.slot := by rw [hretired]
    have hself : (c.retire e.slot).next? e.slot = c.spare := by
      have hkept : d.slots[e.slot]? = some ⟨e.lo, e.hi, lastSlot none xs, firstSlot ys none⟩ := by
        rw [hacross e.slot fun hmem => hne e.slot hmem e.slot (by simp) rfl, hslot]
      rw [hretired]
      simp [Chain.next?, slots_modify, hkept]
    refine ⟨hspare, ?_⟩
    rw [hself]
    exact h.stacked.congr hspares
  · have hcount := h.size_eq
    rw [hretired]
    simp only [List.length_append, List.length_cons] at hcount ⊢
    omega
  · have hslots : (c.retire e.slot).slots.size = c.slots.size := by
      rw [hretired]
      simp [hsize]
    rw [hslots]
    exact h.slots_perm_retired

theorem modify (h : c.Holds ⟨xs ++ e :: ys, spares⟩) {f : Slot α → Slot α} {lo hi : α} (label : β)
    (hf : ∀ prev next, f ⟨e.lo, e.hi, prev, next⟩ = ⟨lo, hi, prev, next⟩) :
    (c.modify e.slot f).Holds ⟨xs ++ ⟨e.slot, lo, hi, label⟩ :: ys, spares⟩ := by
  obtain ⟨hxs, hys⟩ := threads_append.mp h.threads
  have hnodup := h.slots_perm_retired.nodup_iff.mpr List.nodup_range
  rw [List.nodup_append, List.nodup_cons] at hnodup
  obtain ⟨_, ⟨hnew, _⟩, hne⟩ := hnodup
  have hother : ∀ k, k ≠ e.slot → (c.modify e.slot f).slots[k]? = c.slots[k]? :=
    fun k hk => (slots_modify c e.slot f k).trans (if_neg (Ne.symm hk))
  have hlive : ∀ i ∈ (xs ++ ys).map Entry.slot, (c.modify e.slot f).slots[i]? = c.slots[i]? :=
    fun i hi => hother i (hne i hi e.slot (by simp))
  rw [List.map_append] at hlive
  refine ⟨?_, ?_, ?_, ?_⟩
  · rw [threads_append]
    refine ⟨hxs.congr rfl fun i hi => hlive i (List.mem_append_left _ hi), hys.1, ?_,
      hys.2.2.congr fun i hi => hlive i (List.mem_append_right _ hi)⟩
    rw [slots_modify, if_pos rfl, h.slots_entry, Option.map_some, hf]
  · exact h.stacked.congr fun i hi => hother i fun heq => hnew (heq ▸ hi)
  · simpa using h.size_eq
  · simpa using h.slots_perm

theorem relabel (h : c.Holds ⟨xs ++ e :: ys, spares⟩) (label : β) :
    c.Holds ⟨xs ++ { e with label } :: ys, spares⟩ := by
  refine ⟨?_, h.stacked, by simpa using h.size_eq, by simpa using h.slots_perm⟩
  obtain ⟨hxs, hys⟩ := threads_append.mp h.threads
  exact threads_append.mpr ⟨hxs, hys⟩

theorem placeAfter_eq (h : c.Holds ⟨xs ++ ys, spares⟩) (lo hi : α) :
    c.placeAfter (lastSlot none xs) lo hi =
      c.placeBetween (lastSlot none xs) (firstSlot ys none) lo hi := by
  rcases List.eq_nil_or_concat xs with rfl | ⟨zs, e, rfl⟩
  · have hhead : c.head = firstSlot ys none := h.threads.1
    rw [← hhead]
    rfl
  · rw [List.concat_eq_append, List.append_assoc] at h
    have hnext : c.next? e.slot = firstSlot ys none := by simp [Chain.next?, h.slots_entry]
    rw [List.concat_eq_append, lastSlot_append, ← hnext]
    rfl

theorem placeBefore_eq (h : c.Holds ⟨xs ++ ys, spares⟩) (lo hi : α) :
    c.placeBefore (firstSlot ys none) lo hi =
      c.placeBetween (lastSlot none xs) (firstSlot ys none) lo hi := by
  cases ys with
  | nil =>
      have htail : c.tail = lastSlot none xs := by simpa using h.threads.2.1
      rw [← htail]
      rfl
  | cons e rest =>
      have hprev : c.prev? e.slot = lastSlot none xs := by simp [Chain.prev?, h.slots_entry]
      rw [← hprev]
      rfl

/-- A chain follows its layout through an edit. -/
theorem step {p q : Layout α β} {edit : Edit α β} (h : c.Holds p) (hstep : Layout.Step p edit q) :
    (c.apply edit).Holds q := by
  cases hstep with
  | placeAfter xs ys spares lo hi label =>
      rw [Chain.apply, h.placeAfter_eq]
      exact h.placeBetween lo hi label
  | placeBefore xs ys spares lo hi label =>
      rw [Chain.apply, h.placeBefore_eq]
      exact h.placeBetween lo hi label
  | retire xs e ys spares => exact h.retire
  | setLo xs e ys spares lo => exact h.modify e.label fun _ _ => rfl
  | setHi xs e ys spares hi => exact h.modify e.label fun _ _ => rfl
  | setLabel xs e ys spares label => exact h.relabel label
  | clear => exact holds_empty

theorem steps {p q : Layout α β} {edits : List (Edit α β)} (h : c.Holds p)
    (hsteps : Layout.Steps p edits q) : (c.applyAll edits).Holds q := by
  induction hsteps generalizing c with
  | nil => exact h
  | cons hstep _ ih => exact ih (h.step hstep)

end Chain.Holds

end RangeSets
