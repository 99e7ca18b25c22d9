import RangeSets.Proofs.Chain.Consistent
/-!
# Chains with one layout

A layout says everything of a chain but what the spare slots hold besides their links. Two chains with
one layout are therefore the same chain as soon as they agree on the spare slots, and a slot that stays
spare through an edit keeps what it holds.

A range that is given back and put in again at its place is then back in the slot that it had, with all
links as they were: to do both is to set its bounds.
-/

namespace RangeSets

variable {α β : Type}

namespace Chain

/-! ### Chains that differ in bounds -/

theorem eq_of_fields {c d : Chain α} (hslots : c.slots = d.slots) (hhead : c.head = d.head)
    (htail : c.tail = d.tail) (hspare : c.spare = d.spare) (hsize : c.size = d.size) : c = d := by
  cases c
  cases d
  cases hslots
  cases hhead
  cases htail
  cases hspare
  cases hsize
  rfl

end Chain

/-- Two slots with the same links, and with bounds that are related. -/
structure Slot.Matches (R : α → α → Prop) (s t : Slot α) : Prop where
  lo : R s.lo t.lo
  hi : R s.hi t.hi
  prev_eq : s.prev = t.prev
  next_eq : s.next = t.next

/-- Two chains with the same slots, on the chain and spare, and the same links. Their bounds are
related, slot by slot. -/
structure Chain.Matches (R : α → α → Prop) (c d : Chain α) : Prop where
  head_eq : c.head = d.head
  tail_eq : c.tail = d.tail
  spare_eq : c.spare = d.spare
  size_eq : c.size = d.size
  slots : ∀ i : Nat, Option.Rel (Slot.Matches R) c.slots[i]? d.slots[i]?

namespace Chain

variable {c d : Chain α} {R Q : α → α → Prop}

theorem Matches.imp (h : c.Matches R d) (hRQ : ∀ a b, R a b → Q a b) : c.Matches Q d where
  head_eq := h.head_eq
  tail_eq := h.tail_eq
  spare_eq := h.spare_eq
  size_eq := h.size_eq
  slots i := by
    have hrel := h.slots i
    generalize c.slots[i]? = s?, d.slots[i]? = t? at hrel ⊢
    cases hrel with
    | none => exact .none
    | some hslot => exact .some ⟨hRQ _ _ hslot.lo, hRQ _ _ hslot.hi, hslot.prev_eq, hslot.next_eq⟩

theorem Matches.eq (h : c.Matches Eq d) : c = d := by
  have hslots : c.slots = d.slots := by
    apply Array.ext_getElem?
    intro i
    have hrel := h.slots i
    generalize c.slots[i]? = s?, d.slots[i]? = t? at hrel ⊢
    cases hrel with
    | none => rfl
    | @some s t hslot =>
        cases s
        cases t
        obtain ⟨rfl, rfl, rfl, rfl⟩ := hslot
        rfl
  exact eq_of_fields hslots h.head_eq h.tail_eq h.spare_eq h.size_eq

/-- A chain with the bounds of one slot set matches the chain, when the new bounds match the old. -/
theorem matches_modify (hR : ∀ a, R a a) {i : Nat} {s : Slot α} (hslot : c.slots[i]? = some s)
    {lo hi : α} (hlo : R lo s.lo) (hhi : R hi s.hi) :
    (c.modify i fun s => { s with lo, hi }).Matches R c where
  head_eq := rfl
  tail_eq := rfl
  spare_eq := rfl
  size_eq := rfl
  slots k := by
    have hself : ∀ s : Slot α, s.Matches R s := fun s => ⟨hR _, hR _, rfl, rfl⟩
    rw [slots_modify]
    split
    · obtain rfl := ‹i = k›
      rw [hslot]
      exact .some ⟨hlo, hhi, rfl, rfl⟩
    · cases c.slots[k]? with
      | none => exact .none
      | some s => exact .some (hself s)

/-! ### What an edit leaves alone -/

section Frames

variable {xs ys : List (Entry α β)} {e : Entry α β} {spares : List Nat} {k : Nat}

theorem Holds.slots_retire (h : c.Holds ⟨xs ++ e :: ys, spares⟩)
    (hk : k ∉ (xs ++ e :: ys).map Entry.slot) : (c.retire e.slot).slots[k]? = c.slots[k]? := by
  obtain ⟨hprev, hnext⟩ := h.links_of_split rfl
  have hself : e.slot ≠ k := fun heq => hk (by simp [heq])
  have hothers : k ∉ (xs ++ ys).map Entry.slot := fun hmem => hk (by
    rw [List.map_append, List.mem_append] at hmem ⊢
    exact hmem.imp_right (List.mem_cons_of_mem _))
  rw [Chain.retire, hprev, hnext]
  exact (slots_modify ..).trans ((if_neg hself).trans (slots_link_across hothers _ _))

theorem slots_placeBetween (c : Chain α) (hk : k ∉ (xs ++ ys).map Entry.slot)
    (hnew : k ≠ c.nextSlot) (lo hi : α) :
    (c.placeBetween (lastSlot none xs) (firstSlot ys none) lo hi).slots[k]? = c.slots[k]? :=
  (slots_link_across hk _ _).trans (slots_fill_of_ne c _ hnew)

/-- The slot that an insertion uses is none of those that are spare after it. -/
theorem Holds.nextSlot_not_mem_tail {p : Layout α β} (h : c.Holds p) :
    c.nextSlot ∉ p.spares.tail := by
  intro hmem
  have hnodup := (List.nodup_append.mp h.nodup).2.1
  rw [nextSlot, h.spare_eq] at hmem
  cases hspares : p.spares with
  | nil => simp [hspares] at hmem
  | cons i rest =>
      rw [hspares] at hnodup hmem
      exact (List.nodup_cons.mp hnodup).1 hmem

/-- A slot that is spare before an edit and after it keeps what it holds. -/
theorem Holds.slots_spare {p q : Layout α β} {edit : Edit α β} (h : c.Holds p)
    (hstep : Layout.Step p edit q) (hp : k ∈ p.spares) (hq : k ∈ q.spares) :
    (c.apply edit).slots[k]? = c.slots[k]? := by
  have hk : k ∉ p.entries.map Entry.slot :=
    fun hmem => (List.nodup_append.mp h.nodup).2.2 k hmem k hp rfl
  have hnew : k ∈ p.spares.tail → k ≠ c.nextSlot :=
    fun hmem heq => h.nextSlot_not_mem_tail (heq ▸ hmem)
  cases hstep with
  | placeAfter xs ys spares lo hi label =>
      rw [apply, h.placeAfter_eq]
      exact slots_placeBetween c hk (hnew hq) lo hi
  | placeBefore xs ys spares lo hi label =>
      rw [apply, h.placeBefore_eq]
      exact slots_placeBetween c hk (hnew hq) lo hi
  | retire xs e ys spares => exact h.slots_retire hk
  | setLo xs e ys spares lo =>
      exact (slots_modify ..).trans (if_neg fun heq => hk (by simp [← heq]))
  | setHi xs e ys spares hi =>
      exact (slots_modify ..).trans (if_neg fun heq => hk (by simp [← heq]))
  | setLabel xs e ys spares label => rfl
  | clear => cases hq

end Frames

/-! ### One layout, one chain -/

theorem Holds.ext {p : Layout α β} (hc : c.Holds p) (hd : d.Holds p)
    (hspares : ∀ i ∈ p.spares, c.slots[i]? = d.slots[i]?) : c = d := by
  obtain ⟨entries, spares⟩ := p
  have hsize : c.slots.size = d.slots.size := by rw [hc.slots_size, hd.slots_size]
  have hslots : c.slots = d.slots := by
    apply Array.ext_getElem?
    intro i
    by_cases hi : i < c.slots.size
    · rcases List.mem_append.mp (hc.mem_iff.mpr hi) with hlive | hspare
      · obtain ⟨e, he, rfl⟩ := List.mem_map.mp hlive
        obtain ⟨xs, ys, rfl⟩ := List.append_of_mem he
        rw [hc.slots_entry, hd.slots_entry]
      · exact hspares i hspare
    · rw [Array.getElem?_eq_none (by omega), Array.getElem?_eq_none (by omega)]
  refine eq_of_fields hslots ?_ ?_ ?_ ?_
  · rw [hc.threads.1, hd.threads.1]
  · rw [hc.threads.2.1, hd.threads.2.1]
  · rw [hc.spare_eq, hd.spare_eq]
  · rw [hc.size_eq, hd.size_eq]

/-- To give a range back and to put one in at its place is to set the bounds of its slot. -/
theorem Holds.placeAfter_retire {xs ys : List (Entry α β)} {e : Entry α β} {spares : List Nat}
    (h : c.Holds ⟨xs ++ e :: ys, spares⟩) (lo hi : α) :
    (c.retire e.slot).placeAfter (lastSlot none xs) lo hi =
      c.modify e.slot fun s => { s with lo, hi } := by
  have hretire := Layout.Step.retire xs e ys spares
  have hplace := Layout.Step.placeAfter xs ys (e.slot :: spares) lo hi e.label
  have hset : (c.modify e.slot fun s => { s with lo, hi }).Holds
      ⟨xs ++ ⟨e.slot, lo, hi, e.label⟩ :: ys, spares⟩ := h.modify e.label fun _ _ => rfl
  refine ((h.step hretire).step hplace).ext hset fun i hi => ?_
  have hother : e.slot ≠ i := by
    have hnodup := (h.step hretire).nodup
    exact fun heq => (List.nodup_cons.mp (List.nodup_append.mp hnodup).2.1).1 (heq ▸ hi)
  calc _ = (c.retire e.slot).slots[i]? :=
        (h.step hretire).slots_spare hplace (List.mem_cons_of_mem _ hi) hi
    _ = c.slots[i]? := h.slots_spare hretire hi (List.mem_cons_of_mem _ hi)
    _ = _ := ((slots_modify ..).trans (if_neg hother)).symm

end Chain

end RangeSets
