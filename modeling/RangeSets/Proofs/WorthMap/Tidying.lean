import Mathlib.Data.List.TakeDrop
import RangeSets.Proofs.WorthMap.Contents
/-!
# Tidying up

The second and the third pass of an addition start at the last entry below the range and go no
further than the first entry above its end. The entries that they do not look at are as they were,
so there is nothing to do there: the worths are not zero and the blocks ascend. The entry that the
passes start at has a worth other than zero, so it is never given back.
-/

namespace RangeSets.WorthMap

open Scale Layout

variable {α : Type}

theorem splitAtSlot_getLast? (below rest : List (Entry α Worth))
    (h : ((below ++ rest).map Entry.slot).Nodup) :
    splitAtSlot (below.getLast?.map Entry.slot) (below ++ rest) =
      (below.dropLast, below.getLast?.toList ++ rest) := by
  rcases List.eq_nil_or_concat below with rfl | ⟨zs, l, rfl⟩
  · rfl
  · rw [List.concat_eq_append] at h ⊢
    have hne : ∀ e ∈ zs, decide (e.slot ≠ l.slot) = true := by
      intro e he
      rw [List.append_assoc, List.map_append, List.nodup_append] at h
      exact decide_eq_true (h.2.2 e.slot (List.mem_map_of_mem he) l.slot (by simp))
    simp only [List.getLast?_append, List.getLast?_singleton, Option.some_or, Option.map_some,
      splitAtSlot, List.span_eq_takeWhile_dropWhile, List.append_assoc]
    rw [List.takeWhile_append_of_pos hne, List.dropWhile_append_of_pos hne]
    simp

variable [Scale α] {hi : α}

/-! ### Giving back what has worth zero -/

theorem weight_filter_nonzero (v : α) (es : List (Entry α Worth)) :
    weight v ((es.filter fun e => e.label ≠ Worth.zero).map Entry.block) =
      weight v (es.map Entry.block) := by
  induction es with
  | nil => rfl
  | cons e rest ih =>
      rw [List.filter_cons]
      split
      · rw [List.map_cons, List.map_cons, weight_cons, weight_cons, ih]
      · rename_i hzero
        have hlabel : e.label = Worth.zero := by simpa using hzero
        have hval : e.block.label.val = 0 := by rw [Entry.label_block, hlabel]; rfl
        rw [List.map_cons, weight_cons, hval, ih]
        simp

theorem pruneEdits_eq {es : List (Entry α Worth)} (hes : Ordered (es.map Entry.block))
    (hhi : Comparable hi) (habove : ∀ e ∈ es, place hi < place e.lo → e.label ≠ Worth.zero) :
    pruneEdits hi es = (es.filter fun e => e.label = Worth.zero).map fun e => .retire e.slot := by
  have hnone : ((es.dropWhile fun e => ¬ hi < e.lo).filter fun e => e.label = Worth.zero) = [] := by
    refine List.filter_eq_nil_iff.mpr fun e he => ?_
    have hlt := lt_of_mem_dropWhile hes hhi e he
    have hne := habove e ((List.dropWhile_suffix _).subset he) hlt
    simpa using hne
  have hsplit := List.takeWhile_append_dropWhile (p := fun e => decide (¬ hi < e.lo)) (l := es)
  rw [pruneEdits]
  conv => rhs; rw [← hsplit, List.filter_append, hnone, List.append_nil]

/-- After the second pass the entries are those of a worth other than zero. -/
theorem exists_pruned {below rest : List (Entry α Worth)} (spares : List Nat)
    (hes : Ordered ((below ++ rest).map Entry.block)) (hhi : Comparable hi)
    (hnodup : ((below ++ rest).map Entry.slot).Nodup)
    (hbelow : ∀ e ∈ below, e.label ≠ Worth.zero)
    (habove : ∀ e ∈ rest, place hi < place e.lo → e.label ≠ Worth.zero) :
    ∃ spares', Steps ⟨below ++ rest, spares⟩
      (pruneEdits hi (splitAtSlot (below.getLast?.map Entry.slot) (below ++ rest)).2)
      ⟨below ++ rest.filter fun e => e.label ≠ Worth.zero, spares'⟩ := by
  have hsplit : below.dropLast ++ below.getLast?.toList = below := by
    rcases List.eq_nil_or_concat below with rfl | ⟨zs, l, rfl⟩ <;> simp
  have hlast : ∀ e ∈ below.getLast?.toList, e ∈ below := fun e he => by
    rw [← hsplit]
    exact List.mem_append_right _ he
  have hwithin : ∀ e ∈ below.getLast?.toList ++ rest, place hi < place e.lo →
      e.label ≠ Worth.zero := by
    intro e he hlt
    rcases List.mem_append.mp he with he | he
    · exact hbelow e (hlast e he)
    · exact habove e he hlt
  have hsub : (below.getLast?.toList ++ rest).Sublist (below ++ rest) := by
    conv => rhs; rw [← hsplit, List.append_assoc]
    exact List.sublist_append_right ..
  rw [splitAtSlot_getLast? below rest hnodup,
    pruneEdits_eq (hes.sublist (hsub.map _)) hhi hwithin]
  have hsteps := Steps.retire_filter (fun e => decide (e.label = Worth.zero)) below.dropLast
    (below.getLast?.toList ++ rest) [] spares
  have hkept : (below.getLast?.toList ++ rest).filter (fun e => !decide (e.label = Worth.zero)) =
      below.getLast?.toList ++ rest.filter fun e => e.label ≠ Worth.zero := by
    simp only [ne_eq, decide_not]
    rw [List.filter_append, List.filter_eq_self.mpr]
    exact fun e he => by simpa using hbelow e (hlast e he)
  rw [hkept, List.append_nil, List.append_nil, ← List.append_assoc, ← List.append_assoc,
    hsplit] at hsteps
  exact ⟨_, hsteps⟩

/-! ### Joining neighbours -/

/-- What begins above `hi` ascends, together with all that follows. -/
def SettledAbove (hi : α) (es : List (Entry α Worth)) : Prop :=
  ∀ ws d zs, es = ws ++ d :: zs → place hi < place d.lo → Ascending ((d :: zs).map Entry.block)

theorem SettledAbove.tail {e : Entry α Worth} {es : List (Entry α Worth)}
    (h : SettledAbove hi (e :: es)) : SettledAbove hi es :=
  fun ws d zs hsplit hlt => h (e :: ws) d zs (by rw [hsplit, List.cons_append]) hlt

/-- Joining neighbours gives blocks that ascend, makes up no worth and changes no weight. -/
structure Tidied (es es' : List (Entry α Worth)) : Prop where
  ascending : Ascending (es'.map Entry.block)
  labels : ∀ c ∈ es', ∃ e ∈ es, c.label = e.label
  weight_eq : ∀ v, weight v (es'.map Entry.block) = weight v (es.map Entry.block)

theorem tidied_self {es : List (Entry α Worth)} (h : Ascending (es.map Entry.block)) :
    Tidied es es :=
  ⟨h, fun c hc => ⟨c, hc, rfl⟩, fun _ => rfl⟩

/-- What the third pass makes of an entry and of those that follow it. The entry begins where it did
and keeps its worth. -/
structure Joined (b : Entry α Worth) (es : List (Entry α Worth)) (b' : Entry α Worth)
    (es' : List (Entry α Worth)) : Prop extends Tidied (b :: es) (b' :: es') where
  lo_eq : b'.lo = b.lo
  label_eq : b'.label = b.label

theorem joined_self {b : Entry α Worth} {es : List (Entry α Worth)}
    (h : Ascending ((b :: es).map Entry.block)) : Joined b es b es :=
  ⟨tidied_self h, rfl, rfl⟩

/-- An entry that is not to be joined with the one before it. -/
theorem Joined.cons {b e e' : Entry α Worth} {es es' : List (Entry α Worth)} (hb : b.lo ≤ b.hi)
    (hapart : b.block.Apart e.block) (h : Joined e es e' es') :
    Joined b (e :: es) b (e' :: es') where
  ascending := by
    have hapart' : b.block.Apart e'.block := by
      simpa [Block.Apart, h.lo_eq, h.label_eq] using hapart
    exact (ascending_singleton hb).append_cons h.ascending (by simpa using hapart')
  labels := by
    intro c hc
    rcases List.mem_cons.mp hc with rfl | hc
    · exact ⟨c, by simp, rfl⟩
    · obtain ⟨d, hd, hlabel⟩ := h.labels c hc
      exact ⟨d, List.mem_cons_of_mem _ hd, hlabel⟩
  weight_eq v := by
    have hrest := h.weight_eq v
    simp only [List.map_cons, weight_cons] at hrest ⊢
    omega
  lo_eq := rfl
  label_eq := rfl

theorem weight_merged {b c : Block α Worth} (hb : b.lo ≤ b.hi) (hc : c.lo ≤ c.hi)
    (hadjacent : Adjacent b.hi c.lo) (hlabel : b.label = c.label) (v : α) :
    weight v [{ b with hi := c.hi }] = weight v [b, c] := by
  obtain ⟨hbLo, hbHi, hblohi⟩ := le_iff.mp hb
  obtain ⟨hcLo, hcHi, hclohi⟩ := le_iff.mp hc
  obtain ⟨_, _, hplace⟩ := adjacent_iff.mp hadjacent
  by_cases hv : Comparable v
  · have hwhole : b.lo ≤ c.hi := (le_iff_place hbLo hcHi).mpr (by omega)
    have hpair : weight v ([b] ++ [c]) = weight v [b] + weight v [c] := weight_append
    rw [List.singleton_append] at hpair
    rw [hpair, weight_singleton hwhole hv, weight_singleton hb hv, weight_singleton hc hv, ← hlabel]
    grind
  · rw [weight_of_not_comparable hv, weight_of_not_comparable hv]

/-- An entry that is taken into the one before it. -/
theorem Joined.merge {b e b' : Entry α Worth} {es es' : List (Entry α Worth)} (hb : b.lo ≤ b.hi)
    (he : e.lo ≤ e.hi) (hadjacent : Adjacent b.hi e.lo) (hlabel : b.label = e.label)
    (h : Joined { b with hi := e.hi } es b' es') : Joined b (e :: es) b' es' where
  ascending := h.ascending
  labels := by
    intro c hc
    obtain ⟨d, hd, hlabel⟩ := h.labels c hc
    rcases List.mem_cons.mp hd with rfl | hd
    · exact ⟨b, by simp, hlabel⟩
    · exact ⟨d, by simp [hd], hlabel⟩
  weight_eq v := by
    have hrest := h.weight_eq v
    have hmerged := weight_merged (b := b.block) (c := e.block) hb he hadjacent hlabel v
    have hblock : ({ b with hi := e.hi } : Entry α Worth).block =
        { b.block with hi := e.block.hi } := rfl
    simp only [List.map_cons, weight_cons, weight_nil, hblock] at hrest hmerged ⊢
    omega
  lo_eq := h.lo_eq
  label_eq := h.label_eq

theorem joinEdits_of_merge {b e : Entry α Worth} {rest : List (Entry α Worth)}
    (h : Adjacent b.hi e.lo ∧ b.label = e.label) :
    joinEdits hi (some b) (e :: rest) = .setHi b.slot e.hi :: .retire e.slot ::
      if hi < e.lo then [] else joinEdits hi (some { b with hi := e.hi }) rest := by
  have hsome : (some b).filter (fun b => Adjacent b.hi e.lo ∧ b.label = e.label) = some b := by
    rw [Option.filter_some, if_pos (decide_eq_true h)]
  rw [joinEdits, hsome]
  rfl

theorem joinEdits_of_apart {before? : Option (Entry α Worth)} {e : Entry α Worth}
    {rest : List (Entry α Worth)}
    (h : ∀ b ∈ before?, ¬ (Adjacent b.hi e.lo ∧ b.label = e.label)) :
    joinEdits hi before? (e :: rest) = if hi < e.lo then [] else joinEdits hi (some e) rest := by
  have hnone : before?.filter (fun b => Adjacent b.hi e.lo ∧ b.label = e.label) = none := by
    rw [Option.filter_eq_none_iff]
    exact fun b hb => by simpa using h b hb
  rw [joinEdits, hnone]

theorem exists_joined {b : Entry α Worth} {es : List (Entry α Worth)}
    (hes : Ordered ((b :: es).map Entry.block)) (habove : SettledAbove hi es)
    (xs : List (Entry α Worth)) (spares : List Nat) :
    ∃ b' es' rest, Steps ⟨xs ++ b :: es, spares⟩ (joinEdits hi (some b) es)
      ⟨xs ++ b' :: es', rest⟩ ∧ Joined b es b' es' := by
  induction es generalizing b xs spares with
  | nil =>
      have hb : b.lo ≤ b.hi := hes.proper b.block (by simp)
      exact ⟨b, [], spares, .nil _, joined_self (ascending_singleton hb)⟩
  | cons e rest ih =>
      have hb : b.lo ≤ b.hi := hes.proper b.block (by simp)
      have he : e.lo ≤ e.hi := hes.proper e.block (by simp)
      have hlt : place b.hi < place e.lo :=
        (List.pairwise_cons.mp hes.before).1 e.block (by simp)
      obtain ⟨hbLo, hbHi, _⟩ := le_iff.mp hb
      obtain ⟨heLo, heHi, _⟩ := le_iff.mp he
      by_cases hmerge : Adjacent b.hi e.lo ∧ b.label = e.label
      · have hmerged : b.lo ≤ e.hi := (le_iff_place hbLo heHi).mpr (by omega)
        have hset := Step.setHi xs b (e :: rest) spares e.hi
        have hretire := Step.retire (xs ++ [{ b with hi := e.hi }]) e rest spares
        rw [List.append_assoc, List.append_assoc] at hretire
        rw [joinEdits_of_merge hmerge]
        split
        · rename_i hend
          have hasc : Ascending (e.block :: rest.map Entry.block) :=
            habove [] e rest rfl (lt_iff.mp hend).2.2
          refine ⟨_, rest, _, .cons hset hretire.single, ?_⟩
          exact .merge hb he hmerge.1 hmerge.2 (joined_self (hasc.replace_head hmerged rfl hmerge.2))
        · have hordered : Ordered (({ b with hi := e.hi } :: rest).map Entry.block) :=
            hes.tail.replace_head hmerged rfl
          obtain ⟨b', es', rest', hsteps, hjoined⟩ := ih hordered habove.tail xs (e.slot :: spares)
          exact ⟨b', es', rest', .cons hset (.cons hretire hsteps),
            .merge hb he hmerge.1 hmerge.2 hjoined⟩
      · have hapart : b.block.Apart e.block :=
          ⟨hlt, fun hplace hlabel => hmerge ⟨adjacent_iff.mpr ⟨hbHi, heLo, hplace⟩, hlabel⟩⟩
        rw [joinEdits_of_apart (by simpa using hmerge)]
        split
        · rename_i hend
          have hasc := habove [] e rest rfl (lt_iff.mp hend).2.2
          exact ⟨b, e :: rest, spares, .nil _, .cons hb hapart (joined_self hasc)⟩
        · obtain ⟨e', es', rest', hsteps, hjoined⟩ := ih hes.tail habove.tail (xs ++ [b]) spares
          rw [List.append_assoc, List.append_assoc] at hsteps
          exact ⟨b, e' :: es', rest', hsteps, .cons hb hapart hjoined⟩

theorem exists_tidied_all {es : List (Entry α Worth)} (spares : List Nat)
    (hes : Ordered (es.map Entry.block)) (habove : SettledAbove hi es) :
    ∃ es' spares', Steps ⟨es, spares⟩ (joinEdits hi none es) ⟨es', spares'⟩ ∧ Tidied es es' := by
  cases es with
  | nil => exact ⟨[], spares, .nil _, tidied_self Ascending.nil⟩
  | cons e rest =>
      rw [joinEdits_of_apart (by simp)]
      split
      · rename_i hend
        exact ⟨e :: rest, spares, .nil _, tidied_self (habove [] e rest rfl (lt_iff.mp hend).2.2)⟩
      · obtain ⟨e', es', spares', hsteps, hjoined⟩ := exists_joined hes habove.tail [] spares
        exact ⟨e' :: es', spares', hsteps, hjoined.toTidied⟩

theorem exists_tidied_from {zs es : List (Entry α Worth)} {l : Entry α Worth} (spares : List Nat)
    (hes : Ordered ((zs ++ l :: es).map Entry.block))
    (hbelow : Ascending ((zs ++ [l]).map Entry.block)) (hl : ¬ hi < l.lo)
    (habove : SettledAbove hi es) :
    ∃ es' spares', Steps ⟨zs ++ l :: es, spares⟩ (joinEdits hi zs.getLast? (l :: es))
        ⟨es', spares'⟩ ∧ Tidied (zs ++ l :: es) es' := by
  rw [List.map_append, List.map_singleton] at hbelow
  obtain ⟨hzs, _, hacross⟩ := ascending_append.mp hbelow
  have hapart : ∀ b ∈ zs.getLast?, ¬ (Adjacent b.hi l.lo ∧ b.label = l.label) := by
    intro b hb hmerge
    have hmem : b.block ∈ zs.map Entry.block := List.mem_map_of_mem (List.mem_of_getLast? hb)
    exact (hacross b.block hmem l.block (by simp)).2 (adjacent_iff.mp hmerge.1).2.2 hmerge.2
  rw [joinEdits_of_apart hapart, if_neg hl]
  have hlast : Ordered ((l :: es).map Entry.block) :=
    hes.sublist ((List.sublist_append_right ..).map _)
  obtain ⟨l', es', spares', hsteps, hjoined⟩ := exists_joined hlast habove zs spares
  refine ⟨zs ++ l' :: es', spares', hsteps, ?_, fun c hc => ?_, fun v => ?_⟩
  · rw [List.map_append]
    refine hzs.append_cons hjoined.ascending fun b hb => ?_
    have hgap := hacross b hb l.block (by simp)
    simpa [Block.Apart, hjoined.lo_eq, hjoined.label_eq] using hgap
  · rcases List.mem_append.mp hc with hc | hc
    · exact ⟨c, List.mem_append_left _ hc, rfl⟩
    · obtain ⟨d, hd, hlabel⟩ := hjoined.labels c hc
      exact ⟨d, List.mem_append_right _ hd, hlabel⟩
  · rw [List.map_append, List.map_append, weight_append, weight_append, hjoined.weight_eq]

/-! ### The passes over a map -/

theorem settledAbove_append {xs ys : List (Entry α Worth)}
    (hxs : ∀ e ∈ xs, place e.lo ≤ place hi) (hys : Ascending (ys.map Entry.block)) :
    SettledAbove hi (xs ++ ys) := by
  induction xs with
  | nil =>
      intro ws d zs hsplit _
      rw [List.nil_append] at hsplit
      rw [hsplit] at hys
      exact hys.sublist ((List.sublist_append_right ..).map _)
  | cons x rest ih =>
      intro ws d zs hsplit hlt
      cases ws with
      | nil =>
          obtain ⟨rfl, _⟩ := List.cons.inj hsplit
          have := hxs x (by simp)
          omega
      | cons w ws =>
          obtain ⟨_, hrest⟩ := List.cons.inj hsplit
          exact ih (fun e he => hxs e (List.mem_cons_of_mem _ he)) ws d zs hrest hlt

variable {m : WorthMap α} {below rest : List (Entry α Worth)} {spares : List Nat}

theorem Holds.prune (h : m.Holds ⟨below ++ rest, spares⟩) (hhi : Comparable hi)
    (hes : Ordered ((below ++ rest).map Entry.block))
    (hbelow : ∀ e ∈ below, e.label ≠ Worth.zero)
    (habove : ∀ e ∈ rest, place hi < place e.lo → e.label ≠ Worth.zero) :
    ∃ spares', (m.prune (below.getLast?.map Entry.slot) hi).Holds
      ⟨below ++ rest.filter fun e => e.label ≠ Worth.zero, spares'⟩ := by
  have hnodup := (List.nodup_append.mp h.chain.nodup).1
  obtain ⟨spares', hsteps⟩ := exists_pruned spares hes hhi hnodup hbelow habove
  refine ⟨spares', ?_⟩
  rw [WorthMap.prune, h.entries_eq]
  exact h.steps hsteps

theorem Holds.join (h : m.Holds ⟨below ++ rest, spares⟩)
    (hes : Ordered ((below ++ rest).map Entry.block))
    (hbelow : Ascending (below.map Entry.block)) (hlo : ∀ e ∈ below, ¬ hi < e.lo)
    (habove : SettledAbove hi rest) :
    ∃ es' spares', (m.join (below.getLast?.map Entry.slot) hi).Holds ⟨es', spares'⟩ ∧
      Tidied (below ++ rest) es' := by
  have hnodup := (List.nodup_append.mp h.chain.nodup).1
  have hjoin : m.join (below.getLast?.map Entry.slot) hi =
      m.applyAll (joinEdits hi below.dropLast.getLast? (below.getLast?.toList ++ rest)) := by
    rw [WorthMap.join, h.entries_eq, splitAtSlot_getLast? below rest hnodup]
  rw [hjoin]
  rcases List.eq_nil_or_concat below with rfl | ⟨zs, l, rfl⟩
  · obtain ⟨es', spares', hsteps, htidied⟩ := exists_tidied_all spares hes habove
    exact ⟨es', spares', h.steps hsteps, htidied⟩
  · rw [List.concat_eq_append] at hes hbelow hlo h ⊢
    simp only [List.append_assoc, List.singleton_append] at hes h
    obtain ⟨es', spares', hsteps, htidied⟩ :=
      exists_tidied_from spares hes hbelow (hlo l (by simp)) habove
    refine ⟨es', spares', ?_, by simpa using htidied⟩
    simpa using h.steps hsteps

end RangeSets.WorthMap
