import RangeSets.Proofs.RangeSet.Algebra
import RangeSets.Proofs.RangeSet.Coverage
import RangeSets.Proofs.Scale.Stepping
import RangeSets.Proofs.Store.Sharing
/-!
# Sets that are the same stay the same

Two sets may hold the same values in other slots, after another history, and with bounds that are
written in another way, since the same number may be written in two ways. Put through the same
mutations, with arguments that are alike, they hold the same values all the way, they tell the same
changes, and they answer all questions alike.

What is kept along the way is only that both are sound and hold the same values. All else follows from
it: which values a mutation adds or takes away, and therefore the runs that it tells, is decided by
comparisons, and so is every answer.
-/

namespace RangeSets

open Scale

variable {α : Type} [Scale α]

/-- The same mutation, of arguments that are alike. -/
inductive Mutation.Alike : Mutation α → Mutation α → Prop
  | add {lo lo' hi hi' : α} : Scale.Alike lo lo' → Scale.Alike hi hi' →
      Mutation.Alike (.add lo hi) (.add lo' hi')
  | remove {lo lo' hi hi' : α} : Scale.Alike lo lo' → Scale.Alike hi hi' →
      Mutation.Alike (.remove lo hi) (.remove lo' hi')
  | removeFrom {v w : α} : Scale.Alike v w → Mutation.Alike (.removeFrom v) (.removeFrom w)
  | removeAbove {v w : α} : Scale.Alike v w → Mutation.Alike (.removeAbove v) (.removeAbove w)
  | removeUpTo {v w : α} : Scale.Alike v w → Mutation.Alike (.removeUpTo v) (.removeUpTo w)
  | removeBelow {v w : α} : Scale.Alike v w → Mutation.Alike (.removeBelow v) (.removeBelow w)
  | clear : Mutation.Alike .clear .clear
  | extend {rs ts : List (Span α)} : List.Forall₂ Span.Alike rs ts →
      Mutation.Alike (.extend rs) (.extend ts)
  | undo {c d : Change α} : c.Alike d → Mutation.Alike (.undo c) (.undo d)
  | undoAll {cs ds : List (Change α)} : List.Forall₂ Change.Alike cs ds →
      Mutation.Alike (.undoAll cs) (.undoAll ds)

/-- Both values are in a range, or both are before one, or both are past all ranges. -/
def Position.SameKind : Position → Position → Prop
  | .inside _, .inside _ | .before _, .before _ | .pastEnd, .pastEnd => True
  | _, _ => False

theorem Position.Describes.sameKind {P : α → Prop} {v w : α} (hvw : Alike v w) {x y : Position}
    (hx : x.Describes P v) (hy : y.Describes P w) (hP : P v ↔ P w) : x.SameKind y := by
  have hlt : ∀ u, v < u ↔ w < u := fun u => hvw.lt_iff (.refl u)
  cases x with
  | inside i =>
      cases y with
      | inside j => trivial
      | before j => exact hy.1 (hP.mp hx)
      | pastEnd => exact hy.1 (hP.mp hx)
  | before i =>
      obtain ⟨hnot, u, hu, habove⟩ := hx
      cases y with
      | inside j => exact hnot (hP.mpr hy)
      | before j => trivial
      | pastEnd => exact hy.2 u hu ((hlt u).mp habove)
  | pastEnd =>
      cases y with
      | inside j => exact hx.1 (hP.mpr hy)
      | before j =>
          obtain ⟨_, u, hu, habove⟩ := hy
          exact hx.2 u hu ((hlt u).mpr habove)
      | pastEnd => trivial

namespace RangeSet

variable {s t : RangeSet α} {lo lo' hi hi' v w : α}

theorem Sound.contains_congr (h : s.Sound) (hvw : Alike v w) : s.Contains v ↔ s.Contains w := by
  rw [h.decomposes_spans.mem_iff, h.decomposes_spans.mem_iff]
  have hspan : ∀ r : Span α, r.Contains v ↔ r.Contains w :=
    fun r => Span.Alike.contains_iff ⟨.refl r.lo, .refl r.hi⟩ hvw
  simp only [hspan]

/-- Sound sets that hold the same values. -/
structure Agrees (s t : RangeSet α) : Prop where
  left : s.Sound
  right : t.Sound
  contains_iff : ∀ v, s.Contains v ↔ t.Contains v

/-- Two changed sets agree, and the same changes are told of both. -/
def Abreast (r q : RangeSet α × List (Change α)) : Prop :=
  r.1.Agrees q.1 ∧ List.Forall₂ Change.Same r.2 q.2

namespace Agrees

theorem same (h : s.Agrees t) : s.Same t := (h.left.same_iff h.right).mpr h.contains_iff

theorem of_same (hs : s.Sound) (ht : t.Sound) (h : s.Same t) : s.Agrees t :=
  ⟨hs, ht, (hs.same_iff ht).mp h⟩

theorem contains_eq (h : s.Agrees t) : s.Contains = t.Contains :=
  funext fun v => propext (h.contains_iff v)

theorem min_same (h : s.Agrees t) : Scale.Same s.min t.min :=
  (h.contains_eq ▸ h.left.min_spec).same h.right.min_spec

theorem max_same (h : s.Agrees t) : Scale.Same s.max t.max :=
  (h.contains_eq ▸ h.left.max_spec).same h.right.max_spec

theorem isEmpty_iff (h : s.Agrees t) : s.IsEmpty ↔ t.IsEmpty := by
  rw [h.left.isEmpty_iff, h.right.isEmpty_iff, h.contains_eq]

theorem spans_same (h : s.Agrees t) : List.Forall₂ Span.Same s.spans t.spans :=
  (h.left.decomposes_spans.forall₂_same_iff h.right.decomposes_spans).mpr h.contains_iff

/-! ### Mutations -/

theorem unchanged (h : s.Agrees t) : Abreast (s, []) (t, []) := ⟨h, .nil⟩

/-- The runs of one property are told of both. -/
theorem abreast {r q : RangeSet α × List (Change α)} {P Q : α → Prop} {told : Span α → Change α}
    (h : r.1.Agrees q.1) (hr : ∃ runs, Decomposes P runs ∧ r.2 = runs.map told)
    (hq : ∃ runs, Decomposes Q runs ∧ q.2 = runs.map told) (hPQ : ∀ v, P v ↔ Q v)
    (htold : ∀ r t, r.Same t → (told r).Same (told t)) : Abreast r q := by
  obtain ⟨runs, hruns, hr⟩ := hr
  obtain ⟨others, hothers, hq⟩ := hq
  refine ⟨h, ?_⟩
  rw [hr, hq]
  exact forall₂_same_told hruns (hothers.congr fun v => (hPQ v).symm) htold

theorem add (h : s.Agrees t) (hlo : Alike lo lo') (hhi : Alike hi hi') :
    Abreast (s.add lo hi) (t.add lo' hi') := by
  have hbetween := hlo.between_iff hhi
  obtain ⟨hs, hcontains⟩ := h.left.add lo hi
  obtain ⟨ht, hcontains'⟩ := h.right.add lo' hi'
  have hagrees : (s.add lo hi).1.Agrees (t.add lo' hi').1 := by
    refine ⟨hs, ht, fun v => ?_⟩
    rw [hcontains, hcontains', h.contains_iff, hbetween]
  refine hagrees.abreast (h.left.add_changes lo hi) (h.right.add_changes lo' hi') (fun v => ?_)
    fun _ _ hsame => hsame
  rw [hbetween, h.contains_iff]

theorem remove (h : s.Agrees t) (hlo : Alike lo lo') (hhi : Alike hi hi') :
    Abreast (s.remove lo hi) (t.remove lo' hi') := by
  have hbetween := hlo.between_iff hhi
  obtain ⟨hs, hcontains⟩ := h.left.remove lo hi
  obtain ⟨ht, hcontains'⟩ := h.right.remove lo' hi'
  have hagrees : (s.remove lo hi).1.Agrees (t.remove lo' hi').1 := by
    refine ⟨hs, ht, fun v => ?_⟩
    rw [hcontains, hcontains', h.contains_iff, hbetween]
  refine hagrees.abreast (h.left.remove_changes lo hi) (h.right.remove_changes lo' hi')
    (fun v => ?_) fun _ _ hsame => hsame
  rw [hbetween, h.contains_iff]

theorem clear (h : s.Agrees t) : Abreast s.clear t.clear := by
  have hnone : s.clear.1.Agrees t.clear.1 := ⟨sound_empty, sound_empty, fun _ => Iff.rfl⟩
  exact hnone.abreast ⟨s.spans, h.left.decomposes_spans, rfl⟩
    ⟨t.spans, h.right.decomposes_spans, rfl⟩ h.contains_iff fun _ _ hsame => hsame

theorem undo (h : s.Agrees t) {c d : Change α} (hcd : c.Alike d) : Abreast (s.undo c) (t.undo d) := by
  cases c with
  | gained r =>
      cases d with
      | gained u => exact h.remove hcd.1 hcd.2
      | lost u => exact hcd.elim
  | lost r =>
      cases d with
      | gained u => exact hcd.elim
      | lost u => exact h.add hcd.1 hcd.2

/-- What keeps sets abreast for one argument keeps them abreast for a list of arguments. -/
theorem inTurn {β : Type} {R : β → β → Prop} {f : RangeSet α → β → RangeSet α × List (Change α)}
    (hf : ∀ s t x y, s.Agrees t → R x y → Abreast (f s x) (f t y)) (h : s.Agrees t) {xs ys : List β}
    (hxs : List.Forall₂ R xs ys) : Abreast (inTurn f s xs) (inTurn f t ys) := by
  induction hxs generalizing s t with
  | nil => exact h.unchanged
  | cons hxy _ ih =>
      obtain ⟨hfirst, htold⟩ := hf _ _ _ _ h hxy
      obtain ⟨hfinal, hlater⟩ := ih hfirst
      exact ⟨hfinal, List.rel_append htold hlater⟩

theorem mutate (h : s.Agrees t) {m n : Mutation α} (hmn : m.Alike n) :
    Abreast (s.mutate m) (t.mutate n) := by
  have hmin := alike_of_same h.min_same
  have hmax := alike_of_same h.max_same
  cases hmn with
  | add hlo hhi => exact h.add hlo hhi
  | remove hlo hhi => exact h.remove hlo hhi
  | removeFrom hv =>
      simp only [RangeSet.mutate, RangeSet.removeFrom, h.isEmpty_iff]
      split
      · exact h.unchanged
      · exact h.remove hv hmax
  | removeAbove hv =>
      simp only [RangeSet.mutate, RangeSet.removeAbove, hv.lt_iff hmax]
      split
      · exact h.remove hv.next hmax
      · exact h.unchanged
  | removeUpTo hv =>
      simp only [RangeSet.mutate, RangeSet.removeUpTo, h.isEmpty_iff]
      split
      · exact h.unchanged
      · exact h.remove hmin hv
  | removeBelow hv =>
      simp only [RangeSet.mutate, RangeSet.removeBelow, hmin.lt_iff hv]
      split
      · exact h.remove hmin hv.prev
      · exact h.unchanged
  | clear => exact h.clear
  | extend hranges => exact h.inTurn (fun _ _ _ _ hagrees hr => hagrees.add hr.1 hr.2) hranges
  | undo hcd => exact h.undo hcd
  | undoAll hchanges =>
      exact h.inTurn (R := Change.Alike) (fun _ _ _ _ hagrees hcd => hagrees.undo hcd)
        (List.forall₂_reverse_iff.mpr hchanges)

/-- Sets that agree stay abreast through mutations that are alike, one after another. -/
theorem mutateAll (h : s.Agrees t) {ms ns : List (Mutation α)}
    (hms : List.Forall₂ Mutation.Alike ms ns) :
    Abreast (RangeSet.inTurn RangeSet.mutate s ms) (RangeSet.inTurn RangeSet.mutate t ns) :=
  h.inTurn (f := RangeSet.mutate) (fun _ _ _ _ hagrees hmn => hagrees.mutate hmn) hms

/-! ### Operations -/

variable {u x : RangeSet α}

theorem union (h : s.Agrees t) (hux : u.Agrees x) : (s.union u).Agrees (t.union x) := by
  refine ⟨h.left.union u, h.right.union x, fun v => ?_⟩
  rw [h.left.contains_union hux.left, h.right.contains_union hux.right, h.contains_iff,
    hux.contains_iff]

theorem difference (h : s.Agrees t) (hux : u.Agrees x) :
    (s.difference u).Agrees (t.difference x) := by
  refine ⟨h.left.difference u, h.right.difference x, fun v => ?_⟩
  rw [h.left.contains_difference hux.left, h.right.contains_difference hux.right, h.contains_iff,
    hux.contains_iff]

theorem intersection (h : s.Agrees t) (hux : u.Agrees x) :
    (s.intersection u).Agrees (t.intersection x) :=
  h.difference (h.difference hux)

theorem complement (h : s.Agrees t) : s.complement.Agrees t.complement := by
  have hwhole : Agrees (whole : RangeSet α) whole := ⟨sound_whole, sound_whole, fun _ => Iff.rfl⟩
  exact hwhole.difference h

end Agrees

/-! ### Answers -/

/-- All questions about two sets have the same answers when the arguments are alike: a number may be
written in another way, and a position may name another slot. -/
structure AnswersAlike (s t : RangeSet α) : Prop where
  contains_iff : ∀ v w, Alike v w → (s.Contains v ↔ t.Contains w)
  position_sameKind : ∀ v w, Alike v w → (s.position v).SameKind (t.position w)
  min_same : Scale.Same s.min t.min
  max_same : Scale.Same s.max t.max
  above?_same : ∀ v w, Alike v w → Option.Rel Scale.Same (s.above? v) (t.above? w)
  below?_same : ∀ v w, Alike v w → Option.Rel Scale.Same (s.below? v) (t.below? w)
  coverage_eq : ∀ lo lo' hi hi', Alike lo lo' → Alike hi hi' → s.coverage lo hi = t.coverage lo' hi'
  count_eq : s.count = t.count
  extent_eq : s.extent = t.extent
  hull_same : s.hull.Same t.hull
  cardinality?_eq : s.cardinality? = t.cardinality?
  hasNone_eq : s.hasNone = t.hasNone
  hasOne_eq : s.hasOne = t.hasOne
  union_same : ∀ u x, Agrees u x → (s.union u).Same (t.union x)
  intersection_same : ∀ u x, Agrees u x → (s.intersection u).Same (t.intersection x)
  difference_same : ∀ u x, Agrees u x → (s.difference u).Same (t.difference x)
  rest_same : ∀ u x, Agrees u x → (u.difference s).Same (x.difference t)
  complement_same : s.complement.Same t.complement

theorem total_eq_of_same {rs ts : List (Span α)} (h : List.Forall₂ Span.Same rs ts)
    (most total : Nat) :
    rs.foldlM (fun total r => (count? r.lo r.hi).map fun n => Nat.min (total + n) most) total =
      ts.foldlM (fun total r => (count? r.lo r.hi).map fun n => Nat.min (total + n) most) total := by
  induction h generalizing total with
  | nil => rfl
  | cons hsame _ ih =>
      have hcount := (alike_of_same hsame.1).count?_eq (alike_of_same hsame.2)
      simp only [List.foldlM_cons, hcount, ih]

namespace Agrees

theorem coverage_eq (h : s.Agrees t) (hlo : Alike lo lo') (hhi : Alike hi hi') :
    s.coverage lo hi = t.coverage lo' hi' := by
  have hleft := h.left.coverage_spec lo hi
  rw [h.contains_eq] at hleft
  exact (hleft.congr hlo hhi).unique (h.right.coverage_spec lo' hi')

theorem cardinality?_eq (h : s.Agrees t) : s.cardinality? = t.cardinality? := by
  simp only [cardinality?, total_eq_of_same h.spans_same]

theorem extent_eq (h : s.Agrees t) : s.extent = t.extent := by
  rw [extent, extent, Extent.ofBounds_eq (alike_of_same h.min_same) (alike_of_same h.max_same)]
  simp only [h.isEmpty_iff]

theorem answersAlike (h : s.Agrees t) : s.AnswersAlike t where
  contains_iff v w hvw := (h.left.contains_congr hvw).trans (h.contains_iff w)
  position_sameKind v w hvw :=
    (h.contains_eq ▸ h.left.position_spec v).sameKind hvw (h.right.position_spec w)
      (h.right.contains_congr hvw)
  min_same := h.min_same
  max_same := h.max_same
  above?_same v w hvw :=
    LeastAbove.same hvw (h.contains_eq ▸ h.left.above?_spec v) (h.right.above?_spec w)
  below?_same v w hvw :=
    GreatestBelow.same hvw (h.contains_eq ▸ h.left.below?_spec v) (h.right.below?_spec w)
  coverage_eq lo lo' hi hi' := h.coverage_eq
  count_eq := h.same.1
  extent_eq := h.extent_eq
  hull_same := by
    simp only [hull, h.isEmpty_iff]
    split
    · exact ⟨⟨comparable_top, comparable_top⟩, comparable_bottom, comparable_bottom⟩
    · exact ⟨h.min_same, h.max_same⟩
  cardinality?_eq := h.cardinality?_eq
  hasNone_eq := by simp only [hasNone, h.cardinality?_eq, h.isEmpty_iff]
  hasOne_eq := by rw [hasOne, hasOne, h.cardinality?_eq, h.extent_eq]
  union_same u x hux := (h.union hux).same
  intersection_same u x hux := (h.intersection hux).same
  difference_same u x hux := (h.difference hux).same
  rest_same u x hux := (hux.difference h).same
  complement_same := h.complement.same

end Agrees

end RangeSet

namespace Store

open RangeSet

variable {first second : Store α} {name other : String} {watch otherWatch : Watch}
  {s t : RangeSet α}

/-- Two sets that are the same, however they were made, are watched under one tag, each by a trail of
its own store, and the same mutations are made on both, with arguments that are alike. Then the sets
are the same again, the trails have heard the same events, and all questions about the sets have the
same answers. Since the run of mutations may be of any length, this is so after each of them. What is
the same number is written in one way only, but for the sign of a floating point zero. -/
theorem same_sets_in_lockstep (hfirst : first.sets.get? name = some ⟨s, some watch⟩)
    (hsecond : second.sets.get? other = some ⟨t, some otherWatch⟩) (htag : watch.tag = otherWatch.tag)
    (hs : s.Reachable) (ht : t.Reachable) (hsame : s.Same t) {ms ns : List (Mutation α)}
    (hms : List.Forall₂ Mutation.Alike ms ns) :
    ∃ s' t' events events',
      (first.mutateAll name ms).sets.value? name = some s' ∧
      (second.mutateAll other ns).sets.value? other = some t' ∧
      s'.Same t' ∧
      ((first.mutateAll name ms).trails.trail watch.trail).heard =
        (first.trails.trail watch.trail).heard ++ events ∧
      ((second.mutateAll other ns).trails.trail otherWatch.trail).heard =
        (second.trails.trail otherWatch.trail).heard ++ events' ∧
      List.Forall₂ Event.Same events events' ∧
      s'.AnswersAlike t' ∧
      (∀ (f : IntegerFormat) (a b : Fixed f), Scale.Same a b → a = b) ∧
      ∀ (p : Precision) (x y : Binary p), Scale.Same x y →
        x = y ∨ (x.magnitude = 0 ∧ y.magnitude = 0) := by
  obtain ⟨hleft, hleftHeard⟩ := mutateAll_of_get? hfirst ms
  obtain ⟨hright, hrightHeard⟩ := mutateAll_of_get? hsecond ns
  obtain ⟨hagrees, htold⟩ := (Agrees.of_same hs.sound ht.sound hsame).mutateAll hms
  refine ⟨_, _, _, _, ?_, ?_, hagrees.same, hleftHeard.heard_eq, hrightHeard.heard_eq, ?_,
    hagrees.answersAlike, fun _ _ _ hsame => Fixed.ext (Int.le_antisymm hsame.1 hsame.2),
    fun _ _ _ hsame => Binary.eq_or_zeros_of_same hsame⟩
  · rw [Shelf.value?, hleft]
    rfl
  · rw [Shelf.value?, hright]
    rfl
  · rw [List.forall₂_map_left_iff, List.forall₂_map_right_iff]
    exact htold.imp fun _ _ hchange => ⟨htag, hchange⟩

/-- All numbers up to zero, which is written without a sign, put together from above. -/
def upToPlainZero : RangeSet (Binary .single) := .ofSpans [⟨⟨0⟩, ⟨0⟩⟩, ⟨bottom, ⟨0x80000001⟩⟩]

theorem zeros_in_lockstep :
    upToZero.Reachable ∧ upToPlainZero.Reachable ∧ upToZero.Same upToPlainZero ∧
      upToZero ≠ upToPlainZero ∧
      ∃ s' t' : RangeSet (Binary .single),
        ((alone "first" upToZero ⟨7, "log"⟩).mutateAll "first"
          [.removeBelow ⟨0x80000000⟩, .add ⟨0⟩ top]).sets.value? "first" = some s' ∧
        ((alone "second" upToPlainZero ⟨7, "trail"⟩).mutateAll "second"
          [.removeBelow ⟨0⟩, .add ⟨0x80000000⟩ top]).sets.value? "second" = some t' ∧
        s'.Same t' ∧ s'.AnswersAlike t' := by
  have hfirst : upToZero.Reachable := .ofSpans _
  have hsecond : upToPlainZero.Reachable := .ofSpans _
  have hsame : upToZero.Same upToPlainZero := by decide +kernel
  have hzeros : Scale.Alike (⟨0⟩ : Binary .single) ⟨0x80000000⟩ := by decide +kernel
  have hms : List.Forall₂ Mutation.Alike
      [.removeBelow ⟨0x80000000⟩, .add (⟨0⟩ : Binary .single) top]
      [.removeBelow ⟨0⟩, .add ⟨0x80000000⟩ top] :=
    .cons (.removeBelow hzeros.symm) (.cons (.add hzeros (.refl top)) .nil)
  obtain ⟨s', t', _, _, hs', ht', hafter, _, _, _, hanswers, _⟩ :=
    same_sets_in_lockstep (alone_get? "first" upToZero ⟨7, "log"⟩)
      (alone_get? "second" upToPlainZero ⟨7, "trail"⟩) rfl hfirst hsecond hsame hms
  exact ⟨hfirst, hsecond, hsame, by decide +kernel, s', t', hs', ht', hafter, hanswers⟩

end Store

end RangeSets
