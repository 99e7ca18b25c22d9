import RangeSets.Proofs.Stepwise.Pieces
import RangeSets.Proofs.Stepwise.Spreading
import RangeSets.Proofs.Stepwise.Tidying
import RangeSets.Proofs.WorthMap.Telling
/-!
# Changing worth maps, access by access

The slot before the range is looked up before the first pass, and the other two passes start from it:
nothing that the first pass does gives it back, and the second one does not either, since its worth is
not zero. What comes out is the planned change, or the fault of the plan where a sum or a negation is no
worth.
-/

namespace RangeSets

open Scale

namespace Stepwise

variable {α : Type} [Scale α]

/-- How the support from `lo` to `hi` changed from what it was before. -/
def supportChanges (before : RangeSet α) (m : WorthMap α) (lo hi : α) :
    Except Stop (List (Change α)) := do
  let after ← supportWithin m lo hi
  let lost ← walkSpans (← difference before after)
  let gained ← walkSpans (← difference after before)
  return lost.map .lost ++ gained.map .gained

/-- Adds a worth to every value from `lo` to `hi`. -/
def raise (m : WorthMap α) (lo hi : α) (worth : Worth) :
    Except Stop (WorthMap α × List (Change α)) :=
  if lo ≤ hi ∧ worth ≠ Worth.zero then do
    let before ← supportWithin m lo hi
    let first? ← firstReaching m.chain lo
    let below? ← preceding m.chain first?
    let spread ← spreadFrom hi worth m.chain.slots.size m lo first?
    let pruned ← prune spread below? hi
    let after ← join pruned below? hi
    return (after, ← supportChanges before after lo hi)
  else .ok (m, [])

/-- Takes a worth away from every value from `lo` to `hi`. -/
def lower (m : WorthMap α) (lo hi : α) (worth : Worth) :
    Except Stop (WorthMap α × List (Change α)) :=
  match Worth.neg? worth with
  | some negated => raise m lo hi negated
  | none => .error (.fault (.negation worth))

def forget (m : WorthMap α) : Except Stop (WorthMap α × List (Change α)) := do
  let ranges ← walkSpans (← support m)
  return (WorthMap.empty, ranges.map .lost)

def revise (m : WorthMap α) : WorthMap.Revision α → Except Stop (WorthMap α × List (Change α))
  | .adjust (.add lo hi worth) => raise m lo hi worth
  | .adjust (.remove lo hi worth) => lower m lo hi worth
  | .addMap other => do
      inTurn (fun m piece => raise m piece.lo piece.hi piece.worth) m (← walkPieces other)
  | .removeMap other => do
      inTurn (fun m piece => lower m piece.lo piece.hi piece.worth) m (← walkPieces other)
  | .clear => forget m

end Stepwise

namespace WorthMap

open Stepwise

variable {α : Type} [Scale α] {m n : WorthMap α} {p : Layout α Worth} {lo hi : α} {worth : Worth}

theorem Holds.supportChanges_ok (h : n.Holds p) (old : WorthMap α) (lo hi : α) :
    Stepwise.supportChanges (old.supportWithin lo hi) n lo hi =
      .ok (old.supportChanges n lo hi) := by
  have hbefore : (old.supportWithin lo hi).Sound := RangeSet.sound_empty.extend _
  have hafter : (n.supportWithin lo hi).Sound := RangeSet.sound_empty.extend _
  have hlost : ((old.supportWithin lo hi).difference (n.supportWithin lo hi)).Sound :=
    hbefore.removeEach _
  have hgained : ((n.supportWithin lo hi).difference (old.supportWithin lo hi)).Sound :=
    hafter.removeEach _
  rw [Stepwise.supportChanges, h.supportWithin_ok]
  simp only [ok_bind, hbefore.difference_ok hafter, hafter.difference_ok hbefore,
    hlost.walkSpans_ok, hgained.walkSpans_ok]
  rfl

/-- The second and the third pass over what the first one left. -/
theorem Passed.tidy_ok {cut : Cut α Worth} {ins outs : List (Entry α Worth)} {spares : List Nat}
    (h : Passed lo hi worth cut ins outs) (hhi : Comparable hi)
    (hm : m.Holds ⟨cut.below ++ (ins ++ outs ++ cut.above), spares⟩) :
    (do Stepwise.join (← Stepwise.prune m (lastSlot none cut.below) hi) (lastSlot none cut.below) hi) =
      .ok ((m.prune (cut.below.getLast?.map Entry.slot) hi).join
        (cut.below.getLast?.map Entry.slot) hi) := by
  obtain ⟨spares', hpruned⟩ := h.exists_pruned hhi hm
  rw [lastSlot_eq_getLast?, hm.prune_eq]
  exact hpruned.join_eq

/-- Adding a worth comes to no breach. It comes to what adding it in one step comes to, a result or a
fault. -/
theorem Represents.raise_eq (h : m.Represents p) (lo hi : α) (worth : Worth) :
    Stepwise.raise m lo hi worth = (m.add lo hi worth).mapError .fault := by
  by_cases hdoes : lo ≤ hi ∧ worth ≠ Worth.zero
  · obtain ⟨_, hhi, _⟩ := le_iff.mp hdoes.1
    have hfits := Cut.of_fits h.ascending.ordered hdoes.1
    have hreached := Cut.reached_eq lo hi p.entries
    rw [Stepwise.raise, if_pos hdoes, h.holds.supportWithin_ok, h.holds.chain.firstReaching_eq,
      hreached, WorthMap.add, if_pos hdoes, h.holds.entries_eq]
    simp only [ok_bind]
    generalize Cut.of lo hi p.entries = cut at hfits ⊢
    have hholds : m.Holds ⟨cut.below ++ (cut.touched ++ cut.above), p.spares⟩ := by
      rw [← List.append_assoc, ← hfits.entries_eq]
      exact h.holds
    have hsteps : (cut.touched ++ cut.above).length ≤ m.chain.slots.size := by
      have hlength := hholds.chain.length_le
      rw [List.length_append] at hlength
      omega
    have hspread := hholds.spreadFrom_eq (hfits.ordered_touched h.ascending.ordered) hhi
      (fun t ht => (hfits.touched t ht).2) (hfits.lt_above h.ascending.ordered hhi) hsteps lo worth
    rw [firstSlot_eq_head? cut.above] at hspread
    rw [hholds.chain.preceding_eq]
    simp only [ok_bind]
    rw [hspread]
    cases hedits : spreadEdits (cut.above.head?.map Entry.slot) hi worth lo cut.touched with
    | error fault => rfl
    | ok edits =>
        obtain ⟨ins, outs, spares, hpassed, hentries⟩ := h.exists_passed hdoes.1 hfits hedits
        have htidy := hentries.tidy_ok hhi hpassed
        obtain ⟨q, hq, _⟩ := hentries.exists_tidied hdoes.1 hpassed
        simp only [Except.map, Except.mapError, ok_bind]
        rw [← bind_assoc, htidy]
        simp only [ok_bind, hq.holds.supportChanges_ok]
        rfl
  · rw [Stepwise.raise, if_neg hdoes, WorthMap.add, if_neg hdoes]
    rfl

theorem Sound.raise_eq (h : m.Sound) (lo hi : α) (worth : Worth) :
    Stepwise.raise m lo hi worth = (m.add lo hi worth).mapError .fault := by
  obtain ⟨p, hp⟩ := h
  exact hp.raise_eq lo hi worth

theorem Sound.lower_eq (h : m.Sound) (lo hi : α) (worth : Worth) :
    Stepwise.lower m lo hi worth = (m.remove lo hi worth).mapError .fault := by
  rw [Stepwise.lower, WorthMap.remove]
  cases Worth.neg? worth with
  | none => rfl
  | some negated => exact h.raise_eq lo hi negated

theorem Sound.walkPieces_ok (h : m.Sound) : walkPieces m = .ok m.ranges := by
  obtain ⟨p, hp⟩ := h
  exact hp.holds.walkPieces_ok

theorem Sound.forget_ok (h : m.Sound) : Stepwise.forget m = .ok m.clear := by
  obtain ⟨p, hp⟩ := h
  have hsupport : m.support.Sound := RangeSet.sound_empty.extend _
  rw [Stepwise.forget, hp.holds.support_ok]
  simp only [ok_bind, hsupport.walkSpans_ok]
  rfl

/-! ### Changes in turn -/

/-- Work in turn comes to what the plain work comes to, if each step of it does on a sound map and
leaves a sound one. -/
theorem Sound.inTurn_eq {f : WorthMap α → Piece α → Except Stop (WorthMap α × List (Change α))}
    {g : WorthMap α → Piece α → Except Fault (WorthMap α × List (Change α))}
    (hf : ∀ m piece, m.Sound → f m piece = (g m piece).mapError .fault)
    (hg : ∀ m piece after changes, m.Sound → g m piece = .ok (after, changes) → after.Sound)
    (h : m.Sound) (pieces : List (Piece α)) :
    Stepwise.inTurn f m pieces = (WorthMap.inTurn g m pieces).mapError .fault := by
  induction pieces generalizing m with
  | nil => rfl
  | cons piece rest ih =>
      rw [Stepwise.inTurn, WorthMap.inTurn, hf m piece h]
      cases hfirst : g m piece with
      | error fault => rfl
      | ok result =>
          obtain ⟨after, changes⟩ := result
          simp only [Except.mapError, ok_bind]
          rw [ih (hg m piece after changes h hfirst)]
          cases WorthMap.inTurn g after rest <;> rfl

/-- A change whose operands are sound. -/
def Revision.Sound : Revision α → Prop
  | .addMap other | .removeMap other => other.Sound
  | _ => True

/-- A change of a sound map comes to no breach, and it comes to the planned one or to its fault. -/
theorem Sound.revise_eq (h : m.Sound) {r : Revision α} (hr : r.Sound) :
    Stepwise.revise m r = (m.revise r).mapError .fault := by
  cases r with
  | adjust a =>
      cases a with
      | add lo hi worth => exact h.raise_eq lo hi worth
      | remove lo hi worth => exact h.lower_eq lo hi worth
  | addMap other =>
      have hother : other.Sound := hr
      rw [Stepwise.revise, hother.walkPieces_ok]
      exact h.inTurn_eq (fun _ piece hm => hm.raise_eq piece.lo piece.hi piece.worth)
        (fun _ _ _ _ hm hadd => (hm.add hadd).1) other.ranges
  | removeMap other =>
      have hother : other.Sound := hr
      rw [Stepwise.revise, hother.walkPieces_ok]
      exact h.inTurn_eq (fun _ piece hm => hm.lower_eq piece.lo piece.hi piece.worth)
        (fun _ _ _ _ hm hremove => (hm.remove hremove).1) other.ranges
  | clear =>
      rw [Stepwise.revise, h.forget_ok]
      rfl

end WorthMap

end RangeSets
