import RangeSets.Proofs.Fault
import RangeSets.Proofs.PointSet.Updates
import RangeSets.Proofs.Scale.Width
import RangeSets.Store
/-!
# Point sets, statement by statement

A universe is made and a number put into it again, with nothing taken for granted. Whole numbers are
kept in words, and a sum or a difference that does not fit its word puts an end to the work. The set
and the trails that hear of it are changed in place: whatever was done before a refusal stays done.

On formats of up to 64 bits no word is too small. What is left of the work is the update of the set,
with its changes told one by one, or a refusal that has left no trace.
-/

namespace RangeSets

variable {f : IntegerFormat}

/-- Why work on a point set ends without a result. -/
inductive PointStop (f : IntegerFormat) where
  /-- A request is turned down. -/
  | refused (refusal : Refusal (Fixed f))
  /-- A whole number does not fit its word. -/
  | overflow

/-- A point set while it is worked on, with the watch on it and the trails. -/
structure AtWork (f : IntegerFormat) where
  set : PointSet f
  watch? : Option Watch
  trails : Trails (Fixed f)

/-- Work that changes a point set in place, and may end without a result. -/
abbrev PointWork (f : IntegerFormat) := ExceptT (PointStop f) (StateM (AtWork f))

namespace PointWork

variable {ρ σ : Type}

/-- What comes of work, and how it leaves what it works on. -/
def runOn (work : PointWork f ρ) (before : AtWork f) : Except (PointStop f) ρ × AtWork f :=
  StateT.run work.run before

theorem runOn_get (before : AtWork f) :
    (get : PointWork f (AtWork f)).runOn before = (.ok before, before) := rfl

theorem runOn_liftExcept (result : Except (PointStop f) ρ) (before : AtWork f) :
    (liftExcept result : PointWork f ρ).runOn before = (result, before) := by
  cases result <;> rfl

theorem runOn_bind (work : PointWork f ρ) (next : ρ → PointWork f σ) (before : AtWork f) :
    (work >>= next).runOn before =
      match work.runOn before with
      | (.ok a, after) => (next a).runOn after
      | (.error stop, after) => (.error stop, after) := by
  show StateT.run (ExceptT.run (work >>= next)) before = _
  rw [ExceptT.run_bind, StateT.run_bind, runOn]
  generalize StateT.run work.run before = outcome
  obtain ⟨result, after⟩ := outcome
  cases result <;> rfl

end PointWork

namespace Stepwise.Points

/-! ### Universes -/

/-- How many bits an index into a set has. -/
def indexBits : Nat := 64

/-- How far a number is from another one. -/
def distance (a b : Fixed f) : Except (PointStop f) (BitVec 128) :=
  if a.wide.ssubOverflow b.wide then .error .overflow else .ok (a.wide - b.wide)

def addOne (w : BitVec 128) : Except (PointStop f) (BitVec 128) :=
  if w.saddOverflow 1 then .error .overflow else .ok (w + 1)

/-- The number of values of a universe as an index, if the universe is not refused. -/
def width (lo hi : Fixed f) : Except (PointStop f) Nat :=
  if hi < lo then .error (.refused (.unordered lo hi))
  else do
    let width ← addOne (← distance hi lo)
    if (widestUniverse : Int) < width.toInt then .error (.refused (.tooWide lo hi))
    else if 0 ≤ width.toInt ∧ width.toInt < (2 ^ indexBits : Nat) then .ok width.toNat
    else .error (.refused (.tooWide lo hi))

def emptyOver (lo hi : Fixed f) : Except (PointStop f) (PointSet f) := do
  let _ ← width lo hi
  return ⟨lo, hi, []⟩

/-- Puts all offsets of a universe into a set, one after another. -/
def fullOver (lo hi : Fixed f) : Except (PointStop f) (PointSet f) := do
  let n ← width lo hi
  return ⟨lo, hi, (List.range n).foldl (fun offsets k => PointSet.insertOffset k offsets) []⟩

theorem distance_eq (hbits : f.bits ≤ 64) (a b : Fixed f) :
    distance a b = .ok (a.wide - b.wide) := by
  rw [distance, (Fixed.sub_wide hbits a b).1, if_neg Bool.false_ne_true]

theorem addOne_eq (hbits : f.bits ≤ 64) (a b : Fixed f) :
    addOne (a.wide - b.wide) = (.ok (a.wide - b.wide + 1) : Except (PointStop f) _) := by
  rw [addOne, (Fixed.sub_wide_succ hbits a b).1, if_neg Bool.false_ne_true]

/-- A distance that is not negative is not cut down when it becomes an index. -/
theorem toNat_index (hbits : f.bits ≤ 64) {a b : Fixed f} (hle : ¬ a < b) :
    ((a.wide - b.wide).setWidth indexBits).toNat = (a.val - b.val).toNat := by
  have hdistance := (Fixed.sub_wide hbits a b).2
  have hindex := Fixed.sub_lt hbits a b
  rw [Fixed.lt_iff] at hle
  rw [BitVec.toNat_setWidth, Word.toNat_eq_of_nonneg (by omega), hdistance, Nat.mod_eq_of_lt]
  unfold indexBits
  omega

theorem width_eq (hbits : f.bits ≤ 64) (lo hi : Fixed f) :
    width lo hi = ((PointSet.emptyOver lo hi).map fun _ =>
      (PointSet.widthOf lo hi).toNat).mapError .refused := by
  have hwidth := (Fixed.sub_wide_succ hbits hi lo).2
  rw [width, PointSet.emptyOver]
  split
  · rfl
  · rename_i hle
    rw [Fixed.lt_iff] at hle
    rw [distance_eq hbits, ok_bind, addOne_eq hbits, ok_bind, hwidth, PointSet.widthOf]
    split
    · rfl
    · rename_i hnarrow
      have hfits : 0 ≤ hi.val - lo.val + 1 ∧ hi.val - lo.val + 1 < (2 ^ indexBits : Nat) := by
        have hwidest : widestUniverse = 2 ^ 32 := rfl
        unfold indexBits
        omega
      rw [if_pos hfits, Word.toNat_eq_of_nonneg (by omega), hwidth]
      rfl

theorem emptyOver_eq (hbits : f.bits ≤ 64) (lo hi : Fixed f) :
    emptyOver lo hi = (PointSet.emptyOver lo hi).mapError .refused := by
  rw [emptyOver, width_eq hbits]
  cases hmade : PointSet.emptyOver lo hi with
  | error refusal => rfl
  | ok p =>
      obtain ⟨_, rfl⟩ := PointSet.eq_of_emptyOver hmade
      rfl

/-- An offset above all others goes behind them. -/
theorem insertOffset_of_lt {n : Nat} {ns : List Nat} (h : ∀ m ∈ ns, m < n) :
    PointSet.insertOffset n ns = ns ++ [n] := by
  induction ns with
  | nil => rfl
  | cons m rest ih =>
      have hm := h m (by simp)
      rw [PointSet.insertOffset, if_neg (by omega), ih fun k hk => h k (by simp [hk]),
        List.cons_append]

theorem foldl_insertOffset_range (n : Nat) :
    (List.range n).foldl (fun offsets k => PointSet.insertOffset k offsets) [] = List.range n := by
  induction n with
  | zero => rfl
  | succ n ih =>
      rw [List.range_succ, List.foldl_append, ih]
      exact insertOffset_of_lt fun m hm => List.mem_range.mp hm

theorem fullOver_eq (hbits : f.bits ≤ 64) (lo hi : Fixed f) :
    fullOver lo hi = (PointSet.fullOver lo hi).mapError .refused := by
  rw [fullOver, width_eq hbits, PointSet.fullOver]
  cases hmade : PointSet.emptyOver lo hi with
  | error refusal => rfl
  | ok p =>
      obtain ⟨_, rfl⟩ := PointSet.eq_of_emptyOver hmade
      show Except.ok _ = Except.ok _
      rw [foldl_insertOffset_range]

/-! ### Numbers put into a set -/

/-- Finds the place of a number in the universe. -/
def findOffset (v : Fixed f) : PointWork f Nat := do
  let work ← get
  if v < work.set.lower ∨ work.set.upper < v then
    throw (.refused (.outside v work.set.lower work.set.upper))
  else
    let n ← liftExcept (distance v work.set.lower)
    return (n.setWidth indexBits).toNat

/-- Puts an offset in, and says whether it was missing. -/
def enter (n : Nat) : PointWork f Bool := do
  let work ← get
  if n ∈ work.set.offsets then return false
  else
    set { work with set.offsets := PointSet.insertOffset n work.set.offsets }
    return true

/-- Tells the trail of the watch, if there is one. -/
def tell (change : Change (Fixed f)) : PointWork f Unit :=
  modify fun work => { work with trails := work.trails.tell work.watch? [change] }

def addPoint (v : Fixed f) : PointWork f Unit := do
  let n ← findOffset v
  if ← enter n then tell (.gained ⟨v, v⟩) else return ()

def addBetween (lo hi : Fixed f) : PointWork f Unit :=
  if hi < lo then return ()
  else if lo ≠ hi then throw (.refused (.notSingle lo hi))
  else addPoint lo

end Stepwise.Points

namespace AtWork

/-- The set with its changes told, each by itself. -/
def after (work : AtWork f) (result : PointSet f × List (Change (Fixed f))) : AtWork f :=
  { work with
    set := result.1
    trails := result.2.foldl (fun trails change => trails.tell work.watch? [change]) work.trails }

/-- What comes of an update: it is made and told, or it is refused and nothing has happened. -/
def outcome (work : AtWork f)
    (update : Except (Refusal (Fixed f)) (PointSet f × List (Change (Fixed f)))) :
    Except (PointStop f) Unit × AtWork f :=
  match update with
  | .ok result => (.ok (), work.after result)
  | .error refusal => (.error (.refused refusal), work)

end AtWork

namespace Stepwise.Points

theorem runOn_findOffset (hbits : f.bits ≤ 64) (v : Fixed f) (work : AtWork f) :
    (findOffset v).runOn work =
      match work.set.offset? v with
      | some n => (.ok n, work)
      | none => (.error (.refused (.outside v work.set.lower work.set.upper)), work) := by
  rw [findOffset, PointWork.runOn_bind, PointWork.runOn_get, PointSet.offset?]
  dsimp only
  split
  · rfl
  · rename_i hwithin
    rw [PointWork.runOn_bind, PointWork.runOn_liftExcept, distance_eq hbits]
    show (Except.ok ((v.wide - work.set.lower.wide).setWidth indexBits).toNat, work) = _
    rw [toNat_index hbits fun hlt => hwithin (.inl hlt)]

theorem runOn_enter (n : Nat) (work : AtWork f) :
    (enter n).runOn work =
      if n ∈ work.set.offsets then (.ok false, work)
      else (.ok true,
        { work with set.offsets := PointSet.insertOffset n work.set.offsets }) := by
  rw [enter, PointWork.runOn_bind, PointWork.runOn_get]
  dsimp only
  split
  · rfl
  · rfl

theorem runOn_addPoint (hbits : f.bits ≤ 64) (v : Fixed f) (work : AtWork f) :
    (addPoint v).runOn work = work.outcome (work.set.add v) := by
  rw [addPoint, PointWork.runOn_bind, runOn_findOffset hbits, PointSet.add]
  cases work.set.offset? v with
  | none => rfl
  | some n =>
      dsimp only
      rw [PointWork.runOn_bind, runOn_enter]
      by_cases hn : n ∈ work.set.offsets
      · rw [if_pos hn, if_pos hn]
        rfl
      · rw [if_neg hn, if_neg hn]
        rfl

theorem runOn_addBetween (hbits : f.bits ≤ 64) (lo hi : Fixed f) (work : AtWork f) :
    (addBetween lo hi).runOn work = work.outcome (work.set.addBetween lo hi) := by
  rw [addBetween, PointSet.addBetween]
  split
  · rfl
  · split
    · rfl
    · exact runOn_addPoint hbits lo work

end Stepwise.Points

end RangeSets
