import Mathlib.Data.List.Nodup
import RangeSets.Proofs.Stepwise.Points
/-!
# Offsets, statement by statement

A point set answers and tells numbers, but what it keeps are offsets. The way from one to the other is
taken here in words: the distance of a number is cut down to an index, and an index is widened, added to
the lower end of the universe and turned into a number again, if there is one. On formats of up to 64
bits nothing is lost on either way, and an offset within the universe always leads to a number. So the
answers of a set, and the runs that it tells of a removal, are those that the offsets stand for.
-/

namespace RangeSets

variable {f : IntegerFormat}

/-- Why there is no way from a number to its offset, or back. -/
inductive OffsetStop where
  /-- A whole number does not fit its word. -/
  | overflow
  /-- The format has no number at an offset. -/
  | noNumber (n : Nat)
  deriving DecidableEq

namespace Stepwise.Points

open Scale

/-! ### From numbers to offsets and back -/

/-- Arithmetic on words, which is never refused. -/
def inWords {ρ : Type} (work : Except (PointStop f) ρ) : Except OffsetStop ρ :=
  work.mapError fun _ => .overflow

def offsetOf (s : PointSet f) (v : Fixed f) : Except OffsetStop (Option Nat) :=
  if v < s.lower ∨ s.upper < v then .ok none
  else do
    let n ← inWords (distance v s.lower)
    return some (n.setWidth indexBits).toNat

/-- An index as a wide word. -/
def wideIndex (n : Nat) : BitVec 128 := (BitVec.ofNat indexBits n).setWidth 128

def addIndex (w : BitVec 128) (n : Nat) : Except OffsetStop (BitVec 128) :=
  if w.saddOverflow (wideIndex n) then .error .overflow else .ok (w + wideIndex n)

def valueAt (s : PointSet f) (n : Nat) : Except OffsetStop (Fixed f) := do
  let sum ← addIndex s.lower.wide n
  match Fixed.ofInt? sum.toInt with
  | some v => return v
  | none => .error (.noNumber n)

def valueAt? (s : PointSet f) : Option Nat → Except OffsetStop (Option (Fixed f))
  | some n => (valueAt s n).map some
  | none => .ok none

/-! ### Answers -/

def listValues (s : PointSet f) : Except OffsetStop (List (Fixed f)) := s.offsets.mapM (valueAt s)

def least (s : PointSet f) : Except OffsetStop (Fixed f) :=
  (valueAt? s s.offsets.head?).map fun v? => v?.getD top

def greatest (s : PointSet f) : Except OffsetStop (Fixed f) :=
  (valueAt? s s.offsets.getLast?).map fun v? => v?.getD bottom

def nextAbove? (s : PointSet f) (v : Fixed f) : Except OffsetStop (Option (Fixed f)) := do
  let least ← inWords (do addOne (← distance v s.lower))
  valueAt? s (s.offsets.find? fun n : Nat => least.toInt ≤ n)

def nextBelow? (s : PointSet f) (v : Fixed f) : Except OffsetStop (Option (Fixed f)) := do
  let limit ← inWords (distance v s.lower)
  valueAt? s (s.offsets.takeWhile fun n : Nat => n < limit.toInt).getLast?

/-! ### Removals -/

/-- The runs so far, the latest one first, with an offset that comes after all of them. -/
def extendRuns : List (Nat × Nat) → Nat → List (Nat × Nat)
  | [], n => [(n, n)]
  | run :: done, n => if run.2 + 1 = n then (run.1, n) :: done else (n, n) :: run :: done

def spanOfRun (s : PointSet f) (run : Nat × Nat) : Except OffsetStop (Span (Fixed f)) := do
  return ⟨← valueAt s run.1, ← valueAt s run.2⟩

/-- Takes the offsets from one to another out one by one, and tells their runs. -/
def takeOut (s : PointSet f) (first last : Nat) :
    Except OffsetStop (PointSet f × List (Change (Fixed f))) := do
  let removed := (s.offsets.dropWhile fun n => n < first).takeWhile fun n => n ≤ last
  let spans ← (removed.foldl extendRuns []).reverse.mapM (spanOfRun s)
  return ({ s with offsets := removed.foldl List.erase s.offsets }, spans.map .lost)

def removeBetween (s : PointSet f) (lo hi : Fixed f) :
    Except OffsetStop (PointSet f × List (Change (Fixed f))) := do
  let lo := if lo < s.lower then s.lower else lo
  let hi := if s.upper < hi then s.upper else hi
  if hi < lo then return (s, [])
  else
    match ← offsetOf s lo, ← offsetOf s hi with
    | some first, some last => takeOut s first last
    | _, _ => return (s, [])

/-! ### What the words come to -/

variable {s : PointSet f} {v : Fixed f} {n : Nat}

theorem offsetOf_eq (hbits : f.bits ≤ 64) (s : PointSet f) (v : Fixed f) :
    offsetOf s v = .ok (s.offset? v) := by
  rw [offsetOf, PointSet.offset?]
  split
  · rfl
  · rename_i hwithin
    rw [distance_eq hbits]
    show Except.ok (some ((v.wide - s.lower.wide).setWidth indexBits).toNat) = _
    rw [toNat_index hbits fun hlt => hwithin (.inl hlt)]

theorem toInt_wideIndex (hn : n < 2 ^ 64) : (wideIndex n).toInt = n := by
  have hword : (wideIndex n).toNat = n := by
    rw [wideIndex, indexBits, BitVec.toNat_setWidth, BitVec.toNat_ofNat, Nat.mod_eq_of_lt hn,
      Nat.mod_eq_of_lt (by omega)]
  rw [BitVec.toInt_eq_toNat_of_lt (by omega), hword]

/-- An offset within the universe leads to a number, and no word is too small on the way. -/
theorem valueAt_eq (hbits : f.bits ≤ 64) (hwithin : s.lower.val + n ≤ s.upper.val) :
    ∃ v, s.value? n = some v ∧ valueAt s n = .ok v := by
  obtain ⟨v, hvalue, hval⟩ := PointSet.exists_value_of_le hwithin
  refine ⟨v, hvalue, ?_⟩
  obtain ⟨hlow, hhigh⟩ := s.lower.val_bounds hbits
  have hindex := Fixed.sub_lt hbits s.upper s.lower
  have hlower := Fixed.toInt_wide hbits s.lower
  have hn := toInt_wideIndex (n := n) (by omega)
  have hfits : s.lower.wide.saddOverflow (wideIndex n) = false := by
    rw [BitVec.saddOverflow, hlower, hn]
    simp only [Bool.or_eq_false_iff, decide_eq_false_iff_not]
    omega
  have hsum : (s.lower.wide + wideIndex n).toInt = v.val := by
    rw [BitVec.toInt_add_of_not_saddOverflow (Bool.eq_false_iff.mp hfits), hlower, hn, hval]
  have hnumber : Fixed.ofInt? v.val = some v := Fixed.ofInt?_eq_some_iff.mpr rfl
  rw [valueAt, addIndex, if_neg (Bool.eq_false_iff.mp hfits), ok_bind, hsum, hnumber]
  rfl

theorem valueAt?_eq (hbits : f.bits ≤ 64) {n? : Option Nat}
    (hwithin : ∀ n ∈ n?, s.lower.val + n ≤ s.upper.val) : valueAt? s n? = .ok (n?.bind s.value?) := by
  cases n? with
  | none => rfl
  | some n =>
      obtain ⟨v, hvalue, hread⟩ := valueAt_eq hbits (hwithin n rfl)
      rw [valueAt?, hread, Option.bind_some, hvalue]
      rfl

/-- Work on each element that comes to what a partial function gives. -/
theorem mapM_eq_filterMap {ε α β : Type} {g : α → Except ε β} {h : α → Option β} {xs : List α}
    (hall : ∀ x ∈ xs, ∃ y, h x = some y ∧ g x = .ok y) : xs.mapM g = .ok (xs.filterMap h) := by
  induction xs with
  | nil => rfl
  | cons x rest ih =>
      obtain ⟨y, hy, hx⟩ := hall x List.mem_cons_self
      rw [List.mapM_cons, hx, ok_bind, ih fun a ha => hall a (List.mem_cons_of_mem _ ha),
        List.filterMap_cons_some hy]
      rfl

end Stepwise.Points

namespace PointSet.Sound

open Stepwise.Points

variable {s : PointSet f}

theorem listValues_eq (h : s.Sound) (hbits : f.bits ≤ 64) : listValues s = .ok s.values :=
  mapM_eq_filterMap fun n hn => valueAt_eq hbits (h.within n hn)

theorem least_eq (h : s.Sound) (hbits : f.bits ≤ 64) : least s = .ok s.min := by
  rw [least, valueAt?_eq hbits fun n hn => h.within n (List.mem_of_head? hn)]
  rfl

theorem greatest_eq (h : s.Sound) (hbits : f.bits ≤ 64) : greatest s = .ok s.max := by
  rw [greatest, valueAt?_eq hbits fun n hn => h.within n (List.mem_of_getLast? hn)]
  rfl

theorem nextAbove?_eq (h : s.Sound) (hbits : f.bits ≤ 64) (v : Fixed f) :
    nextAbove? s v = .ok (s.above? v) := by
  have hfar : (fun n : Nat => decide ((v.wide - s.lower.wide + 1).toInt ≤ n)) =
      fun n : Nat => decide (v.val - s.lower.val < n) := by
    funext n
    rw [(Fixed.sub_wide_succ hbits v s.lower).2]
    exact decide_eq_decide.mpr (by omega)
  have hlimit : inWords (do addOne (← distance v s.lower)) =
      .ok (v.wide - s.lower.wide + 1) := by
    rw [distance_eq hbits, ok_bind, addOne_eq hbits]
    rfl
  rw [nextAbove?, hlimit, ok_bind, hfar]
  exact valueAt?_eq hbits fun n hn => h.within n (List.mem_of_find?_eq_some hn)

theorem nextBelow?_eq (h : s.Sound) (hbits : f.bits ≤ 64) (v : Fixed f) :
    nextBelow? s v = .ok (s.below? v) := by
  have hlimit : inWords (distance v s.lower) = .ok (v.wide - s.lower.wide) := by
    rw [distance_eq hbits]
    rfl
  rw [nextBelow?, hlimit, ok_bind, (Fixed.sub_wide hbits v s.lower).2]
  exact valueAt?_eq hbits fun n hn =>
    h.within n ((List.takeWhile_sublist _).subset (List.mem_of_getLast? hn))

end PointSet.Sound

/-! ### Runs from either end -/

namespace Stepwise.Points

open PointSet (runs)

/-- A run in front of others, joined with the first of them when it comes right before it. -/
def joinRun (run : Nat × Nat) : List (Nat × Nat) → List (Nat × Nat)
  | [] => [run]
  | first :: more => if run.2 + 1 = first.1 then (run.1, first.2) :: more else run :: first :: more

theorem runs_cons (n : Nat) (ns : List Nat) : runs (n :: ns) = joinRun (n, n) (runs ns) := by
  rw [runs]
  cases runs ns <;> rfl

theorem joinRun_of_next {run : Nat × Nat} {n : Nat} (hnext : run.2 + 1 = n)
    (rs : List (Nat × Nat)) : joinRun run (joinRun (n, n) rs) = joinRun (run.1, n) rs := by
  cases rs with
  | nil => simp [joinRun, hnext]
  | cons t more =>
      by_cases hjoined : n + 1 = t.1 <;> simp [joinRun, hjoined, hnext]

theorem joinRun_of_not_next {run : Nat × Nat} {n : Nat} (hnext : run.2 + 1 ≠ n)
    (rs : List (Nat × Nat)) : joinRun run (joinRun (n, n) rs) = run :: joinRun (n, n) rs := by
  cases rs with
  | nil => simp [joinRun, hnext]
  | cons t more =>
      by_cases hjoined : n + 1 = t.1 <;> simp [joinRun, hjoined, hnext]

theorem reverse_foldl_extendRuns (run : Nat × Nat) (done : List (Nat × Nat)) (ns : List Nat) :
    (ns.foldl extendRuns (run :: done)).reverse = done.reverse ++ joinRun run (runs ns) := by
  induction ns generalizing run done with
  | nil => exact List.reverse_cons
  | cons n rest ih =>
      rw [List.foldl_cons, extendRuns, runs_cons]
      by_cases hnext : run.2 + 1 = n
      · rw [if_pos hnext, ih, joinRun_of_next hnext]
      · rw [if_neg hnext, ih, joinRun_of_not_next hnext, List.reverse_cons, List.append_assoc,
          List.singleton_append]

/-- The runs that are built from the lowest offset up are those built from the highest one down. -/
theorem foldl_extendRuns (ns : List Nat) : (ns.foldl extendRuns []).reverse = runs ns := by
  cases ns with
  | nil => rfl
  | cons n rest => rw [List.foldl_cons, extendRuns, reverse_foldl_extendRuns, runs_cons]; rfl

theorem takeWhile_le_eq_filter {ns : List Nat} (h : ns.Pairwise (· < ·)) (last : Nat) :
    ns.takeWhile (fun n => n ≤ last) = ns.filter fun n => n ≤ last := by
  induction ns with
  | nil => rfl
  | cons n rest ih =>
      obtain ⟨hbelow, hrest⟩ := List.pairwise_cons.mp h
      rw [List.takeWhile_cons, List.filter_cons, ih hrest]
      split
      · rfl
      · rename_i hbeyond
        rw [decide_eq_true_eq] at hbeyond
        refine (List.filter_eq_nil_iff.mpr fun m hm => ?_).symm
        have := hbelow m hm
        rw [decide_eq_true_eq]
        omega

/-- Skipping the offsets below a range and taking those up to its end takes those of the range. -/
theorem takeWhile_dropWhile_eq_filter {ns : List Nat} (h : ns.Pairwise (· < ·)) (first last : Nat) :
    (ns.dropWhile fun n => n < first).takeWhile (fun n => n ≤ last) =
      ns.filter fun n => first ≤ n ∧ n ≤ last := by
  induction ns with
  | nil => rfl
  | cons n rest ih =>
      rw [List.dropWhile_cons]
      split
      · rename_i hbefore
        rw [decide_eq_true_eq] at hbefore
        have hout : ¬ (first ≤ n ∧ n ≤ last) := by omega
        rw [ih (List.pairwise_cons.mp h).2, List.filter_cons, if_neg (by simpa using hout)]
      · rename_i hreached
        rw [decide_eq_true_eq] at hreached
        rw [takeWhile_le_eq_filter h]
        refine List.filter_congr fun m hm => decide_eq_decide.mpr ?_
        have := PointSet.le_of_mem_cons h hm
        omega

end Stepwise.Points

/-! ### What is removed -/

namespace PointSet.Sound

open Stepwise.Points

variable {s : PointSet f}

theorem spanOfRun_eq (hbits : f.bits ≤ 64) {run : Nat × Nat}
    (hfirst : s.lower.val + run.1 ≤ s.upper.val) (hlast : s.lower.val + run.2 ≤ s.upper.val) :
    ∃ r, s.spanOfRun? run = some r ∧ spanOfRun s run = .ok r := by
  obtain ⟨a, ha, hreadFirst⟩ := valueAt_eq hbits hfirst
  obtain ⟨b, hb, hreadLast⟩ := valueAt_eq hbits hlast
  refine ⟨⟨a, b⟩, by simp [spanOfRun?, ha, hb], ?_⟩
  rw [spanOfRun, hreadFirst, hreadLast]
  rfl

theorem mapM_spanOfRun (hbits : f.bits ≤ 64) {ns : List Nat} {rs : List (Nat × Nat)}
    (h : RunsOf ns rs) (hwithin : ∀ n ∈ ns, s.lower.val + n ≤ s.upper.val) :
    rs.mapM (spanOfRun s) = .ok (rs.filterMap s.spanOfRun?) := by
  refine mapM_eq_filterMap fun run hrun => ?_
  obtain ⟨hfirst, hlast⟩ := h.ends_mem hrun
  exact spanOfRun_eq hbits (hwithin _ hfirst) (hwithin _ hlast)

theorem takeOut_eq (h : s.Sound) (hbits : f.bits ≤ 64) (first last : Nat) :
    takeOut s first last =
      .ok ({ s with offsets := s.offsets.filter fun n => ¬ (first ≤ n ∧ n ≤ last) },
        ((runs (s.offsets.filter fun n => first ≤ n ∧ n ≤ last)).filterMap s.spanOfRun?).map
          .lost) := by
  have hnodup : s.offsets.Nodup := h.ascending.imp Nat.ne_of_lt
  have hruns := runsOf_runs (h.ascending.filter fun n => first ≤ n ∧ n ≤ last)
  have hleft : (s.offsets.filter fun n => first ≤ n ∧ n ≤ last).foldl List.erase s.offsets =
      s.offsets.filter fun n => ¬ (first ≤ n ∧ n ≤ last) := by
    rw [← List.diff_eq_foldl, hnodup.sdiff_eq_filter]
    refine List.filter_congr fun n hn => decide_eq_decide.mpr ?_
    simp [hn]
  have hspans := mapM_spanOfRun hbits hruns fun n hn => h.within n (List.mem_of_mem_filter hn)
  rw [takeOut, takeWhile_dropWhile_eq_filter h.ascending, foldl_extendRuns, hspans, hleft]
  rfl

/-- Taking a range out comes to what the offsets stand for. Bounds that are not in order when they are
held to the universe leave nothing between them. -/
theorem removeBetween_eq (h : s.Sound) (hbits : f.bits ≤ 64) (lo hi : Fixed f) :
    Stepwise.Points.removeBetween s lo hi = .ok (s.removeBetween lo hi) := by
  unfold Stepwise.Points.removeBetween PointSet.removeBetween
  dsimp only
  generalize (if lo < s.lower then s.lower else lo) = first
  generalize (if s.upper < hi then s.upper else hi) = last
  rw [offsetOf_eq hbits, offsetOf_eq hbits]
  simp only [ok_bind]
  cases hfirst : s.offset? first with
  | none => split <;> rfl
  | some n =>
      cases hlast : s.offset? last with
      | none => split <;> rfl
      | some m =>
          dsimp only
          split
          · rename_i hlt
            rw [offset?_eq_some_iff] at hfirst hlast
            rw [Fixed.lt_iff] at hlt
            have hnone : ∀ k, ¬ (n ≤ k ∧ k ≤ m) := by omega
            simp [hnone, runs]
            rfl
          · exact h.takeOut_eq hbits n m

end PointSet.Sound

end RangeSets
