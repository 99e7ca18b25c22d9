import Mathlib.Data.Set.Card
import Mathlib.Data.Int.Interval
import RangeSets.Proofs.Scale.Place
/-!
# How many whole numbers lie between two

The width of a range of whole numbers is kept in a word of the width of their format. Such a word
holds one number less than the format has, so that only the width of all numbers is held down. The
words of the bounds are taken from each other without regard to sign or borrow, which gives the
distance of the bounds all the same.

Numbers that are used as places of a universe are widened first, to words with a sign that have room
for the distance of any two of them.
-/

namespace RangeSets

open Scale

namespace IntegerFormat

variable {f : IntegerFormat}

/-- The greatest word of the format. -/
def mostWord (f : IntegerFormat) : Nat := 2 ^ f.bits - 1

theorem max_sub_min : f.max - f.min = f.mostWord := by
  have hbits := f.two_le_bits
  have hhalf : 2 ^ f.bits = 2 * 2 ^ (f.bits - 1) := by
    rw [← Nat.pow_succ', Nat.succ_eq_add_one, Nat.sub_add_cancel (by omega)]
  have hpos : 0 < 2 ^ (f.bits - 1) := Nat.two_pow_pos _
  unfold max min mostWord
  simp only [Nat.pow_eq]
  split <;> omega

theorem three_le_mostWord : 3 ≤ f.mostWord := by
  have : 2 ^ 2 ≤ 2 ^ f.bits := Nat.pow_le_pow_right (by decide) f.two_le_bits
  unfold mostWord
  omega

end IntegerFormat

namespace Word

variable {w : Nat}

/-- The sum of two words, or the greatest word if the sum does not fit. -/
def addHeld (a b : BitVec w) : BitVec w :=
  if a.toNat + b.toNat < 2 ^ w then a + b else BitVec.allOnes w

theorem toNat_addHeld (a b : BitVec w) :
    (addHeld a b).toNat = min (a.toNat + b.toNat) (2 ^ w - 1) := by
  unfold addHeld
  split
  · rw [BitVec.toNat_add, Nat.mod_eq_of_lt ‹_›]
    omega
  · rw [BitVec.toNat_allOnes]
    omega

/-- A word that is not negative is the same number with a sign and without. -/
theorem toNat_eq_of_nonneg {x : BitVec w} (h : 0 ≤ x.toInt) : x.toNat = x.toInt.toNat := by
  have hlt := x.isLt
  rw [BitVec.toInt_eq_toNat_cond] at h ⊢
  split at h <;> omega

end Word

namespace Fixed

variable {f : IntegerFormat} {lo hi : Fixed f}

/-- The number as a word, a negative one as its two's complement. -/
def word (a : Fixed f) : BitVec f.bits := BitVec.ofInt f.bits a.val

/-- How many numbers there are from one to another, as a word: the words are taken from each other
without regard to a borrow. -/
def widthWord (lo hi : Fixed f) : BitVec f.bits := Word.addHeld (hi.word - lo.word) 1

theorem word_sub_word : hi.word - lo.word = BitVec.ofInt f.bits (hi.val - lo.val) := by
  apply BitVec.eq_of_toInt_eq
  rw [BitVec.toInt_sub, word, word, BitVec.toInt_ofInt, BitVec.toInt_ofInt, BitVec.toInt_ofInt,
    ← Int.sub_bmod]

/-- Subtracting the words gives the distance of the numbers, whatever their signs. -/
theorem toNat_sub_word (h : lo ≤ hi) : ((hi.word - lo.word).toNat : Int) = hi.val - lo.val := by
  have hle := le_iff.mp h
  have hmost := @IntegerFormat.max_sub_min f
  have := lo.min_le
  have := hi.le_max
  have hpos : 0 < 2 ^ f.bits := Nat.two_pow_pos _
  have hfits : hi.val - lo.val < ((2 ^ f.bits : Nat) : Int) := by
    unfold IntegerFormat.mostWord at hmost
    omega
  rw [word_sub_word, BitVec.toNat_ofInt, Int.emod_eq_of_lt (by omega) hfits]
  omega

theorem toNat_widthWord (h : lo ≤ hi) :
    (widthWord lo hi).toNat = min (hi.val - lo.val + 1).toNat f.mostWord := by
  have hbits := f.two_le_bits
  have hone : (1 : BitVec f.bits).toNat = 1 := BitVec.toNat_one (by omega)
  have hdistance := toNat_sub_word h
  rw [widthWord, Word.toNat_addHeld, hone, IntegerFormat.mostWord]
  omega

theorem count?_eq (h : lo ≤ hi) :
    count? lo hi = some (min (hi.val - lo.val + 1).toNat f.mostWord) := by
  have hle := le_iff.mp h
  show (if lo.val ≤ hi.val then some (min (hi.val - lo.val + 1).toNat f.mostWord) else none) = _
  rw [if_pos hle]

/-! ### Words with room to spare -/

/-- The number as a word of 128 bits with a sign. -/
def wide (a : Fixed f) : BitVec 128 := BitVec.ofInt 128 a.val

/-- What numbers of up to 64 bits are like, with a sign or without. -/
theorem val_bounds (hbits : f.bits ≤ 64) (a : Fixed f) : -2 ^ 63 ≤ a.val ∧ a.val < 2 ^ 64 := by
  have hmin := a.min_le
  have hmax := a.le_max
  have hfull : 2 ^ f.bits ≤ 2 ^ 64 := Nat.pow_le_pow_right (by decide) hbits
  have hhalf : 2 ^ (f.bits - 1) ≤ 2 ^ 63 := Nat.pow_le_pow_right (by decide) (by omega)
  unfold IntegerFormat.min at hmin
  unfold IntegerFormat.max at hmax
  simp only [Nat.pow_eq] at hmin hmax
  split at hmin <;> split at hmax <;> omega

/-- The distance of two numbers of up to 64 bits can be an index. -/
theorem sub_lt (hbits : f.bits ≤ 64) (a b : Fixed f) : a.val - b.val < 2 ^ 64 := by
  have hmost := @IntegerFormat.max_sub_min f
  have hfull : 2 ^ f.bits ≤ 2 ^ 64 := Nat.pow_le_pow_right (by decide) hbits
  have := a.le_max
  have := b.min_le
  unfold IntegerFormat.mostWord at hmost
  omega

theorem toInt_wide (hbits : f.bits ≤ 64) (a : Fixed f) : a.wide.toInt = a.val := by
  obtain ⟨hlow, hhigh⟩ := a.val_bounds hbits
  exact BitVec.toInt_ofInt_eq_self (by decide) (by omega) (by omega)

/-- The distance of two numbers, in either order, fits a wide word. -/
theorem sub_wide (hbits : f.bits ≤ 64) (a b : Fixed f) :
    a.wide.ssubOverflow b.wide = false ∧ (a.wide - b.wide).toInt = a.val - b.val := by
  obtain ⟨halow, hahigh⟩ := a.val_bounds hbits
  obtain ⟨hblow, hbhigh⟩ := b.val_bounds hbits
  have hfits : a.wide.ssubOverflow b.wide = false := by
    rw [BitVec.ssubOverflow, toInt_wide hbits, toInt_wide hbits]
    simp only [Bool.or_eq_false_iff, decide_eq_false_iff_not]
    omega
  refine ⟨hfits, ?_⟩
  rw [BitVec.toInt_sub_of_not_ssubOverflow (Bool.eq_false_iff.mp hfits), toInt_wide hbits,
    toInt_wide hbits]

/-- One more than a distance fits a wide word as well. -/
theorem sub_wide_succ (hbits : f.bits ≤ 64) (a b : Fixed f) :
    (a.wide - b.wide).saddOverflow 1 = false ∧
      (a.wide - b.wide + 1).toInt = a.val - b.val + 1 := by
  obtain ⟨halow, hahigh⟩ := a.val_bounds hbits
  obtain ⟨hblow, hbhigh⟩ := b.val_bounds hbits
  have hdistance := (sub_wide hbits a b).2
  have hone : (1 : BitVec 128).toInt = 1 := by decide
  have hfits : (a.wide - b.wide).saddOverflow 1 = false := by
    rw [BitVec.saddOverflow, hdistance, hone]
    simp only [Bool.or_eq_false_iff, decide_eq_false_iff_not]
    omega
  refine ⟨hfits, ?_⟩
  rw [BitVec.toInt_add_of_not_saddOverflow (Bool.eq_false_iff.mp hfits), hdistance, hone]

/-! ### How many numbers there are -/

theorem val_injective : Function.Injective (val : Fixed f → Int) := fun _ _ => Fixed.ext

instance : Finite (Fixed f) :=
  Finite.of_injective (fun a => (⟨a.val, a.min_le, a.le_max⟩ : Set.Icc f.min f.max))
    fun _ _ h => Fixed.ext (congrArg Subtype.val h)

/-- The values between two bounds, numbers and all, are the whole numbers between theirs. -/
theorem ncard_between (lo hi : Fixed f) :
    {v | lo ≤ v ∧ v ≤ hi}.ncard = (hi.val - lo.val + 1).toNat := by
  have himage : val '' {v | lo ≤ v ∧ v ≤ hi} = Finset.Icc lo.val hi.val := by
    ext n
    rw [Finset.mem_coe, Finset.mem_Icc]
    constructor
    · rintro ⟨v, ⟨hlo, hhi⟩, rfl⟩
      exact ⟨hlo, hhi⟩
    · intro hn
      have := lo.min_le
      have := hi.le_max
      exact ⟨⟨n, by omega, by omega⟩, hn, rfl⟩
  rw [← Set.ncard_image_of_injective _ val_injective, himage, Set.ncard_coe_finset, Int.card_Icc]
  omega

end Fixed

end RangeSets
