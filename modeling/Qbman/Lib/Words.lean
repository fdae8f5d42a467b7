import Mathlib.Data.Nat.Bitwise
import Mathlib.Data.Set.Lattice
import Mathlib.Order.CompletePartialOrder
import Mathlib.Order.ConditionallyCompleteLattice.Basic

/-!
# Masks and flags of machine words

What masks, disjoint flags and a single toggled bit do to a word, stated on `BitVec` of any width.
A field of flags is also the set of its bits (`bitsOf`), which `|||` joins.
-/

namespace Words

variable {w : Nat}

/-- A mask of the low `k` bits is a remainder. -/
theorem toNat_and_mask (x m : BitVec w) {k : Nat} (hm : m.toNat = 2 ^ k - 1) :
    (x &&& m).toNat = x.toNat % 2 ^ k := by
  rw [BitVec.toNat_and, hm, Nat.and_two_pow_sub_one_eq_mod]

/-- A mask of the low `k` bits, shifted left by one, clears the lowest bit. -/
theorem toNat_and_mask_shl (x m : BitVec w) {k : Nat} (hm : m.toNat = 2 ^ k - 1) (hk : k < w)
    (hx : x.toNat < 2 ^ k) : (x &&& m <<< 1).toNat = 2 * (x.toNat / 2) := by
  have hshl : (m <<< 1).toNat = (2 ^ k - 1) <<< 1 := by
    have hle : 2 ^ (k + 1) ≤ 2 ^ w := Nat.pow_le_pow_right (by decide) hk
    rw [BitVec.toNat_shiftLeft, hm, Nat.mod_eq_of_lt]
    rw [Nat.shiftLeft_eq]
    have := Nat.two_pow_pos k
    omega
  have heven : 2 * (x.toNat / 2) = (x.toNat >>> 1) <<< 1 := by
    rw [Nat.shiftRight_eq_div_pow, Nat.shiftLeft_eq]
    omega
  rw [BitVec.toNat_and, hshl, heven]
  refine Nat.eq_of_testBit_eq fun i => ?_
  rw [Nat.testBit_and, Nat.testBit_shiftLeft, Nat.testBit_two_pow_sub_one, Nat.testBit_shiftLeft,
    Nat.testBit_shiftRight]
  cases i with
  | zero => simp
  | succ i =>
    have hhigh : ¬ i < k → x.toNat.testBit (i + 1) = false := fun h =>
      Nat.testBit_lt_two_pow (Nat.lt_of_lt_of_le hx (Nat.pow_le_pow_right (by decide) (by omega)))
    by_cases h : i < k
    · simp [h, Nat.add_comm]
    · simp [h, hhigh h, Nat.add_comm 1 i]

/-- A word below `2 ^ k` and one with its low `k` bits clear have no bit in common. -/
theorem and_eq_zero {x y : BitVec w} {k : Nat} (hx : x.toNat < 2 ^ k) (hy : y.toNat % 2 ^ k = 0) :
    x &&& y = 0 := by
  rw [← BitVec.toNat_inj, BitVec.toNat_and]
  refine Nat.eq_of_testBit_eq fun i => ?_
  rw [Nat.testBit_and]
  by_cases h : i < k
  · have hlow : y.toNat.testBit i = false := by
      have := Nat.testBit_mod_two_pow y.toNat k i
      rw [hy, Nat.zero_testBit, decide_eq_true h, Bool.true_and] at this
      exact this.symm
    simp [hlow]
  · have hhigh : x.toNat.testBit i = false :=
      Nat.testBit_lt_two_pow (Nat.lt_of_lt_of_le hx (Nat.pow_le_pow_right (by decide) (by omega)))
    simp [hhigh]

/-- The signed value of a difference of two small words. -/
theorem toInt_sub_small (x y : BitVec w) (hx : 2 * x.toNat < 2 ^ w) (hy : 2 * y.toNat < 2 ^ w) :
    (x - y).toInt = x.toNat - y.toNat := by
  rw [BitVec.toInt_sub, BitVec.toInt_eq_toNat_of_lt hx, BitVec.toInt_eq_toNat_of_lt hy]
  refine Int.bmod_eq_of_le ?_ ?_
  · omega
  · omega

/-! ## A masked field after flags were set or cleared -/

section Mask

variable (x : BitVec w) {b m : BitVec w}

theorem or_and_mask (h : b &&& m = 0) : (x ||| b) &&& m = x &&& m := by
  rw [BitVec.and_or_distrib_right, h]
  simp

theorem or_and_mask_self (h : b &&& m = b) : (x ||| b) &&& m = (x &&& m) ||| b := by
  rw [BitVec.and_or_distrib_right, h]

theorem and_not_and_mask (h : b &&& m = 0) : (x &&& ~~~b) &&& m = x &&& m := by
  have hm : m &&& ~~~b = m := by
    have hsplit : m &&& (b ||| ~~~b) = m &&& b ||| m &&& ~~~b := BitVec.and_or_distrib_left
    rw [BitVec.or_not_self, BitVec.and_allOnes, BitVec.and_comm m b, h] at hsplit
    simpa using hsplit.symm
  rw [BitVec.and_assoc, BitVec.and_comm (~~~b), hm]

theorem and_not_self_mask : (x &&& ~~~m) &&& m = 0 := by
  rw [BitVec.and_assoc, BitVec.and_comm (~~~m), BitVec.and_not_self]
  simp

end Mask

/-! ## One flag -/

section Flag

variable (x : BitVec w) (n : Nat) {i : Nat} (hi : i < w)

include hi

theorem getLsbD_one_shl : ((1 : BitVec w) <<< n).getLsbD i = decide (n = i) := by
  rw [BitVec.getLsbD_shiftLeft]
  by_cases h : n = i
  · subst h
    simp [hi]
    omega
  · by_cases hlt : i < n
    · simp [hlt, h]
    · have hpos : i - n ≠ 0 := by omega
      simp [hlt, h, hpos, BitVec.getLsbD_one]

theorem getLsbD_set_flag :
    (x ||| (1 : BitVec w) <<< n).getLsbD i = (decide (n = i) || x.getLsbD i) := by
  rw [BitVec.getLsbD_or, getLsbD_one_shl n hi, Bool.or_comm]

theorem getLsbD_clear_flag :
    (x &&& ~~~((1 : BitVec w) <<< n)).getLsbD i = (!decide (n = i) && x.getLsbD i) := by
  rw [BitVec.getLsbD_and, BitVec.getLsbD_not, getLsbD_one_shl n hi, Bool.and_comm,
    decide_eq_true hi, Bool.true_and]

end Flag

/-- A test of one flag. -/
theorem and_one_shl_ne_zero_iff (x : BitVec w) {n : Nat} (hn : n < w) :
    x &&& (1 : BitVec w) <<< n ≠ 0 ↔ x.getLsbD n = true := by
  constructor
  · intro hne
    by_contra hclear
    refine hne (BitVec.eq_of_getLsbD_eq fun i hi => ?_)
    rw [BitVec.getLsbD_and, getLsbD_one_shl n hi]
    by_cases h : n = i
    · subst h
      simpa using hclear
    · simp [h]
  · intro hset hzero
    have hbit := congrArg (BitVec.getLsbD · n) hzero
    simp only [BitVec.getLsbD_and, getLsbD_one_shl n hn, hset] at hbit
    simp at hbit

/-! ## The bits of a word as a set -/

/-- The positions of the bits that are set. -/
def bitsOf (x : BitVec w) : Set Nat := {i | x.getLsbD i = true}

theorem bitsOf_inj {x y : BitVec w} : bitsOf x = bitsOf y ↔ x = y := by
  constructor
  · intro h
    refine BitVec.eq_of_getLsbD_eq fun i _ => ?_
    have : x.getLsbD i = true ↔ y.getLsbD i = true := Set.ext_iff.mp h i
    exact Bool.eq_iff_iff.mpr this
  · rintro rfl
    rfl

theorem bitsOf_zero : bitsOf (0 : BitVec w) = ⊥ := by
  ext i
  simp [bitsOf]

theorem bitsOf_or (x y : BitVec w) : bitsOf (x ||| y) = bitsOf x ⊔ bitsOf y := by
  ext i
  simp [bitsOf]

theorem bitsOf_and (x y : BitVec w) : bitsOf (x &&& y) = bitsOf x ⊓ bitsOf y := by
  ext i
  simp [bitsOf]

theorem bitsOf_le_iff {x y : BitVec w} : bitsOf x ≤ bitsOf y ↔ x &&& y = x := by
  rw [← inf_eq_left, ← bitsOf_and, bitsOf_inj]

end Words
