import Mathlib.Algebra.Order.Ring.Int

/-!
# Signed arithmetic that may overflow

The operators of a signed C type of `w` bits on mathematical integers. The result is `none` where C
leaves the behaviour undefined: a result out of range, a negative operand of a left shift, or a
shift by a negative amount or by the width. On naturals they are exact below `2 ^ (w - 1)`, and
undefined from there on.
-/

namespace CInt

/-- The result of an operator, if it is in range. -/
def check (w : Nat) (x : Int) : Option Int :=
  if - 2 ^ (w - 1) ≤ x ∧ x < 2 ^ (w - 1) then some x else none

def add (w : Nat) (x y : Int) : Option Int := check w (x + y)

def sub (w : Nat) (x y : Int) : Option Int := check w (x - y)

def mul (w : Nat) (x y : Int) : Option Int := check w (x * y)

def shl (w : Nat) (x n : Int) : Option Int :=
  if 0 ≤ x ∧ 0 ≤ n ∧ n < w then check w (x * 2 ^ n.toNat) else none

variable {w : Nat}

theorem check_natCast (m : Nat) :
    check w m = if m < 2 ^ (w - 1) then some (m : Int) else none := by
  have hlt : ((m : Nat) : Int) < 2 ^ (w - 1) ↔ m < 2 ^ (w - 1) := by
    rw [← Int.ofNat_lt]
    push_cast
    rfl
  have hneg : - 2 ^ (w - 1) ≤ (m : Int) := by
    have hpow : (0 : Int) < 2 ^ (w - 1) := Int.pow_pos (by decide)
    omega
  simp only [check, hneg, true_and, hlt]

theorem add_natCast (m n : Nat) :
    add w m n = if m + n < 2 ^ (w - 1) then some ((m + n : Nat) : Int) else none := by
  rw [add, ← Int.natCast_add, check_natCast]

theorem mul_natCast (m n : Nat) :
    mul w m n = if m * n < 2 ^ (w - 1) then some ((m * n : Nat) : Int) else none := by
  rw [mul, ← Int.natCast_mul, check_natCast]

theorem sub_natCast {m n : Nat} (h : n ≤ m) :
    sub w m n = if m - n < 2 ^ (w - 1) then some ((m - n : Nat) : Int) else none := by
  rw [sub, ← Int.ofNat_sub h, check_natCast]

theorem shl_natCast (m : Nat) {n : Nat} (hn : n < w) :
    shl w m n = if m * 2 ^ n < 2 ^ (w - 1) then some ((m * 2 ^ n : Nat) : Int) else none := by
  have hpow : (m : Int) * 2 ^ (n : Int).toNat = ((m * 2 ^ n : Nat) : Int) := by simp
  rw [shl, if_pos ⟨Int.natCast_nonneg m, Int.natCast_nonneg n, Int.ofNat_lt.mpr hn⟩, hpow,
    check_natCast]

end CInt
