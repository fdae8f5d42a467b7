import Qbman.Eqcr.Enqueued

/-!
# The counters that `qbman_swp_init` builds

The mask loop gives twice the ring size less one (`piCiMask_eq`). The free count of `eqcrInit`
comes from the counters with their lowest bit masked off, so it is exact when both have the same
parity only. When it is, the counters are those of a ring with `dist` commands in it
(`eqcrInit_counts`), and every later refill is exact with them.
-/

namespace Qbman

/-! ## The implementation of a portal -/

def Impl.memBacked : Impl → Bool
  | .direct => false
  | .memBack => true

/-- The exponent of the ring size of an implementation. -/
def Impl.ringExp : Impl → Nat
  | .direct => 3
  | .memBack => 5

/-- The implementation that a portal's own mode asks for. -/
def QbmanSwpDesc.impl (d : QbmanSwpDesc) : Impl := if d.memBacked then .memBack else .direct

theorem QbmanSwpDesc.impl_memBacked (d : QbmanSwpDesc) : d.impl.memBacked = d.memBacked := by
  unfold QbmanSwpDesc.impl
  cases d.memBacked <;> rfl

theorem QbmanSwpDesc.impl_eq_memBack {d : QbmanSwpDesc} :
    d.impl = .memBack ↔ d.memBacked = true := by
  unfold QbmanSwpDesc.impl
  cases d.memBacked <;> simp

/-- A memory-backed portal does not have the reset bug. -/
theorem swpDefaults_resetBug {d : QbmanSwpDesc} (h : d.memBacked = true) :
    (swpDefaults d).dqrr.resetBug = false := by
  obtain ⟨hrev, -⟩ := Bool.and_eq_true_iff.mp h
  have hge : qmanRev4100 ≤ d.qmanVersion &&& qmanRevMask :=
    BitVec.le_trans (by decide) (of_decide_eq_true hrev)
  simp only [swpDefaults, if_neg (BitVec.not_lt.mpr hge)]

/-! ## The fields -/

section Fields

variable (impl : Impl) (x y : U32)

theorem eqcrInit_ring : (eqcrInit impl.memBacked x y).piRingSize.toNat = 2 ^ impl.ringExp := by
  cases impl <;> rfl

theorem eqcrInit_mask :
    (eqcrInit impl.memBacked x y).piCiMask.toNat = 2 ^ (impl.ringExp + 1) - 1 := by
  cases impl
  · show (piCiMaskLoop 32 8 0).toNat = 15
    decide
  · show (piCiMaskLoop 32 32 0).toNat = 63
    decide

theorem eqcrInit_pi :
    (eqcrInit impl.memBacked x y).pi.toNat = x.toNat % 2 ^ (impl.ringExp + 1) :=
  Words.toNat_and_mask _ _ (eqcrInit_mask impl x y)

theorem eqcrInit_ci :
    (eqcrInit impl.memBacked x y).ci.toNat = y.toNat % 2 ^ (impl.ringExp + 1) :=
  Words.toNat_and_mask _ _ (eqcrInit_mask impl x y)

theorem eqcrInit_piVb : (eqcrInit impl.memBacked x y).piVb = vbit (x.getLsbD 7) := and_validBit x

/-- The free count, from the counters without their lowest bits. -/
theorem eqcrInit_available :
    (eqcrInit impl.memBacked x y).available = (2 ^ impl.ringExp : Nat) -
      (Cyclic.cycDist (2 * 2 ^ impl.ringExp) (2 * ((eqcrInit impl.memBacked x y).ci.toNat / 2))
        (2 * ((eqcrInit impl.memBacked x y).pi.toNat / 2)) : Nat) := by
  have hring := eqcrInit_ring impl x y
  have hmask := eqcrInit_mask impl x y
  have hpi := eqcrInit_pi impl x y
  have hci := eqcrInit_ci impl x y
  show ((eqcrInit impl.memBacked x y).piRingSize - (qmCycDiff
    ((eqcrInit impl.memBacked x y).piRingSize.setWidth 8)
    (((eqcrInit impl.memBacked x y).ci &&& (eqcrInit impl.memBacked x y).piCiMask <<< 1).setWidth 8)
    (((eqcrInit impl.memBacked x y).pi &&&
      (eqcrInit impl.memBacked x y).piCiMask <<< 1).setWidth 8)).setWidth 32).toInt = _
  generalize eqcrInit impl.memBacked x y = e at *
  have hle : 2 ^ impl.ringExp ≤ 32 := by cases impl <;> decide
  have hexp : impl.ringExp + 1 < 32 := by cases impl <;> decide
  have hpow : 2 ^ (impl.ringExp + 1) = 2 * 2 ^ impl.ringExp := by rw [pow_succ, Nat.mul_comm]
  have hlt := fun z : Nat => Nat.mod_lt z (Nat.two_pow_pos (impl.ringExp + 1))
  have hpi' := hlt x.toNat
  have hci' := hlt y.toNat
  have hfirst : ((e.ci &&& e.piCiMask <<< 1).setWidth 8).toNat = 2 * (e.ci.toNat / 2) := by
    rw [BitVec.toNat_setWidth, Words.toNat_and_mask_shl _ _ hmask hexp (by omega)]
    omega
  have hlast : ((e.pi &&& e.piCiMask <<< 1).setWidth 8).toNat = 2 * (e.pi.toNat / 2) := by
    rw [BitVec.toNat_setWidth, Words.toNat_and_mask_shl _ _ hmask hexp (by omega)]
    omega
  have hsize : (e.piRingSize.setWidth 8).toNat = 2 ^ impl.ringExp := by
    rw [BitVec.toNat_setWidth, hring]
    omega
  have hused : (qmCycDiff (e.piRingSize.setWidth 8) ((e.ci &&& e.piCiMask <<< 1).setWidth 8)
      ((e.pi &&& e.piCiMask <<< 1).setWidth 8)).toNat =
      Cyclic.cycDist (2 * 2 ^ impl.ringExp) (2 * (e.ci.toNat / 2)) (2 * (e.pi.toNat / 2)) := by
    rw [qmCycDiff_toNat (by omega) (by omega) (by omega), hfirst, hlast, hsize]
  have hbound := Cyclic.cycDist_lt (M := 2 * 2 ^ impl.ringExp) (a := 2 * (e.ci.toNat / 2))
    (b := 2 * (e.pi.toNat / 2)) (by omega)
  rw [Words.toInt_sub_small _ _ (by omega) (by rw [BitVec.toNat_setWidth]; omega), hring,
    BitVec.toNat_setWidth, hused, Nat.mod_eq_of_lt (by omega)]

end Fields

/-! ## Exactness -/

section Exact

variable {impl : Impl} {x y : U32}

/-- The distance from the masked consumer index to the masked producer index. -/
def Eqcr.dist (impl : Impl) (e : Eqcr) : Nat :=
  Cyclic.cycDist (2 * 2 ^ impl.ringExp) e.ci.toNat e.pi.toNat

/-- The free count is exact for counters of the same parity, and for no others. -/
theorem eqcrInit_available_iff (impl : Impl) (x y : U32) :
    (eqcrInit impl.memBacked x y).available = (2 ^ impl.ringExp : Nat) -
      ((eqcrInit impl.memBacked x y).dist impl : Nat) ↔ x.toNat % 2 = y.toNat % 2 := by
  have hpow : 2 ^ (impl.ringExp + 1) = 2 * 2 ^ impl.ringExp := by rw [pow_succ, Nat.mul_comm]
  have hlt := fun z : Nat => Nat.mod_lt z (Nat.two_pow_pos (impl.ringExp + 1))
  have hx := hlt x.toNat
  have hy := hlt y.toNat
  have hparity := fun z : Nat => Nat.mod_mul_right_mod z 2 (2 ^ impl.ringExp)
  rw [eqcrInit_available, Eqcr.dist, eqcrInit_pi, eqcrInit_ci, hpow]
  rw [hpow] at hx hy
  rw [← hparity x.toNat, ← hparity y.toNat]
  have hiff := Cyclic.cycDist_half hy hx
  constructor
  · intro h
    exact (hiff.mp (by omega)).symm
  · intro h
    rw [hiff.mpr h.symm]

/-- The turn of the producer is congruent to the wrapped producer index. -/
theorem eqcrInit_turn (impl : Impl) (x y : U32) :
    ((eqcrInit impl.memBacked x y).ci.toNat + (eqcrInit impl.memBacked x y).dist impl) %
      2 ^ (impl.ringExp + 1) = (eqcrInit impl.memBacked x y).pi.toNat := by
  have hpi := eqcrInit_pi impl x y
  have hci := eqcrInit_ci impl x y
  generalize eqcrInit impl.memBacked x y = e at *
  have hpow : 2 ^ (impl.ringExp + 1) = 2 * 2 ^ impl.ringExp := by rw [pow_succ, Nat.mul_comm]
  have hlt := fun z : Nat => Nat.mod_lt z (Nat.two_pow_pos (impl.ringExp + 1))
  have hpi' : e.pi.toNat < 2 * 2 ^ impl.ringExp := by rw [hpi, ← hpow]; exact hlt _
  have hci' : e.ci.toNat < 2 * 2 ^ impl.ringExp := by rw [hci, ← hpow]; exact hlt _
  rw [Eqcr.dist, hpow]
  exact Cyclic.add_cycDist_mod hci' hpi'

/-- The polarity of that turn. -/
theorem eqcrInit_vb (impl : Impl) (x y : U32) :
    (eqcrInit impl.memBacked x y).piVb = vbit (Cyclic.phase (2 ^ impl.ringExp)
      (eqcrInit impl.memBacked x y).pi.toNat (x.getLsbD 7)
      ((eqcrInit impl.memBacked x y).ci.toNat + (eqcrInit impl.memBacked x y).dist impl)) := by
  rw [eqcrInit_piVb, ← Cyclic.phase_mod _ _ _ (_ + _), ← pow_succ, eqcrInit_turn, Cyclic.phase_self]

theorem eqcrInit_ci_mod (impl : Impl) (x y : U32) :
    (eqcrInit impl.memBacked x y).ci.toNat =
      (eqcrInit impl.memBacked x y).ci.toNat % 2 ^ (impl.ringExp + 1) := by
  rw [eqcrInit_ci, Nat.mod_mod]

/-- An exact free count makes the counters those of a ring with the inherited commands in it. -/
theorem eqcrInit_counts (hd : (eqcrInit impl.memBacked x y).dist impl ≤ 2 ^ impl.ringExp)
    (h : (eqcrInit impl.memBacked x y).available = (2 ^ impl.ringExp : Nat) -
      ((eqcrInit impl.memBacked x y).dist impl : Nat)) :
    (eqcrInit impl.memBacked x y).Counts impl.ringExp (eqcrInit impl.memBacked x y).pi.toNat
      (x.getLsbD 7)
      ((eqcrInit impl.memBacked x y).ci.toNat + (eqcrInit impl.memBacked x y).dist impl)
      (eqcrInit impl.memBacked x y).ci.toNat :=
  ⟨by cases impl <;> decide, eqcrInit_ring impl x y, eqcrInit_mask impl x y,
    (eqcrInit_turn impl x y).symm, eqcrInit_ci_mod impl x y, eqcrInit_vb impl x y, by omega,
    by omega, by omega⟩

end Exact

end Qbman
