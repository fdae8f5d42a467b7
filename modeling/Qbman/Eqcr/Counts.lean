import Qbman.Eqcr.Slots

/-!
# The counters of the enqueue ring against counters that never wrap

`Eqcr.Counts k j₀ v₀ T K e`: software has filled the turns below `T` and last read the consumer
counter as `K`; `e` holds these modulo twice the ring size, with the free count `K + 2 ^ k - T` and
the polarity of turn `T`. `enqueueBatch_spec` is what a batch does to them and to the memory
(`Enqueued`), whatever the implementation; a ring-mode enqueue is the batch of one frame
(`enqueueRingMode_eq`).
-/

namespace Qbman

variable {k j₀ T K c : Nat} {v₀ : Bool} {e : Eqcr}

/-- The wrapped counters of a ring of `2 ^ k` slots. -/
structure Eqcr.Counts (k j₀ : Nat) (v₀ : Bool) (T K : Nat) (e : Eqcr) : Prop where
  small : k ≤ 5
  ring : e.piRingSize.toNat = 2 ^ k
  mask : e.piCiMask.toNat = 2 ^ (k + 1) - 1
  pi : e.pi.toNat = T % 2 ^ (k + 1)
  ci : e.ci.toNat = K % 2 ^ (k + 1)
  vb : e.piVb = vbit (Cyclic.phase (2 ^ k) j₀ v₀ T)
  available : e.available = (K + 2 ^ k - T : Nat)
  le : K ≤ T
  fits : T ≤ K + 2 ^ k

/-! ## Masks and the cyclic difference -/

theorem Eqcr.halfMask_toNat (h : e.piCiMask.toNat = 2 ^ (k + 1) - 1) :
    e.halfMask.toNat = 2 ^ k - 1 := by
  rw [Eqcr.halfMask, BitVec.toNat_ushiftRight, h, Nat.shiftRight_eq_div_pow, pow_succ]
  omega

/-- A wrapped counter, masked with the half mask, is the slot of its turn. -/
theorem mod_slot (h : e.pi.toNat = T % 2 ^ (k + 1)) : e.pi.toNat % 2 ^ k = T % 2 ^ k := by
  rw [h, Nat.mod_mod_of_dvd _ (Nat.pow_dvd_pow 2 (Nat.le_succ k))]

/-- `qm_cyc_diff` is the cyclic distance modulo twice the ring size. -/
theorem qmCycDiff_toNat {ringsize first last : U8} (hr : ringsize.toNat ≤ 64)
    (hf : first.toNat < 2 * ringsize.toNat) (hl : last.toNat < 2 * ringsize.toNat) :
    (qmCycDiff ringsize first last).toNat =
      Cyclic.cycDist (2 * ringsize.toNat) first.toNat last.toNat := by
  rw [Cyclic.cycDist_eq_ite hf hl, qmCycDiff]
  by_cases hle : first ≤ last
  · have hle' : first.toNat ≤ last.toNat := hle
    rw [if_pos hle, if_pos hle', BitVec.toNat_sub]
    omega
  · have hle' : ¬ first.toNat ≤ last.toNat := hle
    rw [if_neg hle, if_neg hle']
    have htwo : (2 : U8).toNat = 2 := rfl
    simp only [BitVec.toNat_sub, BitVec.toNat_add, BitVec.toNat_mul, htwo]
    omega

/-! ## The refill -/

namespace Eqcr

theorem refill_of_ne {v : U32} (h : e.available ≠ 0) : e.refill v = e := if_neg h

/-- A refill changes the consumer index and the free count only. -/
theorem refill_frame (e : Eqcr) (v : U32) :
    e.refill v = { e with ci := (e.refill v).ci, available := (e.refill v).available } := by
  unfold refill
  split
  · rfl
  · rfl

/-- When the free count was used up, the turns that were consumed since the last refill are free. -/
theorem refill_of_zero (hk : k ≤ 5) (hring : e.piRingSize.toNat = 2 ^ k)
    (hmask : e.piCiMask.toNat = 2 ^ (k + 1) - 1) (hci : e.ci.toNat = K % 2 ^ (k + 1))
    (h0 : e.available = 0) {v : U32} (hv : v.toNat % 2 ^ (k + 1) = c % 2 ^ (k + 1)) (hK : K ≤ c)
    (hc : c ≤ K + 2 ^ k) :
    (e.refill v).ci.toNat = c % 2 ^ (k + 1) ∧ (e.refill v).available = (c - K : Nat) := by
  have hlt : 2 ^ k ≤ 32 := Nat.pow_le_pow_right (n := 2) (by decide) hk
  have hpow : 2 ^ (k + 1) = 2 * 2 ^ k := by rw [pow_succ, Nat.mul_comm]
  have hpos := Nat.two_pow_pos (k + 1)
  have hK' := Nat.mod_lt K hpos
  have hc' := Nat.mod_lt c hpos
  have hciv : (v &&& e.fullMask).toNat = c % 2 ^ (k + 1) := by
    rw [fullMask, Words.toNat_and_mask _ _ hmask, hv]
  have hsize : (e.piRingSize.setWidth 8).toNat = 2 ^ k := by
    rw [BitVec.toNat_setWidth, hring, Nat.mod_eq_of_lt (by omega)]
  have hfirst : (e.ci.setWidth 8).toNat = K % 2 ^ (k + 1) := by
    rw [BitVec.toNat_setWidth, hci, Nat.mod_eq_of_lt (by omega)]
  have hlast : ((v &&& e.fullMask).setWidth 8).toNat = c % 2 ^ (k + 1) := by
    rw [BitVec.toNat_setWidth, hciv, Nat.mod_eq_of_lt (by omega)]
  have hdist : (qmCycDiff (e.piRingSize.setWidth 8) (e.ci.setWidth 8)
      ((v &&& e.fullMask).setWidth 8)).toNat = c - K := by
    rw [qmCycDiff_toNat (by omega) (by omega) (by omega), hsize, hfirst, hlast, ← hpow,
      Cyclic.cycDist_counters hpos hK (by omega)]
  simp only [refill, if_pos h0, hdist]
  exact ⟨hciv, trivial⟩

/-- The producer index after `n` more turns. -/
theorem advanceBatch_pi (hk : k ≤ 5) (hmask : e.piCiMask.toNat = 2 ^ (k + 1) - 1)
    (hpi : e.pi.toNat = T % 2 ^ (k + 1)) {n : Nat} (hn : n < 2 ^ 32) :
    (e.advanceBatch n).pi.toNat = (T + n) % 2 ^ (k + 1) := by
  have hdvd : 2 ^ (k + 1) ∣ 2 ^ 32 := Nat.pow_dvd_pow 2 (by omega)
  simp only [advanceBatch, Int.toNat_natCast, fullMask]
  rw [Words.toNat_and_mask _ _ hmask, BitVec.toNat_add, BitVec.toNat_ofNat, Nat.mod_eq_of_lt hn,
    Nat.mod_mod_of_dvd _ hdvd, hpi, Nat.mod_add_mod]

/-- The polarity after `n` more turns. -/
theorem advanceBatch_piVb (hk : k ≤ 5) (hmask : e.piCiMask.toNat = 2 ^ (k + 1) - 1)
    (hpi : e.pi.toNat = T % 2 ^ (k + 1)) (hvb : e.piVb = vbit (Cyclic.phase (2 ^ k) j₀ v₀ T))
    (n : Nat) : (e.advanceBatch n).piVb = vbit (Cyclic.phase (2 ^ k) j₀ v₀ (T + n)) := by
  simp only [advanceBatch, Int.toNat_natCast]
  rw [hvb]
  exact verbLoopVb_phase hk (halfMask_toNat hmask) (mod_slot hpi) n

/-- The counters after one frame are those after a batch of one. -/
theorem advance_eq (hmask : e.piCiMask.toNat = 2 ^ (k + 1) - 1) : e.advance = e.advanceBatch 1 := by
  have hand : ((e.pi + 1) &&& e.fullMask) &&& e.halfMask = (e.pi + 1) &&& e.halfMask := by
    have hhalf := halfMask_toNat hmask
    rw [← BitVec.toNat_inj, Words.toNat_and_mask _ _ hhalf, Words.toNat_and_mask _ _ hhalf,
      fullMask, Words.toNat_and_mask _ _ hmask,
      Nat.mod_mod_of_dvd _ (Nat.pow_dvd_pow 2 (Nat.le_succ k))]
  simp only [advance, advanceBatch, hand]
  rfl

end Eqcr

namespace Eqcr.Counts

theorem two_pow_le (h : e.Counts k j₀ v₀ T K) : 2 ^ k ≤ 32 :=
  Nat.pow_le_pow_right (n := 2) (by decide) h.small

/-- A refill takes over the consumer counter that was read: the ring was full. -/
theorem refill (h : e.Counts k j₀ v₀ T K) {v : U32} (hv : v.toNat % 2 ^ (k + 1) = c % 2 ^ (k + 1))
    (hK : K ≤ c) (hT : c ≤ T) :
    (e.refill v).Counts k j₀ v₀ T (if e.available = 0 then c else K) := by
  by_cases h0 : e.available = 0
  · -- The free count was used up.
    have hfull : T = K + 2 ^ k := by
      have havail := h.available
      have hfits := h.fits
      omega
    obtain ⟨hci, hdist⟩ := refill_of_zero h.small h.ring h.mask h.ci h0 hv hK (by omega)
    rw [if_pos h0]
    refine ⟨h.small, ?_, ?_, ?_, hci, ?_, by omega, hT, by omega⟩
    all_goals rw [refill_frame]
    · exact h.ring
    · exact h.mask
    · exact h.pi
    · exact h.vb
  · rw [refill_of_ne h0, if_neg h0]
    exact h

/-- The counters after `n` more turns. -/
theorem advanceBatch (h : e.Counts k j₀ v₀ T K) {n : Nat} (hn : T + n ≤ K + 2 ^ k) :
    (e.advanceBatch n).Counts k j₀ v₀ (T + n) K := by
  have hlt := h.two_pow_le
  have hle := h.le
  have havail := h.available
  refine ⟨h.small, h.ring, h.mask, advanceBatch_pi h.small h.mask h.pi (by omega), h.ci,
    advanceBatch_piVb h.small h.mask h.pi h.vb n, ?_, by omega, hn⟩
  simp only [Eqcr.advanceBatch]
  omega

end Eqcr.Counts

end Qbman
