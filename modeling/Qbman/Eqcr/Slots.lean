import Qbman.Enqueue
import Qbman.Lib.Cyclic

/-!
# What the stores of an enqueue do to the slots of the ring

The cache-enabled region as 64-byte slots (`Region.slots`). Each part of a command changes one slot
(`slots_enqueueBody`, `slots_cenaWord`, `slots_cenaByte`); the two loops of a batch change the slots
of their turns and no other (`slots_fillLoop`, `slots_verbLoop`), so that together they leave the
commands (`slots_loops_turn`).
-/

namespace Qbman

variable {k : Nat} {half pi : U32} {T : Nat}

/-- The region as 64-byte slots. -/
def Region.slots (m : Region) (n : Nat) : Line := m.line (64 * n)

theorem qbmanCenaSwpEqcr_eq {n : U32} (h : n.toNat < 2 ^ 26) :
    qbmanCenaSwpEqcr n = 64 * n.toNat := by
  unfold qbmanCenaSwpEqcr
  rw [BitVec.toNat_add, BitVec.toNat_shiftLeft, Nat.shiftLeft_eq]
  simp
  omega

/-! ## One part of a command -/

theorem Region.slots_access_cenaWord (m : Region) (n : Nat) (j : Fin 16) (w : U32) :
    (m.access (.cenaWord (64 * n + 4 * j) w)).slots =
      Function.update m.slots n (Function.update (m.slots n) j w) := by
  funext n' i
  simp only [Region.access_cenaWord, Region.slots, Region.line]
  by_cases hn : n' = n
  · subst hn
    by_cases hi : i = j
    · subst hi
      simp
    · have : (i : Nat) ≠ j := fun h => hi (Fin.ext h)
      rw [Function.update_of_ne (by omega), Function.update_self, Function.update_of_ne hi]
      rfl
  · rw [Function.update_of_ne (by omega), Function.update_of_ne hn]
    rfl

/-- The word with the verb is the first of its slot. -/
theorem Region.slots_cenaWord (m : Region) (n : Nat) (w : U32) :
    (m.access (.cenaWord (64 * n) w)).slots =
      Function.update m.slots n (Function.update (m.slots n) 0 w) :=
  m.slots_access_cenaWord n 0 w

/-- The `dca` byte is in the first word of its slot. -/
theorem Region.slots_cenaByte (m : Region) (n : Nat) (b : U8) :
    (m.access (.cenaByte (64 * n + 1) b)).slots =
      Function.update m.slots n (Function.update (m.slots n) 0 (setByte (m.slots n 0) 1 b)) := by
  have hmod : (64 * n + 1) % 4 = 1 := by omega
  have hword : m.access (.cenaByte (64 * n + 1) b) =
      m.access (.cenaWord (64 * n) (setByte (m (64 * n)) 1 b)) := by
    simp [Region.access, hmod]
  rw [hword, Region.slots_cenaWord]
  rfl

/-- `memcpy` of words inside one slot. -/
theorem Region.slots_memcpyWords (m : Region) (n j₀ : Nat) {c : Nat} (src : Fin c → U32)
    (h : j₀ + c ≤ 16) :
    (m.run (memcpyWords (64 * n + 4 * j₀) src)).slots =
      Function.update m.slots n fun i =>
        if hi : j₀ ≤ i ∧ (i : Nat) < j₀ + c then src ⟨i - j₀, by omega⟩ else m.slots n i := by
  funext n' i
  have hfar : (n' ≠ n ∨ ¬ (j₀ ≤ i ∧ (i : Nat) < j₀ + c)) →
      (m.run (memcpyWords (64 * n + 4 * j₀) src)).slots n' i = m.slots n' i := by
    intro hne
    refine run_memcpyWords_of_lt _ _ _ fun j hj => ?_
    omega
  by_cases hn : n' = n
  · subst hn
    rw [Function.update_self]
    split
    · rename_i hi
      have := run_memcpyWords m (64 * n' + 4 * j₀) src ⟨i - j₀, by omega⟩
      rw [← this]
      show (m.run _) _ = _
      congr 1
      simp only
      omega
    · exact hfar (.inr ‹_›)
  · rw [Function.update_of_ne hn, hfar (.inl hn)]

/-- The body of a command: its slot has the command under the old first word. -/
theorem Region.slots_enqueueBody (m : Region) (n : Nat) (cl : Fin 8 → U32) (fd : QbmanFd) :
    (m.run (enqueueBody (64 * n) cl fd)).slots =
      Function.update m.slots n (eqCommand (m.slots n 0) cl fd) := by
  have h4 : 64 * n + 4 = 64 * n + 4 * 1 := by omega
  have h32 : 64 * n + 32 = 64 * n + 4 * 8 := by omega
  rw [enqueueBody, Region.run_append, h4, h32, Region.slots_memcpyWords _ _ _ _ (by omega),
    Region.slots_memcpyWords _ _ _ _ (by omega), Function.update_idem, Function.update_self]
  congr 1
  funext i
  unfold eqCommand
  by_cases h0 : i = 0
  · subst h0
    simp
  · have hi : 0 < (i : Nat) := Nat.pos_of_ne_zero fun h => h0 (Fin.ext h)
    rw [if_neg h0]
    by_cases h8 : (i : Nat) < 8
    · rw [dif_neg (by omega), dif_pos (by omega), dif_pos h8]
      congr 1
      ext
      simp
      omega
    · rw [dif_pos (by omega), dif_neg h8]

/-! ## The loops -/

section Loops

variable {j₀ : Nat} {v₀ : Bool}

/-- The slot at the running index of turn `T`. -/
theorem eqcrSlot_turn (hk : k ≤ 5) (hhalf : half.toNat = 2 ^ k - 1)
    (hpi : pi.toNat % 2 ^ k = T % 2 ^ k) :
    qbmanCenaSwpEqcr (pi &&& half) = 64 * (T % 2 ^ k) := by
  have hle : 2 ^ k ≤ 2 ^ 5 := Nat.pow_le_pow_right (by decide) hk
  have hlt := Nat.mod_lt T (Nat.two_pow_pos k)
  have hand := Words.toNat_and_mask pi half hhalf
  rw [qbmanCenaSwpEqcr_eq (by omega), hand, hpi]

theorem turn_succ (hk : k ≤ 5) (hpi : pi.toNat % 2 ^ k = T % 2 ^ k) :
    (pi + 1).toNat % 2 ^ k = (T + 1) % 2 ^ k := by
  have hdvd : 2 ^ k ∣ 2 ^ 32 := Nat.pow_dvd_pow 2 (by omega)
  rw [BitVec.toNat_add, Nat.mod_mod_of_dvd _ hdvd, Nat.add_mod, hpi]
  exact (Nat.add_mod T 1 (2 ^ k)).symm

/-- The polarity after the running index reached the next turn. -/
theorem flipAtWrap_phase (hk : k ≤ 5) (hhalf : half.toNat = 2 ^ k - 1)
    (hpi : pi.toNat % 2 ^ k = T % 2 ^ k) :
    flipAtWrap half (pi + 1) (vbit (Cyclic.phase (2 ^ k) j₀ v₀ T)) =
      vbit (Cyclic.phase (2 ^ k) j₀ v₀ (T + 1)) := by
  have hzero : (pi + 1) &&& half = 0 ↔ (T + 1) % 2 ^ k = 0 := by
    rw [← BitVec.toNat_inj, Words.toNat_and_mask _ _ hhalf, turn_succ hk hpi]
    rfl
  rw [Cyclic.phase_succ, flipAtWrap]
  split
  · rw [if_pos (hzero.mp ‹_›), vbit_not]
  · rw [if_neg fun h => ‹¬ _› (hzero.mpr h)]

theorem verbLoopVb_phase (hk : k ≤ 5) (hhalf : half.toNat = 2 ^ k - 1)
    (hpi : pi.toNat % 2 ^ k = T % 2 ^ k) (n : Nat) :
    verbLoopVb half n pi (vbit (Cyclic.phase (2 ^ k) j₀ v₀ T)) =
      vbit (Cyclic.phase (2 ^ k) j₀ v₀ (T + n)) := by
  induction n generalizing pi T with
  | zero => rfl
  | succ n ih =>
    rw [verbLoopVb, flipAtWrap_phase hk hhalf hpi, ih (turn_succ hk hpi)]
    congr 2
    omega

/-- The slots after the bodies of a batch. -/
theorem Region.slots_fillLoop (hk : k ≤ 5) (hhalf : half.toNat = 2 ^ k - 1)
    (cl : Nat → Fin 8 → U32) (fd : Nat → QbmanFd) (m : Region) (n i : Nat)
    (hpi : pi.toNat % 2 ^ k = (T + i) % 2 ^ k) :
    (m.run (fillLoop half cl fd n i pi)).slots =
      Cyclic.writeTurns (2 ^ k) (fun t l => eqCommand (l 0) (cl (t - T)) (fd (t - T))) n (T + i)
        m.slots := by
  induction n generalizing m i pi with
  | zero => rfl
  | succ n ih =>
    have hnext : (pi + 1).toNat % 2 ^ k = (T + (i + 1)) % 2 ^ k := turn_succ hk hpi
    rw [fillLoop, Region.run_append, ih _ _ hnext, eqcrSlot_turn hk hhalf hpi,
      Region.slots_enqueueBody, Cyclic.writeTurns, Nat.add_sub_cancel_left]
    rfl

/-- The slots after the first words of a batch. -/
theorem Region.slots_verbLoop (j₀ : Nat) (v₀ : Bool) (hk : k ≤ 5) (hhalf : half.toNat = 2 ^ k - 1)
    (cl : Nat → Fin 8 → U32) (flags : Option (Nat → U32)) (m : Region) (n i : Nat)
    (hpi : pi.toNat % 2 ^ k = (T + i) % 2 ^ k) :
    (m.run (verbLoop half cl flags n i pi (vbit (Cyclic.phase (2 ^ k) j₀ v₀ (T + i))))).slots =
      Cyclic.writeTurns (2 ^ k)
        (fun t l => Function.update l 0 (patchDca
          (cl (t - T) 0 ||| vbit (Cyclic.phase (2 ^ k) j₀ v₀ t)) (dcaByte flags (t - T))))
        n (T + i) m.slots := by
  induction n generalizing m i pi with
  | zero => rfl
  | succ n ih =>
    have hnext : (pi + 1).toNat % 2 ^ k = (T + (i + 1)) % 2 ^ k := turn_succ hk hpi
    rw [verbLoop, Cyclic.writeTurns, Nat.add_sub_cancel_left, flipAtWrap_phase hk hhalf hpi,
      Nat.add_assoc T i 1, Region.run_cons, Region.run_append, ih _ _ hnext,
      eqcrSlot_turn hk hhalf hpi]
    congr 1
    cases hdca : dcaByte flags i with
    | none => exact Region.slots_cenaWord _ _ _
    | some b =>
      simp only [Option.toList_some, List.map_cons, List.map_nil, Region.run_cons, Region.run_nil,
        Region.slots_cenaByte, Region.slots_cenaWord, Function.update_self, Function.update_idem,
        patchDca]

/-- Both loops, one after the other. -/
theorem Region.slots_loops (hk : k ≤ 5) (hhalf : half.toNat = 2 ^ k - 1)
    (cl : Nat → Fin 8 → U32) (fd : Nat → QbmanFd) (flags : Option (Nat → U32)) (m : Region)
    (n : Nat) (hpi : pi.toNat % 2 ^ k = T % 2 ^ k) :
    ((m.run (fillLoop half cl fd n 0 pi)).run
      (verbLoop half cl flags n 0 pi (vbit (Cyclic.phase (2 ^ k) j₀ v₀ T)))).slots =
      Cyclic.writeTurns (2 ^ k)
        (fun t l => Function.update l 0 (patchDca
          (cl (t - T) 0 ||| vbit (Cyclic.phase (2 ^ k) j₀ v₀ t)) (dcaByte flags (t - T)))) n T
        (Cyclic.writeTurns (2 ^ k) (fun t l => eqCommand (l 0) (cl (t - T)) (fd (t - T))) n T
          m.slots) := by
  have hfill := Region.slots_fillLoop (T := T) hk hhalf cl fd m n 0 hpi
  have hverb := Region.slots_verbLoop (T := T) j₀ v₀ hk hhalf cl flags
    (m.run (fillLoop half cl fd n 0 pi)) n 0 hpi
  rw [Nat.add_zero] at hfill hverb
  rw [hverb, hfill]

/-- A turn's slot has its command. -/
theorem Region.slots_loops_turn (hk : k ≤ 5) (hhalf : half.toNat = 2 ^ k - 1)
    (cl : Nat → Fin 8 → U32) (fd : Nat → QbmanFd) (flags : Option (Nat → U32)) (m : Region)
    {n : Nat} (hn : n ≤ 2 ^ k) (hpi : pi.toNat % 2 ^ k = T % 2 ^ k) {j : Nat} (hj : j < n) :
    ((m.run (fillLoop half cl fd n 0 pi)).run
      (verbLoop half cl flags n 0 pi (vbit (Cyclic.phase (2 ^ k) j₀ v₀ T)))).slots
        ((T + j) % 2 ^ k) =
      eqCommand (patchDca (cl j 0 ||| vbit (Cyclic.phase (2 ^ k) j₀ v₀ (T + j)))
        (dcaByte flags j)) (cl j) (fd j) := by
  rw [Region.slots_loops hk hhalf cl fd flags m n hpi, Cyclic.writeTurns_turn hn hj,
    Cyclic.writeTurns_turn hn hj, Nat.add_sub_cancel_left]
  funext i
  by_cases hi : i = 0
  · subst hi
    simp [eqCommand]
  · simp [eqCommand, hi]

theorem Region.slots_loops_other (hk : k ≤ 5) (hhalf : half.toNat = 2 ^ k - 1)
    (cl : Nat → Fin 8 → U32) (fd : Nat → QbmanFd) (flags : Option (Nat → U32)) (m : Region)
    {n : Nat} (hpi : pi.toNat % 2 ^ k = T % 2 ^ k) {i : Nat}
    (hi : ∀ j < n, i ≠ (T + j) % 2 ^ k) :
    ((m.run (fillLoop half cl fd n 0 pi)).run
      (verbLoop half cl flags n 0 pi (vbit (Cyclic.phase (2 ^ k) j₀ v₀ T)))).slots i =
      m.slots i := by
  rw [Region.slots_loops hk hhalf cl fd flags m n hpi, Cyclic.writeTurns_other hi,
    Cyclic.writeTurns_other hi]

end Loops

end Qbman
