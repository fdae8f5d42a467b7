import Qbman.Eqcr.Enqueued

/-!
# A batch is its frames, one after the other

The batch functions go over the ring twice with a running index, take the whole batch off the free
count at once and patch the `dca` byte afterwards. What they leave is what as many single ring-mode
enqueues leave (`enqueueMultiple_isSingles`). Both fill the slots of the same turns with the same
commands: `Fills` determines the portal and the slots (`Fills.unique`), and two of them in a row are
one (`Fills.append`).
-/

namespace Qbman

variable {k j₀ T K c n n' : Nat} {v₀ : Bool} {impl : Impl}

/-! ## The register that tells the hardware -/

/-- The value that an access writes to `EQCR_PI`. -/
def Access.eqcrPi? : Access → Option U32
  | .cinhWrite off v => if off = qbmanCinhSwpEqcrPi then some v else none
  | _ => none

/-- The value written to `EQCR_PI` last. -/
def lastEqcrPi (accs : List Access) : Option U32 := (accs.filterMap Access.eqcrPi?).getLast?

theorem lastEqcrPi_append (as bs : List Access) :
    lastEqcrPi (as ++ bs) = (lastEqcrPi bs).or (lastEqcrPi as) := by
  simp [lastEqcrPi, List.getLast?_append]

theorem lastEqcrPi_eq_none {accs : List Access} (h : ∀ a ∈ accs, a.eqcrPi? = none) :
    lastEqcrPi accs = none := by
  simp [lastEqcrPi, List.filterMap_eq_nil_iff.mpr h]

theorem Access.StoresIn.eqcrPi?_eq {p : Nat} {a : Access} (h : a.StoresIn p) :
    a.eqcrPi? = none := by
  obtain ⟨off, hoff, -⟩ := h
  cases a with
  | cinhWrite => cases hoff
  | _ => rfl

/-- What an implementation leaves in `EQCR_PI` for counters `e`. -/
def Impl.rung : Impl → Eqcr → Option U32
  | .direct, _ => none
  | .memBack, e => some e.doorbell

theorem Impl.lastEqcrPi_notify (impl : Impl) (e : Eqcr) :
    lastEqcrPi (impl.notify e) = impl.rung e := by
  cases impl <;> rfl

/-! ## Filling turns -/

/-- The counters stand for one state of the ring only. -/
theorem Eqcr.Counts.unique {e e' : Eqcr} (h : e.Counts k j₀ v₀ T K) (h' : e'.Counts k j₀ v₀ T K) :
    e = e' := by
  have hring := BitVec.eq_of_toNat_eq (h.ring.trans h'.ring.symm)
  have hmask := BitVec.eq_of_toNat_eq (h.mask.trans h'.mask.symm)
  have hpi := BitVec.eq_of_toNat_eq (h.pi.trans h'.pi.symm)
  have hci := BitVec.eq_of_toNat_eq (h.ci.trans h'.ci.symm)
  have hvb := h.vb.trans h'.vb.symm
  have havail := h.available.trans h'.available.symm
  cases e
  cases e'
  simp_all

/-- From portal `s` on, the `n` turns after `T` were filled with the commands `cmd`. -/
structure Fills (impl : Impl) (k j₀ : Nat) (v₀ : Bool) (T K : Nat) (cmd : Nat → U32 → Line)
    (s : QbmanSwp) (n : Nat) (swp : QbmanSwp) (accs : List Access) : Prop where
  frame : swp = { s with eqcr := swp.eqcr }
  counts : swp.eqcr.Counts k j₀ v₀ (T + n) K
  new : ∀ m : Region, ∀ j < n, (m.run accs).slots ((T + j) % 2 ^ k) =
    cmd j (vbit (Cyclic.phase (2 ^ k) j₀ v₀ (T + j)))
  old : ∀ (m : Region) (i : Nat), (∀ j < n, i ≠ (T + j) % 2 ^ k) → (m.run accs).slots i = m.slots i
  eqcrPi : 0 < n → lastEqcrPi accs = impl.rung swp.eqcr

variable {cmd cmd' : Nat → U32 → Line} {s s₁ s₂ : QbmanSwp} {as bs : List Access}

theorem Enqueued.fills (h : Enqueued k j₀ v₀ T K impl.notify cmd s n s₁ as) :
    Fills impl k j₀ v₀ T K cmd s n s₁ as := by
  refine ⟨h.frame, h.counts, h.new, h.old, fun hn => ?_⟩
  obtain ⟨pre, hpre, haccs | ⟨h0, -⟩⟩ := h.accs_eq
  · have hnone : lastEqcrPi pre = none := by
      refine lastEqcrPi_eq_none fun a ha => ?_
      rcases hpre a ha with ⟨off, v, rfl⟩ | ⟨j, -, hs⟩
      · rfl
      · exact hs.eqcrPi?_eq
    rw [haccs, lastEqcrPi_append, hnone, Option.or_none, impl.lastEqcrPi_notify]
  · omega

/-- Only the commands of these turns count. -/
theorem Fills.congr (h : Fills impl k j₀ v₀ T K cmd s n s₁ as)
    (hcmd : ∀ j < n, ∀ v, cmd j (vbit v) = cmd' j (vbit v)) :
    Fills impl k j₀ v₀ T K cmd' s n s₁ as := by
  refine ⟨h.frame, h.counts, fun m j hj => ?_, h.old, h.eqcrPi⟩
  rw [h.new m j hj, hcmd j hj]

/-- The same turns filled with the same commands. -/
theorem Fills.unique (h : Fills impl k j₀ v₀ T K cmd s n s₁ as)
    (h' : Fills impl k j₀ v₀ T K cmd s n s₂ bs) :
    s₁ = s₂ ∧ (∀ m : Region, (m.run as).slots = (m.run bs).slots) ∧
      (0 < n → lastEqcrPi as = lastEqcrPi bs) := by
  have heqcr := h.counts.unique h'.counts
  refine ⟨?_, fun m => ?_, fun hn => ?_⟩
  · rw [h.frame, h'.frame, heqcr]
  · funext i
    by_cases hi : ∃ j < n, i = (T + j) % 2 ^ k
    · obtain ⟨j, hj, rfl⟩ := hi
      rw [h.new m j hj, h'.new m j hj]
    · have hother : ∀ j < n, i ≠ (T + j) % 2 ^ k := fun j hj he => hi ⟨j, hj, he⟩
      rw [h.old m i hother, h'.old m i hother]
  · rw [h.eqcrPi hn, h'.eqcrPi hn, heqcr]

/-- Filling some turns and then the next ones. -/
theorem Fills.append (h : Fills impl k j₀ v₀ T K cmd s n s₁ as)
    (h' : Fills impl k j₀ v₀ (T + n) K (fun j => cmd (n + j)) s₁ n' s₂ bs) (hfit : n + n' ≤ 2 ^ k)
    (hn : 0 < n) (hn' : 0 < n') :
    Fills impl k j₀ v₀ T K cmd s (n + n') s₂ (as ++ bs) := by
  refine ⟨?_, ?_, fun m j hj => ?_, fun m i hi => ?_, fun _ => ?_⟩
  · rw [h'.frame, h.frame]
  · rw [← Nat.add_assoc]
    exact h'.counts
  · rw [Region.run_append]
    by_cases hlt : j < n
    · rw [h'.old _ _ fun j' hj' he => ?_, h.new m j hlt]
      have := Cyclic.slot_inj_window (a := T) (by omega) (by omega) (by omega) (by omega) he
      omega
    · obtain ⟨d, rfl⟩ := Nat.exists_eq_add_of_le (Nat.le_of_not_lt hlt)
      rw [← Nat.add_assoc]
      exact h'.new _ d (by omega)
  · rw [Region.run_append, h'.old _ _ fun j' hj' => ?_, h.old m i fun j hj => hi j (by omega)]
    rw [Nat.add_assoc]
    exact hi (n + j') (by omega)
  · rw [lastEqcrPi_append, h'.eqcrPi hn', h.eqcrPi hn]
    cases impl <;> rfl

/-! ## The counters of a portal -/

/-- A ring of `2 ^ k` slots whose free count is exact for its two counters. -/
structure Eqcr.Exact (k : Nat) (e : Eqcr) : Prop where
  small : k ≤ 5
  ring : e.piRingSize.toNat = 2 ^ k
  mask : e.piCiMask.toNat = 2 ^ (k + 1) - 1
  pi : e.pi.toNat < 2 * 2 ^ k
  ci : e.ci.toNat < 2 * 2 ^ k
  vb : e.piVb = 0 ∨ e.piVb = qbValidBit
  used : Cyclic.cycDist (2 * 2 ^ k) e.ci.toNat e.pi.toNat ≤ 2 ^ k
  available : e.available = (2 ^ k - Cyclic.cycDist (2 * 2 ^ k) e.ci.toNat e.pi.toNat : Nat)

/-- A consumer index that was read is in between the cached one and the producer index. -/
def Eqcr.Between (k : Nat) (e : Eqcr) (v : U32) : Prop :=
  Cyclic.cycDist (2 * 2 ^ k) e.ci.toNat (v.toNat % (2 * 2 ^ k)) ≤
    Cyclic.cycDist (2 * 2 ^ k) e.ci.toNat e.pi.toNat

/-- Such a ring, and such an index, in counters that never wrap. -/
theorem Eqcr.Exact.counts {e : Eqcr} {v : U32} (h : e.Exact k) (hv : e.Between k v) :
    ∃ j₀ v₀ T K c, e.Counts k j₀ v₀ T K ∧ v.toNat % 2 ^ (k + 1) = c % 2 ^ (k + 1) ∧ K ≤ c ∧
      c ≤ T := by
  obtain ⟨b, hb⟩ : ∃ b, e.piVb = vbit b := by
    rcases h.vb with hvb | hvb
    · exact ⟨false, hvb⟩
    · exact ⟨true, hvb⟩
  have hpow : 2 ^ (k + 1) = 2 * 2 ^ k := by rw [pow_succ, Nat.mul_comm]
  have hpi := Cyclic.add_cycDist_mod h.ci h.pi
  have hpos := Nat.two_pow_pos k
  have hvlt : v.toNat % (2 * 2 ^ k) < 2 * 2 ^ k := Nat.mod_lt _ (by omega)
  have hused := h.used
  have hmod := Cyclic.add_cycDist_mod h.ci hvlt
  let T := e.ci.toNat + Cyclic.cycDist (2 * 2 ^ k) e.ci.toNat e.pi.toNat
  refine ⟨T, b, T, e.ci.toNat,
    e.ci.toNat + Cyclic.cycDist (2 * 2 ^ k) e.ci.toNat (v.toNat % (2 * 2 ^ k)),
    ⟨h.small, h.ring, h.mask, ?_, ?_, ?_, ?_, ?_, ?_⟩, ?_, Nat.le_add_right _ _,
    Nat.add_le_add_left hv _⟩
  · rw [hpow, hpi]
  · rw [hpow, Nat.mod_eq_of_lt h.ci]
  · rw [Cyclic.phase_self, hb]
  · rw [h.available]
    omega
  · exact Nat.le_add_right _ _
  · omega
  · rw [hpow, hmod]

/-! ## Single enqueues -/

/-- `n` calls of `qbman_swp_enqueue` in ring mode with the frames from `i` on, in order. -/
def enqueueSingles (impl : Impl) (r : Regions) (d : Nat → QbmanEqDesc) (fd : Nat → QbmanFd) :
    Nat → Nat → QbmanSwp → Outcome (List Int)
  | 0, _, s => ⟨[], s, []⟩
  | n + 1, i, s =>
    let o := qbmanSwpEnqueueRingMode impl.ptrs s r (d i) (fd i)
    let rest := enqueueSingles impl r d fd n (i + 1) o.swp
    ⟨o.ret :: rest.ret, rest.swp, o.accs ++ rest.accs⟩

/-- The command of frame `i` with its own descriptor. -/
def singleCommand (d : Nat → QbmanEqDesc) (fd : Nat → QbmanFd) (i : Nat) (vb : U32) : Line :=
  (EnqCall.enqueue (d i) (fd i)).command 0 vb

theorem singleCommand_eq (d : Nat → QbmanEqDesc) (fd : Nat → QbmanFd) (i : Nat) (vb : U32) :
    singleCommand d fd i vb = eqCommand ((d i).cl 0 ||| vb) (d i).cl (fd i) := rfl

variable {r : Regions} {d : Nat → QbmanEqDesc} {fd : Nat → QbmanFd}

/-- A single call fills the next turn, if it is free after the refill. -/
theorem enqueueRingMode_fills (h : s.eqcr.Counts k j₀ v₀ T K)
    (hv : (r.cena impl.ciReg).toNat % 2 ^ (k + 1) = c % 2 ^ (k + 1)) (hK : K ≤ c) (hT : c ≤ T)
    (hfree : T < (if s.eqcr.available = 0 then c else K) + 2 ^ k) (d : Nat → QbmanEqDesc)
    (fd : Nat → QbmanFd) (i : Nat) :
    let o := qbmanSwpEnqueueRingMode impl.ptrs s r (d i) (fd i)
    o.ret = 0 ∧ Fills impl k j₀ v₀ T (if s.eqcr.available = 0 then c else K)
      (fun j => singleCommand d fd (i + j)) s 1 o.swp o.accs := by
  have hc := h.refill hv hK hT
  have havail := hc.available
  have hone : qbmanSwpEnqueueRingMode impl.ptrs s r (d i) (fd i) =
      enqueueRingMode impl.ciReg impl.notify s r (d i) (fd i) := by cases impl <;> rfl
  obtain ⟨m, hmin, hret, heff⟩ := enqueueBatch_spec impl.notify (fun _ => (d i).cl) (fun _ => fd i)
    none h hv hK hT Int.one_nonneg impl.run_notify
  obtain rfl : m = 1 := by omega
  rw [hone, enqueueRingMode_eq (d i) (fd i) hc.mask (by omega)]
  refine ⟨if_pos hret, heff.fills.congr fun j hj v => ?_⟩
  obtain rfl : j = 0 := by omega
  rfl

/-- Single calls on free slots fill the next turns. -/
theorem enqueueSingles_fills (d : Nat → QbmanEqDesc) (fd : Nat → QbmanFd) (i : Nat)
    (h : s.eqcr.Counts k j₀ v₀ T K)
    (hv : (r.cena impl.ciReg).toNat % 2 ^ (k + 1) = c % 2 ^ (k + 1)) (hK : K ≤ c) (hT : c ≤ T)
    (hn : 0 < n) (hfree : T + n ≤ (if s.eqcr.available = 0 then c else K) + 2 ^ k) :
    let o := enqueueSingles impl r d fd n i s
    o.ret = List.replicate n 0 ∧ Fills impl k j₀ v₀ T (if s.eqcr.available = 0 then c else K)
      (fun j => singleCommand d fd (i + j)) s n o.swp o.accs := by
  induction n generalizing s T K i with
  | zero => omega
  | succ n ih =>
    obtain ⟨hret, hfill⟩ := enqueueRingMode_fills h hv hK hT (by omega) d fd i
    have hseen : K ≤ (if s.eqcr.available = 0 then c else K) ∧
        (if s.eqcr.available = 0 then c else K) ≤ c := by
      split
      · exact ⟨hK, Nat.le_refl c⟩
      · exact ⟨Nat.le_refl K, hK⟩
    simp only [enqueueSingles, hret, List.replicate_succ]
    generalize (if s.eqcr.available = 0 then c else K) = K' at hfill hfree hseen ⊢
    generalize qbmanSwpEnqueueRingMode impl.ptrs s r (d i) (fd i) = o at hfill ⊢
    have hle := hfill.counts.le
    rcases Nat.eq_zero_or_pos n with rfl | hn
    · simp only [enqueueSingles, List.append_nil]
      exact ⟨rfl, hfill⟩
    · -- There are free slots left, so the next call does not refill.
      have hleft : o.swp.eqcr.available ≠ 0 := by
        have := hfill.counts.available
        omega
      obtain ⟨hrets, hrest⟩ := ih (i + 1) hfill.counts hseen.2 (by omega) hn (by
        rw [if_neg hleft]
        omega)
      rw [if_neg hleft] at hrest
      refine ⟨by rw [hrets], ?_⟩
      have hadd := hfill.append (by simpa only [Nat.add_assoc] using hrest)
        (by omega) Nat.one_pos hn
      rwa [Nat.add_comm 1 n] at hadd

/-! ## The descriptor of a frame -/

/-- The descriptor of frame `i` of a batch with one descriptor: with the flag, the one after
`qbman_eq_desc_set_dca` with the index of `flags[i]` and no park. -/
def QbmanEqDesc.withFlags (d : QbmanEqDesc) (flags : Option (Nat → U32)) (i : Nat) : QbmanEqDesc :=
  match flags with
  | none => d
  | some f =>
    if f i &&& qbmanEnqueueFlagDca ≠ 0 then
      qbmanEqDescSetDca d 1 ((f i &&& qbmanEqcrDcaIdxmask).setWidth 8) 0
    else d

/-- An index of four bits leaves the park bit and the enable bit to the setter. -/
theorem qbmanEqDescSetDca_idx (d : QbmanEqDesc) (x : U32) :
    qbmanEqDescSetDca d 1 ((x &&& qbmanEqcrDcaIdxmask).setWidth 8) 0 =
      { d with dca := (1 : U8) <<< qbEnqueueCmdDcaEnShift |||
          (x &&& qbmanEqcrDcaIdxmask).setWidth 8 } := by
  have hmask : (qbmanEqcrDcaIdxmask.setWidth 8 : U8) &&& ~~~((1 : U8) <<< qbEnqueueCmdDcaPkShift) =
      qbmanEqcrDcaIdxmask.setWidth 8 := by decide
  have hpark : ((x &&& qbmanEqcrDcaIdxmask).setWidth 8 : U8) &&&
      ~~~((1 : U8) <<< qbEnqueueCmdDcaPkShift) = (x &&& qbmanEqcrDcaIdxmask).setWidth 8 := by
    rw [BitVec.setWidth_and, BitVec.and_assoc, hmask]
  show { d with dca := _ &&& _ ||| _ } = _
  rw [hpark, BitVec.or_comm]

namespace QbmanEqDesc

variable (d : QbmanEqDesc) (b : U8)

theorem cl_dca_zero : { d with dca := b }.cl 0 = setByte (d.cl 0) 1 b := by
  show d.seqnum ++ b ++ d.verb = setByte (d.seqnum ++ d.dca ++ d.verb) 1 b
  refine BitVec.eq_of_getLsbD_eq fun i hi => ?_
  rw [setByte_getLsbD (by decide)]
  simp only [BitVec.getLsbD_append]
  grind

theorem cl_dca_succ (j : Fin 7) : { d with dca := b }.cl j.succ = d.cl j.succ := rfl

end QbmanEqDesc

theorem vbit_getLsbD_of_ge (v : Bool) {i : Nat} (hi : 8 ≤ i) : (vbit v).getLsbD i = false := by
  have hlt : (vbit v).toNat < 2 ^ 8 := by cases v <;> decide
  exact Nat.testBit_lt_two_pow (Nat.lt_of_lt_of_le hlt (Nat.pow_le_pow_right (by decide) hi))

theorem setByte_or_vbit (w : U32) (b : U8) (v : Bool) :
    setByte (w ||| vbit v) 1 b = setByte w 1 b ||| vbit v := by
  refine BitVec.eq_of_getLsbD_eq fun i hi => ?_
  have hv := vbit_getLsbD_of_ge v (i := i)
  rw [BitVec.getLsbD_or, setByte_getLsbD (by decide), setByte_getLsbD (by decide),
    BitVec.getLsbD_or]
  grind

/-- The patch of the `dca` byte gives the command of that descriptor. -/
theorem eqCommand_withFlags (d : QbmanEqDesc) (flags : Option (Nat → U32)) (fd : Nat → QbmanFd)
    (i : Nat) (v : Bool) :
    eqCommand (patchDca (d.cl 0 ||| vbit v) (dcaByte flags i)) d.cl (fd i) =
      singleCommand (d.withFlags flags) fd i (vbit v) := by
  cases flags with
  | none => rfl
  | some f =>
    by_cases hf : f i &&& qbmanEnqueueFlagDca ≠ 0
    · simp only [dcaByte, QbmanEqDesc.withFlags, singleCommand_eq, if_pos hf, qbmanEqDescSetDca_idx,
        patchDca, setByte_or_vbit, ← QbmanEqDesc.cl_dca_zero]
      funext j
      cases j using Fin.cases with
      | zero => rfl
      | succ j =>
        unfold eqCommand
        rw [if_neg (Fin.succ_ne_zero j), if_neg (Fin.succ_ne_zero j)]
        by_cases h8 : (j.succ : Nat) < 8
        · rw [dif_pos h8, dif_pos h8]
          exact (d.cl_dca_succ _ ⟨j, Nat.lt_of_succ_lt_succ h8⟩).symm
        · rw [dif_neg h8, dif_neg h8]
    · simp only [dcaByte, QbmanEqDesc.withFlags, singleCommand_eq, if_neg hf, patchDca]

/-! ## Batches -/

/-- A batch call with outcome `o` is `n` single calls that succeed. -/
structure IsSingles (impl : Impl) (s : QbmanSwp) (r : Regions) (d : Nat → QbmanEqDesc)
    (fd : Nat → QbmanFd) (n : Nat) (o : Outcome Int) : Prop where
  ret : o.ret = n
  rets : (enqueueSingles impl r d fd n 0 s).ret = List.replicate n 0
  swp : o.swp = (enqueueSingles impl r d fd n 0 s).swp
  slots : ∀ m : Region, (m.run o.accs).slots = (m.run (enqueueSingles impl r d fd n 0 s).accs).slots
  eqcrPi : 0 < n → lastEqcrPi o.accs = lastEqcrPi (enqueueSingles impl r d fd n 0 s).accs

theorem enqueueBatch_isSingles (h : s.eqcr.Counts k j₀ v₀ T K)
    (hv : (r.cena impl.ciReg).toNat % 2 ^ (k + 1) = c % 2 ^ (k + 1)) (hK : K ≤ c) (hT : c ≤ T)
    {num : Nat} (hnum : 1 ≤ num) {cl : Nat → Fin 8 → U32} {flags : Option (Nat → U32)}
    (hcmd : ∀ j v, eqCommand (patchDca (cl j 0 ||| vbit v) (dcaByte flags j)) (cl j) (fd j) =
      singleCommand d fd j (vbit v))
    (hmin : (n : Int) = min (num : Int) (s.eqcr.refill (r.cena impl.ciReg)).available) :
    IsSingles impl s r d fd n (enqueueBatch impl.ciReg impl.notify s r cl fd flags num) := by
  have hc := h.refill hv hK hT
  have havail := hc.available
  have hle := h.le
  obtain ⟨m, hmin', hret, heff⟩ := enqueueBatch_spec impl.notify cl fd flags h hv hK hT
    (Int.natCast_nonneg num) impl.run_notify
  obtain rfl : m = n := by omega
  have hbatch := heff.fills.congr fun j _ v => hcmd j v
  rcases Nat.eq_zero_or_pos m with rfl | hpos
  · -- No slot was free, and the refill found nothing new.
    have hnone : (if s.eqcr.available = 0 then c else K) = K := by
      have hfits := h.fits
      split at havail
      · rename_i h0
        rw [if_pos h0]
        omega
      · rename_i h0
        rw [if_neg h0]
    have hzero : Fills impl k j₀ v₀ T (if s.eqcr.available = 0 then c else K)
        (fun j => singleCommand d fd j) s 0 s [] := by
      refine ⟨rfl, ?_, fun m j hj => absurd hj (Nat.not_lt_zero j), fun _ _ _ => rfl,
        fun hpos => absurd hpos (Nat.lt_irrefl 0)⟩
      rw [hnone]
      exact h
    have hkeep := hbatch.unique hzero
    exact ⟨hret, rfl, hkeep.1, hkeep.2.1, hkeep.2.2⟩
  · obtain ⟨hrets, hsingles⟩ := enqueueSingles_fills d fd 0 h hv hK hT hpos
      (by omega)
    simp only [Nat.zero_add] at hsingles
    obtain ⟨hswp, hslots, hpi⟩ := hbatch.unique hsingles
    exact ⟨hret, hrets, hswp, hslots, hpi⟩

/-- A batch call on a portal with an exact free count, with a consumer index in between, accepts as
many frames as are offered and free after the refill, and is that many single ring-mode enqueues. -/
theorem enqueueMultiple_isSingles (h : s.eqcr.Exact k) (hv : s.eqcr.Between k (r.cena impl.ciReg))
    {num : Nat} (hnum : 1 ≤ num) :
    ∃ n : Nat, (n : Int) = min (num : Int) (s.eqcr.refill (r.cena impl.ciReg)).available ∧
      (∀ d fd flags, IsSingles impl s r (d.withFlags flags) fd n
        (qbmanSwpEnqueueMultiple impl.ptrs s r d fd flags num)) ∧
      ∀ d fd, IsSingles impl s r d fd n (qbmanSwpEnqueueMultipleDesc impl.ptrs s r d fd num) := by
  obtain ⟨j₀, v₀, T, K, c, hc, hvc, hK, hT⟩ := h.counts hv
  have havail := (hc.refill hvc hK hT).available
  obtain ⟨n, hn⟩ := Int.eq_ofNat_of_zero_le
    (show 0 ≤ min (num : Int) (s.eqcr.refill (r.cena impl.ciReg)).available by omega)
  refine ⟨n, hn.symm, fun d fd flags => ?_, fun d fd => ?_⟩
  · have hbatch : qbmanSwpEnqueueMultiple impl.ptrs s r d fd flags num =
        enqueueBatch impl.ciReg impl.notify s r (fun _ => d.cl) fd flags num := by
      cases impl <;> rfl
    rw [hbatch]
    exact enqueueBatch_isSingles hc hvc hK hT hnum (eqCommand_withFlags d flags fd) hn.symm
  · have hbatch : qbmanSwpEnqueueMultipleDesc impl.ptrs s r d fd num =
        enqueueBatch impl.ciReg impl.notify s r (fun i => (d i).cl) fd none num := by
      cases impl <;> rfl
    rw [hbatch]
    exact enqueueBatch_isSingles hc hvc hK hT hnum (fun _ _ => rfl) hn.symm

/-- Ten frames, each with its `dca` byte, on an empty ring of eight slots. -/
theorem enqueueMultiple_isSingles_ten : ∃ n : Nat, n = 8 ∧
    IsSingles .direct (swpRev4100 0 0x1000) ⟨fun _ => 0, fun _ => 0⟩
      (QbmanEqDesc.withFlags {} (some fun i => qbmanEnqueueFlagDca ||| BitVec.ofNat 32 i))
      (fun i _ => BitVec.ofNat 32 i) n
      (qbmanSwpEnqueueMultiple Impl.direct.ptrs (swpRev4100 0 0x1000) ⟨fun _ => 0, fun _ => 0⟩ {}
        (fun i _ => BitVec.ofNat 32 i)
        (some fun i => qbmanEnqueueFlagDca ||| BitVec.ofNat 32 i) (10 : Nat)) := by
  have hexact : (swpRev4100 0 0x1000).eqcr.Exact 3 :=
    ⟨by decide, by decide, by decide, by decide, by decide, by decide, by decide, by decide⟩
  have hbetween : (swpRev4100 0 0x1000).eqcr.Between 3 0 := by
    unfold Eqcr.Between
    decide
  have hfree : ((swpRev4100 0 0x1000).eqcr.refill 0).available = 8 := by decide
  obtain ⟨n, hn, hmultiple, -⟩ := @enqueueMultiple_isSingles 3 .direct _ ⟨fun _ => 0, fun _ => 0⟩
    hexact hbetween 10 (by decide)
  exact ⟨n, by rw [hfree] at hn; omega, hmultiple _ _ _⟩

end Qbman
