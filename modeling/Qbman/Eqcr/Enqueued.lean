import Qbman.Eqcr.Counts

/-!
# What a ring-mode call does

`Enqueued` is the effect of a call that accepts `n` frames on a ring whose counters are known
(`Eqcr.Counts`): the commands of the next `n` turns are in their slots, the other slots are as
before, and every store is in a slot of one of these turns. `EnqCall.run_enqueued`: each entry
point of either implementation has this effect.
-/

namespace Qbman

variable {k j₀ T K c : Nat} {v₀ : Bool}

/-- The access stores to the 64 bytes at `p`. -/
def Access.StoresIn (p : Nat) (a : Access) : Prop :=
  ∃ off, a.storeOff? = some off ∧ p ≤ off ∧ off < p + 64

theorem storesIn_enqueueBody {p : Nat} {cl : Fin 8 → U32} {fd : QbmanFd} {a : Access}
    (ha : a ∈ enqueueBody p cl fd) : a.StoresIn p := by
  simp only [enqueueBody, memcpyWords, List.mem_append, List.mem_ofFn] at ha
  rcases ha with ⟨j, rfl⟩ | ⟨j, rfl⟩
  · exact ⟨_, rfl, by omega, by omega⟩
  · exact ⟨_, rfl, by omega, by omega⟩

/-- The slot at the running index `j` turns after `pi`. -/
def eqcrSlotAt (half pi : U32) (j : Nat) : Nat :=
  qbmanCenaSwpEqcr ((pi + BitVec.ofNat 32 j) &&& half)

theorem eqcrSlotAt_zero (half pi : U32) :
    eqcrSlotAt half pi 0 = qbmanCenaSwpEqcr (pi &&& half) := by
  simp [eqcrSlotAt]

theorem eqcrSlotAt_succ (half pi : U32) (j : Nat) :
    eqcrSlotAt half (pi + 1) j = eqcrSlotAt half pi (j + 1) := by
  simp only [eqcrSlotAt]
  rw [BitVec.add_assoc, BitVec.ofNat_add, BitVec.add_comm (BitVec.ofNat 32 j)]
  rfl

theorem mem_fillLoop {half pi : U32} {cl : Nat → Fin 8 → U32} {fd : Nat → QbmanFd} {n i : Nat}
    {a : Access} (ha : a ∈ fillLoop half cl fd n i pi) :
    ∃ j < n, a ∈ enqueueBody (eqcrSlotAt half pi j) (cl (i + j)) (fd (i + j)) := by
  induction n generalizing i pi with
  | zero => cases ha
  | succ n ih =>
    rcases List.mem_append.mp ha with ha | ha
    · exact ⟨0, Nat.succ_pos n, eqcrSlotAt_zero half pi ▸ ha⟩
    · obtain ⟨j, hj, hs⟩ := ih ha
      rw [Nat.add_right_comm] at hs
      exact ⟨j + 1, Nat.succ_lt_succ hj, eqcrSlotAt_succ half pi j ▸ hs⟩

theorem storesIn_fillLoop {half pi : U32} {cl : Nat → Fin 8 → U32} {fd : Nat → QbmanFd} {n i : Nat}
    {a : Access} (ha : a ∈ fillLoop half cl fd n i pi) :
    ∃ j < n, a.StoresIn (eqcrSlotAt half pi j) := by
  obtain ⟨j, hj, hs⟩ := mem_fillLoop ha
  exact ⟨j, hj, storesIn_enqueueBody hs⟩

theorem storesIn_verbLoop {half pi vb : U32} {cl : Nat → Fin 8 → U32}
    {flags : Option (Nat → U32)} {n i : Nat} {a : Access}
    (ha : a ∈ verbLoop half cl flags n i pi vb) :
    ∃ j < n, a.StoresIn (eqcrSlotAt half pi j) := by
  induction n generalizing i pi vb with
  | zero => cases ha
  | succ n ih =>
    have h0 := eqcrSlotAt_zero half pi
    rcases List.mem_cons.mp ha with rfl | ha
    · exact ⟨0, Nat.succ_pos n, _, rfl, by omega, by omega⟩
    rcases List.mem_append.mp ha with ha | ha
    · obtain ⟨b, -, rfl⟩ := List.mem_map.mp ha
      exact ⟨0, Nat.succ_pos n, _, rfl, by omega, by omega⟩
    · obtain ⟨j, hj, hs⟩ := ih ha
      exact ⟨j + 1, Nat.succ_lt_succ hj, eqcrSlotAt_succ half pi j ▸ hs⟩

/-- The running index `j` turns after turn `T` is at the slot of turn `T + j`. -/
theorem eqcrSlotAt_turn {half pi : U32} (hk : k ≤ 5) (hhalf : half.toNat = 2 ^ k - 1)
    (hpi : pi.toNat % 2 ^ k = T % 2 ^ k) (j : Nat) :
    eqcrSlotAt half pi j = 64 * ((T + j) % 2 ^ k) := by
  have hdvd : 2 ^ k ∣ 2 ^ 32 := Nat.pow_dvd_pow 2 (by omega)
  refine eqcrSlot_turn hk hhalf ?_
  rw [BitVec.toNat_add, Nat.mod_mod_of_dvd _ hdvd, Nat.add_mod, hpi, BitVec.toNat_ofNat,
    Nat.mod_mod_of_dvd _ hdvd]
  exact (Nat.add_mod T j _).symm

/-- The effect of a call on a portal `s` that accepts `n` frames, of which frame `i` has the command
`cmd i`; `notify` is how the implementation hands over to the hardware. -/
structure Enqueued (k j₀ : Nat) (v₀ : Bool) (T K : Nat) (notify : Eqcr → List Access)
    (cmd : Nat → U32 → Line) (s : QbmanSwp) (n : Nat) (swp : QbmanSwp) (accs : List Access) :
    Prop where
  frame : swp = { s with eqcr := swp.eqcr }
  counts : swp.eqcr.Counts k j₀ v₀ (T + n) K
  new : ∀ m : Region, ∀ j < n, (m.run accs).slots ((T + j) % 2 ^ k) =
    cmd j (vbit (Cyclic.phase (2 ^ k) j₀ v₀ (T + j)))
  old : ∀ (m : Region) (i : Nat), (∀ j < n, i ≠ (T + j) % 2 ^ k) → (m.run accs).slots i = m.slots i
  accs_eq : ∃ pre : List Access,
    (∀ a ∈ pre, (∃ off v, a = .cenaRead off v) ∨ ∃ j < n, a.StoresIn (64 * ((T + j) % 2 ^ k))) ∧
      (accs = pre ++ notify swp.eqcr ∨ n = 0 ∧ accs = pre)

theorem Eqcr.run_refillReads (e : Eqcr) (ciReg : Nat) (v : U32) (m : Region) :
    m.run (e.refillReads ciReg v) = m := by
  unfold Eqcr.refillReads
  split
  · rfl
  · rfl

theorem Eqcr.mem_refillReads {e : Eqcr} {ciReg : Nat} {v : U32} {a : Access}
    (ha : a ∈ e.refillReads ciReg v) : ∃ off v, a = .cenaRead off v := by
  unfold Eqcr.refillReads at ha
  split at ha
  · exact ⟨ciReg, v, List.mem_singleton.mp ha⟩
  · cases ha

/-- The stores of the frames of a batch call that accepts `n` of them, on refilled counters `e`. -/
def batchStores (e : Eqcr) (cl : Nat → Fin 8 → U32) (fd : Nat → QbmanFd)
    (flags : Option (Nat → U32)) (n : Nat) : List Access :=
  fillLoop e.halfMask cl fd n 0 e.pi ++ verbLoop e.halfMask cl flags n 0 e.pi e.piVb

/-- A batch call accepts what is offered as far as there are free slots after the refill. -/
theorem enqueueBatch_cases {ciReg : Nat} (notify : Eqcr → List Access) {s : QbmanSwp} {r : Regions}
    (cl : Nat → Fin 8 → U32) (fd : Nat → QbmanFd) (flags : Option (Nat → U32)) {numFrames : Int}
    (h0 : 0 ≤ (s.eqcr.refill (r.cena ciReg)).available) (hn : 0 ≤ numFrames) :
    let e := s.eqcr.refill (r.cena ciReg)
    let o := enqueueBatch ciReg notify s r cl fd flags numFrames
    ∃ n : Nat, (n : Int) = min numFrames e.available ∧ o.ret = n ∧
      o.swp = { s with eqcr := if e.available = 0 then e else e.advanceBatch n } ∧
      o.accs = s.eqcr.refillReads ciReg (r.cena ciReg) ++ (batchStores e cl fd flags n ++
        if e.available = 0 then [] else notify (e.advanceBatch n)) := by
  simp only [enqueueBatch, batchStores]
  generalize s.eqcr.refill (r.cena ciReg) = e at h0 ⊢
  by_cases hzero : e.available = 0
  · refine ⟨0, by omega, ?_⟩
    simp only [if_pos hzero, fillLoop, verbLoop, List.append_nil, Int.natCast_zero, true_and]
  · obtain ⟨n, hne, hmin⟩ : ∃ n : Nat,
        (if e.available < numFrames then e.available else numFrames) = n ∧
          (n : Int) = min numFrames e.available := by
      split
      · exact ⟨e.available.toNat, by omega, by omega⟩
      · exact ⟨numFrames.toNat, by omega, by omega⟩
    refine ⟨n, hmin, ?_⟩
    simp only [if_neg hzero, hne, Int.toNat_natCast, List.append_assoc, true_and]

/-- A batch call on a ring whose counters are known. -/
theorem enqueueBatch_spec {ciReg : Nat} (notify : Eqcr → List Access) {s : QbmanSwp} {r : Regions}
    (cl : Nat → Fin 8 → U32) (fd : Nat → QbmanFd) (flags : Option (Nat → U32)) {numFrames : Int}
    (h : s.eqcr.Counts k j₀ v₀ T K) (hv : (r.cena ciReg).toNat % 2 ^ (k + 1) = c % 2 ^ (k + 1))
    (hK : K ≤ c) (hT : c ≤ T) (hn : 0 ≤ numFrames)
    (hnotify : ∀ e (m : Region), m.run (notify e) = m) :
    ∃ n : Nat, (n : Int) = min numFrames (s.eqcr.refill (r.cena ciReg)).available ∧
      (enqueueBatch ciReg notify s r cl fd flags numFrames).ret = n ∧
      Enqueued k j₀ v₀ T (if s.eqcr.available = 0 then c else K) notify
        (fun i vb => eqCommand (patchDca (cl i 0 ||| vb) (dcaByte flags i)) (cl i) (fd i)) s n
        (enqueueBatch ciReg notify s r cl fd flags numFrames).swp
        (enqueueBatch ciReg notify s r cl fd flags numFrames).accs := by
  have hc := h.refill hv hK hT
  have havail := hc.available
  have h0 : 0 ≤ (s.eqcr.refill (r.cena ciReg)).available := by omega
  obtain ⟨n, hmin, hret, hswp, haccs⟩ := enqueueBatch_cases notify cl fd flags h0 hn
  rw [hswp, haccs]
  refine ⟨n, hmin, hret, ?_⟩
  generalize (if s.eqcr.available = 0 then c else K) = K' at hc havail ⊢
  generalize s.eqcr.refill (r.cena ciReg) = e at hc havail hmin hswp haccs ⊢
  have hle := hc.le
  have hhalf := Eqcr.halfMask_toNat hc.mask
  have hpi := mod_slot hc.pi
  have hslot := eqcrSlotAt_turn hc.small hhalf hpi
  have htail : ∀ m : Region,
      m.run (if e.available = 0 then [] else notify (e.advanceBatch n)) = m := by
    intro m
    split
    · rfl
    · exact hnotify _ m
  refine ⟨rfl, ?_, fun m j hj => ?_, fun m i hi => ?_,
    s.eqcr.refillReads ciReg (r.cena ciReg) ++ batchStores e cl fd flags n, fun a ha => ?_, ?_⟩
  · split
    · obtain rfl : n = 0 := by omega
      exact hc
    · exact hc.advanceBatch (by omega)
  · rw [Region.run_append, Region.run_append, htail, Eqcr.run_refillReads, batchStores,
      Region.run_append, hc.vb]
    exact Region.slots_loops_turn hc.small hhalf cl fd flags m (by omega) hpi hj
  · rw [Region.run_append, Region.run_append, htail, Eqcr.run_refillReads, batchStores,
      Region.run_append, hc.vb]
    exact Region.slots_loops_other hc.small hhalf cl fd flags m hpi hi
  · rcases List.mem_append.mp ha with ha | ha
    · exact .inl (Eqcr.mem_refillReads ha)
    · right
      rcases List.mem_append.mp ha with ha | ha
      · obtain ⟨j, hj, hs⟩ := storesIn_fillLoop ha
        exact ⟨j, hj, hslot j ▸ hs⟩
      · obtain ⟨j, hj, hs⟩ := storesIn_verbLoop ha
        exact ⟨j, hj, hslot j ▸ hs⟩
  · by_cases hzero : e.available = 0
    · right
      refine ⟨by omega, ?_⟩
      rw [if_pos hzero, List.append_nil]
    · left
      simp only [if_neg hzero, List.append_assoc]

/-! ## The entry points in ring mode -/

/-- The register that an implementation reads the consumer index from. -/
def Impl.ciReg : Impl → Nat
  | .direct => qbmanCenaSwpEqcrCi
  | .memBack => qbmanCenaSwpEqcrCiMemback

/-- How a ring-mode function of an implementation hands over. -/
def Impl.notify : Impl → Eqcr → List Access
  | .direct => fun _ => []
  | .memBack => ringDoorbell

/-- All pointers at one implementation. -/
def Impl.ptrs : Impl → FnPtrs
  | .direct => {}
  | .memBack => FnPtrs.memBack

theorem Impl.run_notify (impl : Impl) (e : Eqcr) (m : Region) : m.run (impl.notify e) = m := by
  cases impl <;> rfl

section

variable (ptrs : FnPtrs) (s : QbmanSwp) (r : Regions)

theorem qbmanSwpEnqueueArrayMode_eq (d : QbmanEqDesc) (fd : QbmanFd) :
    ∃ notify, qbmanSwpEnqueueArrayMode ptrs s r d fd = enqueueArrayMode notify s r d fd := by
  unfold qbmanSwpEnqueueArrayMode
  cases ptrs.enqueueArrayModePtr <;> exact ⟨_, rfl⟩

theorem qbmanSwpEnqueueRingMode_eq (d : QbmanEqDesc) (fd : QbmanFd) :
    qbmanSwpEnqueueRingMode ptrs s r d fd =
      enqueueRingMode ptrs.enqueueRingModePtr.ciReg ptrs.enqueueRingModePtr.notify s r d fd := by
  unfold qbmanSwpEnqueueRingMode
  cases ptrs.enqueueRingModePtr <;> rfl

theorem qbmanSwpEnqueueMultiple_eq (d : QbmanEqDesc) (fd : Nat → QbmanFd)
    (flags : Option (Nat → U32)) (n : Int) :
    qbmanSwpEnqueueMultiple ptrs s r d fd flags n = enqueueBatch ptrs.enqueueMultiplePtr.ciReg
      ptrs.enqueueMultiplePtr.notify s r (fun _ => d.cl) fd flags n := by
  unfold qbmanSwpEnqueueMultiple
  cases ptrs.enqueueMultiplePtr <;> rfl

theorem qbmanSwpEnqueueMultipleDesc_eq (d : Nat → QbmanEqDesc) (fd : Nat → QbmanFd) (n : Int) :
    qbmanSwpEnqueueMultipleDesc ptrs s r d fd n = enqueueBatch ptrs.enqueueMultipleDescPtr.ciReg
      ptrs.enqueueMultipleDescPtr.notify s r (fun i => (d i).cl) fd none n := by
  unfold qbmanSwpEnqueueMultipleDesc
  cases ptrs.enqueueMultipleDescPtr <;> rfl

end

/-- A ring-mode enqueue is the batch of one frame, with another result. -/
theorem enqueueRingMode_eq {ciReg : Nat} {notify : Eqcr → List Access} {s : QbmanSwp} {r : Regions}
    (d : QbmanEqDesc) (fd : QbmanFd)
    (hmask : (s.eqcr.refill (r.cena ciReg)).piCiMask.toNat = 2 ^ (k + 1) - 1)
    (h0 : 0 ≤ (s.eqcr.refill (r.cena ciReg)).available) :
    enqueueRingMode ciReg notify s r d fd =
      let o := enqueueBatch ciReg notify s r (fun _ => d.cl) (fun _ => fd) none 1
      ⟨if o.ret = 1 then 0 else -eBUSY, o.swp, o.accs⟩ := by
  unfold enqueueRingMode enqueueBatch
  simp only
  generalize s.eqcr.refill (r.cena ciReg) = e at hmask h0 ⊢
  by_cases hzero : e.available = 0
  · simp only [if_pos hzero]
    rfl
  · have hone : ¬ e.available < 1 := by omega
    simp only [if_neg hzero, if_neg hone, Eqcr.advance_eq hmask, Int.toNat_one, fillLoop, verbLoop,
      dcaByte, Option.toList_none, List.map_nil, List.nil_append, List.append_nil, List.cons_append,
      if_true]

/-- Every entry point of an implementation is the batch of its frames. -/
theorem EnqCall.run_batch (impl : Impl) (call : EnqCall) {s : QbmanSwp} {r : Regions}
    (hmode : s.sys.eqcrMode = .vbRing)
    (hmask : (s.eqcr.refill (r.cena impl.ciReg)).piCiMask.toNat = 2 ^ (k + 1) - 1)
    (h0 : 0 ≤ (s.eqcr.refill (r.cena impl.ciReg)).available) (hn : 0 ≤ call.numFrames) :
    let o := enqueueBatch impl.ciReg impl.notify s r call.cl call.fd call.flags call.numFrames
    call.accepted (call.run impl.ptrs s r).ret = o.ret.toNat ∧
      (call.run impl.ptrs s r).swp = o.swp ∧ (call.run impl.ptrs s r).accs = o.accs := by
  cases call with
  | enqueue d fd =>
    have hrun : (EnqCall.enqueue d fd).run impl.ptrs s r =
        enqueueRingMode impl.ciReg impl.notify s r d fd := by
      show qbmanSwpEnqueue impl.ptrs s r d fd = _
      unfold qbmanSwpEnqueue
      rw [if_neg (by rw [hmode]; decide)]
      cases impl <;> rfl
    rw [hrun, enqueueRingMode_eq d fd hmask h0]
    refine ⟨?_, rfl, rfl⟩
    obtain ⟨n, hmin, hret, -⟩ := enqueueBatch_cases impl.notify (fun _ => d.cl) (fun _ => fd) none
      h0 Int.one_nonneg
    have hret' : (enqueueBatch impl.ciReg impl.notify s r (EnqCall.enqueue d fd).cl
      (EnqCall.enqueue d fd).fd (EnqCall.enqueue d fd).flags
        (EnqCall.enqueue d fd).numFrames).ret = n := hret
    rw [hret', Int.toNat_natCast]
    show (if (if (enqueueBatch _ _ _ _ _ _ _ _).ret = 1 then (0 : Int) else -eBUSY) = 0 then 1
      else 0) = n
    rw [hret]
    rcases (by omega : n = 0 ∨ n = 1) with rfl | rfl
    · rfl
    · rfl
  | multiple d fd flags nf => cases impl <;> exact ⟨rfl, rfl, rfl⟩
  | multipleDesc d fd nf => cases impl <;> exact ⟨rfl, rfl, rfl⟩

/-- Every entry point of an implementation has the effect of its commands. -/
theorem EnqCall.run_enqueued (impl : Impl) (call : EnqCall) {s : QbmanSwp} {r : Regions}
    (hmode : s.sys.eqcrMode = .vbRing) (h : s.eqcr.Counts k j₀ v₀ T K)
    (hv : (r.cena impl.ciReg).toNat % 2 ^ (k + 1) = c % 2 ^ (k + 1)) (hK : K ≤ c) (hT : c ≤ T)
    (hn : 0 ≤ call.numFrames) :
    Enqueued k j₀ v₀ T (if s.eqcr.available = 0 then c else K) impl.notify call.command s
      (call.accepted (call.run impl.ptrs s r).ret) (call.run impl.ptrs s r).swp
      (call.run impl.ptrs s r).accs := by
  have hc := h.refill hv hK hT
  have havail := hc.available
  obtain ⟨hacc, hswp, haccs⟩ := call.run_batch impl hmode hc.mask (by omega) hn
  obtain ⟨n, -, hret, heff⟩ :=
    enqueueBatch_spec impl.notify call.cl call.fd call.flags h hv hK hT hn
    impl.run_notify
  rw [hacc, hswp, haccs, hret, Int.toNat_natCast]
  exact heff

end Qbman
