import Qbman.Mc
import Qbman.Process
import Qbman.Push

/-!
# Rejected commands

The ring functions overwrite the consumer index and the free count before they decide to fail, and
`qbman_swp_pull` has counted `busy` down by then. A rejected call leaves no trace all the same
(`portalSys_rejected`): in every state the ring's fields have its size (`Eqcr.Sized`), so the cyclic
difference of two consumer indices is 0 for equal ones only, and what was overwritten was
overwritten with itself.
-/

namespace Qbman

/-! ## The size of the ring -/

/-- The mask and the consumer index fit the ring size. -/
def Eqcr.Sized (e : Eqcr) : Prop :=
  ∃ k ≤ 5, e.piRingSize.toNat = 2 ^ k ∧ e.piCiMask.toNat = 2 ^ (k + 1) - 1 ∧
    e.ci.toNat < 2 ^ (k + 1)

theorem eqcrInit_sized (impl : Impl) (x y : U32) : (eqcrInit impl.memBacked x y).Sized := by
  refine ⟨impl.ringExp, ?_, eqcrInit_ring impl x y, eqcrInit_mask impl x y, ?_⟩
  · cases impl <;> decide
  · rw [eqcrInit_ci]
    exact Nat.mod_lt _ (Nat.two_pow_pos _)

namespace Eqcr.Sized

variable {e : Eqcr}

theorem refill (h : e.Sized) (v : U32) : (e.refill v).Sized := by
  obtain ⟨k, hk, hring, hmask, hci⟩ := h
  unfold Eqcr.refill
  split
  · refine ⟨k, hk, hring, hmask, ?_⟩
    show (v &&& e.piCiMask).toNat < _
    rw [Words.toNat_and_mask _ _ hmask]
    exact Nat.mod_lt _ (Nat.two_pow_pos _)
  · exact ⟨k, hk, hring, hmask, hci⟩

theorem advance (h : e.Sized) : e.advance.Sized := h

theorem advanceBatch (h : e.Sized) (num : Int) : (e.advanceBatch num).Sized := h

/-- After a refill there is no free slot if and only if the count was used up and the hardware still
is at the cached consumer index. -/
theorem refill_available (h : e.Sized) (v : U32) :
    (e.refill v).available = 0 ↔ e.available = 0 ∧ v &&& e.piCiMask = e.ci := by
  obtain ⟨k, hk, hring, hmask, hci⟩ := h
  by_cases h0 : e.available = 0
  · have hsmall : 2 ^ k ≤ 32 := Nat.pow_le_pow_right (n := 2) (by decide) hk
    have hpow : 2 ^ (k + 1) = 2 * 2 ^ k := by rw [pow_succ, Nat.mul_comm]
    have hlt : (v &&& e.piCiMask).toNat < 2 ^ (k + 1) := by
      rw [Words.toNat_and_mask _ _ hmask]
      exact Nat.mod_lt _ (Nat.two_pow_pos _)
    have hsize : (e.piRingSize.setWidth 8).toNat = 2 ^ k := by
      rw [BitVec.toNat_setWidth, hring, Nat.mod_eq_of_lt (by omega)]
    have hfirst : (e.ci.setWidth 8).toNat = e.ci.toNat := by
      rw [BitVec.toNat_setWidth, Nat.mod_eq_of_lt (by omega)]
    have hlast : ((v &&& e.piCiMask).setWidth 8).toNat = (v &&& e.piCiMask).toNat := by
      rw [BitVec.toNat_setWidth, Nat.mod_eq_of_lt (by omega)]
    have havail : (e.refill v).available = (qmCycDiff (e.piRingSize.setWidth 8) (e.ci.setWidth 8)
        ((v &&& e.piCiMask).setWidth 8)).toNat := by
      rw [Eqcr.refill, if_pos h0]
      rfl
    rw [havail, qmCycDiff_toNat (by omega) (by omega) (by omega), hsize, hfirst, hlast, ← hpow,
      Int.natCast_eq_zero, Cyclic.cycDist_eq_zero hci hlt, BitVec.toNat_inj]
    exact ⟨fun h => ⟨h0, h.symm⟩, fun h => h.2.symm⟩
  · rw [Eqcr.refill_of_ne h0]
    exact ⟨fun h => absurd h h0, fun h => h.1⟩

/-- A refill that frees no slot changes nothing. -/
theorem refill_eq (h : e.Sized) {v : U32} (hzero : (e.refill v).available = 0) :
    e.refill v = e := by
  obtain ⟨h0, hci⟩ := (h.refill_available v).mp hzero
  rw [Eqcr.refill_frame, hzero]
  have hnew : (e.refill v).ci = e.ci := by
    rw [Eqcr.refill, if_pos h0]
    exact hci
  rw [hnew, ← h0]

end Eqcr.Sized

/-! ## The portal -/

/-- A call on the portal, or a step of one: the calls of other threads may come between the steps of
`qbman_swp_pull`. The functions that change no field of the portal are left out. -/
inductive PortalOp where
  | dataPath (op : DataPathOp)
  | pullDecAndTest
  | pullRestore
  | pullSubmit (impl : Impl) (d : QbmanPullDesc)
  | mcResult
  | hasNewResult (dq : U64) (l : Line)
  /-- `qbman_check_command_complete` of an entry at `dq` that names the portal. -/
  | commandComplete (dq : U64)
  | pushSet (channelIdx : U8) (enable : Int)

/-- The portal object after it. -/
def PortalOp.after (ptrs : FnPtrs) (r : Regions) (s : QbmanSwp) : PortalOp → QbmanSwp
  | dataPath op => (op.call ptrs s r).swp
  | pullDecAndTest => (Qbman.pullDecAndTest s).2
  | pullRestore => Qbman.pullRestore s
  | pullSubmit impl d => (Qbman.pullSubmit impl s d).swp
  | mcResult => (qbmanSwpMcResult s r.cena).swp
  | hasNewResult dq l => (qbmanResultHasNewResult s dq l).2.1
  | commandComplete dq => { s with vdq := s.vdq.hook dq }
  | pushSet channelIdx enable => (qbmanSwpPushSet s channelIdx enable).swp

/-- A portal from its `qbman_swp_init` on, under any pointers and any readouts. -/
def portalSys : Trans.Sys QbmanSwp (FnPtrs × Regions × PortalOp) where
  init s := ∃ g d env a, (qbmanSwpInit g d env).ret = some (a, s)
  step s op t := t = op.2.2.after op.1 op.2.1 s

/-! ## What a rejected call leaves -/

/-- The access changes nothing. -/
def Access.IsRead : Access → Prop
  | .cinhRead _ _ => True
  | .cenaRead _ _ => True
  | _ => False

theorem Region.run_of_reads {accs : List Access} (h : ∀ a ∈ accs, a.IsRead) (m : Region) :
    m.run accs = m := by
  induction accs generalizing m with
  | nil => rfl
  | cons a accs ih =>
    obtain ⟨ha, haccs⟩ := List.forall_mem_cons.mp h
    rw [Region.run_cons, ih haccs]
    cases a with
    | cinhRead off v => rfl
    | cenaRead off v => rfl
    | cinhWrite off v => exact ha.elim
    | cenaWord off v => exact ha.elim
    | cenaByte off v => exact ha.elim
    | cenaMemset len => exact ha.elim

/-- The portal object, the rings and the registers after a call are those before it. -/
structure NoTrace {α : Type} (s : QbmanSwp) (o : Outcome α) : Prop where
  swp : o.swp = s
  cena : ∀ m : Region, m.run o.accs = m
  reads : ∀ a ∈ o.accs, a.IsRead

/-- A call that returns a result in `Bad` does so under the condition `C`, and leaves no trace. -/
structure Rejects {α : Type} (s : QbmanSwp) (o : Outcome α) (Bad : α → Prop) (C : Prop) : Prop where
  iff : Bad o.ret ↔ C
  noTrace : C → NoTrace s o

theorem Rejects.mk_reads {α : Type} {s : QbmanSwp} {o : Outcome α} {Bad : α → Prop} {C : Prop}
    (hiff : Bad o.ret ↔ C) (h : C → o.swp = s ∧ ∀ a ∈ o.accs, a.IsRead) : Rejects s o Bad C :=
  ⟨hiff, fun hc => ⟨(h hc).1, Region.run_of_reads (h hc).2, (h hc).2⟩⟩

theorem Eqcr.refillReads_isRead (e : Eqcr) (ciReg : Nat) (v : U32) :
    ∀ a ∈ e.refillReads ciReg v, a.IsRead := by
  intro a ha
  obtain ⟨off, w, rfl⟩ := Eqcr.mem_refillReads ha
  trivial

/-- The ring has no free slot, and the hardware is where software last saw it. -/
def QbmanSwp.RingFull (s : QbmanSwp) (ci : U32) : Prop :=
  s.eqcr.available = 0 ∧ ci &&& s.eqcr.piCiMask = s.eqcr.ci

section

variable {s : QbmanSwp} {r : Regions}

theorem enqueueRingMode_rejects (ciReg : Nat) (notify : Eqcr → List Access) (h : s.eqcr.Sized)
    (d : QbmanEqDesc) (fd : QbmanFd) :
    Rejects s (enqueueRingMode ciReg notify s r d fd) (· = -eBUSY)
      (s.RingFull (r.cena ciReg)) := by
  have hfull := h.refill_available (r.cena ciReg)
  refine .mk_reads ?_ fun hc => ?_
  · rw [QbmanSwp.RingFull, ← hfull]
    simp only [enqueueRingMode]
    split <;> simp_all [eBUSY]
  · have hzero := hfull.mpr hc
    simp only [enqueueRingMode, h.refill_eq hzero, if_pos hc.1]
    exact ⟨trivial, s.eqcr.refillReads_isRead _ _⟩

theorem enqueueBatch_rejects (ciReg : Nat) (notify : Eqcr → List Access) (h : s.eqcr.Sized)
    (cl : Nat → Fin 8 → U32) (fd : Nat → QbmanFd) (flags : Option (Nat → U32)) {numFrames : Int}
    (hn : 1 ≤ numFrames) :
    Rejects s (enqueueBatch ciReg notify s r cl fd flags numFrames) (· = 0)
      (s.RingFull (r.cena ciReg)) := by
  have hfull := h.refill_available (r.cena ciReg)
  refine .mk_reads ?_ fun hc => ?_
  · rw [QbmanSwp.RingFull, ← hfull]
    simp only [enqueueBatch]
    split
    · rename_i hzero
      simp [hzero]
    · -- Neither the free count nor the number of frames is 0.
      rename_i hzero
      simp only [hzero, iff_false]
      split <;> omega
  · have hzero := hfull.mpr hc
    simp only [enqueueBatch, h.refill_eq hzero, if_pos hc.1]
    exact ⟨trivial, s.eqcr.refillReads_isRead _ _⟩

theorem enqueueArrayMode_rejects (notify : U32 → List Access) (d : QbmanEqDesc) (fd : QbmanFd) :
    Rejects s (enqueueArrayMode notify s r d fd) (· = -eBUSY)
      (eqarSuccess (r.cinh qbmanCinhSwpEqar) = 0) := by
  refine .mk_reads ?_ fun hc => ?_
  · simp only [enqueueArrayMode]
    split <;> simp_all [eBUSY]
  · simp [enqueueArrayMode, hc, Access.IsRead]

theorem releaseCall_rejects (rcr : U32 → Nat) (notify : U32 → List Access) (d : QbmanReleaseDesc)
    (buffers : Nat → U64) (n : U32) :
    Rejects s (releaseCall rcr notify s r d buffers n) (· = -eBUSY)
      (rarSuccess (r.cinh qbmanCinhSwpRar) = false) := by
  refine .mk_reads ?_ fun hc => ?_
  · simp only [releaseCall]
    split <;> simp_all [eBUSY]
  · simp [releaseCall, hc, Access.IsRead]

theorem pullCall_rejects (impl : Impl) (d : QbmanPullDesc) :
    Rejects s (pullCall impl s d) (·.1 = -eBUSY) (s.vdq.busy ≠ 1) := by
  refine .mk_reads ?_ fun hc => ?_
  · by_cases hfree : s.vdq.busy = 1
    · simp [(pullCall_free impl d hfree).1, hfree, eBUSY]
    · simpa [pullCall_busy impl d hfree] using hfree
  · rw [pullCall_busy impl d hc]
    exact ⟨rfl, List.forall_mem_nil _⟩

theorem pullCall_kept {impl : Impl} {d : QbmanPullDesc} (h : (pullCall impl s d).ret.1 = -eBUSY) :
    (pullCall impl s d).ret.2 = d := by
  rw [pullCall_busy impl d ((pullCall_rejects impl d).iff.mp h)]

end

/-! ## The data-path operations -/

namespace DataPathOp

/-- The call reports that it was rejected: nothing was done for at least one frame. -/
def Rejected : DataPathOp → DataPathRet → Prop
  | enqueue (.enqueue _ _), .code ret => ret = -eBUSY
  | enqueue (.multiple _ _ _ n), .code ret => 1 ≤ n ∧ ret = 0
  | enqueue (.multipleDesc _ _ n), .code ret => 1 ≤ n ∧ ret = 0
  | pull _, .pulled ret _ => ret = -eBUSY
  | release _ _ _, .code ret => ret = -eBUSY
  | _, _ => False

/-- The caller's descriptor is as it was. -/
def DescKept : DataPathOp → DataPathRet → Prop
  | pull d, .pulled _ d' => d' = d
  | _, _ => True

/-- The call enqueues at least one frame through the ring. -/
def ThroughRing (s : QbmanSwp) : DataPathOp → Prop
  | enqueue (.enqueue _ _) => s.sys.eqcrMode ≠ .vbArray
  | enqueue (.multiple _ _ _ n) => 1 ≤ n
  | enqueue (.multipleDesc _ _ n) => 1 ≤ n
  | _ => False

variable {s : QbmanSwp} {r : Regions}

/-- The call leaves no trace when it is rejected; through the ring that is when the ring is full. -/
structure RejectedClean (impl : Impl) (s : QbmanSwp) (r : Regions) (op : DataPathOp)
    (o : Outcome DataPathRet) : Prop where
  noTrace : op.Rejected o.ret → NoTrace s o ∧ op.DescKept o.ret
  iff : op.ThroughRing s → (op.Rejected o.ret ↔ s.RingFull (r.cena impl.ciReg))

theorem RejectedClean.of_rejects {α : Type} {impl : Impl} {op : DataPathOp} {f : α → DataPathRet}
    {o : Outcome α} {Bad : α → Prop} {C : Prop} (h : Rejects s o Bad C)
    (hbad : ∀ ret, op.Rejected (f ret) ↔ Bad ret) (hkept : Bad o.ret → op.DescKept (f o.ret))
    (hring : op.ThroughRing s → (C ↔ s.RingFull (r.cena impl.ciReg))) :
    op.RejectedClean impl s r (o.map f) := by
  refine ⟨fun hrej => ?_, fun hthrough => ?_⟩
  · have hret : Bad o.ret := (hbad _).mp hrej
    obtain ⟨hswp, hcena, hreads⟩ := h.noTrace (h.iff.mp hret)
    exact ⟨⟨hswp, hcena, hreads⟩, hkept hret⟩
  · rw [← hring hthrough, ← h.iff]
    exact hbad o.ret

/-- A batch, whichever of its two entry points was called. -/
theorem RejectedClean.of_batch {impl : Impl} {op : DataPathOp} {o : Outcome Int} {n : Int}
    (h : 1 ≤ n → Rejects s o (· = 0) (s.RingFull (r.cena impl.ciReg)))
    (hbad : ∀ ret, op.Rejected (.code ret) ↔ 1 ≤ n ∧ ret = 0)
    (hkept : op.DescKept (.code o.ret)) (hring : op.ThroughRing s ↔ 1 ≤ n) :
    op.RejectedClean impl s r (o.map .code) := by
  by_cases hn : 1 ≤ n
  · refine .of_rejects (h hn) (fun ret => ?_) (fun _ => hkept) (fun _ => Iff.rfl)
    rw [hbad]
    exact and_iff_right hn
  · exact ⟨fun hrej => absurd ((hbad _).mp hrej).1 hn,
      fun hthrough => absurd (hring.mp hthrough) hn⟩

theorem call_rejectedClean (ptrs : FnPtrs) (h : s.eqcr.Sized) (op : DataPathOp) :
    op.RejectedClean (op.impl ptrs s) s r (op.call ptrs s r) := by
  cases op with
  | enqueue c =>
    cases c with
    | enqueue d fd =>
      simp only [call, impl, EnqCall.run, qbmanSwpEnqueue]
      split
      · rename_i harray
        obtain ⟨notify, hcall⟩ := qbmanSwpEnqueueArrayMode_eq ptrs s r d fd
        rw [hcall]
        exact .of_rejects (enqueueArrayMode_rejects notify d fd) (fun _ => Iff.rfl)
          (fun _ => trivial) (fun hring => absurd harray hring)
      · rw [qbmanSwpEnqueueRingMode_eq]
        exact .of_rejects (enqueueRingMode_rejects _ _ h d fd) (fun _ => Iff.rfl)
          (fun _ => trivial) (fun _ => Iff.rfl)
    | multiple d fd flags n =>
      simp only [call, EnqCall.run, qbmanSwpEnqueueMultiple_eq]
      exact .of_batch (enqueueBatch_rejects _ _ h _ fd flags) (fun _ => Iff.rfl) trivial Iff.rfl
    | multipleDesc d fd n =>
      simp only [call, EnqCall.run, qbmanSwpEnqueueMultipleDesc_eq]
      exact .of_batch (enqueueBatch_rejects _ _ h _ fd none) (fun _ => Iff.rfl) trivial Iff.rfl
  | pull d =>
    simp only [call, qbmanSwpPull_eq]
    exact .of_rejects (pullCall_rejects _ d) (fun _ => Iff.rfl) pullCall_kept
      (fun hring => hring.elim)
  | dqrrNext => exact ⟨fun hrej => hrej.elim, fun hring => hring.elim⟩
  | release d buffers n =>
    simp only [call, qbmanSwpRelease_impl]
    exact .of_rejects (releaseCall_rejects _ _ d buffers n) (fun _ => Iff.rfl)
      (fun _ => trivial) (fun hring => hring.elim)

end DataPathOp

/-! ## Every reachable state -/

section Sized

variable {ciReg : Nat} {notify : Eqcr → List Access} {s : QbmanSwp} {r : Regions}

theorem enqueueRingMode_sized (h : s.eqcr.Sized) (d : QbmanEqDesc) (fd : QbmanFd) :
    (enqueueRingMode ciReg notify s r d fd).swp.eqcr.Sized := by
  simp only [enqueueRingMode]
  split
  · exact h.refill _
  · exact (h.refill _).advance

theorem enqueueBatch_sized (h : s.eqcr.Sized) (cl : Nat → Fin 8 → U32) (fd : Nat → QbmanFd)
    (flags : Option (Nat → U32)) (numFrames : Int) :
    (enqueueBatch ciReg notify s r cl fd flags numFrames).swp.eqcr.Sized := by
  simp only [enqueueBatch]
  split
  · exact h.refill _
  · exact (h.refill _).advanceBatch _

theorem EnqCall.run_sized (ptrs : FnPtrs) (h : s.eqcr.Sized) (c : EnqCall) :
    (c.run ptrs s r).swp.eqcr.Sized := by
  cases c with
  | enqueue d fd =>
    simp only [run, qbmanSwpEnqueue]
    split
    · obtain ⟨notify, hcall⟩ := qbmanSwpEnqueueArrayMode_eq ptrs s r d fd
      rw [hcall]
      simp only [enqueueArrayMode]
      split
      · exact h
      · exact h
    · rw [qbmanSwpEnqueueRingMode_eq]
      exact enqueueRingMode_sized h d fd
  | multiple d fd flags n =>
    rw [run, qbmanSwpEnqueueMultiple_eq]
    exact enqueueBatch_sized h _ fd flags n
  | multipleDesc d fd n =>
    rw [run, qbmanSwpEnqueueMultipleDesc_eq]
    exact enqueueBatch_sized h _ fd none n

theorem DataPathOp.call_sized (ptrs : FnPtrs) (h : s.eqcr.Sized) (op : DataPathOp) :
    (op.call ptrs s r).swp.eqcr.Sized := by
  cases op with
  | enqueue c => exact c.run_sized ptrs h
  | pull d =>
    simp only [call, qbmanSwpPull_eq, Outcome.map, pullCall]
    split
    · exact h
    · exact h
  | dqrrNext =>
    have heqcr := qbmanSwpDqrrNext_view QbmanSwp.eqcr (fun _ _ _ => rfl) ptrs s r
    simp only [call, Outcome.map, heqcr]
    exact h
  | release d buffers n =>
    simp only [call, qbmanSwpRelease_impl, Outcome.map, releaseCall_swp]
    exact h

theorem PortalOp.after_sized (ptrs : FnPtrs) (h : s.eqcr.Sized) (op : PortalOp) :
    (op.after ptrs r s).eqcr.Sized := by
  cases op with
  | dataPath op => exact op.call_sized ptrs h
  | pullDecAndTest => exact h
  | pullRestore => exact h
  | pullSubmit impl d => exact h
  | mcResult =>
    rw [after, qbmanSwpMcResult_view QbmanSwp.eqcr fun _ _ _ => rfl]
    exact h
  | hasNewResult dq l =>
    simp only [after, qbmanResultHasNewResult]
    split
    · exact h
    · exact h
  | commandComplete dq => exact h
  | pushSet channelIdx enable => exact h

end Sized

/-- The ring's fields fit its size in every state of a portal. -/
theorem portalSys_sized : portalSys.Inductive (·.eqcr.Sized) where
  init s := by
    rintro ⟨g, d, env, a, hinit⟩
    obtain ⟨-, -, -, -, -, -, heqcr, -⟩ := qbmanSwpInit_some hinit
    rw [heqcr, ← d.impl_memBacked]
    exact eqcrInit_sized d.impl _ _
  step s op t h := by
    rintro rfl
    exact op.2.2.after_sized op.1 h

/-- A rejected call leaves no trace: the portal object, the rings and the registers and the caller's
descriptor are as they were. A call through the ring is rejected if and only if the free count is
used up and the hardware is at the consumer index that was read last. -/
theorem portalSys_rejected {s : QbmanSwp} (h : portalSys.Reach s) (ptrs : FnPtrs) (r : Regions)
    (op : DataPathOp) :
    (op.Rejected (op.call ptrs s r).ret →
      NoTrace s (op.call ptrs s r) ∧ op.DescKept (op.call ptrs s r).ret) ∧
    (op.ThroughRing s → (op.Rejected (op.call ptrs s r).ret ↔
      s.eqcr.available = 0 ∧
        r.cena (op.impl ptrs s).ciReg &&& s.eqcr.piCiMask = s.eqcr.ci)) := by
  have hclean := op.call_rejectedClean (r := r) ptrs (portalSys_sized.reach h)
  exact ⟨hclean.noTrace, hclean.iff⟩

/-- A direct portal with eight commands in its ring, of which the hardware has taken none. -/
theorem portalSys_rejected_full :
    ∃ p, (qbmanSwpInit {} (.rev4100 .vbRing 0) (.ok 0x1000 8 0)).ret = some (0x1000, p) ∧
      (qbmanSwpEnqueue {} p ⟨fun _ => 0, fun _ => 0⟩ {} fun _ => 0).ret = -eBUSY ∧
      NoTrace p ((DataPathOp.enqueue (.enqueue {} fun _ => 0)).call {} p
        ⟨fun _ => 0, fun _ => 0⟩) := by
  refine ⟨_, rfl, ?_⟩
  have hreach := Trans.Sys.Reach.of_init (S := portalSys)
    ⟨{}, .rev4100 .vbRing 0, .ok 0x1000 8 0, 0x1000, rfl⟩
  obtain ⟨hclean, hfull⟩ := portalSys_rejected hreach {} ⟨fun _ => 0, fun _ => 0⟩
    (.enqueue (.enqueue {} fun _ => 0))
  have hring : QbmanEqcrMode.vbRing ≠ .vbArray := by decide
  have hrej := (hfull hring).mpr ⟨by decide, by decide⟩
  exact ⟨hrej, (hclean hrej).1⟩

end Qbman
