import Qbman.Marshal
import Qbman.Mc.Complete
import Qbman.Mc.Statistics

/-!
# Buffer acquires

`qbman_swp_acquire` asks for up to seven buffers and copies as many as the response says it granted,
`r->num`, from the response in the shadow to the caller's array. `QBMAN_BUG_ON(r->num >
num_buffers)` is empty in the default build, so the copy stays in bounds exactly if the hardware
grants no more than it was asked for (`acquireInBounds_iff`).
-/

namespace Qbman

/-- `r->num` of `struct qbman_acquire_rslt`. -/
def acquireNum (l : Line) : Nat := (byteOf l 4).toNat

/-- The words from `&r->buf[0]` on: the rest of the line, then what follows it in memory. -/
def acquireBuf (l : Line) (after : Nat → U32) (i : Nat) : U32 :=
  if i < 14 then l (Fin.ofNat 16 (i + 2)) else after (i - 14)

/-- What `qbman_swp_acquire` leaves: the words from the caller's `buffers` on, and the assignments
that made them. -/
structure AcquireOutcome where
  ret : Int
  swp : QbmanSwp
  accs : List Access
  buffers : Nat → U32
  copies : List Copy.Move

/-- `start` is the command as `qbman_swp_mc_start` hands it out, `after` the memory behind the
response. -/
def qbmanSwpAcquire (p : QbmanSwp) (start : Line) (polls : Nat → Region) (after : Nat → U32)
    (bpid : U16) (buffers : Nat → U32) (numBuffers : U32) : AcquireOutcome :=
  match qbmanSwpAcquireRequest bpid numBuffers with
  | none => { ret := -eINVAL, swp := p, accs := [], buffers, copies := [] }
  | some req =>
    let out := qbmanSwpMcComplete p (req.fill start) req.verb polls
    match out.ret with
    | none => { ret := - eIO, swp := out.swp, accs := out.accs, buffers, copies := [] }
    | some r =>
      if mcRslt r ≠ qbmanMcRsltOk then
        { ret := - eIO, swp := out.swp, accs := out.accs, buffers, copies := [] }
      else
        let copies := u64FromLe32Copy false (acquireNum r) 0 0
        { ret := acquireNum r, swp := out.swp, accs := out.accs
          buffers := Copy.run (acquireBuf r after) buffers copies, copies }

/-- The copies stay in the first `numBuffers` values of the caller and the seven of the response;
the call returns an error and leaves the caller's array alone, or returns at most `numBuffers`. -/
structure AcquireInBounds (buffers : Nat → U32) (numBuffers : U32) (o : AcquireOutcome) : Prop where
  writes : ∀ c ∈ o.copies, c.dst < 2 * numBuffers.toNat
  outside : ∀ i, 2 * numBuffers.toNat ≤ i → o.buffers i = buffers i
  reads : ∀ c ∈ o.copies, c.src < 14
  error : o.ret < 0 → o.buffers = buffers
  count : 0 ≤ o.ret → o.ret ≤ numBuffers.toNat

theorem AcquireInBounds.of_error {buffers : Nat → U32} {numBuffers : U32} {o : AcquireOutcome}
    (hret : o.ret < 0) (hbuf : o.buffers = buffers) (hcopies : o.copies = []) :
    AcquireInBounds buffers numBuffers o where
  writes c hc := by simp [hcopies] at hc
  outside i _ := by rw [hbuf]
  reads c hc := by simp [hcopies] at hc
  error _ := hbuf
  count h := by omega

/-- The call asks for a valid number of buffers and gets the successful response `r`. -/
structure AcquireGrants (p : QbmanSwp) (polls : Nat → Region) (numBuffers : U32) (r : Line) :
    Prop where
  args : ¬ (numBuffers = 0 ∨ numBuffers > 7)
  response : mcResponse p polls = some r
  rslt : mcRslt r = qbmanMcRsltOk

section Spec

variable {p : QbmanSwp} {polls : Nat → Region} {numBuffers : U32} {r : Line}
variable (start : Line) (after : Nat → U32) (bpid : U16) (buffers : Nat → U32)

theorem qbmanSwpAcquire_of_grants (h : AcquireGrants p polls numBuffers r) :
    let o := qbmanSwpAcquire p start polls after bpid buffers numBuffers
    o.ret = acquireNum r ∧ o.copies = u64FromLe32Copy false (acquireNum r) 0 0 ∧
      o.buffers = Copy.run (acquireBuf r after) buffers o.copies := by
  simp only [qbmanSwpAcquire, qbmanSwpAcquireRequest, if_neg h.args, qbmanSwpMcComplete_ret,
    h.response, h.rslt, ne_eq, not_true_eq_false, if_false, and_self]

/-- Without such a response the call fails and copies nothing. -/
theorem qbmanSwpAcquire_of_not_grants (h : ∀ r, ¬ AcquireGrants p polls numBuffers r) :
    let o := qbmanSwpAcquire p start polls after bpid buffers numBuffers
    o.ret < 0 ∧ o.buffers = buffers ∧ o.copies = [] := by
  have heio : - eIO < 0 := by decide
  by_cases hargs : numBuffers = 0 ∨ numBuffers > 7
  · simp only [qbmanSwpAcquire, qbmanSwpAcquireRequest, if_pos hargs, and_self, and_true]
    decide
  · simp only [qbmanSwpAcquire, qbmanSwpAcquireRequest, if_neg hargs, qbmanSwpMcComplete_ret]
    cases hr : mcResponse p polls with
    | none => simp only [heio, and_self]
    | some r =>
      have hrslt : mcRslt r ≠ qbmanMcRsltOk := fun hok => h r ⟨hargs, hr, hok⟩
      simp only [if_pos hrslt, heio, and_self]

end Spec

theorem acquireInBounds_iff (p : QbmanSwp) (start : Line) (polls : Nat → Region)
    (after : Nat → U32) (bpid : U16) (buffers : Nat → U32) (numBuffers : U32) :
    AcquireInBounds buffers numBuffers
        (qbmanSwpAcquire p start polls after bpid buffers numBuffers) ↔
      ∀ r, AcquireGrants p polls numBuffers r → acquireNum r ≤ numBuffers.toNat := by
  by_cases hgrants : ∃ r, AcquireGrants p polls numBuffers r
  · obtain ⟨r, hr⟩ := hgrants
    obtain ⟨hret, hcopies, hbuf⟩ := qbmanSwpAcquire_of_grants start after bpid buffers hr
    have hunique : ∀ r', AcquireGrants p polls numBuffers r' → r' = r := fun r' h' =>
      Option.some.inj (h'.response.symm.trans hr.response)
    constructor
    · intro h r' hr'
      have hcount := h.count (by rw [hret]; exact Int.natCast_nonneg _)
      rw [hret] at hcount
      rw [hunique r' hr']
      exact Int.ofNat_le.mp hcount
    · intro h
      have hnum := h r hr
      have hseven : numBuffers.toNat ≤ 7 := by
        have := hr.args
        simp only [not_or, BitVec.not_lt, gt_iff_lt] at this
        exact this.2
      have hmem : ∀ c ∈ (qbmanSwpAcquire p start polls after bpid buffers numBuffers).copies,
          c.dst < 2 * acquireNum r ∧ c.src < 2 * acquireNum r := by
        intro c hc
        rw [hcopies] at hc
        have hcopies := u64FromLe32Copy_copies false (acquireNum r)
        exact ⟨hcopies.dst_lt c hc, hcopies.src_lt (fun _ hi => hostPos_lt hi) hc⟩
      refine ⟨fun c hc => ?_, fun i hi => ?_, fun c hc => ?_, fun hneg => ?_, fun _ => ?_⟩
      · have := (hmem c hc).1
        omega
      · rw [hbuf]
        exact Copy.run_of_ne_dst fun c hc => by have := (hmem c hc).1; omega
      · have := (hmem c hc).2
        omega
      · rw [hret] at hneg
        exact absurd hneg (Int.not_lt.mpr (Int.natCast_nonneg _))
      · rw [hret]
        exact Int.ofNat_le.mpr hnum
  · have hno : ∀ r, ¬ AcquireGrants p polls numBuffers r := not_exists.mp hgrants
    obtain ⟨hret, hbuf, hcopies⟩ := qbmanSwpAcquire_of_not_grants start after bpid buffers
      hno
    exact iff_of_true (AcquireInBounds.of_error hret hbuf hcopies) fun r hr => absurd hr (hno r)

end Qbman
