import Qbman.Eqcr.Init
import Qbman.Lib.Count
import Qbman.Lib.System
import Qbman.Pull

/-!
# The mutual exclusion of volatile dequeues

Any number of callers run `qbman_swp_pull` on one portal, one atomic step at a time, between
completions. A loser has taken one from `vdq.busy` until its compensating increment, so the counter
is `1` less the outstanding commands less the losers that are between their steps
(`VdqState.Inv.busy`). It is a 32-bit word: `2 ^ 32` callers can bring it back to `1` while a
command is outstanding (`vdqSys_not_exclusive`).
-/

namespace Qbman

/-- Where a caller is. -/
inductive PullPhase where
  | idle
  | lost
  | won (d : QbmanPullDesc)

def PullPhase.isLost : PullPhase → Bool
  | .lost => true
  | _ => false

def PullPhase.isWon : PullPhase → Bool
  | .won _ => true
  | _ => false

/-- The hook that completes a command: in `qbman_swp_dqrr_next`, or in a poll of the storage. -/
inductive VdqHook where
  | dqrr
  | storage

def Vdq.complete (v : Vdq) : VdqHook → Vdq
  | .dqrr => { v with busy := atomicInc v.busy }
  | .storage => v.hook v.storage

/-- A portal, its callers, the first words of submitted commands and the number of completions. -/
structure VdqState (ι : Type) where
  swp : QbmanSwp
  phase : ι → PullPhase
  submitted : List U32
  completed : Nat

inductive VdqLabel (ι : Type) where
  | decAndTest (i : ι) (d : QbmanPullDesc)
  | restore (i : ι)
  | submit (i : ι)
  | complete (h : VdqHook)

/-- The caller that takes a step. -/
def VdqLabel.caller {ι : Type} : VdqLabel ι → Option ι
  | .decAndTest i _ => some i
  | .restore i => some i
  | .submit i => some i
  | .complete _ => none

namespace VdqState

variable {ι : Type}

section Steps

variable [DecidableEq ι] (s : VdqState ι)

def afterDecAndTest (i : ι) (d : QbmanPullDesc) : VdqState ι :=
  let dec := pullDecAndTest s.swp
  { s with swp := dec.2, phase := Function.update s.phase i (if dec.1 then .won d else .lost) }

def afterRestore (i : ι) : VdqState ι :=
  { s with swp := pullRestore s.swp, phase := Function.update s.phase i .idle }

def afterSubmit (impl : Impl) (i : ι) (d : QbmanPullDesc) : VdqState ι :=
  let o := pullSubmit impl s.swp d
  { s with
    swp := o.swp
    phase := Function.update s.phase i .idle
    submitted := s.submitted ++ wordsAt impl.vdqcr o.accs }

def afterComplete (h : VdqHook) : VdqState ι :=
  { s with
    swp := { s.swp with vdq := s.swp.vdq.complete h }
    completed := s.completed + 1 }

end Steps

variable [Fintype ι] (s : VdqState ι)

/-- The callers that have to undo their decrement. -/
def losers : Nat := Count.of (fun ph => PullPhase.isLost ph = true) s.phase

/-- The accepted pulls: the submitted ones and those of the callers that are about to submit. -/
def accepted : Nat := Count.of (fun ph => PullPhase.isWon ph = true) s.phase + s.submitted.length

/-- The accepted pulls without their completion. -/
def outstanding : Nat := s.accepted - s.completed

end VdqState

/-- The steps of the callers and the completions of submitted commands, in any order. -/
def vdqSys (impl : Impl) (ι : Type) [DecidableEq ι] : Trans.Sys (VdqState ι) (VdqLabel ι) where
  init s := (∃ g d env a, (qbmanSwpInit g d env).ret = some (a, s.swp)) ∧
    (∀ i, s.phase i = .idle) ∧ s.submitted = [] ∧ s.completed = 0
  step s l t := match l with
    | .decAndTest i d => s.phase i = .idle ∧ d.Built ∧ t = s.afterDecAndTest i d
    | .restore i => s.phase i = .lost ∧ t = s.afterRestore i
    | .submit i => ∃ d, s.phase i = .won d ∧ t = s.afterSubmit impl i d
    | .complete h => s.completed < s.submitted.length ∧ t = s.afterComplete h

namespace VdqState

variable {ι : Type} [Fintype ι] [DecidableEq ι] {s : VdqState ι} {impl : Impl}

structure Inv (s : VdqState ι) : Prop where
  busy : s.swp.vdq.busy + BitVec.ofNat 32 (s.outstanding + s.losers) = 1
  outstanding_le : s.outstanding ≤ 1
  completed_le : s.completed ≤ s.submitted.length
  validBit : s.swp.vdq.validBit = vbit (decide (s.submitted.length % 2 = 0))
  bits : ∀ k (h : k < s.submitted.length), s.submitted[k] &&& qbValidBit = vbit (decide (k % 2 = 0))
  built : ∀ i d, s.phase i = .won d → d.Built

/-! ## The counts after a step -/

theorem losers_update (i : ι) (ph : PullPhase) (swp : QbmanSwp) (ws : List U32) (n : Nat) :
    (VdqState.mk swp (Function.update s.phase i ph) ws n).losers +
        (if (s.phase i).isLost = true then 1 else 0) =
      s.losers + if ph.isLost = true then 1 else 0 :=
  Count.of_update (p := fun ph => PullPhase.isLost ph = true) s.phase i ph

theorem accepted_update (i : ι) (ph : PullPhase) (swp : QbmanSwp) (ws : List U32) (n : Nat) :
    (VdqState.mk swp (Function.update s.phase i ph) ws n).accepted +
        (if (s.phase i).isWon = true then 1 else 0) + s.submitted.length =
      s.accepted + (if ph.isWon = true then 1 else 0) + ws.length := by
  have := Count.of_update (p := fun ph => PullPhase.isWon ph = true) s.phase i ph
  simp only [accepted]
  omega

/-- A decrement makes its caller a loser or an accepted one. -/
theorem afterDecAndTest_counts {i : ι} (d : QbmanPullDesc) (hi : s.phase i = .idle) :
    (s.afterDecAndTest i d).losers = s.losers + (if (pullDecAndTest s.swp).1 then 0 else 1) ∧
      (s.afterDecAndTest i d).accepted =
        s.accepted + if (pullDecAndTest s.swp).1 then 1 else 0 := by
  have hl := losers_update (s := s) i (if (pullDecAndTest s.swp).1 then .won d else .lost)
    (pullDecAndTest s.swp).2 s.submitted s.completed
  have ha := accepted_update (s := s) i (if (pullDecAndTest s.swp).1 then .won d else .lost)
    (pullDecAndTest s.swp).2 s.submitted s.completed
  rw [hi] at hl ha
  simp only [afterDecAndTest]
  cases hw : (pullDecAndTest s.swp).1 with
  | true =>
    simp only [hw, PullPhase.isLost, PullPhase.isWon, Bool.false_eq_true, if_true,
      if_false] at hl ha ⊢
    omega
  | false =>
    simp only [hw, PullPhase.isLost, PullPhase.isWon, Bool.false_eq_true, if_true,
      if_false] at hl ha ⊢
    omega

theorem afterRestore_counts {i : ι} (hi : s.phase i = .lost) :
    (s.afterRestore i).losers + 1 = s.losers ∧ (s.afterRestore i).accepted = s.accepted := by
  have hl := losers_update (s := s) i .idle (pullRestore s.swp) s.submitted s.completed
  have ha := accepted_update (s := s) i .idle (pullRestore s.swp) s.submitted s.completed
  rw [hi] at hl ha
  exact ⟨hl, Nat.add_right_cancel ha⟩

/-- A submission moves its pull from the callers to the submitted ones. -/
theorem afterSubmit_counts (impl : Impl) {i : ι} {d : QbmanPullDesc} (hi : s.phase i = .won d) :
    (s.afterSubmit impl i d).losers = s.losers ∧
      (s.afterSubmit impl i d).accepted = s.accepted := by
  have hl := losers_update (s := s) i .idle (pullSubmit impl s.swp d).swp
    (s.submitted ++ wordsAt impl.vdqcr (pullSubmit impl s.swp d).accs) s.completed
  have ha := accepted_update (s := s) i .idle (pullSubmit impl s.swp d).swp
    (s.submitted ++ wordsAt impl.vdqcr (pullSubmit impl s.swp d).accs) s.completed
  have hlen : (s.submitted ++ wordsAt impl.vdqcr (pullSubmit impl s.swp d).accs).length =
      s.submitted.length + 1 := by
    rw [List.length_append, pullSubmit_wordsAt, List.length_singleton]
  rw [hi] at hl ha
  rw [hlen] at ha
  simp only [PullPhase.isLost, PullPhase.isWon, Bool.false_eq_true, if_true, if_false] at hl ha
  simp only [afterSubmit]
  omega

omit [DecidableEq ι] in
theorem losers_lt {i : ι} (hi : s.phase i = .idle) : s.losers < Fintype.card ι := by
  refine Count.of_lt (i := i) ?_
  rw [hi]
  decide

/-! ## One step -/

namespace Inv

omit [DecidableEq ι] in
theorem completed_le_accepted (h : s.Inv) : s.completed ≤ s.accepted := by
  have := h.completed_le
  rw [accepted]
  omega

omit [DecidableEq ι] in
/-- Below the wrap of the counter, a decrement wins only if nothing is outstanding. -/
theorem won_iff (h : s.Inv) (hcard : Fintype.card ι < 2 ^ 32) {i : ι} (hi : s.phase i = .idle) :
    (pullDecAndTest s.swp).1 = true ↔ s.outstanding + s.losers = 0 := by
  have hlt : s.outstanding + s.losers < 2 ^ 32 := by
    have := losers_lt hi
    have := h.outstanding_le
    omega
  have hbusy := h.busy
  have hone : (pullDecAndTest s.swp).1 = true ↔ s.swp.vdq.busy = 1 := atomicDecAndTest_won
  rw [hone]
  generalize s.outstanding + s.losers = m at hlt hbusy ⊢
  generalize s.swp.vdq.busy = busy at hbusy ⊢
  constructor
  · rintro rfl
    bv_omega
  · rintro rfl
    bv_omega

theorem decAndTest (h : s.Inv) (hcard : Fintype.card ι < 2 ^ 32) {i : ι} {d : QbmanPullDesc}
    (hi : s.phase i = .idle) (hd : d.Built) : (s.afterDecAndTest i d).Inv := by
  obtain ⟨hlosers, haccepted⟩ := afterDecAndTest_counts d hi
  have hwon := h.won_iff hcard hi
  have hbusy := h.busy
  have hone := h.outstanding_le
  have hacc := h.completed_le_accepted
  have hout₀ : s.outstanding = s.accepted - s.completed := rfl
  have hout : (s.afterDecAndTest i d).outstanding =
      (s.afterDecAndTest i d).accepted - s.completed := rfl
  have hdec : (s.afterDecAndTest i d).swp.vdq.busy = s.swp.vdq.busy - 1 := rfl
  have hbuilt : ∀ j d', (s.afterDecAndTest i d).phase j = .won d' → d'.Built := by
    intro j d' hj
    have hj' : Function.update s.phase i (if (pullDecAndTest s.swp).1 then .won d else .lost) j =
        .won d' := hj
    by_cases hji : j = i
    · rw [hji, Function.update_self] at hj'
      split at hj'
      · cases hj'
        exact hd
      · cases hj'
    · rw [Function.update_of_ne hji] at hj'
      exact h.built j d' hj'
  by_cases hw : (pullDecAndTest s.swp).1 = true
  · -- The winner: nothing was outstanding and no loser was in flight.
    have hzero := hwon.mp hw
    rw [if_pos hw] at hlosers haccepted
    refine ⟨?_, by omega, h.completed_le, h.validBit, h.bits, hbuilt⟩
    rw [hdec, hlosers, show (s.afterDecAndTest i d).outstanding = 1 by omega]
    bv_omega
  · rw [if_neg hw] at hlosers haccepted
    refine ⟨?_, by omega, h.completed_le, h.validBit, h.bits, hbuilt⟩
    rw [hdec, hlosers, show (s.afterDecAndTest i d).outstanding = s.outstanding by omega]
    bv_omega

theorem restore (h : s.Inv) {i : ι} (hi : s.phase i = .lost) : (s.afterRestore i).Inv := by
  obtain ⟨hlosers, haccepted⟩ := afterRestore_counts hi
  have hbusy := h.busy
  have hout : (s.afterRestore i).outstanding = s.outstanding := by
    show (s.afterRestore i).accepted - s.completed = s.accepted - s.completed
    rw [haccepted]
  have hinc : (s.afterRestore i).swp.vdq.busy = s.swp.vdq.busy + 1 := rfl
  refine ⟨?_, hout ▸ h.outstanding_le, h.completed_le, h.validBit, h.bits, fun j d hj => ?_⟩
  · rw [hinc, hout]
    rw [← hlosers] at hbusy
    bv_omega
  · have hj' : Function.update s.phase i .idle j = .won d := hj
    by_cases hji : j = i
    · rw [hji, Function.update_self] at hj'
      cases hj'
    · rw [Function.update_of_ne hji] at hj'
      exact h.built j d hj'

theorem submit (h : s.Inv) (impl : Impl) {i : ι} {d : QbmanPullDesc} (hi : s.phase i = .won d) :
    (s.afterSubmit impl i d).Inv := by
  obtain ⟨hlosers, haccepted⟩ := afterSubmit_counts impl hi
  have hout : (s.afterSubmit impl i d).outstanding = s.outstanding := by
    show (s.afterSubmit impl i d).accepted - s.completed = s.accepted - s.completed
    rw [haccepted]
  have hsub : (s.afterSubmit impl i d).submitted =
      s.submitted ++ [(pullSubmit impl s.swp d).ret.cl 0 ||| s.swp.vdq.validBit] := by
    rw [afterSubmit, pullSubmit_wordsAt]
  have hlen : (s.afterSubmit impl i d).submitted.length = s.submitted.length + 1 := by
    rw [hsub, List.length_append, List.length_singleton]
  have hwf : (pullSubmit impl s.swp d).ret.WF := ⟨(h.built i d hi).wf.1, (h.built i d hi).wf.2⟩
  refine ⟨?_, hout ▸ h.outstanding_le, ?_, ?_, fun k hk => ?_, fun j d' hj => ?_⟩
  · rw [hout, hlosers]
    exact h.busy
  · rw [hlen]
    exact Nat.le_succ_of_le h.completed_le
  · show s.swp.vdq.validBit ^^^ qbValidBit = _
    rw [hlen, h.validBit, ← vbit_not]
    congr 1
    rw [← decide_not]
    exact decide_eq_decide.mpr (by omega)
  · simp only [hsub]
    rw [List.getElem_append]
    split
    · rename_i hlt
      exact h.bits k hlt
    · rename_i hge
      obtain rfl : k = s.submitted.length := by omega
      rw [List.getElem_singleton, BitVec.and_comm, BitVec.and_or_distrib_left, BitVec.and_comm,
        hwf.validBit, h.validBit, BitVec.and_comm, vbit_and_validBit]
      exact BitVec.zero_or
  · have hj' : Function.update s.phase i .idle j = .won d' := hj
    by_cases hji : j = i
    · rw [hji, Function.update_self] at hj'
      cases hj'
    · rw [Function.update_of_ne hji] at hj'
      exact h.built j d' hj'

omit [DecidableEq ι] in
theorem complete (h : s.Inv) (hook : VdqHook) (hlt : s.completed < s.submitted.length) :
    (s.afterComplete hook).Inv := by
  have hbusy := h.busy
  have hout : (s.afterComplete hook).outstanding + 1 = s.outstanding := by
    show s.accepted - (s.completed + 1) + 1 = s.accepted - s.completed
    rw [accepted]
    omega
  have hinc : (s.afterComplete hook).swp.vdq.busy = s.swp.vdq.busy + 1 ∧
      (s.afterComplete hook).swp.vdq.validBit = s.swp.vdq.validBit := by
    cases hook with
    | dqrr => exact ⟨rfl, rfl⟩
    | storage =>
      simp only [afterComplete, Vdq.complete, Vdq.hook, if_true]
      exact ⟨rfl, trivial⟩
  have hle := h.outstanding_le
  refine ⟨?_, by omega, hlt, hinc.2 ▸ h.validBit, h.bits, h.built⟩
  rw [hinc.1]
  rw [← hout] at hbusy
  show s.swp.vdq.busy + 1 + BitVec.ofNat 32 (_ + s.losers) = 1
  bv_omega

end Inv

end VdqState

variable {ι : Type} [Fintype ι] [DecidableEq ι]

theorem vdqSys_inductive (impl : Impl) (hcard : Fintype.card ι < 2 ^ 32) :
    (vdqSys impl ι).Inductive VdqState.Inv where
  init s := by
    rintro ⟨⟨g, d, env, a, hp⟩, hidle, hsub, hcomp⟩
    obtain ⟨-, -, -, -, hvdq, -⟩ := qbmanSwpInit_some hp
    have hlosers : s.losers = 0 := Count.of_eq_zero fun i => by rw [hidle]; decide
    have haccepted : s.accepted = 0 := by
      rw [VdqState.accepted, hsub, Count.of_eq_zero fun i => by rw [hidle]; decide]
      rfl
    have hout : s.outstanding = 0 := by rw [VdqState.outstanding, haccepted, Nat.zero_sub]
    refine ⟨?_, by omega, by omega, ?_, fun k hk => ?_, fun i d hi => ?_⟩
    · rw [hvdq, hlosers, hout]
      rfl
    · rw [hvdq, hsub]
      rfl
    · simp [hsub] at hk
    · rw [hidle] at hi
      cases hi
  step s l t h hstep := by
    cases l with
    | decAndTest i d =>
      obtain ⟨hi, hd, rfl⟩ := hstep
      exact h.decAndTest hcard hi hd
    | restore i =>
      obtain ⟨hi, rfl⟩ := hstep
      exact h.restore hi
    | submit i =>
      obtain ⟨d, hi, rfl⟩ := hstep
      exact h.submit impl hi
    | complete hook =>
      obtain ⟨hlt, rfl⟩ := hstep
      exact h.complete hook hlt

omit [Fintype ι] in
/-- The steps of a caller that is rejected leave `storage` and `valid_bit` alone. -/
theorem vdqSys_rejected {impl : Impl} {s t : VdqState ι} {l : VdqLabel ι} {i : ι}
    (hl : l.caller = some i) (hstep : (vdqSys impl ι).step s l t)
    (hlost : s.phase i = .lost ∨ t.phase i = .lost) :
    t.swp.vdq.storage = s.swp.vdq.storage ∧ t.swp.vdq.validBit = s.swp.vdq.validBit := by
  cases l with
  | decAndTest j d =>
    obtain ⟨-, -, rfl⟩ := hstep
    exact ⟨rfl, rfl⟩
  | restore j =>
    obtain ⟨-, rfl⟩ := hstep
    exact ⟨rfl, rfl⟩
  | submit j =>
    -- A caller that submits was accepted.
    obtain ⟨d, hj, rfl⟩ := hstep
    obtain rfl : j = i := Option.some.inj hl
    have hidle : (s.afterSubmit impl j d).phase j = .idle := Function.update_self ..
    rw [hj, hidle] at hlost
    rcases hlost with h | h
    · cases h
    · cases h
  | complete hook => cases hl

/-- Among fewer than `2 ^ 32` callers at most one accepted pull is without its completion, the
submitted commands have alternating valid bits from `0x80` on, rejected callers do not touch
`storage` and `valid_bit`, and `busy` between calls is `1` less the outstanding pulls. -/
theorem vdqSys_exclusive (impl : Impl) (hcard : Fintype.card ι < 2 ^ 32) {s : VdqState ι}
    (h : (vdqSys impl ι).Reach s) :
    s.outstanding ≤ 1 ∧
      (∀ k (hk : k < s.submitted.length),
        s.submitted[k] &&& qbValidBit = vbit (decide (k % 2 = 0))) ∧
      (∀ i l t, l.caller = some i → (vdqSys impl ι).step s l t →
        s.phase i = .lost ∨ t.phase i = .lost →
          t.swp.vdq.storage = s.swp.vdq.storage ∧ t.swp.vdq.validBit = s.swp.vdq.validBit) ∧
      ((∀ i, s.phase i = .idle) → s.swp.vdq.busy.toInt = 1 - s.outstanding) := by
  have hinv := (vdqSys_inductive impl hcard).reach h
  refine ⟨hinv.outstanding_le, hinv.bits, fun i l t hl hstep hlost =>
    vdqSys_rejected hl hstep hlost, fun hidle => ?_⟩
  have hlosers : s.losers = 0 := Count.of_eq_zero fun i => by rw [hidle]; decide
  have hbusy := hinv.busy
  rw [hlosers, Nat.add_zero] at hbusy
  have hle := hinv.outstanding_le
  rcases Nat.le_one_iff_eq_zero_or_eq_one.mp hle with h0 | h1
  · rw [h0] at hbusy ⊢
    have : s.swp.vdq.busy = 1 := by bv_omega
    rw [this]
    rfl
  · rw [h1] at hbusy ⊢
    have : s.swp.vdq.busy = 0 := by bv_omega
    rw [this]
    rfl

/-! ## Runs from a portal that was just initialised -/

/-- A portal with no caller between its steps. -/
def VdqState.fresh {ι : Type} (p : QbmanSwp) : VdqState ι where
  swp := p
  phase := fun _ => .idle
  submitted := []
  completed := 0

omit [Fintype ι] in
/-- One caller wins and submits. -/
theorem vdqSys_first (i : ι) :
    ∃ s : VdqState ι, (vdqSys .direct ι).Reach s ∧ s.submitted.length = 1 ∧ s.completed = 0 ∧
      s.swp.vdq.busy = 0 ∧ ∀ j, s.phase j = .idle := by
  let p := swpRev4100 0 0x1000
  have hinit : (vdqSys .direct ι).init (VdqState.fresh p) :=
    ⟨⟨{}, .rev4100 .vbRing 0, .ok 0x1000 0 0, 0x1000, rfl⟩, fun _ => rfl, rfl, rfl⟩
  have hdec : (vdqSys .direct ι).step (VdqState.fresh p) (.decAndTest i {})
      ((VdqState.fresh p).afterDecAndTest i {}) := ⟨rfl, ⟨[], rfl⟩, rfl⟩
  have hbusy : p.vdq.busy = 1 := by decide
  have hwon : (pullDecAndTest p).1 = true := atomicDecAndTest_won.mpr hbusy
  have hphase : ((VdqState.fresh p).afterDecAndTest i {}).phase i = .won {} := by
    show Function.update _ i (if (pullDecAndTest p).1 then _ else _) i = _
    rw [Function.update_self, if_pos hwon]
  have hsubmit : (vdqSys .direct ι).step ((VdqState.fresh p).afterDecAndTest i {})
      (.submit i) (((VdqState.fresh p).afterDecAndTest i {}).afterSubmit .direct i {}) :=
    ⟨{}, hphase, rfl⟩
  refine ⟨_, ((Trans.Sys.Reach.of_init hinit).step hdec).step hsubmit, rfl, rfl, ?_, fun j => ?_⟩
  · show p.vdq.busy - 1 = 0
    rw [hbusy]
    rfl
  show Function.update (Function.update (fun _ => PullPhase.idle) i _) i .idle j = .idle
  rw [Function.update_idem, Function.update_apply]
  split
  · rfl
  · rfl

/-- Two callers. One has submitted its pull, which completes while the other one, which was
rejected, is between its steps. -/
theorem vdqSys_exclusive_two :
    ∃ s : VdqState (Fin 2), (vdqSys .direct (Fin 2)).Reach s ∧ s.submitted.length = 1 ∧
      s.completed = 1 ∧ s.phase 1 = .lost ∧ s.outstanding ≤ 1 := by
  obtain ⟨s, hreach, hlen, hcomp, hbusy, hidle⟩ := vdqSys_first (0 : Fin 2)
  have hlose : (vdqSys .direct (Fin 2)).step s (.decAndTest 1 {}) (s.afterDecAndTest 1 {}) :=
    ⟨hidle 1, ⟨[], rfl⟩, rfl⟩
  have hdone : (vdqSys .direct (Fin 2)).step (s.afterDecAndTest 1 {}) (.complete .dqrr)
      ((s.afterDecAndTest 1 {}).afterComplete .dqrr) := by
    refine ⟨?_, rfl⟩
    show s.completed < s.submitted.length
    omega
  have hnot : ¬ (pullDecAndTest s.swp).1 = true := by
    refine mt atomicDecAndTest_won.mp ?_
    rw [hbusy]
    decide
  have hlost : (s.afterDecAndTest 1 {}).phase 1 = .lost := by
    rw [VdqState.afterDecAndTest, if_neg hnot]
    exact Function.update_self 1 PullPhase.lost s.phase
  have hend := (hreach.step hlose).step hdone
  exact ⟨_, hend, hlen, congrArg (· + 1) hcomp, hlost,
    (vdqSys_exclusive .direct (by decide) hend).1⟩

/-- While one command is outstanding, `n` callers can be between their steps as losers. -/
theorem vdqSys_losers {N : Nat} :
    ∀ n, n ≤ N → ∃ s : VdqState (Fin (N + 1)), (vdqSys .direct (Fin (N + 1))).Reach s ∧
      s.submitted.length = 1 ∧ s.completed = 0 ∧ s.swp.vdq.busy = - BitVec.ofNat 32 n ∧
      ∀ i : Fin (N + 1), (i.val = 0 ∨ n < i.val) → s.phase i = .idle := by
  intro n
  induction n with
  | zero =>
    intro _
    obtain ⟨s, hreach, hlen, hcomp, hbusy, hidle⟩ := vdqSys_first (0 : Fin (N + 1))
    exact ⟨s, hreach, hlen, hcomp, hbusy, fun i _ => hidle i⟩
  | succ n ih =>
    intro hn
    obtain ⟨s, hreach, hlen, hcomp, hbusy, hidle⟩ := ih (by omega)
    let i : Fin (N + 1) := ⟨n + 1, by omega⟩
    have hstep : (vdqSys .direct (Fin (N + 1))).step s (.decAndTest i {})
        (s.afterDecAndTest i {}) := ⟨hidle i (.inr (Nat.lt_succ_self n)), ⟨[], rfl⟩, rfl⟩
    refine ⟨_, hreach.step hstep, hlen, hcomp, ?_, fun j hj => ?_⟩
    · show s.swp.vdq.busy - 1 = _
      rw [hbusy]
      bv_omega
    · have hji : j ≠ i := by
        rintro rfl
        simp only [i] at hj
        omega
      exact (Function.update_of_ne hji _ _).trans (hidle j (by omega))

/-- With `2 ^ 32` callers the decrements of the losers bring the counter back to `1`, and a second
pull is accepted while the first one is outstanding. -/
theorem vdqSys_not_exclusive :
    ∃ s : VdqState (Fin (2 ^ 32)), (vdqSys .direct (Fin (2 ^ 32))).Reach s ∧
      ¬ s.outstanding ≤ 1 := by
  obtain ⟨s, hreach, hlen, hcomp, hbusy, hidle⟩ :
      ∃ s : VdqState (Fin (2 ^ 32)), (vdqSys .direct (Fin (2 ^ 32))).Reach s ∧
        s.submitted.length = 1 ∧ s.completed = 0 ∧
        s.swp.vdq.busy = - BitVec.ofNat 32 (2 ^ 32 - 1) ∧
        ∀ i : Fin (2 ^ 32), (i.val = 0 ∨ 2 ^ 32 - 1 < i.val) → s.phase i = .idle :=
    vdqSys_losers _ (Nat.le_refl _)
  let i : Fin (2 ^ 32) := ⟨0, by decide⟩
  have hwon : (pullDecAndTest s.swp).1 = true := by
    refine atomicDecAndTest_won.mpr ?_
    rw [hbusy]
    decide
  have hstep : (vdqSys .direct (Fin (2 ^ 32))).step s (.decAndTest i {})
      (s.afterDecAndTest i {}) := ⟨hidle i (.inl rfl), ⟨[], rfl⟩, rfl⟩
  refine ⟨_, hreach.step hstep, ?_⟩
  have haccepted := (VdqState.afterDecAndTest_counts {} (hidle i (.inl rfl))).2
  have hlt : s.submitted.length ≤ s.accepted := Nat.le_add_left _ _
  rw [if_pos hwon] at haccepted
  have hout : (s.afterDecAndTest i {}).outstanding =
      (s.afterDecAndTest i {}).accepted - s.completed := rfl
  omega

end Qbman
