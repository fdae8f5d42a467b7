import Qbman.Lib.System
import Qbman.Mc

/-!
# Management commands and their responses

`mcSys` interleaves calls that submit a command and poll for its response with the hardware, which
answers an accepted command at any time. With `loopvar = none` a call polls until it gets a
response; with `some n` it gives up after `n + 1` polls, as `qbman_swp_mc_complete` does. The
hardware accepts a command when its valid bit differs from that of the command before, so the
portal's valid bit and the hardware's tell whether a response is owed (`McState.Link`). Whether or
not calls give up, a call returns the response to the last command that was taken, and one that
follows a call that gave up is not taken (`McState.History`).

`mcSys_paired`: a call that polls until it gets a response gets that of its own command.
-/

namespace Qbman

/-- Between calls, or polling with the loop counter at `loopvar`. -/
inductive McPhase where
  | idle
  | polling (loopvar : Option Nat)

/-- A portal, its memory and the hardware's side. `submitted` are the command lines; a command is
known by its place there. `results` is what the finished calls returned, `none` for `NULL`. -/
structure McState where
  swp : QbmanSwp
  cena : Region
  phase : McPhase
  submitted : List Line
  /-- The valid bit of the last accepted command. -/
  last : Bool
  accepted : Nat → Bool
  /-- The response that the hardware produced for a command. -/
  answer : Nat → Option Line
  results : List (Option Line)

inductive McLabel where
  | submit (cmd : Line) (cmdVerb : U8)
  | respond (k : Nat) (l : Line)
  | poll

/-- The valid bit of a command or response line. -/
def Line.validBit (l : Line) : Bool := (l 0).getLsbD 7

namespace McState

variable (impl : Impl) (s : McState)

/-- After a submission: the hardware takes the line at the command register. A direct portal's
response register for its valid bit is cleared. -/
def afterSubmit (loopvar : Option Nat) (cmd : Line) (cmdVerb : U8) : McState :=
  let m := s.cena.run (qbmanSwpMcSubmit s.swp cmd cmdVerb)
  let v := (m.line impl.cr).validBit
  { s with
    cena := match impl with
      | .direct => m.run (memcpyWords (impl.rr v) fun _ : Fin 16 => 0)
      | .memBack => m
    phase := .polling loopvar
    submitted := s.submitted ++ [m.line impl.cr]
    last := v
    accepted := Function.update s.accepted s.submitted.length (v != s.last) }

/-- After the hardware wrote the response to command `k`, whose valid bit is `v`. -/
def afterRespond (k : Nat) (v : Bool) (l : Line) : McState :=
  { s with
    cena := s.cena.run (memcpyWords (impl.rr v) l)
    answer := Function.update s.answer k (some l) }

/-- After a poll: `while (!cmd && loopvar--)`. -/
def afterPoll (loopvar : Option Nat) : McState :=
  let o := qbmanSwpMcResult s.swp s.cena
  match o.ret, loopvar with
  | some l, _ => { s with swp := o.swp, phase := .idle, results := s.results ++ [some l] }
  | none, none => { s with swp := o.swp }
  | none, some 0 => { s with swp := o.swp, phase := .idle, results := s.results ++ [none] }
  | none, some (n + 1) => { s with swp := o.swp, phase := .polling (some n) }

end McState

/-- Calls and the hardware. The caller's verb has no valid bit; a response has a verb, and in
memory-backed mode the valid bit of its command. -/
def mcSys (impl : Impl) (loopvar : Option Nat) : Trans.Sys McState McLabel where
  init s := (∃ g d env a, (qbmanSwpInit g d env).ret = some (a, s.swp) ∧ d.impl = impl) ∧
    (∀ b, s.cena.line (impl.rr b) = fun _ => 0) ∧ s.phase = .idle ∧ s.submitted = [] ∧
    s.last = false ∧ (∀ k, s.accepted k = false) ∧ (∀ k, s.answer k = none) ∧ s.results = []
  step s l t := match l with
    | .submit cmd cmdVerb => s.phase = .idle ∧ cmdVerb.getLsbD 7 = false ∧
        t = s.afterSubmit impl loopvar cmd cmdVerb
    | .respond k l => ∃ c, s.submitted[k]? = some c ∧ s.accepted k = true ∧ s.answer k = none ∧
        mcVerb l ≠ 0 ∧ (impl = .memBack → l.validBit = c.validBit) ∧
        t = s.afterRespond impl k c.validBit l
    | .poll => ∃ n, s.phase = .polling n ∧ t = s.afterPoll n

namespace McState

variable {impl : Impl} {s : McState} {b : Bool} {loopvar : Option Nat}

theorem afterPoll_some {l : Line} {n : Option Nat}
    (hret : (qbmanSwpMcResult s.swp s.cena).ret = some l) :
    s.afterPoll n = { s with
      swp := (qbmanSwpMcResult s.swp s.cena).swp
      phase := .idle
      results := s.results ++ [some l] } := by
  simp only [afterPoll, hret]

theorem afterPoll_none {n : Option Nat} (hret : (qbmanSwpMcResult s.swp s.cena).ret = none) :
    s.afterPoll n =
      let s' := { s with swp := (qbmanSwpMcResult s.swp s.cena).swp }
      match n with
      | none => s'
      | some 0 => { s' with phase := .idle, results := s.results ++ [none] }
      | some (n + 1) => { s' with phase := .polling (some n) } := by
  simp only [afterPoll, hret]
  rcases n with _ | _ | n
  · rfl
  · rfl
  · rfl

/-! ## What the valid bits tell -/

/-- What the finished calls returned, and which commands the hardware took. -/
structure History (s : McState) : Prop where
  results : s.phase = .idle → s.results.length = s.submitted.length
  pending : s.phase ≠ .idle → s.results.length + 1 = s.submitted.length
  accepted_lt : ∀ j, s.accepted j = true → j < s.submitted.length
  accepted_of_answer : ∀ j, s.answer j ≠ none → s.accepted j = true
  /-- The hardware takes a command as new unless the call before gave up. -/
  taken : ∀ k < s.submitted.length,
    s.accepted k = true ↔ ∀ i, i + 1 = k → s.results[i]? ≠ some none
  /-- A call returns the response to the last command that was taken. -/
  collected : ∀ (j : Nat) l, s.results[j]? = some (some l) → ∃ k ≤ j, s.accepted k = true ∧
    s.answer k = some l ∧ ∀ i, k ≤ i → i < j → s.results[i]? = some none

/-- The portal's next valid bit is not the one of the last accepted command: no response is owed. -/
structure Synced (impl : Impl) (b : Bool) (s : McState) : Prop where
  last : s.last = !b
  idle : s.phase = .idle
  answered : ∀ j, s.accepted j = true → s.answer j ≠ none
  stale : impl = .memBack → impl.mcReady b (s.cena (impl.rr b)) = false
  returned : ∀ i, i + 1 = s.submitted.length → s.results[i]? ≠ some none

/-- Command `k` is the last accepted one, and its response has not been collected. -/
structure Awaiting (impl : Impl) (b : Bool) (k : Nat) (s : McState) : Prop where
  last : s.last = b
  accepted : s.accepted k = true
  bit : ∃ c, s.submitted[k]? = some c ∧ c.validBit = b
  answered : ∀ j, s.accepted j = true → j ≠ k → s.answer j ≠ none
  /-- The calls from that of `k` on gave up. -/
  gaveUp : ∀ i, k ≤ i → i < s.results.length → s.results[i]? = some none
  /-- A poll sees no other response. -/
  shown : impl.mcReady b (s.cena (impl.rr b)) = true →
    s.answer k = some (s.cena.line (impl.rr b))
  /-- Until the next submission it sees this one as soon as it is there. -/
  visible : ∀ l, k + 1 = s.submitted.length → s.answer k = some l →
    s.cena.line (impl.rr b) = l ∧ impl.mcReady b (s.cena (impl.rr b)) = true

/-- The portal's valid bit is `b`. -/
structure Link (impl : Impl) (b : Bool) (s : McState) : Prop where
  mode : s.swp.desc.impl = impl
  bit : s.swp.mcValidBit impl = vbit b
  history : s.History
  state : s.Synced impl b ∨ ∃ k, s.Awaiting impl b k

theorem Awaiting.empty {k : Nat} (h : s.Awaiting impl b k) (hans : s.answer k = none) :
    impl.mcReady b (s.cena (impl.rr b)) = false := by
  rw [Bool.eq_false_iff]
  intro hready
  have hsome := h.shown hready
  rw [hans] at hsome
  cases hsome

namespace History

theorem answer_lt (h : s.History) {j : Nat} (hj : s.answer j ≠ none) : j < s.submitted.length :=
  h.accepted_lt j (h.accepted_of_answer j hj)

theorem results_le (h : s.History) : s.results.length ≤ s.submitted.length := by
  by_cases hidle : s.phase = .idle
  · exact Nat.le_of_eq (h.results hidle)
  · exact Nat.le_of_succ_le (Nat.le_of_eq (h.pending hidle))

/-- The history does not depend on the portal and its memory. -/
theorem frame (h : s.History) (p : QbmanSwp) (m : Region) :
    History { s with swp := p, cena := m } :=
  ⟨h.results, h.pending, h.accepted_lt, h.accepted_of_answer, h.taken, h.collected⟩

/-- A command is submitted, which the hardware takes as new unless the last call gave up. -/
theorem submit (h : s.History) (hidle : s.phase = .idle) {cmd : Line} {cmdVerb : U8}
    (hnew : (s.afterSubmit impl loopvar cmd cmdVerb).accepted s.submitted.length = true ↔
      ∀ i, i + 1 = s.submitted.length → s.results[i]? ≠ some none) :
    (s.afterSubmit impl loopvar cmd cmdVerb).History := by
  have hlen : (s.afterSubmit impl loopvar cmd cmdVerb).submitted.length =
      s.submitted.length + 1 := List.length_append
  have hold : ∀ k, k ≠ s.submitted.length →
      (s.afterSubmit impl loopvar cmd cmdVerb).accepted k = s.accepted k :=
    fun k hk => Function.update_of_ne hk _ _
  have hres := h.results hidle
  have hphase : (s.afterSubmit impl loopvar cmd cmdVerb).phase ≠ .idle :=
    fun hi => McPhase.noConfusion hi
  refine ⟨fun hi => absurd hi hphase, fun _ => ?_, fun j hj => ?_, fun j hj => ?_,
    fun k hk => ?_, fun j l hj => ?_⟩
  · rw [hlen]
    exact congrArg (· + 1) hres
  · rw [hlen]
    by_cases hjn : j = s.submitted.length
    · omega
    · rw [hold j hjn] at hj
      exact Nat.lt_succ_of_lt (h.accepted_lt j hj)
  · rw [hold j (Nat.ne_of_lt (h.answer_lt hj))]
    exact h.accepted_of_answer j hj
  · by_cases hkn : k = s.submitted.length
    · rw [hkn]
      exact hnew
    · rw [hold k hkn]
      exact h.taken k (by omega)
  · obtain ⟨k, hk, hacc, hans, hnone⟩ := h.collected j l hj
    refine ⟨k, hk, ?_, hans, hnone⟩
    rw [hold k (Nat.ne_of_lt (h.accepted_lt k hacc))]
    exact hacc

theorem respond (h : s.History) {k : Nat} (hacc : s.accepted k = true) (hans : s.answer k = none)
    (v : Bool) (l : Line) : (s.afterRespond impl k v l).History := by
  have hold : ∀ j, j ≠ k → (s.afterRespond impl k v l).answer j = s.answer j :=
    fun j hj => Function.update_of_ne hj _ _
  refine ⟨h.results, h.pending, h.accepted_lt, fun j hj => ?_, h.taken, fun j l' hj => ?_⟩
  · by_cases hjk : j = k
    · rw [hjk]
      exact hacc
    · rw [hold j hjk] at hj
      exact h.accepted_of_answer j hj
  · obtain ⟨k', hk', hacc', hans', hnone⟩ := h.collected j l' hj
    refine ⟨k', hk', hacc', ?_, hnone⟩
    rw [hold k' ?_]
    · exact hans'
    · rintro rfl
      rw [hans] at hans'
      cases hans'

/-- The polling call returns `r`. -/
theorem concat (h : s.History) (hphase : s.phase ≠ .idle) (p : QbmanSwp) {r : Option Line}
    (hr : ∀ l, r = some l → ∃ k ≤ s.results.length, s.accepted k = true ∧ s.answer k = some l ∧
      ∀ i, k ≤ i → i < s.results.length → s.results[i]? = some none) :
    History { s with swp := p, phase := .idle, results := s.results ++ [r] } := by
  have hpending := h.pending hphase
  have hold : ∀ i < s.results.length, (s.results ++ [r])[i]? = s.results[i]? :=
    fun i hi => List.getElem?_append_left hi
  refine ⟨fun _ => ?_, fun hi => absurd rfl hi, h.accepted_lt, h.accepted_of_answer,
    fun k hk => (h.taken k hk).trans ?_, fun j l hj => ?_⟩
  · rw [List.length_append, List.length_singleton]
    exact hpending
  · have hk' : k < s.submitted.length := hk
    refine forall₂_congr fun i hi => ?_
    rw [hold i (by omega)]
  · have hj' : (s.results ++ [r])[j]? = some (some l) := hj
    by_cases hlt : j < s.results.length
    · rw [hold j hlt] at hj'
      obtain ⟨k, hk, hacc, hans, hnone⟩ := h.collected j l hj'
      exact ⟨k, hk, hacc, hans, fun i hki hij =>
        (hold i (Nat.lt_trans hij hlt)).trans (hnone i hki hij)⟩
    · have hle := (List.getElem?_eq_some_iff.mp hj').1
      rw [List.length_append, List.length_singleton] at hle
      obtain rfl : j = s.results.length := by omega
      rw [List.getElem?_concat_length] at hj'
      obtain ⟨k, hk, hacc, hans, hnone⟩ := hr l (Option.some.inj hj')
      exact ⟨k, hk, hacc, hans, fun i hki hij => (hold i hij).trans (hnone i hki hij)⟩

/-- A call gets the response to its own command unless the call before gave up. -/
theorem own_iff (h : s.History) {j : Nat} {l : Line} (hj : s.results[j]? = some (some l)) :
    s.answer j = some l ↔ ∀ i, i + 1 = j → s.results[i]? ≠ some none := by
  have hlt : j < s.submitted.length :=
    Nat.lt_of_lt_of_le (List.getElem?_eq_some_iff.mp hj).1 h.results_le
  constructor
  · intro hans
    exact (h.taken j hlt).mp (h.accepted_of_answer j (by rw [hans]; exact Option.some_ne_none l))
  · intro hprev
    obtain ⟨k, hk, -, hans, hnone⟩ := h.collected j l hj
    obtain rfl : k = j := by
      by_contra hne
      exact hprev (j - 1) (by omega) (hnone (j - 1) (by omega) (by omega))
    exact hans

end History

/-! ## One step -/

namespace Link

theorem ready_iff (h : s.Link impl b) :
    (qbmanSwpMcResult s.swp s.cena).ret =
        (if impl.mcReady b (s.cena (impl.rr b)) then some (s.cena.line (impl.rr b)) else none) ∧
      (qbmanSwpMcResult s.swp s.cena).swp =
        if impl.mcReady b (s.cena (impl.rr b)) then s.swp.mcFlip impl else s.swp :=
  qbmanSwpMcResult_eq h.mode h.bit s.cena

theorem poll_none (h : s.Link impl b) (hret : (qbmanSwpMcResult s.swp s.cena).ret = none) :
    (qbmanSwpMcResult s.swp s.cena).swp = s.swp := by
  obtain ⟨hr, hs⟩ := h.ready_iff
  by_cases hready : impl.mcReady b (s.cena (impl.rr b)) = true
  · rw [hr, if_pos hready] at hret
    cases hret
  · rw [hs, if_neg hready]

/-- A poll that returns a response returns that of the last accepted command. -/
theorem poll_some (h : s.Link impl b) (hphase : s.phase ≠ .idle) {l : Line}
    (hret : (qbmanSwpMcResult s.swp s.cena).ret = some l) :
    (qbmanSwpMcResult s.swp s.cena).swp = s.swp.mcFlip impl ∧
      impl.mcReady b (s.cena (impl.rr b)) = true ∧
      ∃ k, s.Awaiting impl b k ∧ s.answer k = some l := by
  obtain ⟨hr, hs⟩ := h.ready_iff
  by_cases hready : impl.mcReady b (s.cena (impl.rr b)) = true
  · rw [hr, if_pos hready] at hret
    obtain rfl := Option.some.inj hret
    refine ⟨by rw [hs, if_pos hready], hready, ?_⟩
    rcases h.state with hsync | ⟨k, hk⟩
    · exact absurd hsync.idle hphase
    · exact ⟨k, hk, hk.shown hready⟩
  · rw [hr, if_neg hready] at hret
    cases hret

/-- The hardware sees the command with the portal's valid bit, and no response changes. -/
theorem submit_lines (h : s.Link impl b) (cmd : Line) {cmdVerb : U8}
    (hv : cmdVerb.getLsbD 7 = false) :
    ((s.cena.run (qbmanSwpMcSubmit s.swp cmd cmdVerb)).line impl.cr).validBit = b ∧
      ∀ b', (s.cena.run (qbmanSwpMcSubmit s.swp cmd cmdVerb)).line (impl.rr b') =
        s.cena.line (impl.rr b') := by
  obtain ⟨rest, hrest, haccs⟩ := qbmanSwpMcSubmit_eq h.mode h.bit cmd cmdVerb
  rw [haccs, Region.run_append, hrest, run_qbmanCenaWriteComplete]
  refine ⟨?_, fun b' => line_memcpyWords_of_disjoint _ _ (.inr (impl.rr_cr b'))⟩
  rw [line_memcpyWords]
  exact mcSetVerb_bit cmd hv b

/-- The hardware compares the command's valid bit with that of the command before. -/
theorem submit_accepted (h : s.Link impl b) (cmd : Line) {cmdVerb : U8}
    (hv : cmdVerb.getLsbD 7 = false) : (s.afterSubmit impl loopvar cmd cmdVerb).accepted =
      Function.update s.accepted s.submitted.length (b != s.last) := by
  rw [← (h.submit_lines cmd hv).1]
  rfl

/-- A submission leaves no response to be seen: the response register is clear in direct mode and
untouched in memory-backed mode. -/
theorem submit_clear (h : s.Link impl b) (loopvar : Option Nat) (cmd : Line) {cmdVerb : U8}
    (hv : cmdVerb.getLsbD 7 = false)
    (hstale : impl = .memBack → impl.mcReady b (s.cena (impl.rr b)) = false) :
    impl.mcReady b ((s.afterSubmit impl loopvar cmd cmdVerb).cena (impl.rr b)) = false := by
  obtain ⟨hbit, hlines⟩ := h.submit_lines cmd hv
  cases impl with
  | direct =>
    have hcena : (s.afterSubmit .direct loopvar cmd cmdVerb).cena.line (Impl.direct.rr b) =
        fun _ => 0 := by
      show Region.line (Region.run _ (memcpyWords (Impl.direct.rr _) _)) _ = _
      rw [hbit]
      exact line_memcpyWords _ _ _
    have hword := congrFun hcena 0
    rw [Bool.eq_false_iff, Ne, Impl.mcReady_direct, not_not]
    rw [show (s.afterSubmit .direct loopvar cmd cmdVerb).cena (Impl.direct.rr b) = 0 from hword]
    rfl
  | memBack =>
    have hword := congrFun (hlines b) 0
    rw [show (s.afterSubmit .memBack loopvar cmd cmdVerb).cena (Impl.memBack.rr b) =
      s.cena (Impl.memBack.rr b) from hword]
    exact hstale rfl

/-- The hardware takes a command submitted while nothing is owed. -/
theorem submit_synced (h : s.Link impl b) (hsync : s.Synced impl b) (cmd : Line) {cmdVerb : U8}
    (hv : cmdVerb.getLsbD 7 = false) :
    (s.afterSubmit impl loopvar cmd cmdVerb).Awaiting impl b s.submitted.length := by
  have hbit := (h.submit_lines cmd hv).1
  have hacc : (s.afterSubmit impl loopvar cmd cmdVerb).accepted = _ := h.submit_accepted cmd hv
  have hclear := h.submit_clear loopvar cmd hv hsync.stale
  have hres := h.history.results hsync.idle
  have hne : (b != s.last) = true := by
    rw [hsync.last]
    cases b <;> rfl
  rw [hne] at hacc
  refine ⟨hbit, ?_, ⟨_, List.getElem?_concat_length .., hbit⟩, fun j hj hjn => ?_,
    fun i hi hlt => ?_, fun hready => ?_, fun l _ hl => ?_⟩
  · rw [hacc, Function.update_self]
  · rw [hacc, Function.update_of_ne hjn] at hj
    exact hsync.answered j hj
  · have hlt' : i < s.results.length := hlt
    omega
  · rw [hclear] at hready
    cases hready
  · have := h.history.answer_lt (j := s.submitted.length)
      (by rw [show s.answer s.submitted.length = some l from hl]; exact Option.some_ne_none l)
    omega

/-- The hardware does not take a command after a call that gave up. -/
theorem submit_awaiting (h : s.Link impl b) {k : Nat} (hk : s.Awaiting impl b k) (cmd : Line)
    {cmdVerb : U8} (hv : cmdVerb.getLsbD 7 = false) :
    (s.afterSubmit impl loopvar cmd cmdVerb).Awaiting impl b k := by
  have hacc : (s.afterSubmit impl loopvar cmd cmdVerb).accepted = _ := h.submit_accepted cmd hv
  have hlen : (s.afterSubmit impl loopvar cmd cmdVerb).submitted.length =
      s.submitted.length + 1 := List.length_append
  have hne : (b != s.last) = false := by
    rw [hk.last]
    cases b <;> rfl
  have hlt := h.history.accepted_lt k hk.accepted
  rw [hne] at hacc
  obtain ⟨c, hc, hcb⟩ := hk.bit
  refine ⟨(h.submit_lines cmd hv).1, ?_, ⟨c, ?_, hcb⟩, fun j hj hjk => ?_, hk.gaveUp,
    fun hready => ?_, fun l hlast _ => ?_⟩
  · rw [hacc, Function.update_of_ne (by omega)]
    exact hk.accepted
  · exact (List.getElem?_append_left hlt).trans hc
  · rw [hacc] at hj
    by_cases hjn : j = s.submitted.length
    · rw [hjn, Function.update_self] at hj
      cases hj
    · rw [Function.update_of_ne hjn] at hj
      exact hk.answered j hj hjk
  · cases impl with
    | direct =>
      -- The submission cleared the register.
      rw [h.submit_clear loopvar cmd hv fun hm => Impl.noConfusion hm] at hready
      cases hready
    | memBack =>
      have hline : (s.afterSubmit .memBack loopvar cmd cmdVerb).cena.line (Impl.memBack.rr b) = _ :=
        (h.submit_lines cmd hv).2 b
      have hword := congrFun hline 0
      rw [hline]
      exact hk.shown ((congrArg (Impl.memBack.mcReady b) hword).symm.trans hready)
  · omega

/-- The hardware takes a command as new unless the call before gave up. -/
theorem submit_taken (h : s.Link impl b) (loopvar : Option Nat) (hidle : s.phase = .idle)
    (cmd : Line) {cmdVerb : U8} (hv : cmdVerb.getLsbD 7 = false) :
    (s.afterSubmit impl loopvar cmd cmdVerb).accepted s.submitted.length = true ↔
      ∀ i, i + 1 = s.submitted.length → s.results[i]? ≠ some none := by
  rw [h.submit_accepted cmd hv, Function.update_self]
  rcases h.state with hsync | ⟨k, hk⟩
  · refine iff_of_true ?_ hsync.returned
    rw [hsync.last]
    cases b <;> rfl
  · have hlt := h.history.accepted_lt k hk.accepted
    have hres := h.history.results hidle
    refine iff_of_false ?_ fun hprev => ?_
    · rw [hk.last]
      cases b <;> exact Bool.false_ne_true
    · exact hprev (s.submitted.length - 1) (by omega) (hk.gaveUp _ (by omega) (by omega))

theorem submit (h : s.Link impl b) {cmd : Line} {cmdVerb : U8} (hidle : s.phase = .idle)
    (hv : cmdVerb.getLsbD 7 = false) : (s.afterSubmit impl loopvar cmd cmdVerb).Link impl b := by
  refine ⟨h.mode, h.bit, h.history.submit hidle (h.submit_taken loopvar hidle cmd hv), .inr ?_⟩
  rcases h.state with hsync | ⟨k, hk⟩
  · exact ⟨_, h.submit_synced hsync cmd hv⟩
  · exact ⟨k, h.submit_awaiting hk cmd hv⟩

/-- The response to an accepted command appears where the portal polls for it. -/
theorem respond_shows (h : s.Link impl b) {k : Nat} {c l : Line} (hc : s.submitted[k]? = some c)
    (hacc : s.accepted k = true) (hans : s.answer k = none) (hverb : mcVerb l ≠ 0)
    (hbit : impl = .memBack → l.validBit = c.validBit) :
    (s.afterRespond impl k c.validBit l).cena.line (impl.rr b) = l ∧
      impl.mcReady b ((s.afterRespond impl k c.validBit l).cena (impl.rr b)) = true ∧
      s.Awaiting impl b k := by
  rcases h.state with hsync | ⟨k', hk⟩
  · exact absurd hans (hsync.answered k hacc)
  · -- The only accepted command without a response is the last one.
    obtain rfl : k = k' := by
      by_contra hne
      exact hk.answered k hacc hne hans
    obtain ⟨c', hc', hb⟩ := hk.bit
    obtain rfl : c = c' := Option.some.inj (hc.symm.trans hc')
    have hline : (s.afterRespond impl k c.validBit l).cena.line (impl.rr b) = l := by
      show Region.line (Region.run _ (memcpyWords (impl.rr c.validBit) l)) _ = _
      rw [hb]
      exact line_memcpyWords _ _ _
    refine ⟨hline, ?_, hk⟩
    rw [show (s.afterRespond impl k c.validBit l).cena (impl.rr b) = l 0 from congrFun hline 0]
    cases impl with
    | direct => exact Impl.mcReady_direct.mpr (and_validBit_ne_zero hverb)
    | memBack =>
      exact Impl.mcReady_memBack.mpr ⟨(hbit rfl).trans hb, and_validBit_ne_zero hverb⟩

theorem respond (h : s.Link impl b) {k : Nat} {c l : Line} (hc : s.submitted[k]? = some c)
    (hacc : s.accepted k = true) (hans : s.answer k = none) (hverb : mcVerb l ≠ 0)
    (hbit : impl = .memBack → l.validBit = c.validBit) :
    (s.afterRespond impl k c.validBit l).Link impl b := by
  obtain ⟨hline, hready, hk⟩ := h.respond_shows hc hacc hans hverb hbit
  have hanswer : (s.afterRespond impl k c.validBit l).answer =
      Function.update s.answer k (some l) := rfl
  have hself : (s.afterRespond impl k c.validBit l).answer k = some l := by
    rw [hanswer, Function.update_self]
  refine ⟨h.mode, h.bit, h.history.respond hacc hans c.validBit l, .inr ⟨k, hk.last, hk.accepted,
    hk.bit, fun j hj hjk => ?_, hk.gaveUp, fun _ => ?_, fun l' _ hl' => ?_⟩⟩
  · rw [hanswer, Function.update_of_ne hjk]
    exact hk.answered j hj hjk
  · rw [hself, hline]
  · rw [hself] at hl'
    exact ⟨hline.trans (Option.some.inj hl'), hready⟩

/-- A call that collected a response: nothing is owed. -/
theorem collect (h : s.Link impl b) (hphase : s.phase ≠ .idle) {k : Nat} {l : Line}
    (hk : s.Awaiting impl b k) (hans : s.answer k = some l)
    (hready : impl.mcReady b (s.cena (impl.rr b)) = true) :
    McState.Link impl (!b) { s with
      swp := s.swp.mcFlip impl, phase := .idle, results := s.results ++ [some l] } := by
  have hpending := h.history.pending hphase
  have hlt := h.history.accepted_lt k hk.accepted
  have hhistory := h.history.concat hphase (s.swp.mcFlip impl) (r := some l) fun l' hl' =>
    ⟨k, by omega, hk.accepted, hans.trans hl', hk.gaveUp⟩
  refine ⟨(congrArg QbmanSwpDesc.impl QbmanSwp.mcFlip_desc).trans h.mode, ?_, hhistory,
    .inl ⟨?_, rfl, fun j hj => ?_, ?_, fun i hi => ?_⟩⟩
  · rw [vbit_not, ← h.bit]
    exact QbmanSwp.mcFlip_validBit
  · rw [Bool.not_not]
    exact hk.last
  · by_cases hjk : j = k
    · rw [hjk]
      exact Option.isSome_iff_ne_none.mp (by rw [hans]; rfl)
    · exact hk.answered j hj hjk
  · -- The collected response has the old polarity.
    rintro rfl
    rw [Bool.eq_false_iff, Ne, Impl.mcReady_memBack]
    rw [Impl.mcReady_memBack] at hready
    intro h'
    have := h'.1.symm.trans hready.1
    cases b <;> cases this
  · have hi' : i + 1 = s.submitted.length := hi
    obtain rfl : i = s.results.length := by omega
    rw [show (s.results ++ [some l])[s.results.length]? = some (some l) from
      List.getElem?_concat_length ..]
    exact fun hnone => Option.some_ne_none l (Option.some.inj hnone)

/-- A call that gives up. -/
theorem giveUp (h : s.Link impl b) (hphase : s.phase ≠ .idle) :
    McState.Link impl b { s with phase := .idle, results := s.results ++ [none] } := by
  have hhistory := h.history.concat hphase s.swp (r := none) fun l hl => by cases hl
  refine ⟨h.mode, h.bit, hhistory, ?_⟩
  rcases h.state with hsync | ⟨k, hk⟩
  · exact absurd hsync.idle hphase
  · refine .inr ⟨k, hk.last, hk.accepted, hk.bit, hk.answered, fun i hki hlt => ?_, hk.shown,
      hk.visible⟩
    have hlt' : i < (s.results ++ [none]).length := hlt
    rw [List.length_append, List.length_singleton] at hlt'
    by_cases hold : i < s.results.length
    · exact (List.getElem?_append_left hold).trans (hk.gaveUp i hki hold)
    · obtain rfl : i = s.results.length := by omega
      exact List.getElem?_concat_length ..

/-- A poll that sees nothing and goes on. -/
theorem again (h : s.Link impl b) (hphase : s.phase ≠ .idle) (n : Option Nat) :
    McState.Link impl b { s with phase := .polling n } := by
  have hhistory := h.history
  refine ⟨h.mode, h.bit, ⟨fun hi => McPhase.noConfusion hi, fun _ => hhistory.pending hphase,
    hhistory.accepted_lt, hhistory.accepted_of_answer, hhistory.taken, hhistory.collected⟩, ?_⟩
  rcases h.state with hsync | ⟨k, hk⟩
  · exact absurd hsync.idle hphase
  · exact .inr ⟨k, hk.last, hk.accepted, hk.bit, hk.answered, hk.gaveUp, hk.shown, hk.visible⟩

theorem poll (h : s.Link impl b) {n : Option Nat} (hphase : s.phase = .polling n) :
    ∃ b', (s.afterPoll n).Link impl b' := by
  have hne : s.phase ≠ .idle := by
    rw [hphase]
    exact fun hi => McPhase.noConfusion hi
  cases hret : (qbmanSwpMcResult s.swp s.cena).ret with
  | some l =>
    obtain ⟨hswp, hready, k, hk, hans⟩ := h.poll_some hne hret
    rw [afterPoll_some hret, hswp]
    exact ⟨!b, h.collect hne hk hans hready⟩
  | none =>
    refine ⟨b, ?_⟩
    rw [afterPoll_none hret, h.poll_none hret]
    cases n with
    | none => exact h
    | some n =>
      cases n with
      | zero => exact h.giveUp hne
      | succ n => exact h.again hne (some n)

theorem step (h : s.Link impl b) {t : McState} {l : McLabel}
    (hstep : (mcSys impl loopvar).step s l t) : ∃ b', t.Link impl b' := by
  cases l with
  | submit cmd cmdVerb =>
    obtain ⟨hidle, hv, rfl⟩ := hstep
    exact ⟨b, h.submit hidle hv⟩
  | respond k l =>
    obtain ⟨c, hc, hacc, hans, hverb, hbit, rfl⟩ := hstep
    exact ⟨b, h.respond hc hacc hans hverb hbit⟩
  | poll =>
    obtain ⟨n, hphase, rfl⟩ := hstep
    exact h.poll hphase

end Link

/-- After `qbman_swp_init`: the first command carries `0x80`. -/
theorem link_init (h : (mcSys impl loopvar).init s) : s.Link impl true := by
  obtain ⟨⟨g, d, env, a, hp, hd⟩, hclear, hphase, hsub, hlast, hacc, hans, hres⟩ := h
  obtain ⟨-, hdesc, hmc, hmr, -⟩ := qbmanSwpInit_some hp
  have hhistory : s.History := by
    refine ⟨fun _ => by rw [hres, hsub]; rfl, fun hi => absurd hphase hi, fun j hj => ?_,
      fun j hj => absurd (hans j) hj, fun k hk => ?_, fun j l hj => ?_⟩
    · rw [hacc] at hj
      cases hj
    · rw [hsub] at hk
      cases hk
    · rw [hres] at hj
      cases hj
  refine ⟨by rw [hdesc]; exact hd, ?_, hhistory,
    .inl ⟨hlast, hphase, fun j hj => ?_, ?_, fun i hi => ?_⟩⟩
  · subst hd
    cases hi : d.impl with
    | direct => exact congrArg Mc.validBit hmc
    | memBack =>
      have hm := QbmanSwpDesc.impl_eq_memBack.mp hi
      show s.swp.mr.validBit = _
      rw [hmr]
      simp only [swpDefaults, hm, if_true]
      rfl
  · rw [hacc] at hj
    cases hj
  · rintro rfl
    have hword := congrFun (hclear true) 0
    rw [show s.cena (Impl.memBack.rr true) = 0 from hword]
    decide
  · rw [hsub] at hi
    cases hi

end McState

/-- Whether or not calls give up. -/
theorem mcSys_link (impl : Impl) (loopvar : Option Nat) :
    (mcSys impl loopvar).Inductive fun s => ∃ b, s.Link impl b where
  init s hs := ⟨true, McState.link_init hs⟩
  step s l t h hstep := by
    obtain ⟨b, hlink⟩ := h
    exact hlink.step hstep

/-! ## Polling until there is a response -/

namespace McState

variable {impl : Impl} {s t : McState} {b : Bool}

/-- No call has given up, and the hardware took every command. -/
structure Complete (s : McState) : Prop where
  accepted : ∀ k < s.submitted.length, s.accepted k = true
  results : ∀ k : Nat, s.results[k]? ≠ some none
  phase : s.phase = .idle ∨ s.phase = .polling none

/-- A response is owed only to the call that polls. -/
theorem Complete.polling (hc : s.Complete) (h : s.Link impl b) {k : Nat}
    (hk : s.Awaiting impl b k) : s.phase ≠ .idle ∧ k + 1 = s.submitted.length := by
  have hlt := h.history.accepted_lt k hk.accepted
  have hnot : ¬ k < s.results.length :=
    fun hgave => hc.results k (hk.gaveUp k (Nat.le_refl k) hgave)
  by_cases hidle : s.phase = .idle
  · exact absurd (by rwa [h.history.results hidle]) hnot
  · have hpending := h.history.pending hidle
    exact ⟨hidle, by omega⟩

/-- Between calls no response is owed. -/
theorem Complete.last (hc : s.Complete) (h : s.Link impl b) (hidle : s.phase = .idle) :
    s.last = !b := by
  rcases h.state with hsync | ⟨k, hk⟩
  · exact hsync.last
  · exact absurd hidle (hc.polling h hk).1

/-- While a call polls, its command is the one that the hardware has to answer. -/
theorem Complete.awaiting (hc : s.Complete) (h : s.Link impl b) (hphase : s.phase ≠ .idle) :
    ∃ k, k + 1 = s.submitted.length ∧ s.Awaiting impl b k := by
  rcases h.state with hsync | ⟨k, hk⟩
  · exact absurd hsync.idle hphase
  · exact ⟨k, (hc.polling h hk).2, hk⟩

theorem Complete.step (hc : s.Complete) (h : s.Link impl b) {l : McLabel}
    (hstep : (mcSys impl none).step s l t) : t.Complete := by
  cases l with
  | submit cmd cmdVerb =>
    obtain ⟨hidle, hv, rfl⟩ := hstep
    have hnew : (((s.cena.run (qbmanSwpMcSubmit s.swp cmd cmdVerb)).line impl.cr).validBit !=
        s.last) = true := by
      rw [(h.submit_lines cmd hv).1, hc.last h hidle]
      cases b <;> rfl
    refine ⟨fun k hk => ?_, hc.results, .inr rfl⟩
    show Function.update s.accepted s.submitted.length _ k = true
    have hlen : (s.afterSubmit impl none cmd cmdVerb).submitted.length =
        s.submitted.length + 1 := List.length_append
    by_cases hlast : k = s.submitted.length
    · rw [hlast, Function.update_self]
      exact hnew
    · rw [Function.update_of_ne hlast]
      exact hc.accepted k (by omega)
  | respond k l =>
    obtain ⟨c, -, -, -, -, -, rfl⟩ := hstep
    exact ⟨hc.accepted, hc.results, hc.phase⟩
  | poll =>
    obtain ⟨n, hphase, rfl⟩ := hstep
    obtain rfl : n = none := by
      rcases hc.phase with hp | hp
      · rw [hphase] at hp
        cases hp
      · rw [hphase] at hp
        exact McPhase.polling.inj hp
    cases hret : (qbmanSwpMcResult s.swp s.cena).ret with
    | some l =>
      rw [afterPoll_some hret]
      refine ⟨hc.accepted, fun k hk => ?_, .inl rfl⟩
      rw [List.getElem?_append] at hk
      split at hk
      · exact hc.results k hk
      · rw [List.getElem?_singleton] at hk
        split at hk
        · cases hk
        · cases hk
    | none =>
      rw [afterPoll_none hret]
      exact ⟨hc.accepted, hc.results, .inr hphase⟩

end McState

theorem mcSys_inductive (impl : Impl) :
    (mcSys impl none).Inductive fun s => (∃ b, s.Link impl b) ∧ s.Complete where
  init s hs := by
    refine ⟨⟨true, McState.link_init hs⟩, ?_⟩
    obtain ⟨-, -, hphase, hsub, -, -, -, hres⟩ := hs
    exact ⟨fun k hk => by simp [hsub] at hk, fun k => by simp [hres], .inl hphase⟩
  step s l t h hstep := by
    obtain ⟨⟨b, hlink⟩, hc⟩ := h
    exact ⟨hlink.step hstep, hc.step hlink hstep⟩

/-- When every call polls until it gets a response, the hardware takes every command as new, and a
poll returns exactly the response to the command just submitted, as soon as there is one. -/
theorem mcSys_paired {impl : Impl} {s : McState} (h : (mcSys impl none).Reach s) :
    (∀ k < s.submitted.length, s.accepted k = true) ∧
      ∀ t, (mcSys impl none).step s .poll t → ∃ k, k + 1 = s.submitted.length ∧
        (qbmanSwpMcResult s.swp s.cena).ret = s.answer k := by
  obtain ⟨⟨b, hlink⟩, hc⟩ := (mcSys_inductive impl).reach h
  refine ⟨hc.accepted, ?_⟩
  rintro t ⟨n, hphase, -⟩
  obtain ⟨k, hlast, hk⟩ := hc.awaiting hlink (by rw [hphase]; exact nofun)
  refine ⟨k, hlast, ?_⟩
  rw [hlink.ready_iff.1]
  cases ha : s.answer k with
  | none => rw [hk.empty ha, if_neg Bool.false_ne_true]
  | some l =>
    obtain ⟨hline, hready⟩ := hk.visible l hlast ha
    rw [if_pos hready, hline]

/-- A portal with no command over cleared memory. -/
def McState.cleared (p : QbmanSwp) : McState where
  swp := p
  cena := fun _ => 0
  phase := .idle
  submitted := []
  last := false
  accepted := fun _ => false
  answer := fun _ => none
  results := []

/-- One command of a memory-backed portal, answered and collected. -/
theorem mcSys_paired_one :
    ∃ s, (mcSys .memBack none).Reach s ∧ s.results.length = 1 ∧
      ∀ k < s.submitted.length, s.accepted k = true := by
  let p := ((qbmanSwpInit {} (.rev5000 .vbRing 0) (.ok 0x1000 0 0)).ret.get rfl).2
  let s₁ := (McState.cleared p).afterSubmit .memBack none (fun _ => 0) 0x30
  let c := s₁.submitted.get ⟨0, by decide⟩
  let s₂ := s₁.afterRespond .memBack 0 c.validBit fun _ => 0xb0
  have hinit : (mcSys .memBack none).init (McState.cleared p) :=
    ⟨⟨{}, .rev5000 .vbRing 0, .ok 0x1000 0 0, 0x1000, rfl, rfl⟩, fun _ => rfl, rfl, rfl, rfl,
      fun _ => rfl, fun _ => rfl, rfl⟩
  have hsubmit : (mcSys .memBack none).step (McState.cleared p) (.submit (fun _ => 0) 0x30) s₁ :=
    ⟨rfl, by decide, rfl⟩
  have hrespond : (mcSys .memBack none).step s₁ (.respond 0 fun _ => 0xb0) s₂ :=
    ⟨c, rfl, by decide, rfl, by decide, fun _ => by decide, rfl⟩
  have hpoll : (mcSys .memBack none).step s₂ .poll (s₂.afterPoll none) := ⟨none, rfl, rfl⟩
  have hreach := (((Trans.Sys.Reach.of_init hinit).step hsubmit).step hrespond).step hpoll
  exact ⟨_, hreach, by decide, (mcSys_paired hreach).1⟩

end Qbman
