import Qbman.Lib.Poll
import Qbman.Mc.Timeout

/-!
# How the polling of a management command ends

`qbman_swp_mc_complete` counts its polls down from `1000` and asserts `QBMAN_BUG_ON(!loopvar)` after
the loop. `!cmd && loopvar--` decrements once more when it gives up, so that `loopvar` is then `-1`,
which the assertion takes for a success; it is `0` when the very last poll found the response.
-/

namespace Qbman

/-- A poll of `qbman_swp_mc_complete`, with the accesses made so far. -/
def mcPoll (polls : Nat → Region) (k : Nat) (s : QbmanSwp × List Access) :
    Option Line × (QbmanSwp × List Access) :=
  let out := qbmanSwpMcResult s.1 (polls k)
  (out.ret, out.swp, s.2 ++ out.accs)

/-- `qbman_swp_mc_complete`, with `loopvar` as `QBMAN_BUG_ON` finds it. -/
def mcCompleteExit (p : QbmanSwp) (cmd : Line) (cmdVerb : U8) (polls : Nat → Region) :
    Poll.Exit (QbmanSwp × List Access) Line :=
  Poll.doWhile (mcPoll polls) mcLoopvar 0 (p, qbmanSwpMcSubmit p cmd cmdVerb)

/-- What poll `k` finds, if those before it found nothing. -/
def mcOutcome (p : QbmanSwp) (polls : Nat → Region) (k : Nat) : Option Line :=
  (qbmanSwpMcResult p (polls k)).ret

/-- A poll that finds nothing leaves the portal alone. -/
theorem qbmanSwpMcResult_swp_of_none {p : QbmanSwp} {m : Region}
    (h : (qbmanSwpMcResult p m).ret = none) : (qbmanSwpMcResult p m).swp = p := by
  unfold qbmanSwpMcResult at h ⊢
  grind

theorem mcPoll_shows (p : QbmanSwp) (polls : Nat → Region) :
    Poll.Shows (mcPoll polls) (fun s => s.1 = p) (mcOutcome p polls) where
  ret := by
    rintro k s rfl
    rfl
  idle := by
    rintro k s rfl h
    exact qbmanSwpMcResult_swp_of_none h

/-- The loop of `mcCompleteLoop`, with its counter. -/
theorem doWhile_mcPoll (polls : Nat → Region) (loopvar k : Nat) (s : QbmanSwp × List Access) :
    (Poll.doWhile (mcPoll polls) loopvar k s).ret = (mcCompleteLoop polls loopvar k s.1).ret ∧
      (Poll.doWhile (mcPoll polls) loopvar k s).state =
        ((mcCompleteLoop polls loopvar k s.1).swp,
          s.2 ++ (mcCompleteLoop polls loopvar k s.1).accs) := by
  induction loopvar generalizing k s with
  | zero =>
    cases h : (mcPoll polls k s).1 with
    | none =>
      rw [Poll.doWhile_zero_none h]
      exact ⟨h.symm, rfl⟩
    | some l =>
      rw [Poll.doWhile_zero_some h]
      exact ⟨h.symm, rfl⟩
  | succ loopvar ih =>
    cases h : (mcPoll polls k s).1 with
    | none =>
      have hret : (qbmanSwpMcResult s.1 (polls k)).ret = none := h
      rw [Poll.doWhile_succ_none h, (ih _ _).1, (ih _ _).2]
      simp [mcCompleteLoop, hret, mcPoll]
    | some l =>
      have hret : (qbmanSwpMcResult s.1 (polls k)).ret = some l := h
      rw [Poll.doWhile_succ_some h]
      simp [mcCompleteLoop, hret, mcPoll]

/-- `mcCompleteExit` is `qbmanSwpMcComplete`. -/
theorem qbmanSwpMcComplete_eq_exit (p : QbmanSwp) (cmd : Line) (cmdVerb : U8)
    (polls : Nat → Region) :
    let e := mcCompleteExit p cmd cmdVerb polls
    qbmanSwpMcComplete p cmd cmdVerb polls = ⟨e.ret, e.state.1, e.state.2⟩ := by
  obtain ⟨hret, hstate⟩ :=
    doWhile_mcPoll polls mcLoopvar 0 (p, qbmanSwpMcSubmit p cmd cmdVerb)
  simp only [mcCompleteExit, hret, hstate]
  rfl

/-- The first response of the polls. -/
theorem mcCompleteExit_ret (p : QbmanSwp) (cmd : Line) (cmdVerb : U8) (polls : Nat → Region) :
    (mcCompleteExit p cmd cmdVerb polls).ret =
      (List.range (mcLoopvar + 1)).findSome? (mcOutcome p polls) := by
  rw [List.range_eq_range']
  exact Poll.doWhile_ret (mcPoll_shows p polls) mcLoopvar 0 rfl

/-- What the polls of a call find first. -/
def mcResponse (p : QbmanSwp) (polls : Nat → Region) : Option Line :=
  (List.range (mcLoopvar + 1)).findSome? (mcOutcome p polls)

theorem mcResponse_of_first {p : QbmanSwp} {polls : Nat → Region} {r : Line}
    (h : mcOutcome p polls 0 = some r) : mcResponse p polls = some r := by
  rw [mcResponse, List.range_succ_eq_map, List.findSome?_cons, h]

/-- The portal shows these, one after the other. -/
def pollsOf (ms : List Region) (k : Nat) : Region := ms.getD k fun _ => 0

theorem mcResponse_of_none {p : QbmanSwp} {ms : List Region} (hlen : ms.length = mcLoopvar + 1)
    (h : ∀ m ∈ ms, (qbmanSwpMcResult p m).ret = none) : mcResponse p (pollsOf ms) = none := by
  rw [mcResponse, List.findSome?_eq_none_iff]
  intro k hk
  have hlt : k < ms.length := hlen ▸ List.mem_range.mp hk
  rw [mcOutcome, pollsOf, List.getD_eq_getElem _ _ hlt]
  exact h _ (List.getElem_mem hlt)

theorem mcResponse_concat {p : QbmanSwp} {ms : List Region} {m : Region} {l : Line}
    (hlen : ms.length ≤ mcLoopvar) (h : ∀ m ∈ ms, (qbmanSwpMcResult p m).ret = none)
    (hm : (qbmanSwpMcResult p m).ret = some l) : mcResponse p (pollsOf (ms ++ [m])) = some l := by
  obtain ⟨n, hn⟩ := Nat.exists_eq_add_of_le hlen
  have hbefore : (List.range ms.length).findSome? (mcOutcome p (pollsOf (ms ++ [m]))) = none := by
    rw [List.findSome?_eq_none_iff]
    intro k hk
    have hlt := List.mem_range.mp hk
    have hlt' : k < (ms ++ [m]).length := by
      rw [List.length_append]
      omega
    rw [mcOutcome, pollsOf, List.getD_eq_getElem _ _ hlt', List.getElem_append_left hlt]
    exact h _ (List.getElem_mem hlt)
  have hlast : mcOutcome p (pollsOf (ms ++ [m])) ms.length = some l := by
    rw [mcOutcome, pollsOf, List.getD_eq_getElem?_getD, List.getElem?_concat_length]
    exact hm
  rw [mcResponse, show mcLoopvar + 1 = ms.length + (n + 1) by omega, List.range_add,
    List.findSome?_append, hbefore, List.range_succ_eq_map, List.map_cons, List.findSome?_cons,
    Nat.add_zero, hlast]
  rfl

theorem qbmanSwpMcComplete_ret (p : QbmanSwp) (cmd : Line) (cmdVerb : U8) (polls : Nat → Region) :
    (qbmanSwpMcComplete p cmd cmdVerb polls).ret = mcResponse p polls := by
  rw [qbmanSwpMcComplete_eq_exit]
  exact mcCompleteExit_ret p cmd cmdVerb polls

/-- The call polls a bounded number of times, returns the first response among these polls, and
asserts `!loopvar` exactly when there is none. -/
structure McReportsTimeout (p : QbmanSwp) (cmd : Line) (cmdVerb : U8) (polls : Nat → Region) :
    Prop where
  ends : (mcCompleteExit p cmd cmdVerb polls).polls ≤ mcLoopvar + 1
  ret : (mcCompleteExit p cmd cmdVerb polls).ret =
    (List.range (mcLoopvar + 1)).findSome? (mcOutcome p polls)
  bug : (mcCompleteExit p cmd cmdVerb polls).counter = 0 ↔
    (mcCompleteExit p cmd cmdVerb polls).ret = none

/-- The call returns `NULL` if all its polls find nothing. -/
theorem mcCompleteExit_ret_eq_none_iff {p : QbmanSwp} {cmd : Line} {cmdVerb : U8}
    {polls : Nat → Region} : (mcCompleteExit p cmd cmdVerb polls).ret = none ↔
      ∀ k ≤ mcLoopvar, mcOutcome p polls k = none := by
  rw [mcCompleteExit_ret, List.findSome?_eq_none_iff]
  simp only [List.mem_range, Nat.lt_succ_iff]

/-- `loopvar` is `0` if only the last poll finds something. -/
theorem mcCompleteExit_counter_eq_zero_iff {p : QbmanSwp} {cmd : Line} {cmdVerb : U8}
    {polls : Nat → Region} : (mcCompleteExit p cmd cmdVerb polls).counter = 0 ↔
      (∀ k < mcLoopvar, mcOutcome p polls k = none) ∧ (mcOutcome p polls mcLoopvar).isSome := by
  have h := Poll.doWhile_counter_eq_zero_iff (mcPoll_shows p polls) mcLoopvar 0
    (s := (p, qbmanSwpMcSubmit p cmd cmdVerb)) rfl
  simpa only [mcCompleteExit, Nat.zero_add] using h

/-- The assertion tells a timeout if no call times out and none is answered at its last poll. -/
theorem qbmanSwpMcComplete_reportsTimeout (p : QbmanSwp) (cmd : Line) (cmdVerb : U8)
    (polls : Nat → Region) :
    McReportsTimeout p cmd cmdVerb polls ↔ ∃ k < mcLoopvar, (mcOutcome p polls k).isSome := by
  constructor
  · intro h
    by_contra hlate
    have hnone : ∀ k < mcLoopvar, mcOutcome p polls k = none := by
      intro k hk
      by_contra hne
      exact hlate ⟨k, hk, Option.ne_none_iff_isSome.mp hne⟩
    cases hlast : mcOutcome p polls mcLoopvar with
    | none =>
      have hret : (mcCompleteExit p cmd cmdVerb polls).ret = none :=
        mcCompleteExit_ret_eq_none_iff.mpr fun k hk =>
          (Nat.lt_or_eq_of_le hk).elim (hnone k) fun hk => hk ▸ hlast
      have hcounter := Poll.doWhile_counter_of_none (mcPoll_shows p polls) mcLoopvar 0 rfl hret
      have hzero := h.bug.mpr hret
      rw [mcCompleteExit, hcounter] at hzero
      exact absurd hzero (by decide)
    | some l =>
      have hret := h.bug.mp (mcCompleteExit_counter_eq_zero_iff.mpr ⟨hnone, by rw [hlast]; rfl⟩)
      have := mcCompleteExit_ret_eq_none_iff.mp hret mcLoopvar (Nat.le_refl _)
      rw [hlast] at this
      cases this
  · rintro ⟨k, hk, hsome⟩
    refine ⟨?_, mcCompleteExit_ret p cmd cmdVerb polls, ?_⟩
    · have hle : (mcCompleteExit p cmd cmdVerb polls).polls ≤ 0 + mcLoopvar + 1 :=
        Poll.doWhile_polls_le mcLoopvar 0 (p, qbmanSwpMcSubmit p cmd cmdVerb)
      rwa [Nat.zero_add] at hle
    · rw [mcCompleteExit_counter_eq_zero_iff, mcCompleteExit_ret_eq_none_iff]
      constructor
      · rintro ⟨hnone, -⟩
        rw [hnone k hk] at hsome
        cases hsome
      · intro hnone
        rw [hnone k (Nat.le_of_lt hk)] at hsome
        cases hsome

/-- A call that no response answers leaves `loopvar` at `-1`. -/
theorem qbmanSwpMcComplete_silent_not_reported :
    let p := ((qbmanSwpInit {} (.rev4100 .vbRing 0) (.ok 0x1000 0 0)).ret.get rfl).2
    ¬ McReportsTimeout p (fun _ => 0) 0x30 fun _ _ => 0 := by
  intro p h
  have hpoll : mcOutcome p (fun _ _ => 0) 0 = none := by decide
  have hret : (mcCompleteExit p (fun _ => 0) 0x30 fun _ _ => 0).ret = none :=
    mcCompleteExit_ret_eq_none_iff.mpr fun _ _ => hpoll
  have hsome := (mcCompleteExit_counter_eq_zero_iff.mp (h.bug.mpr hret)).2
  rw [show mcOutcome p (fun _ _ => 0) mcLoopvar = none from hpoll] at hsome
  cases hsome

end Qbman
