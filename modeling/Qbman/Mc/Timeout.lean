import Mathlib.Data.Fintype.Pi
import Qbman.Mc.Pairing

/-!
# Management calls that give up

`qbman_swp_mc_complete` polls `1001` times and then returns `NULL`. It leaves the valid bit as it
was at submission, so the next command carries the valid bit of the one that timed out: the hardware
does not take it as new, and the first response that a later call sees is the late one
(`mcSys_not_resynced`). So the calls after one that gave up return responses to their own commands
in exactly the runs in which they see none (`McState.Unseen`, `mcSys_resynced_iff`).
-/

namespace Qbman

/-- `int loopvar = 1000;` -/
def mcLoopvar : Nat := 1000

/-- `do { cmd = qbman_swp_mc_result(swp); } while (!cmd && loopvar--);` from poll `k` on, where
`polls k` is what the portal shows at the `k`-th poll. -/
def mcCompleteLoop (polls : Nat → Region) : Nat → Nat → QbmanSwp → Outcome (Option Line)
  | 0, k, p => qbmanSwpMcResult p (polls k)
  | loopvar + 1, k, p =>
    let out := qbmanSwpMcResult p (polls k)
    match out.ret with
    | some _ => out
    | none =>
      let rest := mcCompleteLoop polls loopvar (k + 1) out.swp
      { rest with accs := out.accs ++ rest.accs }

def qbmanSwpMcComplete (p : QbmanSwp) (cmd : Line) (cmdVerb : U8) (polls : Nat → Region) :
    Outcome (Option Line) :=
  let out := mcCompleteLoop polls mcLoopvar 0 p
  { out with accs := qbmanSwpMcSubmit p cmd cmdVerb ++ out.accs }

/-- A call that follows one that gave up finds no response at its polls. The register is that of the
valid bit of the last submitted command. -/
def McState.Unseen (impl : Impl) (s : McState) : McLabel → Prop
  | .poll => s.results.getLast? = some none →
      impl.mcReady s.last (s.cena (impl.rr s.last)) = false
  | _ => True

/-- What the calls after one that gave up returned is the response to their own command. -/
def McState.Resynced (s : McState) : Prop :=
  ∀ (i j : Nat) l, i < j → s.results[i]? = some none → s.results[j]? = some (some l) →
    s.answer j = some l

namespace McState

variable {impl : Impl} {loopvar : Option Nat} {s t : McState} {b : Bool}

/-- The calls after one that gave up gave up too. -/
def Silent (s : McState) : Prop :=
  ∀ (i j : Nat) l, i < j → s.results[i]? = some none → s.results[j]? ≠ some (some l)

/-- A poll sees the register that belongs to the last submitted command. -/
theorem Link.ret_eq_none_iff (h : s.Link impl b) (hphase : s.phase ≠ .idle) :
    (qbmanSwpMcResult s.swp s.cena).ret = none ↔
      impl.mcReady s.last (s.cena (impl.rr s.last)) = false := by
  have hlast : s.last = b := by
    rcases h.state with hsync | ⟨k, hk⟩
    · exact absurd hsync.idle hphase
    · exact hk.last
  rw [hlast, h.ready_iff.1]
  cases impl.mcReady b (s.cena (impl.rr b)) with
  | true => simp
  | false => simp

/-- A poll adds a result, or none. -/
theorem afterPoll_results (s : McState) (n : Option Nat) :
    (s.afterPoll n).results = s.results ∨
      (s.afterPoll n).results = s.results ++ [(qbmanSwpMcResult s.swp s.cena).ret] := by
  cases hret : (qbmanSwpMcResult s.swp s.cena).ret with
  | some l =>
    rw [afterPoll_some hret]
    exact .inr rfl
  | none =>
    rw [afterPoll_none hret]
    rcases n with _ | _ | n
    · exact .inl rfl
    · exact .inr rfl
    · exact .inl rfl

theorem results_prefix {l : McLabel} (hstep : (mcSys impl loopvar).step s l t) :
    s.results <+: t.results := by
  cases l with
  | submit cmd cmdVerb =>
    obtain ⟨-, -, rfl⟩ := hstep
    exact List.prefix_rfl
  | respond k l =>
    obtain ⟨c, -, -, -, -, -, rfl⟩ := hstep
    exact List.prefix_rfl
  | poll =>
    obtain ⟨n, -, rfl⟩ := hstep
    rcases s.afterPoll_results n with hres | hres
    · rw [hres]
    · rw [hres]
      exact List.prefix_append ..

/-- If the last call did not give up, none did. -/
theorem Silent.ne_none (h : s.Silent) (hlast : s.results.getLast? ≠ some none) (i : Nat) :
    s.results[i]? ≠ some none := by
  intro hi
  have hlt := (List.getElem?_eq_some_iff.mp hi).1
  rw [List.getLast?_eq_getElem?] at hlast
  by_cases hend : i = s.results.length - 1
  · exact hlast (hend ▸ hi)
  · cases hres : s.results[s.results.length - 1]? with
    | none =>
      rw [List.getElem?_eq_none_iff] at hres
      omega
    | some r =>
      cases r with
      | none => exact hlast hres
      | some l => exact h i _ l (by omega) hi hres

theorem Silent.step (h : s.Silent) (hlink : s.Link impl b) {l : McLabel} (hunseen : s.Unseen impl l)
    (hstep : (mcSys impl loopvar).step s l t) : t.Silent := by
  cases l with
  | submit cmd cmdVerb =>
    obtain ⟨-, -, rfl⟩ := hstep
    exact h
  | respond k l =>
    obtain ⟨c, -, -, -, -, -, rfl⟩ := hstep
    exact h
  | poll =>
    obtain ⟨n, hphase, rfl⟩ := hstep
    have hne : s.phase ≠ .idle := by
      rw [hphase]
      exact fun hi => McPhase.noConfusion hi
    rcases s.afterPoll_results n with hres | hres
    · rw [Silent, hres]
      exact h
    · intro i j l hij hi hj
      rw [hres] at hi hj
      have hle := (List.getElem?_eq_some_iff.mp hj).1
      rw [List.length_append, List.length_singleton] at hle
      rw [List.getElem?_append_left (by omega)] at hi
      by_cases hlt : j < s.results.length
      · rw [List.getElem?_append_left hlt] at hj
        exact h i j l hij hi hj
      · -- The call that returns now follows one that did not give up.
        obtain rfl : j = s.results.length := by omega
        rw [List.getElem?_concat_length] at hj
        have hret := Option.some.inj hj
        refine h.ne_none (fun hlast => ?_) i hi
        rw [(hlink.ret_eq_none_iff hne).mpr (hunseen hlast)] at hret
        cases hret

/-- A call that sees a response after one that gave up returns one that is not its own. -/
theorem Link.not_resynced_of_seen (hlink : s.Link impl b) {l : McLabel}
    (hseen : ¬ s.Unseen impl l) (hstep : (mcSys impl loopvar).step s l t) {u : McState} {b' : Bool}
    (hu : u.Link impl b') (hresults : t.results <+: u.results) : ¬ u.Resynced := by
  cases l with
  | submit cmd cmdVerb => exact absurd trivial hseen
  | respond k l => exact absurd trivial hseen
  | poll =>
    obtain ⟨n, hphase, rfl⟩ := hstep
    have hne : s.phase ≠ .idle := by
      rw [hphase]
      exact fun hi => McPhase.noConfusion hi
    have hboth : s.results.getLast? = some none ∧
        impl.mcReady s.last (s.cena (impl.rr s.last)) ≠ false := Classical.not_imp.mp hseen
    obtain ⟨hlast, hready⟩ := hboth
    obtain ⟨l, hret⟩ := Option.ne_none_iff_exists'.mp
      fun hnone => hready ((hlink.ret_eq_none_iff hne).mp hnone)
    rw [afterPoll_some hret] at hresults
    obtain ⟨rest, hrest⟩ := hresults
    -- The call is number `s.results.length`, and the one before it gave up.
    have hj : u.results[s.results.length]? = some (some l) := by
      rw [← hrest, List.getElem?_append_left (by simp)]
      exact List.getElem?_concat_length ..
    rw [List.getLast?_eq_getElem?] at hlast
    have hlt := (List.getElem?_eq_some_iff.mp hlast).1
    have hi : u.results[s.results.length - 1]? = some none := by
      rw [← hrest, List.append_assoc, List.getElem?_append_left hlt]
      exact hlast
    intro hres
    have hans := hres _ _ l (by omega) hi hj
    exact (hu.history.own_iff hj).mp hans _ (by omega) hi

end McState

/-- A run gives later calls the responses to their own commands if and only if no call that follows
one that gave up sees a response. A response is that of the last command which the hardware took:
the own one unless the call before gave up, and else that of a call that gave up. -/
theorem mcSys_resynced_iff {impl : Impl} {s₀ s : McState} {ls : List McLabel}
    (h₀ : (mcSys impl (some mcLoopvar)).init s₀)
    (h : (mcSys impl (some mcLoopvar)).Steps s₀ ls s) :
    (((mcSys impl (some mcLoopvar)).restrict (McState.Unseen impl)).Steps s₀ ls s ↔ s.Resynced) ∧
      ∀ (j : Nat) l, s.results[j]? = some (some l) →
        (s.answer j = some l ↔ ∀ i, i + 1 = j → s.results[i]? ≠ some none) ∧
          ∃ k ≤ j, s.answer k = some l ∧ ∀ i, k ≤ i → i < j → s.results[i]? = some none := by
  have hlinks := mcSys_link impl (some mcLoopvar)
  obtain ⟨b, hlink⟩ := hlinks.reach ⟨s₀, ls, h₀, h⟩
  refine ⟨⟨fun hrun => ?_, fun hres => ?_⟩, fun j l hj => ⟨hlink.history.own_iff hj, ?_⟩⟩
  · have hsilent : (∃ b, s.Link impl b) ∧ s.Silent := by
      refine hrun.keeps (I := fun s => (∃ b, s.Link impl b) ∧ s.Silent)
        (fun s l t hs hstep => ?_) ⟨hlinks.init s₀ h₀, fun i j l _ hi => ?_⟩
      · obtain ⟨⟨b, hlink⟩, hsilent⟩ := hs
        exact ⟨hlink.step hstep.1, hsilent.step hlink hstep.2 hstep.1⟩
      · rw [h₀.2.2.2.2.2.2.2] at hi
        cases hi
    exact fun i j l hij hi hj => absurd hj (hsilent.2 i j l hij hi)
  · exact h.restrict_of (I := fun s => ∃ b, s.Link impl b) hlinks.step
      (fun t l u hlink' hstep hrest => by
        obtain ⟨b', hlink'⟩ := hlink'
        obtain ⟨ls', hrest⟩ := hrest
        by_contra hseen
        exact hlink'.not_resynced_of_seen hseen hstep hlink
          (hrest.keeps (I := fun v => u.results <+: v.results)
            (fun _ _ _ hp hstep => hp.trans (McState.results_prefix hstep)) List.prefix_rfl) hres)
      (hlinks.init s₀ h₀)
  · obtain ⟨k, hk, -, hans, hnone⟩ := hlink.history.collected j l hj
    exact ⟨k, hk, hans, hnone⟩

/-- A call gives up after polls that find nothing. -/
theorem mcSys_giveUp (impl : Impl) (loopvar : Option Nat) {n : Nat} {s : McState}
    (hphase : s.phase = .polling (some n))
    (hpoll : (qbmanSwpMcResult s.swp s.cena).ret = none ∧
      (qbmanSwpMcResult s.swp s.cena).swp = s.swp) :
    (mcSys impl loopvar).Steps s (List.replicate (n + 1) .poll)
      { s with phase := .idle, results := s.results ++ [none] } := by
  induction n generalizing s with
  | zero =>
    refine .cons ⟨some 0, hphase, ?_⟩ (.nil _)
    rw [McState.afterPoll_none hpoll.1, hpoll.2]
  | succ n ih =>
    have hnext : (mcSys impl loopvar).step s .poll { s with phase := .polling (some n) } := by
      refine ⟨some (n + 1), hphase, ?_⟩
      rw [McState.afterPoll_none hpoll.1, hpoll.2]
    exact .cons hnext (ih rfl hpoll)

/-- A poll that finds a response ends the call. -/
theorem mcSys_return (impl : Impl) (loopvar : Option Nat) {n : Option Nat} {s : McState} {l : Line}
    {p : QbmanSwp} (hphase : s.phase = .polling n)
    (hret : (qbmanSwpMcResult s.swp s.cena).ret = some l)
    (hswp : (qbmanSwpMcResult s.swp s.cena).swp = p) :
    (mcSys impl loopvar).step s .poll
      { s with swp := p, phase := .idle, results := s.results ++ [some l] } :=
  ⟨n, hphase, by rw [McState.afterPoll_some hret, hswp]⟩

/-! ### Runs of a direct portal -/

/-- A direct portal, its first call, and that call given up. -/
def mcDirect : QbmanSwp := ((qbmanSwpInit {} (.rev4100 .vbRing 0) (.ok 0x1000 0 0)).ret.get rfl).2

def mcTimedOut : McState :=
  { (McState.cleared mcDirect).afterSubmit .direct (some mcLoopvar) (fun _ => 0) 0x30 with
    phase := .idle
    results := [none] }

theorem mcDirect_init (loopvar : Option Nat) :
    (mcSys .direct loopvar).init (McState.cleared mcDirect) :=
  ⟨⟨{}, .rev4100 .vbRing 0, .ok 0x1000 0 0, 0x1000, rfl, rfl⟩, fun _ => rfl, rfl, rfl, rfl,
    fun _ => rfl, fun _ => rfl, rfl⟩

theorem mcTimedOut_steps : (mcSys .direct (some mcLoopvar)).Steps (McState.cleared mcDirect)
    (.submit (fun _ => 0) 0x30 :: List.replicate (mcLoopvar + 1) .poll) mcTimedOut :=
  .cons ⟨rfl, by decide, rfl⟩ (mcSys_giveUp _ _ rfl ⟨by decide, by decide⟩)

/-- The late response comes between the first two calls; the second submission clears it. -/
theorem mcTimedOut_silent :
    ∃ ls s, (mcSys .direct (some mcLoopvar)).Steps (.cleared mcDirect) ls s ∧
    s.results = [none, none] := by
  let c := mcTimedOut.submitted.get ⟨0, by decide⟩
  let s₁ := mcTimedOut.afterRespond .direct 0 c.validBit fun _ => 0x30
  let s₂ := s₁.afterSubmit .direct (some mcLoopvar) (fun _ => 1) 0x30
  have hrespond : (mcSys .direct (some mcLoopvar)).step mcTimedOut (.respond 0 fun _ => 0x30) s₁ :=
    ⟨c, rfl, by decide, rfl, by decide, fun h => Impl.noConfusion h, rfl⟩
  have hagain : (mcSys .direct (some mcLoopvar)).step s₁ (.submit (fun _ => 1) 0x30) s₂ :=
    ⟨rfl, by decide, rfl⟩
  have hpolls := mcSys_giveUp .direct (some mcLoopvar) (s := s₂) (n := mcLoopvar) rfl
    ⟨by decide, by decide⟩
  exact ⟨_, _, mcTimedOut_steps.append (.cons hrespond (.cons hagain hpolls)), rfl⟩

/-- The second call returns the late response, and the third one its own. -/
theorem mcTimedOut_late : ∃ ls s, (mcSys .direct (some mcLoopvar)).Steps (.cleared mcDirect) ls s ∧
    s.results = [none, some fun _ => 0x30, some fun _ => 0x31] := by
  let s₁ := mcTimedOut.afterSubmit .direct (some mcLoopvar) (fun _ => 1) 0x30
  let c := s₁.submitted.get ⟨0, by decide⟩
  let s₂ := s₁.afterRespond .direct 0 c.validBit fun _ => 0x30
  let s₃ : McState := { s₂ with
    swp := s₂.swp.mcFlip .direct, phase := .idle, results := [none, some fun _ => 0x30] }
  let s₄ := s₃.afterSubmit .direct (some mcLoopvar) (fun _ => 2) 0x30
  let c' := s₄.submitted.get ⟨2, by decide⟩
  let s₅ := s₄.afterRespond .direct 2 c'.validBit fun _ => 0x31
  have hagain : (mcSys .direct (some mcLoopvar)).step mcTimedOut (.submit (fun _ => 1) 0x30) s₁ :=
    ⟨rfl, by decide, rfl⟩
  have hrespond : (mcSys .direct (some mcLoopvar)).step s₁ (.respond 0 fun _ => 0x30) s₂ :=
    ⟨c, rfl, by decide, rfl, by decide, fun h => Impl.noConfusion h, rfl⟩
  have hlate : (mcSys .direct (some mcLoopvar)).step s₂ .poll s₃ :=
    mcSys_return .direct _ rfl (by decide) (by decide)
  have hthird : (mcSys .direct (some mcLoopvar)).step s₃ (.submit (fun _ => 2) 0x30) s₄ :=
    ⟨rfl, by decide, rfl⟩
  have hown : (mcSys .direct (some mcLoopvar)).step s₄ (.respond 2 fun _ => 0x31) s₅ :=
    ⟨c', rfl, by decide, by decide, by decide, fun h => Impl.noConfusion h, rfl⟩
  have hpoll := mcSys_return .direct (some mcLoopvar) (s := s₅) (l := fun _ => 0x31) rfl
    (by decide) rfl
  exact ⟨_, _, mcTimedOut_steps.append (.cons hagain (.cons hrespond (.cons hlate
    (.cons hthird (.cons hown (.cons hpoll (.nil _))))))), rfl⟩

/-- Both calls time out and the condition is met; a call returns a late response, the condition is
not met, and the call after it returns its own. -/
theorem mcSys_resynced_iff_late :
    (∃ ls s, ((mcSys .direct (some mcLoopvar)).restrict (McState.Unseen .direct)).Steps
        (.cleared mcDirect) ls s ∧ s.results = [none, none]) ∧
      ∃ ls s, ¬ ((mcSys .direct (some mcLoopvar)).restrict (McState.Unseen .direct)).Steps
          (.cleared mcDirect) ls s ∧
        s.results = [none, some fun _ => 0x30, some fun _ => 0x31] ∧
        s.answer 0 = some (fun _ => 0x30) ∧ s.answer 2 = some (fun _ => 0x31) := by
  obtain ⟨ls, s, hrun, hres⟩ := mcTimedOut_silent
  obtain ⟨ls', s', hrun', hres'⟩ := mcTimedOut_late
  have hiff := mcSys_resynced_iff (mcDirect_init _) hrun
  have hiff' := mcSys_resynced_iff (mcDirect_init _) hrun'
  have hsecond := hiff'.2 1 (fun _ => 0x30) (by rw [hres']; rfl)
  have hthird := hiff'.2 2 (fun _ => 0x31) (by rw [hres']; rfl)
  refine ⟨⟨ls, s, hiff.1.mpr fun i j l _ _ hj => ?_, hres⟩, ls', s', fun hunseen => ?_,
    hres', ?_, ?_⟩
  · rw [hres] at hj
    rcases j with _ | _ | j
    · cases hj
    · cases hj
    · cases hj
  · have hans := hiff'.1.mp hunseen 0 1 (fun _ => 0x30) Nat.zero_lt_one (by rw [hres']; rfl)
      (by rw [hres']; rfl)
    exact hsecond.1.mp hans 0 rfl (by rw [hres']; rfl)
  · obtain ⟨k, hk, hans, hnone⟩ := hsecond.2
    rcases k with _ | _ | k
    · exact hans
    · exact absurd (by rw [hres']; rfl) (hsecond.1.mp hans 0 rfl)
    · omega
  · refine hthird.1.mpr fun i hi => ?_
    obtain rfl : i = 1 := Nat.succ.inj hi
    rw [hres']
    exact fun h => Option.some_ne_none _ (Option.some.inj h)

/-- The first call times out; its response comes while the second call polls, which returns it. -/
theorem mcSys_not_resynced :
    ∃ s t l, (mcSys .direct (some mcLoopvar)).Reach s ∧
      (mcSys .direct (some mcLoopvar)).step s .poll t ∧
      (qbmanSwpMcResult s.swp s.cena).ret = some l ∧ s.results = [none] ∧ s.answer 0 = some l ∧
      ¬ ∃ k, k + 1 = s.submitted.length ∧ s.answer k = some l := by
  let s₃ := mcTimedOut.afterSubmit .direct (some mcLoopvar) (fun _ => 1) 0x30
  let c := s₃.submitted.get ⟨0, by decide⟩
  let s₄ := s₃.afterRespond .direct 0 c.validBit fun _ => 0x30
  have hagain : (mcSys .direct (some mcLoopvar)).step mcTimedOut (.submit (fun _ => 1) 0x30) s₃ :=
    ⟨rfl, by decide, rfl⟩
  have hrespond : (mcSys .direct (some mcLoopvar)).step s₃ (.respond 0 fun _ => 0x30) s₄ :=
    ⟨c, rfl, by decide, rfl, by decide, fun h => Impl.noConfusion h, rfl⟩
  have hreach := ((Trans.Sys.Reach.of_init (mcDirect_init _)).steps mcTimedOut_steps).step hagain
    |>.step hrespond
  refine ⟨s₄, _, fun _ => 0x30, hreach, ⟨_, rfl, rfl⟩, by decide, rfl, rfl, ?_⟩
  rintro ⟨k, hk, hans⟩
  obtain rfl : k = 1 := Nat.succ.inj hk
  cases hans

end Qbman
