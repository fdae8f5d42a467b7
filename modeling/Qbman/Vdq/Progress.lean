import Mathlib.Algebra.BigOperators.Ring.Finset
import Qbman.Vdq.Atomic

/-!
# The progress of pulls and polls

A call of `qbman_swp_pull` needs two atomic operations: the decrement, and the increment that undoes
it or, once the hardware is done, completes it (`busyCredit_step`). An operation of `n` threads
needs `4 * n` instructions, since a store fails only if another one succeeded or the hardware
refused it. So a run is bounded by its calls and the refusals (`busySys_bounded`), whatever the
schedule is.
-/

namespace Qbman

variable {ι : Type} [Fintype ι] [DecidableEq ι]

/-- The operations that thread `i` will start for its pull, less the completion it is reporting. -/
def BusyState.owed (c : BusyState ι) (i : ι) : Option (BusyOp ι) → Int
  | some (.decAndTest _ _) => 1
  | some (.restore _) => 0
  | some (.complete _ _) => -1
  | none => match c.core.phase i with
    | .idle => 0
    | _ => 1

/-- The operations that the pulls so far still need. -/
def busyCredit (s : Exclusive.State (BusyState ι) ι (BusyOp ι) U32) : Int :=
  ∑ i, s.client.owed i (s.running i) + s.client.core.submitted.length - s.client.core.completed

/-- The start of a call of `qbman_swp_pull`. -/
def isPull : Exclusive.Label ι (BusyOp ι) (BusyLabel ι) → Bool
  | .start (.decAndTest _ _) => true
  | _ => false

section Credit

variable {impl : Impl} {s t : Exclusive.State (BusyState ι) ι (BusyOp ι) U32}
  {l : Exclusive.Label ι (BusyOp ι) (BusyLabel ι)}

omit [Fintype ι] in
theorem BusyState.finish_phase {c : BusyState ι} {o : BusyOp ι} (v : U32) {j : ι}
    (hj : j ≠ o.thread) :
    (c.finish o v).core.phase j = c.core.phase j := by
  cases o with
  | decAndTest i d => exact Function.update_of_ne hj _ _
  | restore i => exact Function.update_of_ne hj _ _
  | complete i k => rfl

omit [Fintype ι] [DecidableEq ι] in
theorem BusyState.owed_congr {c c' : BusyState ι} {i : ι} (h : c'.core.phase i = c.core.phase i)
    (o : Option (BusyOp ι)) : c'.owed i o = c.owed i o := by
  cases o with
  | none => simp only [owed, h]
  | some o => cases o <;> rfl

/-- Only thread `i` and the two lists change. -/
theorem busyCredit_change {i : ι} (hrun : ∀ j, j ≠ i → t.running j = s.running j)
    (hphase : ∀ j, j ≠ i → t.client.core.phase j = s.client.core.phase j) :
    busyCredit t + s.client.owed i (s.running i) + s.client.core.submitted.length -
        s.client.core.completed =
      busyCredit s + t.client.owed i (t.running i) + t.client.core.submitted.length -
        t.client.core.completed := by
  have h := Count.sum_change (f := fun j => t.client.owed j (t.running j))
    (g := fun j => s.client.owed j (s.running j)) (i := i) fun j hj => by
      rw [hrun j hj, BusyState.owed_congr (hphase j hj)]
  simp only [busyCredit]
  omega

omit [DecidableEq ι] in
/-- A pull needs two operations: the decrement, and the increment that undoes or completes it. -/
theorem BusyState.owed_start {c : BusyState ι} {x : VdqState ι} (habs : c.Abs x) {o : BusyOp ι}
    (hready : c.Ready o) :
    1 + c.owed o.thread (some o) = c.owed o.thread none + if isPull (.start o) then 2 else 0 := by
  cases o with
  | decAndTest i d =>
    have hi : c.core.phase i = .idle := hready.1
    simp [owed, BusyOp.thread, isPull, hi]
  | restore i =>
    have hi : c.core.phase i = .lost := hready
    simp [owed, BusyOp.thread, isPull, hi]
  | complete i k =>
    have hc : c.claim i = some k := hready
    have hi : c.core.phase i = .idle := habs.idle i (by rw [hc]; exact Option.some_ne_none k)
    simp [owed, BusyOp.thread, isPull, hi]

/-- An operation that ends changes what its thread owes only with the count of completions. -/
theorem BusyState.owed_finish {c : BusyState ι} {x : VdqState ι} (habs : c.Abs x) {o : BusyOp ι}
    (hready : c.Ready o) (w : U32) :
    (c.finish o w).core.submitted = c.core.submitted ∧
      (c.finish o w).owed o.thread none - (c.finish o w).core.completed =
        c.owed o.thread (some o) - c.core.completed := by
  cases o with
  | decAndTest i d =>
    have hphase : (c.finish (.decAndTest i d) w).core.phase i ≠ .idle := by
      show Function.update _ i (if w = 0 then _ else _) i ≠ _
      rw [Function.update_self]
      split <;> simp
    refine ⟨rfl, ?_⟩
    simp only [owed, BusyOp.thread]
    rfl
  | restore i =>
    refine ⟨rfl, ?_⟩
    simp [owed, finish, BusyOp.thread]
  | complete i k =>
    have hc : c.claim i = some k := hready
    have hi : c.core.phase i = .idle := habs.idle i (by rw [hc]; exact Option.some_ne_none k)
    refine ⟨rfl, ?_⟩
    simp [owed, finish, BusyOp.thread, hi]
    omega

theorem busyCredit_start {x : VdqState ι} (habs : s.client.Abs x) {o : BusyOp ι}
    (hstep : (busySys impl ι).step s (.start o) t) :
    1 + busyCredit t = busyCredit s + if isPull (.start o) then 2 else 0 := by
  obtain ⟨hnone, hready, rfl⟩ := hstep
  have hold : s.running o.thread = none := Exclusive.State.running_of_none hnone
  have hnew : (s.setLoop o.thread (some (o, .load))).running o.thread = some o := by
    simp [Exclusive.State.running]
  have hchange := busyCredit_change (s := s) (t := s.setLoop o.thread (some (o, .load)))
    (i := o.thread) (fun j hj => Exclusive.State.running_congr (Function.update_of_ne hj _ _))
    fun _ _ => rfl
  have howed := BusyState.owed_start habs hready
  rw [hold, hnew] at hchange
  simp only [Exclusive.State.setLoop_client] at hchange
  simp only [busyClient]
  omega

theorem busyCredit_instr (hinv : s.Inv (busyClient impl ι)) {x : VdqState ι}
    (habs : s.client.Abs x) {i : ι} {ok : Bool} (hstep : (busySys impl ι).step s (.instr i ok) t) :
    busyCredit t = busyCredit s := by
  obtain ⟨o, p, hi, rfl⟩ := hstep
  obtain ⟨hothers, ⟨hclient, hself⟩ | ⟨w, hclient, hold, hnew⟩⟩ :=
    Exclusive.State.running_exec (C := busyClient impl ι) hi ok
  · have hchange := busyCredit_change hothers fun j _ => by rw [hclient]
    rw [hself, hclient] at hchange
    omega
  · have hthread : o.thread = i := (hinv i o p hi).1
    have hready : s.client.Ready o := (hinv.running hold).2
    have hfin : (s.exec (busyClient impl ι) i o ok p).client = s.client.finish o w := hclient
    have hchange := busyCredit_change hothers fun j hj => by
      rw [hfin, BusyState.finish_phase w (hthread ▸ hj)]
    obtain ⟨hsub, howed⟩ := BusyState.owed_finish habs hready w
    rw [hthread] at howed
    rw [hold, hnew, hfin, hsub] at hchange
    omega

/-- The command of a pull takes the place of the operation that its winner owed. -/
theorem busyCredit_submit {i : ι} {d : QbmanPullDesc} (hrun : s.running i = none)
    (hi : s.client.core.phase i = .won d) :
    busyCredit { s with client := s.client.afterSubmit impl i d } = busyCredit s := by
  have hchange := busyCredit_change (s := s)
    (t := { s with client := s.client.afterSubmit impl i d }) (i := i) (fun _ _ => rfl)
    fun j hj => Function.update_of_ne hj _ _
  have hrun' :
      Exclusive.State.running { s with client := s.client.afterSubmit impl i d } i = none := hrun
  have hlen : (s.client.core.afterSubmit impl i d).submitted.length =
      s.client.core.submitted.length + 1 := by
    rw [VdqState.afterSubmit, pullSubmit_wordsAt, List.length_append, List.length_singleton]
  have hphase : (s.client.core.afterSubmit impl i d).phase i = .idle := Function.update_self ..
  have hcomp : (s.client.core.afterSubmit impl i d).completed = s.client.core.completed := rfl
  have hcore : (s.client.afterSubmit impl i d).core = s.client.core.afterSubmit impl i d := rfl
  rw [hrun, hrun'] at hchange
  simp only [BusyState.owed, hi, hcore, hphase, hlen, hcomp] at hchange
  omega

/-- What a run still needs falls by one with every operation that starts and by nothing else, and
each call of `qbman_swp_pull` adds two. -/
theorem busyCredit_step (hinv : s.Inv (busyClient impl ι)) {x : VdqState ι} (habs : s.client.Abs x)
    (hstep : (busySys impl ι).step s l t) :
    (if l.isStart then 1 else 0) + busyCredit t = busyCredit s + if isPull l then 2 else 0 := by
  cases l with
  | start o => exact busyCredit_start habs hstep
  | instr i ok =>
    rw [busyCredit_instr hinv habs hstep]
    exact Int.add_comm ..
  | other b =>
    obtain ⟨hfree, c, hc, rfl⟩ := hstep
    have hcredit : busyCredit { s with client := c } = busyCredit s := by
      rcases BusyState.step_core hc with ⟨i, d, rfl, hi, rfl⟩ | ⟨a, hcore⟩
      · exact busyCredit_submit (Exclusive.State.running_of_none (hfree i rfl)) hi
      · simp only [busyCredit, hcore]
        congr 2
        exact Finset.sum_congr rfl fun i _ => BusyState.owed_congr (by rw [hcore]; rfl) _
    rw [hcredit]
    exact Int.add_comm ..

/-- A thread that is reporting a completion found one, so the pulls still need something. -/
theorem busyCredit_nonneg (hinv : s.Inv (busyClient impl ι)) {x : VdqState ι}
    (habs : s.client.Abs x) :
    0 ≤ busyCredit s := by
  have hterm : ∀ i, -(if s.client.claim i ≠ none then 1 else 0) ≤
      s.client.owed i (s.running i) := by
    intro i
    cases hr : s.running i with
    | none =>
      simp only [BusyState.owed]
      split <;> split <;> omega
    | some o =>
      obtain ⟨hthread, hready⟩ := hinv.running hr
      cases o with
      | decAndTest j d =>
        show _ ≤ (1 : Int)
        split <;> omega
      | restore j =>
        show _ ≤ (0 : Int)
        split <;> omega
      | complete j k =>
        obtain rfl : j = i := hthread
        have hc : s.client.claim j = some k := hready
        show _ ≤ (-1 : Int)
        simp [hc]
  have hsum := Finset.sum_le_sum fun i (_ : i ∈ Finset.univ) => hterm i
  have hclaims : (s.client.claims : Int) = ∑ i, if s.client.claim i ≠ none then 1 else 0 := by
    rw [BusyState.claims, Count.of_eq_sum, Nat.cast_sum]
    refine Finset.sum_congr rfl fun i _ => ?_
    split <;> simp
  rw [Finset.sum_neg_distrib, ← hclaims] at hsum
  have hle := habs.claims_le
  rw [busyCredit]
  omega

/-- The operations that a run starts are two for each call of `qbman_swp_pull`, less those that the
pulls still need. -/
theorem busyCredit_steps (hcard : Fintype.card ι < 2 ^ 32) (hs : (busySys impl ι).Reach s)
    {ls : List (Exclusive.Label ι (BusyOp ι) (BusyLabel ι))} (h : (busySys impl ι).Steps s ls t) :
    (ls.countP Exclusive.Label.isStart : Int) + busyCredit t =
      busyCredit s + 2 * ls.countP isPull := by
  induction h with
  | nil => simp
  | cons hstep _ ih =>
    obtain ⟨hinv, x, habs⟩ := busySys_reach hcard hs
    have hl := busyCredit_step hinv habs hstep
    have hrest := ih (hs.step hstep)
    rw [List.countP_cons, List.countP_cons]
    split at hl <;> split at hl <;> simp [*] <;> omega

theorem busyCredit_init (h : (busySys impl ι).init s) : busyCredit s = 0 := by
  obtain ⟨⟨⟨-, hidle, hsub, hcomp⟩, -⟩, hnone⟩ := h
  have hterm : ∀ i, s.client.owed i (s.running i) = 0 := fun i => by
    rw [Exclusive.State.running_of_none (hnone i)]
    simp only [BusyState.owed, hidle i]
  simp [busyCredit, hterm, hsub, hcomp]

end Credit

/-- Every run of pulls and polls of `n` threads takes at most `8 * n` instructions for each call of
`qbman_swp_pull`, and `4` for each store-exclusive that the hardware refuses: no schedule keeps the
loops from ending. -/
theorem busySys_bounded (impl : Impl) (hcard : Fintype.card ι < 2 ^ 32)
    {s t : Exclusive.State (BusyState ι) ι (BusyOp ι) U32}
    {ls : List (Exclusive.Label ι (BusyOp ι) (BusyLabel ι))} (hinit : (busySys impl ι).init s)
    (h : (busySys impl ι).Steps s ls t) :
    ls.countP Exclusive.Label.isInstr ≤
      8 * Fintype.card ι * ls.countP isPull + 4 * ls.countP Exclusive.Label.isRefusal := by
  have hreach : (busySys impl ι).Reach t := ⟨s, ls, hinit, h⟩
  obtain ⟨hinv, x, habs⟩ := busySys_reach hcard hreach
  have hnonneg := busyCredit_nonneg hinv habs
  have hcredit := busyCredit_steps hcard (.of_init hinit) h
  rw [busyCredit_init hinit] at hcredit
  have hstarts : ls.countP Exclusive.Label.isStart ≤ 2 * ls.countP isPull := by omega
  have hle := (busyClient impl ι).instrs_le hinit h
  have hmul := Nat.mul_le_mul_left (4 * Fintype.card ι) hstarts
  rw [← Nat.mul_assoc, show 4 * Fintype.card ι * 2 = 8 * Fintype.card ι by omega] at hmul
  omega

theorem busySys_bounded_race : ∃ s t, (busySys .direct (Fin 2)).Steps s busyRace t ∧
    busyRace.countP Exclusive.Label.isInstr ≤ 8 * 2 * busyRace.countP isPull + 4 * 0 := by
  obtain ⟨s, t, hinit, hrun, -⟩ := busyRace_steps
  exact ⟨s, t, hrun, busySys_bounded .direct (by decide) hinit hrun⟩

end Qbman
