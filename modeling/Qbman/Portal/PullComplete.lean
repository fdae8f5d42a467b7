import Qbman.Dqrr.Result
import Qbman.Portal.Whole

/-!
# What a user sees of its volatile dequeues

A pull ends for its user with a poll: of the ring, that returns a result for which
`qbman_result_DQ_is_pull_complete` holds, or of the first storage entry of the pull, that finds its
token (`Port.Ends`). In every run of a whole portal `qbman_swp_pull` accepts a command exactly if
each pull that it accepted has ended so; else it returns `-EBUSY`, and the one pull that has not
ended is the last one that was accepted (`wholeSys_pullComplete`).
-/

namespace Qbman

variable {impl : Impl} {mode : QbmanEqcrMode}

/-- The result is the last one of a pull, by the tests that a user makes. -/
def PullComplete (dq : Line) : Bool :=
  qbmanResultIsDQ dq && decide (qbmanResultDQIsPull dq ≠ 0) &&
    decide (qbmanResultDQIsPullComplete dq ≠ 0)

theorem pullComplete_eq (dq : Line) : PullComplete dq = dqFinal dq := by
  rw [Bool.eq_iff_iff, dqFinal_iff, PullComplete]
  simp only [Bool.and_eq_true, decide_eq_true_eq, and_assoc]

/-- The commands of these whose results come in the ring. -/
def ringPulls (ds : List QbmanPullDesc) : Nat := ds.countP fun d => !d.toStorage

theorem ringPulls_concat (ds : List QbmanPullDesc) (d : QbmanPullDesc) :
    ringPulls (ds ++ [d]) = ringPulls ds + if d.toStorage then 0 else 1 := by
  rw [ringPulls, List.countP_append, List.countP_singleton]
  cases d.toStorage <;> rfl

namespace Port

variable {P Q : Port} {l : PortLabel}

/-- The poll finds the end of the pull: its last result in the ring, or the token of its first
storage entry. -/
def Ends (P : Port) (rec : PullRec) : PortLabel → Prop
  | .dqrrNext r => rec.desc.toStorage = false ∧ ∃ off,
      (qbmanSwpDqrrNext P.impl.ptrs P.swp r).ret = some off ∧
      PullComplete (P.ring.cena.line off) = true
  | .hasNewResult x l => rec.desc.toStorage = true ∧ rec.desc.rspAddrVirt = x ∧
      (qbmanResultHasNewResult P.swp x l).1 = 1
  | _ => False

/-- As many last results were polled as pulls to the ring are complete. -/
def Seen (P : Port) : Prop :=
  P.ring.returned.countP PullComplete = ringPulls ((P.pulls.map PullRec.desc).take P.incs)

/-- A step that neither polls the ring nor completes a pull. -/
theorem Seen.congr (h : P.Seen) (hreturned : Q.ring.returned = P.ring.returned)
    (hpulls : Q.pulls.map PullRec.desc = P.pulls.map PullRec.desc) (hincs : Q.incs = P.incs) :
    Q.Seen := by
  rw [Seen, hreturned, hpulls, hincs]
  exact h

/-- A new pull is not complete. -/
theorem Seen.pull (h : P.Seen) (hinv : P.Inv) (d : QbmanPullDesc) : (P.afterPullCall d).Seen := by
  have hle : P.incs ≤ (P.pulls.map PullRec.desc).length := by
    rw [List.length_map]
    exact hinv.incs_le
  show P.ring.returned.countP PullComplete = ringPulls ((List.map PullRec.desc
    (if (qbmanSwpPull P.impl.ptrs P.swp d).ret.1 = 0 then _ else _)).take P.incs)
  split
  · rw [List.map_append, List.take_append_of_le_length hle]
    exact h
  · exact h

/-- The pull that completes is the one that was outstanding. -/
theorem take_pending {rec : PullRec} (hrec : P.pending = some rec) :
    (P.pulls.map PullRec.desc).take (P.incs + 1) =
      (P.pulls.map PullRec.desc).take P.incs ++ [rec.desc] := by
  have hget : (P.pulls.map PullRec.desc)[P.incs]? = some rec.desc := by
    rw [List.getElem?_map]
    exact congrArg (Option.map PullRec.desc) hrec
  rw [List.take_add_one, hget]
  rfl

/-- A poll of the ring that returns a last result, or not. -/
theorem Inv.poll_cases (hinv : P.Inv) {r : Regions} {q : DqrrState}
    (hstep : (dqrrSys P.impl P.resetBug).step P.ring (.poll r) q) :
    ((P.polled q).incs = P.incs + 1 ∧
        q.returned.countP PullComplete = P.ring.returned.countP PullComplete + 1 ∧
        ∃ rec, P.pending = some rec ∧ rec.desc.toStorage = false ∧ P.Ends rec (.dqrrNext r)) ∨
      ((P.polled q).incs = P.incs ∧
        q.returned.countP PullComplete = P.ring.returned.countP PullComplete ∧
        ∀ rec, ¬ P.Ends rec (.dqrrNext r)) := by
  obtain ⟨-, -, hcases⟩ := hinv.dqrrNext hstep
  obtain ⟨hcena, -, rfl⟩ := hstep
  obtain ⟨-, hvnone, hvsome⟩ := qbmanSwpDqrrNext_hook P.impl.ptrs P.ring.swp r
  have hswp := P.ring.afterPoll_swp P.impl r
  cases hret : (qbmanSwpDqrrNext P.impl.ptrs P.ring.swp r).ret with
  | none =>
    have hvdq := hvnone hret
    rw [← hswp] at hvdq
    rw [polled_same (congrArg Vdq.busy hvdq)]
    refine .inr ⟨rfl, ?_, fun rec hends => ?_⟩
    · rw [DqrrState.afterPoll_none hret]
    · obtain ⟨-, off, hoff, -⟩ := hends
      cases hret.symm.trans hoff
  | some off =>
    have hvdq := hvsome off hret
    rw [← hswp, hcena] at hvdq
    have hcount : (P.ring.afterPoll P.impl r).returned.countP PullComplete =
        P.ring.returned.countP PullComplete + if dqFinal (P.ring.cena.line off) then 1 else 0 := by
      rw [DqrrState.afterPoll_some hret, List.countP_append, List.countP_singleton, pullComplete_eq]
    by_cases hf : dqFinal (P.ring.cena.line off) = true
    · rw [if_pos hf] at hvdq hcount
      have hincs := polled_inc (congrArg Vdq.busy hvdq)
      rw [hincs] at hcases ⊢
      obtain ⟨-, rec, hrec, hsto, -⟩ := hcases.resolve_right fun h' => Nat.succ_ne_self _ h'.1
      exact .inl ⟨rfl, hcount, rec, hrec, hsto, hsto, off, hret, (pullComplete_eq _).trans hf⟩
    · rw [if_neg hf] at hvdq hcount
      rw [polled_same (congrArg Vdq.busy hvdq)]
      refine .inr ⟨rfl, hcount, fun rec hends => ?_⟩
      obtain ⟨-, off', hoff, hcomplete⟩ := hends
      obtain rfl := Option.some.inj (hret.symm.trans hoff)
      exact hf ((pullComplete_eq _).symm.trans hcomplete)

theorem Seen.dqrrNext (h : P.Seen) (hinv : P.Inv) {r : Regions} {q : DqrrState}
    (hstep : (dqrrSys P.impl P.resetBug).step P.ring (.poll r) q) : (P.polled q).Seen := by
  show q.returned.countP PullComplete =
      ringPulls ((P.pulls.map PullRec.desc).take (P.polled q).incs)
  rcases hinv.poll_cases hstep with ⟨hincs, hcount, rec, hrec, hsto, -⟩ | ⟨hincs, hcount, -⟩
  · rw [hincs, hcount, h, take_pending hrec, ringPulls_concat, hsto]
    rfl
  · rw [hincs, hcount, h]

/-- A storage poll that finds the token it waits for, or not. -/
theorem Inv.storage_cases (hinv : P.Inv) {x : U64} (hx : x ≠ 0) (l : Line) :
    ((P.withSwp (qbmanResultHasNewResult P.swp x l).2.1).incs = P.incs + 1 ∧
        ∃ rec, P.pending = some rec ∧ rec.desc.toStorage = true ∧ P.Ends rec (.hasNewResult x l)) ∨
      ((P.withSwp (qbmanResultHasNewResult P.swp x l).2.1).incs = P.incs ∧
        ¬ ∃ rec, P.pending = some rec ∧ P.Ends rec (.hasNewResult x l)) := by
  rw [withSwp_hasNewResult]
  by_cases htok : dqTok l = 0
  · rw [if_pos htok]
    refine .inr ⟨rfl, ?_⟩
    rintro ⟨_, _, _, _, hone⟩
    rw [qbmanResultHasNewResult, if_pos htok] at hone
    cases hone
  · rw [if_neg htok]
    have hone : (qbmanResultHasNewResult P.swp x l).1 = 1 := by
      rw [qbmanResultHasNewResult, if_neg htok]
    obtain ⟨hyes, hno⟩ := hinv.hook hx
    by_cases hrec : ∃ rec, P.pending = some rec ∧ rec.desc.toStorage = true ∧
      rec.desc.rspAddrVirt = x
    · obtain ⟨-, hincs⟩ := hyes hrec
      obtain ⟨rec, hrec, hsto, haddr⟩ := hrec
      exact .inl ⟨hincs, rec, hrec, hsto, hsto, haddr, hone⟩
    · rw [hno hrec]
      refine .inr ⟨rfl, ?_⟩
      rintro ⟨rec, hp, hsto, haddr, -⟩
      exact hrec ⟨rec, hp, hsto, haddr⟩

theorem Seen.hasNewResult (h : P.Seen) (hinv : P.Inv) {x : U64} (hx : x ≠ 0) (l : Line) :
    (P.withSwp (qbmanResultHasNewResult P.swp x l).2.1).Seen := by
  show P.ring.returned.countP PullComplete = ringPulls ((P.pulls.map PullRec.desc).take
    (P.withSwp (qbmanResultHasNewResult P.swp x l).2.1).incs)
  rcases hinv.storage_cases hx l with ⟨hincs, rec, hrec, hsto, -⟩ | ⟨hincs, -⟩
  · rw [hincs, take_pending hrec, ringPulls_concat, hsto]
    exact h
  · rw [hincs]
    exact h

theorem Seen.step (h : P.Seen) (hinv : P.Inv) (hstep : (portSys impl).step P l Q) : Q.Seen := by
  cases l with
  | pull d =>
    obtain ⟨-, rfl⟩ := hstep
    exact h.pull hinv d
  | dqrrNext r =>
    obtain ⟨q, hq, rfl⟩ := hstep
    exact h.dqrrNext hinv hq
  | hasNewResult x l =>
    obtain ⟨hx, rfl⟩ := hstep
    exact h.hasNewResult hinv hx l
  | consume k =>
    obtain ⟨q, ⟨dq, -, -, rfl⟩, rfl⟩ := hstep
    exact h.congr rfl rfl rfl
  | produce l =>
    obtain ⟨-, q, ⟨-, -, rfl⟩, rfl⟩ := hstep
    exact h.congr rfl rfl rfl
  | expire k l =>
    obtain ⟨-, r, q, hr, -, -, ⟨-, -, rfl⟩, rfl⟩ := hstep
    exact h.congr rfl (setPull_desc hr rfl) rfl
  | fill k x =>
    obtain ⟨r, hr, -, -, rfl⟩ := hstep
    exact h.congr rfl (setPull_desc hr rfl) rfl
  | finish k =>
    obtain ⟨r, hr, rfl⟩ := hstep
    exact h.congr rfl (setPull_desc hr rfl) rfl

/-- The last results that were polled, when all pulls are complete. -/
theorem Seen.all (h : P.Seen) (hall : P.incs = P.pulls.length) :
    ringPulls (P.pulls.map PullRec.desc) = P.ring.returned.countP PullComplete := by
  rw [h, List.take_of_length_le]
  rw [List.length_map, hall]

end Port

/-- A poll of this step finds the end of the pull that is not complete. -/
def Whole.Ends (s : Whole impl mode) (l : Σ i, (portalPart impl mode i).Label) : Prop :=
  ∃ rec k, Port.pending (s .dqrr) = some rec ∧ l = ⟨.dqrr, k⟩ ∧ Port.Ends (s .dqrr) rec k

end Qbman
