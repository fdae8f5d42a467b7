import Qbman.Vdq.Accounting

/-!
# A storage array that is used again too early

An answered pull leaves its token in its first entry. If the array of a later pull has that entry
before a poll has seen the answer, the hardware writes the token of the later pull there. Then
`qbman_check_command_complete` looks up the wrong portal, and the portal of the earlier pull is busy
in every continuation (`PortalsState.Lost.run`, `pullsSys_reuse_lost`).
-/

namespace Qbman

namespace PortalsState

variable {live : Addr → Bool} {reuse : Bool} {s t : PortalsState} {l : PullsLabel} {a : Addr}
  {n : Nat} {x : U64}

/-- With reuse or without, every step keeps every portal in order. -/
theorem Ports.step (h : s.Ports live) (hstep : (pullsSys live reuse).step s l t) :
    t.Ports live := by
  cases l with
  | pull a d =>
    obtain ⟨ha, hd, -, rfl⟩ := hstep
    by_cases hret : (qbmanSwpPull (s.port a).impl.ptrs (s.port a).swp d).ret.1 = 0
    · obtain ⟨-, -, hdesc, hP⟩ := (h.port a ha).accept hd hret
      have hports := h.setPort hP hdesc
      rw [afterPull, if_pos hret]
      exact ⟨hports.port, hports.map⟩
    · rw [afterPull, if_neg hret, Port.Inv.reject hret, setPort_eq]
      exact h
  | dqrrNext a r =>
    obtain ⟨ha, q, hq, rfl⟩ := hstep
    obtain ⟨hP, hdesc, -⟩ := (h.port a ha).dqrrNext hq
    exact h.setPort hP hdesc
  | produce a l =>
    obtain ⟨ha, hl, q, hq, rfl⟩ := hstep
    refine h.setPort ((h.port a ha).produce hl hq) ?_
    obtain ⟨-, -, rfl⟩ := hq
    rfl
  | expire a k l =>
    obtain ⟨ha, hl, r, q, hr, hsto, hexp, hq, rfl⟩ := hstep
    refine h.setPort ((h.port a ha).expire hr hsto hexp hl hq) ?_
    obtain ⟨-, -, rfl⟩ := hq
    rfl
  | consume a k =>
    obtain ⟨ha, q, hq, rfl⟩ := hstep
    refine h.setPort ((h.port a ha).consume hq) ?_
    obtain ⟨dq, -, -, rfl⟩ := hq
    rfl
  | fill a k y l =>
    obtain ⟨ha, r, hr, -, -, -, -, rfl⟩ := hstep
    have hP : ((s.port a).setPull k { r with filled := Function.update r.filled y true }).Inv :=
      (h.port a ha).setPull hr rfl rfl
    have hports := h.setPort hP rfl
    exact ⟨hports.port, hports.map⟩
  | finish a k =>
    obtain ⟨ha, r, hr, rfl⟩ := hstep
    exact h.setPort ((h.port a ha).setPull hr rfl rfl) rfl
  | hasNewResult a y =>
    obtain ⟨ha, hy, -, rfl⟩ := hstep
    by_cases htok : dqTok (s.host y) = 0
    · rwa [afterHasNewResult_zero htok]
    · have hports := h.setPort ((h.port a ha).hooked hy) rfl
      rw [afterHasNewResult_hooked htok]
      exact ⟨hports.port, hports.map⟩
  | checkCommandComplete y =>
    obtain ⟨hy, o, ho, rfl⟩ := hstep
    rcases afterCheckCommandComplete_some ho with ⟨-, hafter⟩ | ⟨-, c, hc, -, hafter⟩
    · rwa [hafter]
    · have hports := h.setPort ((h.port c hc).hooked hy) rfl
      rw [hafter]
      exact ⟨hports.port, hports.map⟩
  | checkNewResult y =>
    obtain ⟨-, -, rfl⟩ := hstep
    exact ⟨h.port, h.map⟩

theorem Ports.reach (h : (pullsSys live reuse).Reach s) : s.Ports live :=
  Trans.Sys.Inductive.reach
    ⟨fun _ hs => (inv_init hs).toPorts, fun _ _ _ hI hstep => hI.step hstep⟩ h

/-- The release of the `n`-th pull of portal `a` is lost: it waits for the entry at `x`, whose token
does not lead to the portal, which is not polled for it, and is not written for it any more. -/
structure Lost (s : PortalsState) (a : Addr) (n : Nat) (x : U64) : Prop where
  incs : (s.port a).incs = n
  pending : ∃ r, (s.port a).pending = some r ∧ r.desc.toStorage = true ∧ r.desc.rspAddrVirt = x
  written : ∀ r ∈ (s.port a).pulls, r.done = false → x ∉ r.desc.entries
  owner : s.owner x ≠ some a
  tok : dqTok (s.host x) ≠ 0 → s.portalIdxMap (((dqTok (s.host x)).toNat : Int) - 1) ≠ some a

namespace Lost

/-- The other portals' steps, and those that leave the portal's pulls alone. -/
theorem setPort (h : s.Lost a n x) {b : Addr} {P : Port}
    (hsame : b = a → P.pulls = (s.port a).pulls ∧ P.incs = (s.port a).incs) :
    (s.setPort b P).Lost a n x := by
  by_cases hab : a = b
  · subst hab
    obtain ⟨hpulls, hincs⟩ := hsame rfl
    have hport : (s.setPort a P).port a = P := setPort_self P
    refine ⟨?_, ?_, ?_, h.owner, h.tok⟩
    · rw [hport, hincs]
      exact h.incs
    · rw [hport, Port.pending, hpulls, hincs]
      exact h.pending
    · rw [hport, hpulls]
      exact h.written
  · have hport : (s.setPort b P).port a = s.port a := setPort_of_ne P hab
    refine ⟨?_, ?_, ?_, h.owner, h.tok⟩
    · rw [hport]
      exact h.incs
    · rw [hport]
      exact h.pending
    · rw [hport]
      exact h.written

theorem setHost (h : s.Lost a n x) {y : U64} {e : Line}
    (he : y = x → dqTok e ≠ 0 → s.portalIdxMap (((dqTok e).toNat : Int) - 1) ≠ some a) :
    Lost { s with host := Function.update s.host y e } a n x := by
  refine ⟨h.incs, h.pending, h.written, h.owner, ?_⟩
  show dqTok (Function.update s.host y e x) ≠ 0 →
    s.portalIdxMap (((dqTok (Function.update s.host y e x)).toNat : Int) - 1) ≠ some a
  by_cases hyx : x = y
  · subst hyx
    rw [Function.update_self]
    exact he rfl
  · rw [Function.update_of_ne hyx]
    exact h.tok

/-- The hardware goes on with a pull. -/
theorem setPull (h : s.Lost a n x) {b : Addr} {k : Nat} {r r' : PullRec}
    (hr : (s.port b).pulls[k]? = some r) (hdesc : r'.desc = r.desc)
    (hdone : r'.done = false → r.done = false) :
    (s.setPort b ((s.port b).setPull k r')).Lost a n x := by
  by_cases hab : a = b
  · subst hab
    have hport : (s.setPort a ((s.port a).setPull k r')).port a = (s.port a).setPull k r' :=
      setPort_self _
    refine ⟨?_, ?_, fun r₁ hr₁ hdone₁ => ?_, h.owner, h.tok⟩
    · rw [hport]
      exact h.incs
    · rw [hport, Port.Inv.setPull_pending _ hr]
      obtain ⟨r₀, hr₀, hsto, hx⟩ := h.pending
      split
      · rename_i hk
        subst hk
        obtain rfl := Option.some.inj (hr.symm.trans hr₀)
        exact ⟨r', rfl, hdesc ▸ hsto, hdesc ▸ hx⟩
      · exact ⟨r₀, hr₀, hsto, hx⟩
    · rw [hport] at hr₁
      rcases List.mem_or_eq_of_mem_set hr₁ with hmem | rfl
      · exact h.written r₁ hmem hdone₁
      · rw [hdesc]
        exact h.written r (List.mem_of_getElem? hr) (hdone hdone₁)
  · exact h.setPort fun hba => absurd hba.symm hab

/-- A storage poll of another entry, or at another portal. -/
theorem hooked (h : s.Lost a n x) (hports : s.Ports live) (ha : live a = true) {b : Addr} {y : U64}
    (hy : y ≠ 0) (hne : b = a → y ≠ x) : (s.setPort b ((s.port b).hooked y)).Lost a n x := by
  refine h.setPort fun hba => ?_
  subst hba
  obtain ⟨r, hr, -, hx⟩ := h.pending
  have hno : ¬ ∃ rec, (s.port b).pending = some rec ∧ rec.desc.toStorage = true ∧
      rec.desc.rspAddrVirt = y := by
    rintro ⟨r', hr', -, hy'⟩
    obtain rfl := Option.some.inj (hr.symm.trans hr')
    exact hne rfl (hy'.symm.trans hx)
  rw [((hports.port b ha).hook hy).2 hno]
  exact ⟨rfl, rfl⟩

theorem step (h : s.Lost a n x) (hports : s.Ports live) (ha : live a = true)
    (hstep : (pullsSys live reuse).step s l t) : t.Lost a n x := by
  obtain ⟨r₀, hr₀, hsto₀, hx₀⟩ := h.pending
  cases l with
  | pull b d =>
    obtain ⟨hb, hd, -, rfl⟩ := hstep
    by_cases hret : (qbmanSwpPull (s.port b).impl.ptrs (s.port b).swp d).ret.1 = 0
    · -- Portal `a` accepts no pull.
      have hba : b ≠ a := by
        rintro rfl
        rw [((hports.port b hb).accept hd hret).1] at hr₀
        cases hr₀
      have hset := h.setPort (P := (s.port b).afterPull
        (qbmanSwpPull (s.port b).impl.ptrs (s.port b).swp d)) fun he => absurd he hba
      rw [afterPull, if_pos hret]
      refine ⟨hset.incs, hset.pending, hset.written, ?_, hset.tok⟩
      show (if x ∈ _ then some b else s.owner x) ≠ some a
      split
      · exact fun he => hba (Option.some.inj he)
      · exact h.owner
    · rw [afterPull, if_neg hret, Port.Inv.reject hret, setPort_eq]
      exact h
  | dqrrNext b m =>
    obtain ⟨hb, q, hq, rfl⟩ := hstep
    obtain ⟨-, -, ⟨-, r, hr, hsto, -⟩ | ⟨hincs, -⟩⟩ := (hports.port b hb).dqrrNext hq
    · refine h.setPort fun hba => ?_
      subst hba
      obtain rfl := Option.some.inj (hr₀.symm.trans hr)
      rw [hsto₀] at hsto
      cases hsto
    · refine h.setPort fun hba => ?_
      subst hba
      exact ⟨rfl, hincs⟩
  | produce b e =>
    obtain ⟨-, -, q, ⟨-, -, rfl⟩, rfl⟩ := hstep
    refine h.setPort fun hba => ?_
    subst hba
    exact ⟨rfl, rfl⟩
  | expire b k e =>
    obtain ⟨hb, -, r, q, hr, hsto, hexp, ⟨-, -, rfl⟩, rfl⟩ := hstep
    refine h.setPort fun hba => ?_
    subst hba
    obtain rfl := Option.some.inj
      (hr₀.symm.trans ((hports.port b hb).pending_of_unexpired hr hsto hexp).2)
    rw [hsto₀] at hsto
    cases hsto
  | consume b k =>
    obtain ⟨-, q, ⟨dq, -, -, rfl⟩, rfl⟩ := hstep
    refine h.setPort fun hba => ?_
    subst hba
    exact ⟨rfl, rfl⟩
  | fill b k y e =>
    obtain ⟨hb, r, hr, hdone, hmem, -, htok, rfl⟩ := hstep
    have hset : (s.setPort b ((s.port b).setPull k { r with
        filled := Function.update r.filled y true })).Lost a n x := h.setPull hr rfl id
    refine hset.setHost fun hyx _ => ?_
    subst hyx
    have hba : b ≠ a := by
      rintro rfl
      exact h.written r (List.mem_of_getElem? hr) hdone hmem
    -- The token leads to the portal of the pull.
    show s.portalIdxMap _ ≠ some a
    rw [htok, ((hports.port b hb).own r (List.mem_of_getElem? hr)).tok, Int.add_sub_cancel,
      hports.map b hb]
    exact fun he => hba (Option.some.inj he)
  | finish b k =>
    obtain ⟨-, r, hr, rfl⟩ := hstep
    exact h.setPull hr rfl fun hdone => Bool.noConfusion hdone
  | hasNewResult b y =>
    obtain ⟨hb, hy, howner, rfl⟩ := hstep
    by_cases htok : dqTok (s.host y) = 0
    · rwa [afterHasNewResult_zero htok]
    · have hne : b = a → y ≠ x := by
        rintro rfl rfl
        exact h.owner howner
      have hset := h.hooked hports ha hy hne
      rw [afterHasNewResult_hooked htok]
      exact hset.setHost fun _ hne => absurd (dqTok_setTok _ 0) hne
  | checkCommandComplete y =>
    obtain ⟨hy, o, ho, rfl⟩ := hstep
    rcases afterCheckCommandComplete_some ho with ⟨-, hafter⟩ | ⟨htok, c, -, hmap, hafter⟩
    · rwa [hafter]
    · have hne : c = a → y ≠ x := by
        rintro rfl rfl
        exact h.tok htok hmap
      have hset := h.hooked hports ha hy hne
      rw [hafter]
      exact ⟨hset.incs, hset.pending, hset.written, hset.owner, hset.tok⟩
  | checkNewResult y =>
    obtain ⟨-, -, rfl⟩ := hstep
    refine h.setHost fun hyx hne => ?_
    unfold qbmanCheckNewResult at hne ⊢
    split at hne
    · rename_i h0
      exact absurd h0 hne
    · exact absurd (dqTok_setTok _ 0) hne

/-- A lost release is lost in every continuation: the portal accepts no pull any more. -/
theorem run (h : s.Lost a n x) (hports : s.Ports live) (ha : live a = true) {ls : List PullsLabel}
    (hrun : (pullsSys live reuse).Steps s ls t) :
    (t.port a).swp.vdq.busy = 0 ∧ (t.port a).incs = n ∧ (t.port a).pulls.length = n + 1 := by
  obtain ⟨hports', hlost⟩ := hrun.keeps (I := fun s => s.Ports live ∧ s.Lost a n x)
    (fun _ _ _ hI hstep => ⟨hI.1.step hstep, hI.2.step hI.1 ha hstep⟩) ⟨hports, h⟩
  obtain ⟨r, hr, -, -⟩ := hlost.pending
  have hP := hports'.port a ha
  exact ⟨hP.busy_of_pending hr, hlost.incs, hlost.incs ▸ hP.length_of_pending hr⟩

end Lost

/-! ## A run with reuse -/

/-- A pull of two frames to the array that starts one entry below that of `pullOne`. -/
def pullTwo : QbmanPullDesc := PullDescSet.build [.storage 0xc0 0xc0 0, .numframes 2]

/-- Its record at the second portal. -/
def recTwo : PullRec := { desc := { pullTwo with tok := 2 } }

/-- The record of `pullOne`, answered. -/
def recAnswered : PullRec := { recOne with filled := Function.update recOne.filled 0x100 true }

/-- The hardware writes no more entries for the first pull of a portal. -/
def finished (s : PortalsState) (a : Addr) (r : PullRec) : PortalsState :=
  s.setPort a ((s.port a).setPull 0 { r with done := true })

/-- The pull of the second portal is answered in the entry that nobody has polled for the first. -/
def reused : PortalsState :=
  ((oneAnswered.finished 0x1000 recAnswered).pulled 0x3000 pullTwo).answered 0x3000 recTwo

theorem reach_reused : (pullsSys twoLive true).Reach reused := by
  have hfinish : (pullsSys twoLive true).step oneAnswered (.finish 0x1000 0)
      (oneAnswered.finished 0x1000 recAnswered) := ⟨rfl, recAnswered, rfl, rfl⟩
  -- The first pull is finished, so the array is free.
  have hfree : (oneAnswered.finished 0x1000 recAnswered).Free twoLive pullTwo := by
    intro _
    refine ⟨by decide, fun b k r hb hr hdone => ?_⟩
    rcases Bool.or_eq_true_iff.mp hb with h | h
    · obtain rfl : b = 0x1000 := of_decide_eq_true h
      obtain rfl := List.mem_singleton.mp (List.mem_of_getElem? hr)
      cases hdone
    · obtain rfl : b = 0x3000 := of_decide_eq_true h
      cases List.mem_of_getElem? hr
  have hpull : (pullsSys twoLive true).step (oneAnswered.finished 0x1000 recAnswered)
      (.pull 0x3000 pullTwo) ((oneAnswered.finished 0x1000 recAnswered).pulled 0x3000 pullTwo) :=
    ⟨rfl, ⟨_, rfl⟩, fun _ => ⟨hfree, .inl rfl⟩, rfl⟩
  have hfill : (pullsSys twoLive true).step
      ((oneAnswered.finished 0x1000 recAnswered).pulled 0x3000 pullTwo)
      (.fill 0x3000 0 0x100 (setTok (setTok 0 1) 2)) reused :=
    ⟨rfl, recTwo, rfl, rfl, by decide, rfl, dqTok_setTok _ _, rfl⟩
  exact (((reach_oneAnswered true).step hfinish).step hpull).step hfill

theorem lost_reused : reused.Lost 0x1000 0 0x100 := by
  refine ⟨rfl, ⟨_, rfl, rfl, rfl⟩, fun r hr hdone => ?_, by decide, by decide⟩
  obtain rfl := List.mem_singleton.mp hr
  cases hdone

end PortalsState

open PortalsState in
/-- The first storage entry of an accepted pull is there, its poll releases nothing, and no
continuation releases the pull. -/
theorem pullsSys_reuse_lost :
    ∃ s t, (pullsSys twoLive true).Reach s ∧
      (∃ r, (s.port 0x1000).pending = some r ∧ r.desc.toStorage = true ∧
        r.filled r.desc.rspAddrVirt = true) ∧
      (pullsSys twoLive true).step s (.checkCommandComplete 0x100) t ∧
      ¬ s.Accounted twoLive (.checkCommandComplete 0x100) t ∧
      ∀ ls u, (pullsSys twoLive true).Steps s ls u →
        (u.port 0x1000).swp.vdq.busy = 0 ∧ (u.port 0x1000).incs = 0 ∧
          (u.port 0x1000).pulls.length = 1 := by
  have hstep : (pullsSys twoLive true).step reused (.checkCommandComplete 0x100)
      (reused.afterCheckCommandComplete 0x100
        ((qbmanCheckCommandComplete reused.portalIdxMap (reused.swps twoLive) 0x100
          (reused.host 0x100)).get (by decide))) :=
    ⟨by decide, _, (Option.some_get _).symm, rfl⟩
  refine ⟨_, _, reach_reused, ⟨_, rfl, rfl, rfl⟩, hstep, fun hacc => ?_,
    fun ls u hrun => lost_reused.run (Ports.reach reach_reused) rfl hrun⟩
  rcases hacc 0x1000 rfl with ⟨hincs, -⟩ | ⟨-, hno⟩
  · exact absurd hincs (by decide)
  · exact hno ⟨_, rfl, rfl, rfl, rfl⟩

end Qbman
