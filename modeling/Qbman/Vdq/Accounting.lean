import Qbman.Vdq.Port

/-!
# The accounting of volatile dequeues across portals

While a pull to storage is not released, only the hardware working for it writes its first entry,
whose token is then that of its portal (`PortalsState.Waiting`). So a storage poll of that entry, by
whichever function, finds the right portal, and a poll of any other entry releases nothing
(`pullsSys_accounting`). The storage arrays have no unread first entry of another pull; what happens
otherwise is in `Qbman.Vdq.Reuse`.
-/

namespace Qbman

theorem QbmanPullDesc.first_mem {d : QbmanPullDesc} (h : d.toStorage = true) :
    d.rspAddrVirt ∈ d.entries := by
  rw [entries, if_pos h, List.mem_map]
  exact ⟨0, List.mem_range.mpr (Nat.succ_pos _), BitVec.add_zero _⟩

namespace PortalsState

/-- The pull `r` of portal `a` waits for its first storage entry. -/
structure Waiting (live : Addr → Bool) (s : PortalsState) (a : Addr) (r : PullRec) : Prop where
  owner : s.owner r.desc.rspAddrVirt = some a
  reported : s.reported r.desc.rspAddrVirt = false
  tok : dqTok (s.host r.desc.rspAddrVirt) =
    if r.filled r.desc.rspAddrVirt then r.desc.tok else 0
  /-- No other command writes the entry. -/
  writer : ∀ b (k : Nat) r', live b = true → (s.port b).pulls[k]? = some r' → r'.done = false →
    r.desc.rspAddrVirt ∈ r'.desc.entries → b = a ∧ k = (s.port a).incs

/-- Every live portal is in order, and in the table at its own index. -/
structure Ports (live : Addr → Bool) (s : PortalsState) : Prop where
  port : ∀ a, live a = true → (s.port a).Inv
  map : ∀ a, live a = true → s.portalIdxMap (s.port a).swp.desc.idx = some a

structure Inv (live : Addr → Bool) (s : PortalsState) : Prop extends Ports live s where
  waiting : ∀ a r, live a = true → (s.port a).pending = some r → r.desc.toStorage = true →
    s.Waiting live a r

/-- Every counter goes up by one exactly if the poll sees what its portal waits for. -/
def Accounted (live : Addr → Bool) (s : PortalsState) (l : PullsLabel) (t : PortalsState) : Prop :=
  ∀ a, live a = true →
    ((t.port a).incs = (s.port a).incs + 1 ∧ ∃ r, (s.port a).pending = some r ∧ s.Sees a r l) ∨
      ((t.port a).incs = (s.port a).incs ∧ ¬ ∃ r, (s.port a).pending = some r ∧ s.Sees a r l)

variable {live : Addr → Bool} {s : PortalsState} {a : Addr}

@[simp] theorem setPort_self (P : Port) : (s.setPort a P).port a = P := Function.update_self ..

theorem setPort_of_ne (P : Port) {b : Addr} (h : b ≠ a) : (s.setPort a P).port b = s.port b :=
  Function.update_of_ne h ..

theorem setPort_eq (s : PortalsState) (a : Addr) : s.setPort a (s.port a) = s := by
  rw [setPort, Function.update_eq_self]

/-- No pull waits for the entry at `x`. -/
def Unawaited (live : Addr → Bool) (s : PortalsState) (x : U64) : Prop :=
  ∀ a r, live a = true → (s.port a).pending = some r → r.desc.toStorage = true →
    r.desc.rspAddrVirt ≠ x

/-! ## What a step leaves alone -/

theorem Ports.setPort (h : s.Ports live) {P : Port} (hP : P.Inv)
    (hdesc : P.swp.desc = (s.port a).swp.desc) : (s.setPort a P).Ports live := by
  refine ⟨fun b hb => ?_, fun b hb => ?_⟩
  · by_cases hba : b = a
    · rw [hba, setPort_self]
      exact hP
    · rw [setPort_of_ne P hba]
      exact h.port b hb
  · by_cases hba : b = a
    · subst hba
      rw [setPort_self, hdesc]
      exact h.map b hb
    · rw [setPort_of_ne P hba]
      exact h.map b hb

namespace Inv

/-- A portal whose pulls are the same, and of which one may have been released. -/
theorem setPort (h : s.Inv live) {P : Port} (hP : P.Inv)
    (hdesc : P.swp.desc = (s.port a).swp.desc) (hpulls : P.pulls = (s.port a).pulls)
    (hincs : P.incs = (s.port a).incs ∨ P.incs = (s.port a).incs + 1) :
    (s.setPort a P).Inv live := by
  have hsame : ∀ b r, live b = true → ((s.setPort a P).port b).pending = some r →
      (s.port b).pending = some r ∧ ((s.setPort a P).port b).incs = (s.port b).incs := by
    intro b r hb hr
    by_cases hba : b = a
    · subst hba
      rw [setPort_self] at hr ⊢
      rcases hincs with hi | hi
      · rw [Port.pending, hpulls, hi] at hr
        exact ⟨hr, hi⟩
      · rw [Port.pending, hpulls, hi, (h.port b hb).pending_succ] at hr
        cases hr
    · rw [setPort_of_ne P hba] at hr ⊢
      exact ⟨hr, rfl⟩
  refine ⟨h.toPorts.setPort hP hdesc, fun b r hb hr hsto => ?_⟩
  obtain ⟨hr₀, hi⟩ := hsame b r hb hr
  have hw := h.waiting b r hb hr₀ hsto
  refine ⟨hw.owner, hw.reported, hw.tok, fun c k r' hc hr' hdone hmem => ?_⟩
  rw [hi]
  refine hw.writer c k r' hc ?_ hdone hmem
  by_cases hca : c = a
  · subst hca
    rwa [setPort_self, hpulls] at hr'
  · rwa [setPort_of_ne P hca] at hr'

theorem setHost (h : s.Inv live) {x : U64} (hx : s.Unawaited live x) (l : Line) :
    Inv live { s with host := Function.update s.host x l } := by
  refine ⟨⟨h.port, h.map⟩, fun b r hb hr hsto => ?_⟩
  have hw := h.waiting b r hb hr hsto
  refine ⟨hw.owner, hw.reported, ?_, hw.writer⟩
  show dqTok (Function.update s.host x l r.desc.rspAddrVirt) = _
  rw [Function.update_of_ne (hx b r hb hr hsto)]
  exact hw.tok

theorem setReported (h : s.Inv live) {x : U64} (hx : s.Unawaited live x) :
    Inv live { s with reported := Function.update s.reported x true } := by
  refine ⟨⟨h.port, h.map⟩, fun b r hb hr hsto => ?_⟩
  have hw := h.waiting b r hb hr hsto
  refine ⟨hw.owner, ?_, hw.tok, hw.writer⟩
  show Function.update s.reported x true r.desc.rspAddrVirt = false
  rw [Function.update_of_ne (hx b r hb hr hsto)]
  exact hw.reported

/-- The hardware did something for the `k`-th pull of portal `a`: it still writes no more than
before, and what it wrote is in host memory. -/
theorem setPull (h : s.Inv live) (ha : live a = true) {P : Port} {k : Nat} {r r' : PullRec}
    (host : U64 → Line) (hP : P.Inv) (hdesc : P.swp.desc = (s.port a).swp.desc)
    (hincs : P.incs = (s.port a).incs) (hr : (s.port a).pulls[k]? = some r)
    (hset : P.pulls = (s.port a).pulls.set k r') (hd : r'.desc = r.desc)
    (hdone : r'.done = false → r.done = false)
    (hown : k = (s.port a).incs → r.desc.toStorage = true →
      dqTok (s.host r.desc.rspAddrVirt) =
          (if r.filled r.desc.rspAddrVirt then r.desc.tok else 0) →
        dqTok (host r.desc.rspAddrVirt) =
          if r'.filled r.desc.rspAddrVirt then r.desc.tok else 0)
    (hother : ∀ b r₀, live b = true → (s.port b).pending = some r₀ → r₀.desc.toStorage = true →
      ¬ (b = a ∧ k = (s.port a).incs) → host r₀.desc.rspAddrVirt = s.host r₀.desc.rspAddrVirt) :
    Inv live { s.setPort a P with host := host } := by
  have hlt := (List.getElem?_eq_some_iff.mp hr).1
  -- Where a record comes from.
  have hfrom : ∀ b (j : Nat) r₁, ((s.setPort a P).port b).pulls[j]? = some r₁ →
      ∃ r₀, (s.port b).pulls[j]? = some r₀ ∧ r₁.desc = r₀.desc ∧
        (r₁.done = false → r₀.done = false) := by
    intro b j r₁ hr₁
    by_cases hba : b = a
    · subst hba
      rw [setPort_self, hset] at hr₁
      by_cases hjk : k = j
      · subst hjk
        rw [List.getElem?_set_self hlt] at hr₁
        obtain rfl := Option.some.inj hr₁
        exact ⟨r, hr, hd, hdone⟩
      · rw [List.getElem?_set_ne hjk] at hr₁
        exact ⟨r₁, hr₁, rfl, id⟩
    · rw [setPort_of_ne P hba] at hr₁
      exact ⟨r₁, hr₁, rfl, id⟩
  have hincs' : ∀ b, ((s.setPort a P).port b).incs = (s.port b).incs := by
    intro b
    by_cases hba : b = a
    · rw [hba, setPort_self, hincs]
    · rw [setPort_of_ne P hba]
  have hports := h.toPorts.setPort hP hdesc
  refine ⟨⟨hports.port, hports.map⟩, fun b r₁ hb hr₁ hsto => ?_⟩
  have hr₁' : ((s.setPort a P).port b).pulls[((s.setPort a P).port b).incs]? = some r₁ := hr₁
  obtain ⟨r₀, hr₀, hd₀, -⟩ := hfrom b _ r₁ hr₁'
  rw [hincs' b] at hr₀
  have hw := h.waiting b r₀ hb hr₀ (hd₀ ▸ hsto)
  refine ⟨hd₀ ▸ hw.owner, hd₀ ▸ hw.reported, ?_, fun c j r₂ hc hr₂ hdone₂ hmem => ?_⟩
  · show dqTok (host r₁.desc.rspAddrVirt) = _
    by_cases hself : b = a ∧ k = (s.port a).incs
    · obtain ⟨rfl, rfl⟩ := hself
      obtain rfl := Option.some.inj (hr.symm.trans hr₀)
      rw [hincs' b, setPort_self, hset, List.getElem?_set_self hlt] at hr₁'
      obtain rfl := Option.some.inj hr₁'
      rw [hd₀]
      exact hown rfl (hd₀ ▸ hsto) hw.tok
    · have hsame : r₁ = r₀ := by
        by_cases hba : b = a
        · subst hba
          have hk : k ≠ (s.port b).incs := fun hk => hself ⟨rfl, hk⟩
          rw [hincs' b, setPort_self, hset, List.getElem?_set_ne hk] at hr₁'
          exact Option.some.inj (hr₁'.symm.trans hr₀)
        · rw [hincs' b, setPort_of_ne P hba] at hr₁'
          exact Option.some.inj (hr₁'.symm.trans hr₀)
      subst hsame
      rw [hother b r₁ hb hr₀ hsto hself]
      exact hw.tok
  · obtain ⟨r₃, hr₃, hd₃, hdone₃⟩ := hfrom c j r₂ hr₂
    show c = b ∧ j = ((s.setPort a P).port b).incs
    rw [hincs' b]
    exact hw.writer c j r₃ hc hr₃ (hdone₃ hdone₂) (hd₀ ▸ hd₃ ▸ hmem)

end Inv

/-! ## The calls and the events -/

theorem setPort_incs {P : Port} (hincs : P.incs = (s.port a).incs) (b : Addr) :
    ((s.setPort a P).port b).incs = (s.port b).incs := by
  by_cases hba : b = a
  · rw [hba, setPort_self, hincs]
  · rw [setPort_of_ne P hba]

/-- A step that is no poll, and leaves `incs` alone. -/
theorem accounted_of_incs {l : PullsLabel} {t : PortalsState}
    (hincs : ∀ b, (t.port b).incs = (s.port b).incs) (hsees : ∀ b r, ¬ s.Sees b r l) :
    Accounted live s l t := fun b _ =>
  .inr ⟨hincs b, fun ⟨r, _, hs⟩ => hsees b r hs⟩

/-- A step of portal `a` that is no poll. -/
theorem accounted_of_port {l : PullsLabel} {t : PortalsState} {P : Port}
    (ht : t.port = (s.setPort a P).port) (hincs : P.incs = (s.port a).incs)
    (hsees : ∀ b r, ¬ s.Sees b r l) : Accounted live s l t :=
  accounted_of_incs (fun b => by rw [ht, setPort_incs hincs]) hsees

/-! ### The storage polls -/

theorem afterHasNewResult_zero {x : U64} (htok : dqTok (s.host x) = 0) :
    s.afterHasNewResult a x = s := by
  rw [afterHasNewResult, qbmanResultHasNewResult, if_pos htok, Port.withSwp_self, setPort_eq]
  simp only [Function.update_eq_self]

theorem afterHasNewResult_hooked {x : U64} (htok : dqTok (s.host x) ≠ 0) :
    s.afterHasNewResult a x = { s.setPort a ((s.port a).hooked x) with
      host := Function.update s.host x (setTok (s.host x) 0) } := by
  rw [afterHasNewResult, qbmanResultHasNewResult, if_neg htok]
  rfl

/-- The poll finds no token, or the hook runs at the portal that the token leads to. -/
theorem afterCheckCommandComplete_some {x : U64} {o : Int × (Addr → Option QbmanSwp)}
    (ho : qbmanCheckCommandComplete s.portalIdxMap (s.swps live) x (s.host x) = some o) :
    (dqTok (s.host x) = 0 ∧ s.afterCheckCommandComplete x o = s) ∨
      (dqTok (s.host x) ≠ 0 ∧ ∃ c, live c = true ∧
        s.portalIdxMap (((dqTok (s.host x)).toNat : Int) - 1) = some c ∧
        s.afterCheckCommandComplete x o = { s.setPort c ((s.port c).hooked x) with
          reported := Function.update s.reported x true }) := by
  have hreload : ∀ b, (s.port b).reload (s.swps live b) = s.port b := by
    intro b
    unfold swps
    cases live b with
    | true => exact Port.withSwp_self _
    | false => rfl
  rcases qbmanCheckCommandComplete_some ho with ⟨htok, rfl⟩ | ⟨htok, c, p, hmap, hp, rfl⟩
  · refine .inl ⟨htok, ?_⟩
    unfold afterCheckCommandComplete
    simp only [hreload]
    rfl
  · have hc : live c = true ∧ p = (s.port c).swp := by
      unfold swps at hp
      split at hp
      · rename_i hc
        exact ⟨hc, (Option.some.inj hp).symm⟩
      · cases hp
    obtain ⟨hc, rfl⟩ := hc
    refine .inr ⟨htok, c, hc, hmap, ?_⟩
    have hport : (fun b => (s.port b).reload (Function.update (s.swps live) c
        (some { (s.port c).swp with vdq := (s.port c).swp.vdq.hook x }) b)) =
          Function.update s.port c ((s.port c).hooked x) := by
      funext b
      by_cases hbc : b = c
      · subst hbc
        rw [Function.update_self, Function.update_self]
        rfl
      · rw [Function.update_of_ne hbc, Function.update_of_ne hbc, hreload]
    unfold afterCheckCommandComplete
    simp only [hport]
    rfl

namespace Inv

/-- A record of a portal that accepted a pull is old, or it is the new one. -/
theorem getElem?_addPull {P : Port} {r₀ : PullRec} (hpulls : P.pulls = (s.port a).pulls ++ [r₀])
    (hlen : (s.port a).pulls.length = (s.port a).incs) {b : Addr} {j : Nat} {r : PullRec}
    (hr : ((s.setPort a P).port b).pulls[j]? = some r) :
    (s.port b).pulls[j]? = some r ∨ b = a ∧ j = (s.port a).incs ∧ r = r₀ := by
  by_cases hba : b = a
  · subst hba
    rw [setPort_self, hpulls, List.getElem?_append] at hr
    split at hr
    · exact .inl hr
    · rename_i hge
      rw [List.getElem?_singleton] at hr
      split at hr
      · exact .inr ⟨rfl, by omega, (Option.some.inj hr).symm⟩
      · cases hr
  · rw [setPort_of_ne P hba] at hr
    exact .inl hr

/-- An accepted pull: nothing waits but the new one, for a free entry. -/
theorem addPull (h : s.Inv live) {d : QbmanPullDesc} {tok : U8} {P : Port} (hP : P.Inv)
    (hdesc : P.swp.desc = (s.port a).swp.desc) (hincs : P.incs = (s.port a).incs)
    (hlen : (s.port a).pulls.length = (s.port a).incs)
    (hpulls : P.pulls = (s.port a).pulls ++ [{ desc := { d with tok } }])
    (hfree : s.Free live d) (hunread : s.Unread live d) :
    Inv live { s.setPort a P with
      owner := fun x => if x ∈ d.entries then some a else s.owner x
      reported := fun x =>
        if d.toStorage = true ∧ x = d.rspAddrVirt then false else s.reported x } := by
  have hports := h.toPorts.setPort hP hdesc
  refine ⟨⟨hports.port, hports.map⟩, fun b r hb hr hsto => ?_⟩
  have hr' : ((s.setPort a P).port b).pulls[((s.setPort a P).port b).incs]? = some r := hr
  by_cases hba : b = a
  · subst hba
    have hnew : r = { desc := { d with tok } } := by
      rw [setPort_self, hpulls, hincs, ← hlen, List.getElem?_concat_length] at hr'
      exact (Option.some.inj hr').symm
    subst hnew
    obtain ⟨htok, hwriters⟩ := hfree hsto
    have hmem : d.rspAddrVirt ∈ d.entries := QbmanPullDesc.first_mem hsto
    refine ⟨if_pos hmem, if_pos ⟨hsto, rfl⟩, htok, fun c j r' hc hr₂ hdone hmem' => ?_⟩
    show c = b ∧ j = ((s.setPort b P).port b).incs
    rw [setPort_self, hincs]
    rcases getElem?_addPull hpulls hlen hr₂ with hold | ⟨hcb, hj, -⟩
    · exact absurd hmem' (hwriters c j r' hc hold hdone _ hmem)
    · exact ⟨hcb, hj⟩
  · rw [setPort_of_ne P hba] at hr'
    have hw := h.waiting b r hb hr' hsto
    have hnot := hunread b r hb hr' hsto
    refine ⟨(if_neg hnot).trans hw.owner, (if_neg ?_).trans hw.reported, hw.tok,
      fun c j r' hc hr₂ hdone hmem' => ?_⟩
    · rintro ⟨hs, he⟩
      exact hnot (he ▸ QbmanPullDesc.first_mem hs)
    · show c = b ∧ j = ((s.setPort a P).port b).incs
      rw [setPort_of_ne P hba]
      rcases getElem?_addPull hpulls hlen hr₂ with hold | ⟨-, -, rfl⟩
      · exact hw.writer c j r' hc hold hdone hmem'
      · exact absurd hmem' hnot

theorem pull (h : s.Inv live) (ha : live a = true) {d : QbmanPullDesc} (hd : d.Built)
    (hguard : (qbmanSwpPull (s.port a).impl.ptrs (s.port a).swp d).ret.1 = 0 →
      s.Free live d ∧ s.Unread live d) :
    (s.afterPull a (qbmanSwpPull (s.port a).impl.ptrs (s.port a).swp d)).Inv live ∧
      ∀ b, ((s.afterPull a (qbmanSwpPull (s.port a).impl.ptrs (s.port a).swp d)).port b).incs =
        (s.port b).incs := by
  by_cases hret : (qbmanSwpPull (s.port a).impl.ptrs (s.port a).swp d).ret.1 = 0
  · obtain ⟨hfree, hunread⟩ := hguard hret
    obtain ⟨hnone, hd', hdesc, hP⟩ := (h.port a ha).accept hd hret
    have hpulls : ((s.port a).afterPull
        (qbmanSwpPull (s.port a).impl.ptrs (s.port a).swp d)).pulls = (s.port a).pulls ++
          [{ desc := { d with tok := ((s.port a).swp.sys.idx + 1).setWidth 8 } }] := by
      rw [Port.afterPull, if_pos hret, hd']
    rw [afterPull, if_pos hret, hd']
    exact ⟨h.addPull hP hdesc rfl ((h.port a ha).length_of_none hnone) hpulls hfree hunread,
      setPort_incs rfl⟩
  · have hafter : s.afterPull a (qbmanSwpPull (s.port a).impl.ptrs (s.port a).swp d) = s := by
      rw [afterPull, if_neg hret, Port.Inv.reject hret, setPort_eq]
    rw [hafter]
    exact ⟨h, fun _ => rfl⟩

theorem dqrrNext (h : s.Inv live) (ha : live a = true) {r : Regions} {q : DqrrState}
    (hstep : (dqrrSys (s.port a).impl (s.port a).resetBug).step (s.port a).ring (.poll r) q) :
    (s.setPort a ((s.port a).polled q)).Inv live ∧
      Accounted live s (.dqrrNext a r) (s.setPort a ((s.port a).polled q)) := by
  obtain ⟨hP, hdesc, hout⟩ := (h.port a ha).dqrrNext hstep
  refine ⟨h.setPort hP hdesc rfl (hout.elim (fun ho => .inr ho.1) fun ho => .inl ho.1),
    fun b hb => ?_⟩
  by_cases hba : b = a
  · subst hba
    rw [setPort_self]
    rcases hout with ⟨hi, rec, hrec, hsto, hexp, hne⟩ | ⟨hi, hno⟩
    · exact .inl ⟨hi, rec, hrec, rfl, hsto, hexp, hne⟩
    · exact .inr ⟨hi, fun ⟨rec, hrec, hs⟩ => hno ⟨rec, hrec, hs.2.2⟩⟩
  · rw [setPort_of_ne _ hba]
    exact .inr ⟨rfl, fun ⟨_, _, hs⟩ => hba hs.1.symm⟩

theorem fill (h : s.Inv live) (ha : live a = true) {k : Nat} {x : U64} {l : Line} {r : PullRec}
    (hr : (s.port a).pulls[k]? = some r) (hdone : r.done = false) (hmem : x ∈ r.desc.entries)
    (htok : dqTok l = r.desc.tok) :
    Inv live { s.setPort a ((s.port a).setPull k { r with
      filled := Function.update r.filled x true }) with host := Function.update s.host x l } := by
  refine h.setPull ha _ ((h.port a ha).setPull hr rfl rfl) rfl rfl hr rfl rfl id
    (fun _ _ hold => ?_) fun b r₀ hb hr₀ hsto hne => ?_
  · show dqTok (Function.update s.host x l r.desc.rspAddrVirt) =
      if Function.update r.filled x true r.desc.rspAddrVirt then r.desc.tok else 0
    by_cases hx : r.desc.rspAddrVirt = x
    · rw [hx, Function.update_self, Function.update_self, if_pos rfl, htok]
    · rw [Function.update_of_ne hx, Function.update_of_ne hx]
      exact hold
  · -- Nobody else writes the first entry of a waiting pull.
    refine Function.update_of_ne ?_ _ _
    rintro rfl
    obtain ⟨hab, hk⟩ := (h.waiting b r₀ hb hr₀ hsto).writer a k r ha hr hdone hmem
    exact hne ⟨hab.symm, hab ▸ hk⟩

theorem finish (h : s.Inv live) (ha : live a = true) {k : Nat} {r : PullRec}
    (hr : (s.port a).pulls[k]? = some r) :
    (s.setPort a ((s.port a).setPull k { r with done := true })).Inv live :=
  h.setPull ha s.host ((h.port a ha).setPull hr rfl rfl) rfl rfl hr rfl rfl nofun
    (fun _ _ hold => hold)
    fun _ _ _ _ _ _ => rfl

theorem expire (h : s.Inv live) (ha : live a = true) {k : Nat} {r : PullRec} {l : Line}
    {q : DqrrState} (hr : (s.port a).pulls[k]? = some r) (hsto : r.desc.toStorage = false)
    (hexp : r.expiredAt = none) (hl : dqFinal l = true)
    (hstep : (dqrrSys (s.port a).impl (s.port a).resetBug).step (s.port a).ring (.produce l) q) :
    (s.setPort a { (s.port a).setPull k { r with
      expiredAt := some (s.port a).ring.produced.length } with ring := q }).Inv live := by
  have hP := (h.port a ha).expire hr hsto hexp hl hstep
  have hswp : q.swp = (s.port a).ring.swp := by
    obtain ⟨-, -, rfl⟩ := hstep
    rfl
  refine h.setPull ha s.host hP (congrArg QbmanSwp.desc hswp) rfl hr rfl rfl id
    (fun _ hs _ => ?_) fun _ _ _ _ _ _ => rfl
  rw [hsto] at hs
  cases hs

/-- The token of a waiting entry is there once the hardware has written the entry. -/
theorem visible_iff (h : s.Inv live) {r : PullRec} (ha : live a = true)
    (hr : (s.port a).pending = some r) (hsto : r.desc.toStorage = true) :
    dqTok (s.host r.desc.rspAddrVirt) ≠ 0 ↔ r.filled r.desc.rspAddrVirt = true := by
  have hP := h.port a ha
  have htok := (hP.own r (Port.pending_mem hr)).tok
  have hidx := hP.up.idx_nonneg
  rw [(h.waiting a r ha hr hsto).tok]
  cases r.filled r.desc.rspAddrVirt with
  | false => simp
  | true =>
    refine ⟨fun _ => rfl, fun _ h0 => ?_⟩
    rw [if_pos rfl] at h0
    rw [h0] at htok
    have h00 : (0 : U8).toNat = 0 := rfl
    omega

/-- The hook at portal `c`, for an entry that no other portal waits for. -/
theorem hookAt (h : s.Inv live) {c : Addr} (hc : live c = true) {x : U64} (hx : x ≠ 0)
    (honly : ∀ b r, live b = true → (s.port b).pending = some r → r.desc.toStorage = true →
      r.desc.rspAddrVirt = x → b = c) :
    (s.setPort c ((s.port c).hooked x)).Inv live ∧
      (s.setPort c ((s.port c).hooked x)).Unawaited live x ∧ ∀ b, live b = true →
        (((s.setPort c ((s.port c).hooked x)).port b).incs = (s.port b).incs + 1 ∧
            ∃ r, (s.port b).pending = some r ∧ r.desc.toStorage = true ∧ r.desc.rspAddrVirt = x) ∨
          (((s.setPort c ((s.port c).hooked x)).port b).incs = (s.port b).incs ∧
            ¬ ∃ r, (s.port b).pending = some r ∧ r.desc.toStorage = true ∧
              r.desc.rspAddrVirt = x) := by
  obtain ⟨hyes, hno⟩ := (h.port c hc).hook hx
  by_cases hrec : ∃ r, (s.port c).pending = some r ∧ r.desc.toStorage = true ∧
    r.desc.rspAddrVirt = x
  · obtain ⟨hinv, hincs⟩ := hyes hrec
    have hpulls : ((s.port c).hooked x).pulls = (s.port c).pulls := rfl
    refine ⟨h.setPort hinv rfl hpulls (.inr hincs), fun b r hb hr hsto hbx => ?_, fun b hb => ?_⟩
    · by_cases hbc : b = c
      · subst hbc
        rw [setPort_self, Port.pending, hpulls, hincs, (h.port b hb).pending_succ] at hr
        cases hr
      · rw [setPort_of_ne _ hbc] at hr
        exact hbc (honly b r hb hr hsto hbx)
    · by_cases hbc : b = c
      · subst hbc
        rw [setPort_self]
        exact .inl ⟨hincs, hrec⟩
      · rw [setPort_of_ne _ hbc]
        refine .inr ⟨rfl, ?_⟩
        rintro ⟨r, hr, hsto, hbx⟩
        exact hbc (honly b r hb hr hsto hbx)
  · have hself := hno hrec
    have hnone : s.Unawaited live x := by
      intro b r hb hr hsto hbx
      obtain rfl := honly b r hb hr hsto hbx
      exact hrec ⟨r, hr, hsto, hbx⟩
    rw [hself, setPort_eq]
    refine ⟨h, hnone, fun b hb => .inr ⟨rfl, ?_⟩⟩
    rintro ⟨r, hr, hsto, hbx⟩
    exact hnone b r hb hr hsto hbx

theorem hasNewResult (h : s.Inv live) (ha : live a = true) {x : U64} (hx : x ≠ 0)
    (howner : s.owner x = some a) :
    (s.afterHasNewResult a x).Inv live ∧
      Accounted live s (.hasNewResult a x) (s.afterHasNewResult a x) := by
  by_cases htok : dqTok (s.host x) = 0
  · rw [afterHasNewResult_zero htok]
    refine ⟨h, fun b hb => .inr ⟨rfl, ?_⟩⟩
    rintro ⟨r, hr, -, hsto, rfl, hfilled⟩
    exact (h.visible_iff hb hr hsto).mpr hfilled htok
  · have honly : ∀ b r, live b = true → (s.port b).pending = some r → r.desc.toStorage = true →
        r.desc.rspAddrVirt = x → b = a := by
      rintro b r hb hr hsto rfl
      exact Option.some.inj ((h.waiting b r hb hr hsto).owner.symm.trans howner)
    obtain ⟨hinv, hun, hacc⟩ := h.hookAt ha hx honly
    rw [afterHasNewResult_hooked htok]
    refine ⟨hinv.setHost hun _, fun b hb => ?_⟩
    rcases hacc b hb with ⟨hi, r, hr, hsto, rfl⟩ | ⟨hi, hno⟩
    · refine .inl ⟨hi, r, hr, ?_, hsto, rfl, (h.visible_iff hb hr hsto).mp htok⟩
      exact (honly b r hb hr hsto rfl).symm
    · exact .inr ⟨hi, fun ⟨r, hr, _, hsto, hbx, _⟩ => hno ⟨r, hr, hsto, hbx.symm⟩⟩

theorem checkCommandComplete (h : s.Inv live) {x : U64} (hx : x ≠ 0)
    {o : Int × (Addr → Option QbmanSwp)}
    (ho : qbmanCheckCommandComplete s.portalIdxMap (s.swps live) x (s.host x) = some o) :
    (s.afterCheckCommandComplete x o).Inv live ∧
      Accounted live s (.checkCommandComplete x) (s.afterCheckCommandComplete x o) := by
  rcases afterCheckCommandComplete_some ho with ⟨htok, hafter⟩ | ⟨htok, c, hc, hmap, hafter⟩
  · rw [hafter]
    refine ⟨h, fun b hb => .inr ⟨rfl, ?_⟩⟩
    rintro ⟨r, hr, hsto, rfl, hfilled⟩
    exact (h.visible_iff hb hr hsto).mpr hfilled htok
  · rw [hafter]
    -- A token that is waited for leads to the waiting portal.
    have honly : ∀ b r, live b = true → (s.port b).pending = some r → r.desc.toStorage = true →
        r.desc.rspAddrVirt = x → b = c := by
      rintro b r hb hr hsto rfl
      have hfilled := (h.visible_iff hb hr hsto).mp htok
      have htokb := (h.waiting b r hb hr hsto).tok
      rw [hfilled, if_pos rfl] at htokb
      have hidx := ((h.port b hb).own r (Port.pending_mem hr)).tok
      rw [htokb, hidx, Int.add_sub_cancel, h.map b hb] at hmap
      exact Option.some.inj hmap
    obtain ⟨hinv, hun, hacc⟩ := h.hookAt hc hx honly
    refine ⟨hinv.setReported hun, fun b hb => ?_⟩
    rcases hacc b hb with ⟨hi, r, hr, hsto, rfl⟩ | ⟨hi, hno⟩
    · exact .inl ⟨hi, r, hr, hsto, rfl, (h.visible_iff hb hr hsto).mp htok⟩
    · exact .inr ⟨hi, fun ⟨r, hr, hsto, hbx, _⟩ => hno ⟨r, hr, hsto, hbx.symm⟩⟩

theorem checkNewResult (h : s.Inv live) {x : U64} (hrep : s.Reported live x) :
    (s.afterCheckNewResult x).Inv live := by
  refine h.setHost (fun b r hb hr hsto hbx => ?_) _
  have hno := (h.waiting b r hb hr hsto).reported
  rw [hbx, hrep b r hb hr hsto hbx] at hno
  cases hno

/-- Every step of a run without reuse keeps the invariant and the accounts. -/
theorem step (h : s.Inv live) {t : PortalsState} {l : PullsLabel}
    (hstep : (pullsSys live false).step s l t) : t.Inv live ∧ Accounted live s l t := by
  cases l with
  | pull a d =>
    obtain ⟨ha, hd, hguard, rfl⟩ := hstep
    obtain ⟨hinv, hincs⟩ := h.pull ha hd fun hret =>
      ⟨(hguard hret).1, (hguard hret).2.resolve_left Bool.false_ne_true⟩
    exact ⟨hinv, accounted_of_incs hincs fun _ _ => id⟩
  | dqrrNext a r =>
    obtain ⟨ha, q, hq, rfl⟩ := hstep
    exact h.dqrrNext ha hq
  | produce a l =>
    obtain ⟨ha, hl, q, hq, rfl⟩ := hstep
    have hdesc : q.swp.desc = (s.port a).swp.desc := by
      obtain ⟨-, -, rfl⟩ := hq
      rfl
    exact ⟨h.setPort ((h.port a ha).produce hl hq) hdesc rfl (.inl rfl),
      accounted_of_port rfl rfl fun _ _ => id⟩
  | expire a k l =>
    obtain ⟨ha, hl, r, q, hr, hsto, hexp, hq, rfl⟩ := hstep
    exact ⟨h.expire ha hr hsto hexp hl hq,
      accounted_of_port rfl rfl fun _ _ => id⟩
  | consume a k =>
    obtain ⟨ha, q, hq, rfl⟩ := hstep
    have hdesc : q.swp.desc = (s.port a).swp.desc := by
      obtain ⟨dq, -, -, rfl⟩ := hq
      rfl
    exact ⟨h.setPort ((h.port a ha).consume hq) hdesc rfl (.inl rfl),
      accounted_of_port rfl rfl fun _ _ => id⟩
  | fill a k x l =>
    obtain ⟨ha, r, hr, hdone, hmem, -, htok, rfl⟩ := hstep
    exact ⟨h.fill ha hr hdone hmem htok,
      accounted_of_port rfl rfl fun _ _ => id⟩
  | finish a k =>
    obtain ⟨ha, r, hr, rfl⟩ := hstep
    exact ⟨h.finish ha hr, accounted_of_port rfl rfl fun _ _ => id⟩
  | hasNewResult a x =>
    obtain ⟨ha, hx, howner, rfl⟩ := hstep
    exact h.hasNewResult ha hx howner
  | checkCommandComplete x =>
    obtain ⟨hx, o, ho, rfl⟩ := hstep
    exact h.checkCommandComplete hx ho
  | checkNewResult x =>
    obtain ⟨hx, hrep, rfl⟩ := hstep
    exact ⟨h.checkNewResult hrep, accounted_of_incs (fun _ => rfl) fun _ _ => id⟩

end Inv

/-- The poll of a first entry that is there finds a portal. -/
theorem Inv.checkCommandComplete_isSome (h : s.Inv live) (ha : live a = true) {r : PullRec}
    (hr : (s.port a).pending = some r) (hsto : r.desc.toStorage = true)
    (hfilled : r.filled r.desc.rspAddrVirt = true) :
    (qbmanCheckCommandComplete s.portalIdxMap (s.swps live) r.desc.rspAddrVirt
      (s.host r.desc.rspAddrVirt)).isSome = true := by
  have htok := (h.waiting a r ha hr hsto).tok
  have hidx := ((h.port a ha).own r (Port.pending_mem hr)).tok
  have hne := (h.visible_iff ha hr hsto).mpr hfilled
  rw [hfilled, if_pos rfl] at htok
  have hswps : s.swps live a = some (s.port a).swp := if_pos ha
  rw [qbmanCheckCommandComplete, if_neg hne, htok, hidx, Int.add_sub_cancel, h.map a ha]
  simp [hswps]

/-- Portals that were just initialised. -/
theorem inv_init {reuse : Bool} (h : (pullsSys live reuse).init s) : s.Inv live := by
  obtain ⟨hport, howner, hrep⟩ := h
  refine ⟨⟨fun a ha => ?_, fun a ha => (hport a ha).2.2.2.2.2⟩, fun a r ha hr => ?_⟩
  · obtain ⟨hring, hpulls, hincs, hnonneg, hlt, -⟩ := hport a ha
    obtain ⟨g, d, env, b, hp, -⟩ := hring.built
    obtain ⟨-, hdesc, -, -, hvdq, -, -, -, hidx, -⟩ := qbmanSwpInit_some hp
    obtain ⟨x, -, hx⟩ := hring.rel
    have hpend : (s.port a).pending = none := by rw [Port.pending, hpulls]; rfl
    have hv : (s.port a).swp.vdq = { busy := 1, validBit := qbValidBit } := hvdq
    refine ⟨⟨⟨x, hx⟩, ?_, hnonneg, hlt⟩, ?_, ?_, ?_, ?_, fun r hr => ?_, fun n hn => ?_,
      fun r n hr => ?_, fun k hk => ?_⟩
    · show (s.port a).ring.swp.sys.idx = BitVec.ofInt 32 (s.port a).ring.swp.desc.idx
      rw [hidx, hdesc]
    · rw [hincs]
      exact Nat.zero_le _
    · rw [hpulls]
      exact Nat.zero_le _
    · rw [hpend, hv]
      rfl
    · rw [hpend, hv]
    · rw [hpulls] at hr
      cases hr
    · simp [hring.produced] at hn
    · rw [hpend] at hr
      cases hr
    · omega
  · obtain ⟨-, hpulls, -⟩ := hport a ha
    rw [Port.pending, hpulls] at hr
    cases hr

end PortalsState

theorem pullsSys_inductive (live : Addr → Bool) :
    (pullsSys live false).Inductive (PortalsState.Inv live) where
  init _ hs := PortalsState.inv_init hs
  step _ _ _ h hstep := (h.step hstep).1

/-- In every run without reuse: the counter of a live portal is `0` while one of its pulls is not
released and `1` otherwise; a counter goes up in a step exactly if the step is a poll that sees the
first storage entry, or returns the `EXPIRED` entry, of that pull of its own portal; and
`qbman_check_command_complete` of such an entry is always defined. -/
theorem pullsSys_accounting {live : Addr → Bool} {s : PortalsState}
    (h : (pullsSys live false).Reach s) :
    (∀ a, live a = true →
      ((s.port a).swp.vdq.busy = 0 ∧ (s.port a).pulls.length = (s.port a).incs + 1) ∨
        ((s.port a).swp.vdq.busy = 1 ∧ (s.port a).pulls.length = (s.port a).incs)) ∧
      (∀ l t, (pullsSys live false).step s l t → s.Accounted live l t) ∧
      ∀ a r, live a = true → (s.port a).pending = some r → r.desc.toStorage = true →
        r.filled r.desc.rspAddrVirt = true →
          (qbmanCheckCommandComplete s.portalIdxMap (s.swps live) r.desc.rspAddrVirt
            (s.host r.desc.rspAddrVirt)).isSome = true := by
  have hinv := (pullsSys_inductive live).reach h
  refine ⟨fun a ha => ?_, fun l t hstep => (hinv.step hstep).2,
    fun a r ha hr hsto hfilled => hinv.checkCommandComplete_isSome ha hr hsto hfilled⟩
  have hP := hinv.port a ha
  cases hp : (s.port a).pending with
  | some r => exact .inl ⟨hP.busy_of_pending hp, hP.length_of_pending hp⟩
  | none =>
    refine .inr ⟨?_, hP.length_of_none hp⟩
    have hbusy := hP.busy
    rw [hp] at hbusy
    exact hbusy

/-! ## Two portals -/

namespace PortalsState

def twoLive (a : Addr) : Bool := a = 0x1000 || a = 0x3000

/-- Two direct portals that were just initialised, over cleared memory. -/
def two : PortalsState where
  portalIdxMap := fun i => if i = 0 then some 0x1000 else if i = 1 then some 0x3000 else none
  port := fun a =>
    { ring := .cleared (if a = 0x1000 then swpRev4100 0 0x1000 else swpRev4100 1 0x3000)
      pulls := []
      incs := 0 }
  host := fun _ _ => 0
  owner := fun _ => none
  reported := fun _ => false

theorem two_init (reuse : Bool) : (pullsSys twoLive reuse).init two := by
  have clear : ∀ (impl : Impl) (i : Nat),
      (Region.dqrr impl (fun _ => 0) i 0).getLsbD 7 = false := by
    intro impl i
    show (0 : U32).getLsbD 7 = false
    decide
  refine ⟨fun a ha => ?_, fun _ => rfl, fun _ => rfl⟩
  rcases Bool.or_eq_true_iff.mp ha with h | h
  · obtain rfl : a = 0x1000 := of_decide_eq_true h
    exact ⟨⟨⟨{}, .rev4100 .vbRing 0, .ok 0x1000 0 0, 0x1000, rfl, rfl, rfl⟩, rfl, by decide,
      rfl, rfl, rfl, fun _ => rfl, fun _ => rfl, fun _ i _ => clear _ i⟩, rfl, rfl, by decide,
      by decide, rfl⟩
  · obtain rfl : a = 0x3000 := of_decide_eq_true h
    exact ⟨⟨⟨{}, .rev4100 .vbRing 1, .ok 0x3000 0 0, 0x3000, rfl, rfl, rfl⟩, rfl, by decide,
      rfl, rfl, rfl, fun _ => rfl, fun _ => rfl, fun _ i _ => clear _ i⟩, rfl, rfl, by decide,
      by decide, rfl⟩

/-- A pull of one frame to the entry at `0x100`. -/
def pullOne : QbmanPullDesc := PullDescSet.build [.storage 0x100 0x100 0, .numframes 1]

/-- Its record at the first portal. -/
def recOne : PullRec := { desc := { pullOne with tok := 1 } }

def pulled (s : PortalsState) (a : Addr) (d : QbmanPullDesc) : PortalsState :=
  s.afterPull a (qbmanSwpPull (s.port a).impl.ptrs (s.port a).swp d)

/-- The hardware fills the entry at `0x100` for the first pull of a portal. -/
def answered (s : PortalsState) (a : Addr) (r : PullRec) : PortalsState :=
  { s.setPort a ((s.port a).setPull 0 { r with filled := Function.update r.filled 0x100 true }) with
    host := Function.update s.host 0x100 (setTok (s.host 0x100) r.desc.tok) }

/-- The pull of the first portal is answered and not polled yet. -/
def oneAnswered : PortalsState := (two.pulled 0x1000 pullOne).answered 0x1000 recOne

theorem reach_oneAnswered (reuse : Bool) : (pullsSys twoLive reuse).Reach oneAnswered := by
  have hpull : (pullsSys twoLive reuse).step two (.pull 0x1000 pullOne)
      (two.pulled 0x1000 pullOne) :=
    ⟨rfl, ⟨_, rfl⟩, fun _ => ⟨fun _ => ⟨by decide, fun _ _ _ _ h => nomatch h⟩,
      .inr fun _ _ _ h => nomatch h⟩, rfl⟩
  have hfill : (pullsSys twoLive reuse).step (two.pulled 0x1000 pullOne)
      (.fill 0x1000 0 0x100 (setTok 0 1)) oneAnswered :=
    ⟨rfl, recOne, rfl, rfl, by decide, rfl, dqTok_setTok _ _, rfl⟩
  exact ((Trans.Sys.Reach.of_init (two_init reuse)).step hpull).step hfill

end PortalsState

open PortalsState in
/-- One pull, answered and polled. -/
theorem pullsSys_accounting_one :
    ∃ s t, (pullsSys twoLive false).Reach s ∧
      (pullsSys twoLive false).step s (.checkCommandComplete 0x100) t ∧
      (t.port 0x1000).incs = 1 ∧ s.Accounted twoLive (.checkCommandComplete 0x100) t := by
  have hreach := reach_oneAnswered false
  have hstep : (pullsSys twoLive false).step oneAnswered (.checkCommandComplete 0x100)
      (oneAnswered.afterCheckCommandComplete 0x100
        ((qbmanCheckCommandComplete oneAnswered.portalIdxMap (oneAnswered.swps twoLive) 0x100
          (oneAnswered.host 0x100)).get (by decide))) :=
    ⟨by decide, _, (Option.some_get _).symm, rfl⟩
  exact ⟨_, _, hreach, hstep, by decide, (pullsSys_accounting hreach).2.1 _ _ hstep⟩

end Qbman
