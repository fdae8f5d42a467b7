import Qbman.Portal.Parts

/-!
# Dequeues as a part of the portal

The dequeue ring and the volatile dequeues share the counter `vdq.busy`, so they are one part. On
top of `Port.Inv` it has the register `VDQCR`: it holds the last accepted command, with a valid bit
that alternates from one accepted command to the next (`Port.Vdqcr`).
-/

namespace Qbman

variable {impl : Impl} {j : PortalPart} {m : PortalMem}

/-- Calls, polls of storage entries and the hardware at one portal. -/
inductive PortLabel where
  | pull (d : QbmanPullDesc)
  | dqrrNext (r : Regions)
  | hasNewResult (x : U64) (l : Line)
  | consume (k : Nat)
  | produce (l : Line)
  | expire (k : Nat) (l : Line)
  | fill (k : Nat) (x : U64)
  | finish (k : Nat)

namespace Port

variable {P Q : Port} {l : PortLabel}

/-- The portal object and the region replaced. -/
def setMem (P : Port) (m : PortalMem) : Port :=
  { P with ring := { P.ring with swp := m.swp, cena := m.cena } }

/-- After a call of `qbman_swp_pull`, with its stores. -/
def afterPullCall (P : Port) (d : QbmanPullDesc) : Port :=
  let o := qbmanSwpPull P.impl.ptrs P.swp d
  (P.afterPull o).setMem ⟨o.swp, P.ring.cena.run o.accs⟩

end Port

/-- The dequeues of one portal. The host memory answers a storage poll with any entry. -/
def portSys (impl : Impl) : Trans.Sys Port PortLabel where
  init P := P.ring.Init P.impl P.resetBug ∧ P.impl = impl ∧ P.pulls = [] ∧ P.incs = 0 ∧
    0 ≤ P.swp.desc.idx ∧ P.swp.desc.idx < 64
  step P l Q := match l with
    | .pull d => d.Built ∧ Q = P.afterPullCall d
    | .dqrrNext r => ∃ q, (dqrrSys P.impl P.resetBug).step P.ring (.poll r) q ∧ Q = P.polled q
    | .hasNewResult x l => x ≠ 0 ∧ Q = P.withSwp (qbmanResultHasNewResult P.swp x l).2.1
    | .consume k => ∃ q, (dqrrSys P.impl P.resetBug).step P.ring (.consume k) q ∧
        Q = { P with ring := q }
    | .produce l => dqFinal l = false ∧
        ∃ q, (dqrrSys P.impl P.resetBug).step P.ring (.produce l) q ∧ Q = { P with ring := q }
    | .expire k l => dqFinal l = true ∧
        ∃ r q, P.pulls[k]? = some r ∧ r.desc.toStorage = false ∧ r.expiredAt = none ∧
          (dqrrSys P.impl P.resetBug).step P.ring (.produce l) q ∧
          Q = { P.setPull k { r with expiredAt := some P.ring.produced.length } with ring := q }
    | .fill k x => ∃ r, P.pulls[k]? = some r ∧ r.done = false ∧ x ∈ r.desc.entries ∧
        Q = P.setPull k { r with filled := Function.update r.filled x true }
    | .finish k => ∃ r, P.pulls[k]? = some r ∧ Q = P.setPull k { r with done := true }

def portPart (impl : Impl) : Trans.Part PortalMem where
  State := Port
  Label := PortLabel
  sys := portSys impl
  get P := ⟨P.swp, P.ring.cena⟩
  set := Port.setMem
  get_set _ _ := rfl

/-! ## The memory of the ring -/

theorem dqrr_of_kept {n : Nat} {m m' : Region}
    (h : ∀ off, impl.owner off = some .dqrr → m' off = m off) (hn : n < 8) :
    m'.dqrr impl n = m.dqrr impl n := by
  funext k
  exact h _ (owner_dqrr (by omega) (by omega))

/-- The ring in a region that is the same there. -/
theorem DqrrState.Rel.of_cena {resetBug : Bool} {s : DqrrState}
    {x : Chan Line (dqrrEntries resetBug)} (h : s.Rel impl resetBug x) {c : Region}
    (hc : ∀ n < 8, c.dqrr impl n = s.cena.dqrr impl n) :
    DqrrState.Rel impl resetBug { s with cena := c } x := by
  have hle := dqrrEntries_le resetBug
  have hslot : ∀ n, c.dqrr impl (n % dqrrEntries resetBug) =
      s.cena.dqrr impl (n % dqrrEntries resetBug) := by
    intro n
    have hlt := Nat.mod_lt n (dqrrEntries_pos resetBug)
    exact hc _ (by omega)
  exact ⟨h.memBack, h.aligned, h.sent, h.received, h.pos, h.bug, h.bits,
    fun i hi hg => (hslot _).trans (h.stored i hi hg),
    fun t ht ht' hb => (congrFun (hslot t) 0) ▸ h.stale t ht ht' hb, h.handles_length, h.handles,
    h.held, h.reused, h.consumed⟩

namespace Port

variable {P Q : Port} {l : PortLabel}

/-- The accesses of a call. -/
def accs (P : Port) : PortLabel → List Access
  | .pull d => (qbmanSwpPull P.impl.ptrs P.swp d).accs
  | .dqrrNext r => (qbmanSwpDqrrNext P.impl.ptrs P.swp r).accs
  | .consume k => (P.ring.handles[k]?.map qbmanSwpDqrrConsume).getD []
  | _ => []

/-- `VDQCR` holds the last accepted command, and the portal has the other valid bit. -/
structure Vdqcr (P : Port) : Prop where
  next : P.swp.vdq.validBit = vbit (decide (P.pulls.length % 2 = 0))
  last : ∀ d, (P.pulls.map PullRec.desc).getLast? = some d →
    (P.ring.cena P.impl.vdqcr = d.cl 0 ||| vbit (decide (P.pulls.length % 2 = 1))) ∧
      ∀ k : Fin 3, P.ring.cena (P.impl.vdqcr + 4 + 4 * k) = d.cl k.succ

/-- One portal of the implementation, its ring, its counter and its command register. -/
structure Sound (impl : Impl) (P : Port) : Prop where
  inv : P.Inv
  impl_eq : P.impl = impl
  vdqcr : P.Vdqcr

theorem inv_init (h : (portSys impl).init P) : P.Inv := by
  obtain ⟨hring, -, hpulls, hincs, hidx, hlt⟩ := h
  let s : PortalsState := ⟨fun _ => some 0, fun _ => P, fun _ _ => 0, fun _ => none, fun _ => false⟩
  have hs : (pullsSys (fun a => decide (a = 0)) false).init s := by
    refine ⟨fun a ha => ⟨hring, hpulls, hincs, hidx, hlt, ?_⟩, fun _ => rfl, fun _ => rfl⟩
    rw [of_decide_eq_true ha]
  exact (PortalsState.inv_init hs).port 0 rfl

theorem sound_init (h : (portSys impl).init P) : P.Sound impl := by
  refine ⟨inv_init h, h.2.1, ⟨?_, fun d hd => ?_⟩⟩
  · obtain ⟨⟨⟨g, d, env, a, hp, -⟩, -⟩, -, hpulls, -⟩ := h
    obtain ⟨-, -, -, -, hvdq, -⟩ := qbmanSwpInit_some hp
    show P.ring.swp.vdq.validBit = _
    rw [hvdq, hpulls]
    rfl
  · rw [h.2.2.1] at hd
    cases hd

/-! ## What other parts may do -/

theorem Inv.setMem (h : P.Inv) (hm : PortalPart.dqrr.Kept P.impl ⟨P.swp, P.ring.cena⟩ m) :
    (P.setMem m).Inv := by
  obtain ⟨x, hx⟩ := h.up.ring
  obtain ⟨hdqrr, hvdq⟩ : m.swp.dqrr = P.swp.dqrr ∧ m.swp.vdq = P.swp.vdq := hm.same
  have hrel := (hx.of_swp (p := m.swp) hm.sys hdqrr).of_cena (c := m.cena)
    fun n hn => dqrr_of_kept hm.cena hn
  have hup : Up (P.setMem m) :=
    h.up.of_ring (q := { P.ring with swp := m.swp, cena := m.cena }) hm.desc hm.sys ⟨x, hrel⟩ _ _
  exact h.keep hup hm.desc hvdq rfl (Nat.le_refl _) fun rec n hr he => (h.expired rec n hr he).1

theorem Vdqcr.setMem (h : P.Vdqcr) (hm : PortalPart.dqrr.Kept P.impl ⟨P.swp, P.ring.cena⟩ m) :
    (P.setMem m).Vdqcr := by
  have hvdq : m.swp.vdq = P.swp.vdq := hm.same.2
  have himpl : (P.setMem m).impl = P.impl := congrArg QbmanSwpDesc.impl hm.desc
  refine ⟨?_, fun d hd => ?_⟩
  · show m.swp.vdq.validBit = _
    rw [hvdq]
    exact h.next
  · obtain ⟨h0, hk⟩ := h.last d hd
    rw [himpl]
    refine ⟨(hm.cena _ (owner_vdqcr (Nat.le_refl _) (by omega))).trans h0, fun k => ?_⟩
    exact (hm.cena _ (owner_vdqcr (by omega) (by omega))).trans (hk k)

theorem Sound.stable (h : P.Sound impl) (hm : PortalPart.dqrr.Kept impl ⟨P.swp, P.ring.cena⟩ m) :
    (P.setMem m).Sound impl := by
  obtain ⟨hinv, rfl, hvdqcr⟩ := h
  exact ⟨hinv.setMem hm, congrArg QbmanSwpDesc.impl hm.desc, hvdqcr.setMem hm⟩

/-! ## The steps -/

/-- What `Vdqcr` is about: the valid bit, the commands and the register. -/
theorem Vdqcr.congr (h : P.Vdqcr) (himpl : Q.impl = P.impl)
    (hvb : Q.swp.vdq.validBit = P.swp.vdq.validBit)
    (hpulls : Q.pulls.map PullRec.desc = P.pulls.map PullRec.desc)
    (hcena : ∀ off, P.impl.vdqcr ≤ off → off < P.impl.vdqcr + 64 →
      Q.ring.cena off = P.ring.cena off) : Q.Vdqcr := by
  have hlen : Q.pulls.length = P.pulls.length := by
    have hmap := congrArg List.length hpulls
    rwa [List.length_map, List.length_map] at hmap
  refine ⟨?_, fun d hd => ?_⟩
  · rw [hvb, hlen]
    exact h.next
  · rw [hpulls] at hd
    obtain ⟨h0, hk⟩ := h.last d hd
    rw [himpl, hlen]
    refine ⟨(hcena _ (Nat.le_refl _) (by omega)).trans h0, fun k => ?_⟩
    exact (hcena _ (by omega) (by omega)).trans (hk k)

/-- Stores outside the ring. -/
theorem Inv.setCena (h : P.Inv) {c : Region}
    (hc : ∀ n < 8, c.dqrr P.impl n = P.ring.cena.dqrr P.impl n) :
    (P.setMem ⟨P.swp, c⟩).Inv := by
  obtain ⟨x, hx⟩ := h.up.ring
  have hup : Up (P.setMem ⟨P.swp, c⟩) :=
    h.up.of_ring (q := { P.ring with cena := c }) rfl rfl ⟨x, hx.of_cena hc⟩ _ _
  exact h.keep hup rfl rfl rfl (Nat.le_refl _) fun rec n hr he => (h.expired rec n hr he).1

/-- The ring and the command register do not overlap. -/
theorem dqrr_vdqcr (impl : Impl) : impl.dqrrBase + 64 * 8 ≤ impl.vdqcr := by cases impl <;> decide

/-- A submission leaves its command in the register. -/
theorem run_pullSubmit (impl : Impl) (s : QbmanSwp) (d : QbmanPullDesc) (m : Region) :
    (m.run (pullSubmit impl s d).accs impl.vdqcr =
        (pullSubmit impl s d).ret.cl 0 ||| s.vdq.validBit) ∧
      (∀ k : Fin 3, m.run (pullSubmit impl s d).accs (impl.vdqcr + 4 + 4 * k) =
        (pullSubmit impl s d).ret.cl k.succ) ∧
      ∀ off < impl.vdqcr, m.run (pullSubmit impl s d).accs off = m off := by
  have hnotify : ∀ m : Region, m.run impl.vdqcrNotify = m := by cases impl <;> exact fun _ => rfl
  have hrun : m.run (pullSubmit impl s d).accs = Function.update
      (m.run (memcpyWords (impl.vdqcr + 4) fun k : Fin 3 => (pullSubmit impl s d).ret.cl k.succ))
      impl.vdqcr ((pullSubmit impl s d).ret.cl 0 ||| s.vdq.validBit) := by
    show m.run (_ ++ _ ++ impl.vdqcrNotify) = _
    rw [Region.run_append, hnotify, Region.run_append, Region.run_cons, Region.run_nil,
      Region.access_cenaWord]
    rfl
  rw [hrun]
  refine ⟨Function.update_self .., fun k => ?_, fun off hoff => ?_⟩
  · rw [Function.update_of_ne (by omega)]
    exact run_memcpyWords m _ _ k
  · rw [Function.update_of_ne (by omega)]
    exact run_memcpyWords_of_lt m _ _ fun k hk => by omega

theorem Sound.pull (h : P.Sound impl) {d : QbmanPullDesc} (hd : d.Built) :
    (P.afterPullCall d).Sound impl := by
  obtain ⟨hinv, himpl, hvdqcr⟩ := h
  have hptrs := Inv.pull_ptrs P.impl P.swp d
  by_cases hbusy : P.swp.vdq.busy = 1
  · obtain ⟨hret, hswp⟩ := pullCall_free P.impl d hbusy
    have hzero : (qbmanSwpPull P.impl.ptrs P.swp d).ret.1 = 0 := by rw [hptrs, hret]
    obtain ⟨-, hdesc, -, hafter⟩ := hinv.accept hd hzero
    have hwon : (pullDecAndTest P.swp).1 = true := atomicDecAndTest_won.mpr hbusy
    have haccs : (qbmanSwpPull P.impl.ptrs P.swp d).accs =
        (pullSubmit P.impl (pullDecAndTest P.swp).2 d).accs := by
      rw [hptrs]
      simp only [pullCall, if_pos hwon]
    have hpulls : (P.afterPullCall d).pulls =
        P.pulls ++ [{ desc := { d with tok := (P.swp.sys.idx + 1).setWidth 8 } }] := by
      show (if (qbmanSwpPull P.impl.ptrs P.swp d).ret.1 = 0 then _ else _) = _
      rw [if_pos hzero, hdesc]
    have hcena : (P.afterPullCall d).ring.cena =
        P.ring.cena.run (pullSubmit P.impl (pullDecAndTest P.swp).2 d).accs := by
      rw [← haccs]
      rfl
    have hswp' : (P.afterPullCall d).swp = { P.swp with vdq :=
        ⟨0, P.swp.vdq.validBit ^^^ qbValidBit, d.rspAddrVirt⟩ } := by
      rw [← hswp, ← hptrs]
      rfl
    obtain ⟨h0, hk, hlow⟩ := run_pullSubmit P.impl (pullDecAndTest P.swp).2 d P.ring.cena
    have hdisj := dqrr_vdqcr P.impl
    have himpl' : (P.afterPullCall d).impl = P.impl := congrArg (·.desc.impl) hswp'
    have himplA : (P.afterPull (qbmanSwpPull P.impl.ptrs P.swp d)).impl = P.impl := himpl'
    have hparity : ∀ n : Nat, vbit (decide (n % 2 = 0)) ^^^ qbValidBit =
        vbit (decide ((n + 1) % 2 = 0)) := by
      intro n
      rw [← vbit_not, ← decide_not]
      congr 2
      rw [eq_iff_iff]
      omega
    refine ⟨hafter.setCena (c := (P.afterPullCall d).ring.cena) fun n hn => ?_,
      himpl'.trans himpl, ?_, fun d' hd' => ?_⟩
    · rw [himplA, hcena]
      exact funext fun k => hlow _ (by omega)
    · rw [hswp', hpulls, List.length_append]
      show P.swp.vdq.validBit ^^^ qbValidBit = _
      rw [hvdqcr.next, hparity]
      rfl
    · rw [hpulls, List.map_append, List.map_singleton, List.getLast?_concat] at hd'
      obtain rfl := Option.some.inj hd'
      have hvb : (pullDecAndTest P.swp).2.vdq.validBit =
          vbit (decide (P.pulls.length % 2 = 0)) := hvdqcr.next
      rw [himpl', hcena, hpulls, List.length_append]
      refine ⟨h0.trans ?_, hk⟩
      rw [hvb]
      congr 3
      rw [List.length_singleton, eq_iff_iff]
      omega
  · have hcall : qbmanSwpPull P.impl.ptrs P.swp d = ⟨(-eBUSY, d), P.swp, []⟩ := by
      rw [hptrs]
      exact pullCall_busy P.impl d hbusy
    have hsame : P.afterPullCall d = P := by
      rw [afterPullCall, hcall]
      rfl
    rw [hsame]
    exact ⟨hinv, himpl, hvdqcr⟩

/-- Steps that change neither the valid bit nor the commands nor the register. -/
theorem Sound.keep (h : P.Sound impl) (hinv : Q.Inv) (hdesc : Q.swp.desc = P.swp.desc)
    (hvb : Q.swp.vdq.validBit = P.swp.vdq.validBit)
    (hpulls : Q.pulls.map PullRec.desc = P.pulls.map PullRec.desc)
    (hcena : ∀ off, P.impl.vdqcr ≤ off → Q.ring.cena off = P.ring.cena off) : Q.Sound impl := by
  have himpl : Q.impl = P.impl := congrArg QbmanSwpDesc.impl hdesc
  exact ⟨hinv, himpl.trans h.impl_eq, h.vdqcr.congr himpl hvb hpulls fun off hle _ => hcena off hle⟩

theorem setPull_desc {k : Nat} {r r' : PullRec} (hr : P.pulls[k]? = some r)
    (hdesc : r'.desc = r.desc) :
    (P.setPull k r').pulls.map PullRec.desc = P.pulls.map PullRec.desc := by
  obtain ⟨hk, rfl⟩ := List.getElem?_eq_some_iff.mp hr
  show (P.pulls.set k r').map PullRec.desc = _
  rw [List.map_set, hdesc, ← List.getElem_map PullRec.desc]
  · exact List.set_getElem_self _
  · rwa [List.length_map]

/-- A poll changes `busy` of the volatile dequeues only. -/
theorem dqrrNext_validBit (P : Port) (r : Regions) :
    (P.ring.afterPoll P.impl r).swp.vdq.validBit = P.swp.vdq.validBit := by
  rw [P.ring.afterPoll_swp]
  obtain ⟨-, hnone, hsome⟩ := qbmanSwpDqrrNext_hook P.impl.ptrs P.ring.swp r
  cases hret : (qbmanSwpDqrrNext P.impl.ptrs P.ring.swp r).ret with
  | none =>
    rw [hnone hret]
    rfl
  | some off =>
    rw [hsome off hret]
    rfl

theorem afterPoll_cena (s : DqrrState) (impl : Impl) (r : Regions) :
    (s.afterPoll impl r).cena = s.cena := by
  cases hret : (qbmanSwpDqrrNext impl.ptrs s.swp r).ret with
  | none => rw [DqrrState.afterPoll_none hret]
  | some off => rw [DqrrState.afterPoll_some hret]

/-- An entry is written inside the ring. -/
theorem afterProduce_cena (P : Port) (l : Line) {off : Nat} (h : P.impl.vdqcr ≤ off) :
    (P.ring.afterProduce P.impl P.resetBug l).cena off = P.ring.cena off := by
  have hdisj := dqrr_vdqcr P.impl
  have hle := dqrrEntries_le P.resetBug
  have hlt := Nat.mod_lt P.ring.produced.length (dqrrEntries_pos P.resetBug)
  exact run_memcpyWords_of_lt _ _ _ fun k hk => by omega

theorem hook_validBit (v : Vdq) (x : U64) : (v.hook x).validBit = v.validBit := by
  unfold Vdq.hook
  split <;> rfl

/-- A storage poll that finds no token does nothing. -/
theorem withSwp_hasNewResult (P : Port) (x : U64) (l : Line) :
    P.withSwp (qbmanResultHasNewResult P.swp x l).2.1 = if dqTok l = 0 then P else P.hooked x := by
  unfold qbmanResultHasNewResult
  split
  · exact withSwp_self P
  · rfl

theorem Sound.hasNewResult (h : P.Sound impl) {x : U64} (hx : x ≠ 0) (l : Line) :
    (P.withSwp (qbmanResultHasNewResult P.swp x l).2.1).Sound impl := by
  rw [withSwp_hasNewResult]
  split
  · exact h
  · exact h.keep (h.inv.hooked hx) rfl (hook_validBit _ _) rfl fun _ _ => rfl

theorem Sound.step (h : P.Sound impl) (hstep : (portSys impl).step P l Q) : Q.Sound impl := by
  cases l with
  | pull d =>
    obtain ⟨hd, rfl⟩ := hstep
    exact h.pull hd
  | dqrrNext r =>
    obtain ⟨q, hq, rfl⟩ := hstep
    obtain ⟨hinv, hdesc, -⟩ := h.inv.dqrrNext hq
    obtain ⟨-, -, rfl⟩ := hq
    refine h.keep hinv hdesc (dqrrNext_validBit P r) rfl fun off _ => ?_
    exact congrFun (afterPoll_cena P.ring P.impl r) off
  | hasNewResult x l =>
    obtain ⟨hx, rfl⟩ := hstep
    exact h.hasNewResult hx l
  | consume k =>
    obtain ⟨q, hq, rfl⟩ := hstep
    have hinv := h.inv.consume hq
    obtain ⟨dq, -, -, rfl⟩ := hq
    exact h.keep hinv rfl rfl rfl fun _ _ => rfl
  | produce l =>
    obtain ⟨hl, q, hq, rfl⟩ := hstep
    have hinv := h.inv.produce hl hq
    obtain ⟨-, -, rfl⟩ := hq
    exact h.keep hinv rfl rfl rfl fun off hoff => afterProduce_cena P l hoff
  | expire k l =>
    obtain ⟨hl, r, q, hr, hsto, hexp, hq, rfl⟩ := hstep
    have hinv := h.inv.expire hr hsto hexp hl hq
    obtain ⟨-, -, rfl⟩ := hq
    exact h.keep hinv rfl rfl (setPull_desc hr rfl) fun off hoff => afterProduce_cena P l hoff
  | fill k x =>
    obtain ⟨r, hr, -, -, rfl⟩ := hstep
    exact h.keep (h.inv.setPull hr rfl rfl) rfl rfl (setPull_desc hr rfl) fun _ _ => rfl
  | finish k =>
    obtain ⟨r, hr, rfl⟩ := hstep
    exact h.keep (h.inv.setPull hr rfl rfl) rfl rfl (setPull_desc hr rfl) fun _ _ => rfl

/-! ## What the steps leave to the other interfaces -/

theorem owned (P : Port) (l : PortLabel) : ∀ a ∈ P.accs l, a.OwnedBy P.impl .dqrr := by
  cases l with
  | pull d =>
    show ∀ a ∈ (qbmanSwpPull P.impl.ptrs P.swp d).accs, _
    rw [Inv.pull_ptrs]
    exact owned_pullCall P.swp d
  | dqrrNext r => exact owned_dqrrNext P.swp r
  | consume k =>
    intro a ha
    cases hk : P.ring.handles[k]? with
    | none =>
      rw [accs, hk] at ha
      cases ha
    | some dq =>
      rw [accs, hk] at ha
      obtain rfl := List.mem_singleton.mp ha
      rfl
  | hasNewResult x l => exact List.forall_mem_nil _
  | produce l => exact List.forall_mem_nil _
  | expire k l => exact List.forall_mem_nil _
  | fill k x => exact List.forall_mem_nil _
  | finish k => exact List.forall_mem_nil _

/-- A portal object that differs in the dequeue fields. -/
theorem same_of_dqrr (hj : PortalPart.dqrr ≠ j) (p : QbmanSwp) (q : Dqrr) (v : Vdq) :
    j.Same p { p with dqrr := q, vdq := v } := by
  cases j with
  | dqrr => exact absurd rfl hj
  | rcr => trivial
  | eqcr => rfl
  | mc => exact ⟨rfl, rfl⟩
  | sdqcr => rfl

theorem leaves_produce (P : Port) (l : Line) (hj : PortalPart.dqrr ≠ j) :
    j.Kept P.impl ⟨P.swp, P.ring.cena⟩ ⟨P.swp, (P.ring.afterProduce P.impl P.resetBug l).cena⟩ := by
  have hle := dqrrEntries_le P.resetBug
  have hlt := Nat.mod_lt P.ring.produced.length (dqrrEntries_pos P.resetBug)
  refine .of_owned hj (owned_memcpyWords l fun k hk => ?_) rfl rfl (.refl j _) P.ring.cena
  exact owner_dqrr (by omega) (by omega)

theorem Sound.leaves (h : P.Sound impl) (hj : PortalPart.dqrr ≠ j)
    (hstep : (portSys impl).step P l Q) :
    j.Kept impl ⟨P.swp, P.ring.cena⟩ ⟨Q.swp, Q.ring.cena⟩ := by
  obtain ⟨-, rfl, -⟩ := h
  have howned := P.owned l
  cases l with
  | pull d =>
    obtain ⟨-, rfl⟩ := hstep
    have hswp : ∃ v, (qbmanSwpPull P.impl.ptrs P.swp d).swp = { P.swp with vdq := v } := by
      rw [Inv.pull_ptrs]
      by_cases hbusy : P.swp.vdq.busy = 1
      · exact ⟨_, (pullCall_free P.impl d hbusy).2⟩
      · rw [pullCall_busy P.impl d hbusy]
        exact ⟨_, rfl⟩
    obtain ⟨v, hv⟩ := hswp
    have hafter : (P.afterPullCall d).swp = { P.swp with vdq := v } := hv
    rw [hafter]
    exact PortalPart.Kept.of_owned (p := P.swp) (q := { P.swp with vdq := v }) hj howned rfl rfl
      (same_of_dqrr hj P.swp P.swp.dqrr v) P.ring.cena
  | dqrrNext r =>
    obtain ⟨q, ⟨-, -, rfl⟩, rfl⟩ := hstep
    have hview : ∀ {α : Type} (view : QbmanSwp → α),
        (∀ s dqrr vdq, view { s with dqrr, vdq } = view s) →
          view (P.polled (P.ring.afterPoll P.impl r)).swp = view P.swp := by
      intro α view hv
      show view (P.ring.afterPoll P.impl r).swp = _
      rw [P.ring.afterPoll_swp]
      exact qbmanSwpDqrrNext_view view hv P.impl.ptrs P.ring.swp r
    refine ⟨hview QbmanSwp.desc fun _ _ _ => rfl, hview QbmanSwp.sys fun _ _ _ => rfl, ?_,
      fun off _ => congrFun (afterPoll_cena P.ring P.impl r) off⟩
    cases j with
    | dqrr => exact absurd rfl hj
    | rcr => trivial
    | eqcr => exact hview QbmanSwp.eqcr fun _ _ _ => rfl
    | mc => exact ⟨hview QbmanSwp.mc fun _ _ _ => rfl, hview QbmanSwp.mr fun _ _ _ => rfl⟩
    | sdqcr => exact hview QbmanSwp.sdq fun _ _ _ => rfl
  | hasNewResult x l =>
    obtain ⟨-, rfl⟩ := hstep
    have hswp : ∃ v, (qbmanResultHasNewResult P.swp x l).2.1 = { P.swp with vdq := v } := by
      simp only [qbmanResultHasNewResult]
      split
      · exact ⟨_, rfl⟩
      · exact ⟨_, rfl⟩
    obtain ⟨v, hv⟩ := hswp
    rw [hv]
    exact ⟨rfl, rfl, same_of_dqrr hj P.swp P.swp.dqrr v, fun _ _ => rfl⟩
  | consume k =>
    obtain ⟨q, ⟨dq, -, -, rfl⟩, rfl⟩ := hstep
    exact .refl _
  | produce l =>
    obtain ⟨-, q, ⟨-, -, rfl⟩, rfl⟩ := hstep
    exact leaves_produce P l hj
  | expire k l =>
    obtain ⟨-, r, q, -, -, -, ⟨-, -, rfl⟩, rfl⟩ := hstep
    exact leaves_produce P l hj
  | fill k x =>
    obtain ⟨r, -, -, -, rfl⟩ := hstep
    exact .refl _
  | finish k =>
    obtain ⟨r, -, rfl⟩ := hstep
    exact .refl _

/-! ## What holds of the dequeues -/

/-- Polls return what the hardware produced, in order, and `NULL` only when there is no more; the
counter is free exactly if no pull waits for its results; `VDQCR` has the last accepted command. -/
structure Exact (P : Port) : Prop where
  returned : P.ring.returned <+: P.ring.produced
  poll_none : ∀ r, r.cena = P.ring.cena →
    (r.cinh qbmanCinhSwpDqpi &&& qmanDqrrPiMask).toNat =
      P.ring.produced.length % (2 * dqrrEntries P.resetBug) →
    ((qbmanSwpDqrrNext P.impl.ptrs P.swp r).ret = none ↔ P.ring.returned = P.ring.produced)
  poll_some : ∀ r off, r.cena = P.ring.cena →
    (r.cinh qbmanCinhSwpDqpi &&& qmanDqrrPiMask).toNat =
      P.ring.produced.length % (2 * dqrrEntries P.resetBug) →
    (qbmanSwpDqrrNext P.impl.ptrs P.swp r).ret = some off →
      P.ring.produced[P.ring.returned.length]? = some (P.ring.cena.line off)
  counter : (P.swp.vdq.busy = 0 ∧ P.pulls.length = P.incs + 1) ∨
    (P.swp.vdq.busy = 1 ∧ P.pulls.length = P.incs)
  vdqcr : P.Vdqcr

theorem Sound.exact (h : P.Sound impl) : P.Exact := by
  obtain ⟨x, hx⟩ := h.inv.up.ring
  have hpre : P.ring.returned <+: P.ring.produced := by
    rw [← hx.received, ← hx.sent]
    exact x.received_isPrefix
  refine ⟨hpre, fun r hcena hpi => ?_, fun r off hcena hpi hoff => ?_, ?_, h.vdqcr⟩
  · obtain ⟨-, ⟨hlt, hret, -⟩ | ⟨heq, hret, -⟩⟩ := hx.poll_outcome hcena hpi
    · refine ⟨fun hnone => ?_, fun hall => ?_⟩
      · cases hret.symm.trans hnone
      · rw [hall] at hlt
        exact absurd hlt (Nat.lt_irrefl _)
    · exact ⟨fun _ => hpre.eq_of_length heq, fun _ => hret⟩
  · obtain ⟨-, ⟨hlt, hret, -⟩ | ⟨-, hret, -⟩⟩ := hx.poll_outcome hcena hpi
    · cases hret.symm.trans hoff
      rw [hx.entry hlt, List.getElem?_eq_getElem hlt]
    · cases hret.symm.trans hoff
  · cases hp : P.pending with
    | some r => exact .inl ⟨h.inv.busy_of_pending hp, h.inv.length_of_pending hp⟩
    | none =>
      refine .inr ⟨?_, h.inv.length_of_none hp⟩
      have hbusy := h.inv.busy
      rw [hp] at hbusy
      exact hbusy

end Port

end Qbman
