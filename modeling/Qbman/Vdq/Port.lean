import Qbman.Vdq.Portals

/-!
# One portal's volatile dequeues

`Port.Inv`: the counter of a portal is `1` less its pulls that are not released, of which there is
at most one, and the portal waits for exactly that one, by `vdq.storage` or by the `EXPIRED` entry
in its ring. Every call of the driver and every event of the hardware at the portal keeps it, and
says by what it moves `incs`.
-/

namespace Qbman

namespace DqrrState

variable {impl : Impl} {resetBug : Bool} {s : DqrrState} {x : Chan Line (dqrrEntries resetBug)}

/-- What a call does to the portal outside the ring and its mapping does not matter to the ring. -/
theorem Rel.of_swp (h : s.Rel impl resetBug x) {p : QbmanSwp} (hsys : p.sys = s.swp.sys)
    (hdqrr : p.dqrr = s.swp.dqrr) : Rel impl resetBug { s with swp := p } x :=
  ⟨h.memBack, hsys ▸ h.aligned, h.sent, h.received, hdqrr ▸ h.pos, hdqrr ▸ h.bug, h.bits, h.stored,
    h.stale, h.handles_length, hsys ▸ h.handles, h.held, h.reused, h.consumed⟩

end DqrrState

namespace Port

/-- The portal is up: its ring, and the index that makes its token. -/
structure Up (P : Port) : Prop where
  ring : ∃ x, P.ring.Rel P.impl P.resetBug x
  idx : P.swp.sys.idx = BitVec.ofInt 32 P.swp.desc.idx
  idx_nonneg : 0 ≤ P.swp.desc.idx
  idx_lt : P.swp.desc.idx < 64

/-- An accepted pull of the portal. -/
structure Own (P : Port) (r : PullRec) : Prop where
  wf : r.desc.WF
  tok : (r.desc.tok.toNat : Int) = P.swp.desc.idx + 1
  storage : r.desc.toStorage = true → r.expiredAt = none

structure Inv (P : Port) : Prop where
  up : P.Up
  incs_le : P.incs ≤ P.pulls.length
  length_le : P.pulls.length ≤ P.incs + 1
  busy : P.swp.vdq.busy = if P.pending.isSome then 0 else 1
  storage : P.swp.vdq.storage = match P.pending with
    | some r => r.desc.rspAddrVirt
    | none => 0
  own : ∀ r ∈ P.pulls, P.Own r
  /-- The entries in the ring that are final are those of the pull that is not released. -/
  final : ∀ n (h : n < P.ring.produced.length), P.ring.returned.length ≤ n →
    (dqFinal P.ring.produced[n] = true ↔ ∃ r, P.pending = some r ∧ r.expiredAt = some n)
  expired : ∀ r n, P.pending = some r → r.expiredAt = some n →
    P.ring.returned.length ≤ n ∧ n < P.ring.produced.length
  released : ∀ k < P.incs, ∀ r, P.pulls[k]? = some r → r.desc.toStorage = false → r.expiredAt ≠ none

variable {P : Port}

theorem pending_mem {r : PullRec} (h : P.pending = some r) : r ∈ P.pulls :=
  List.mem_of_getElem? h

/-- The ring moves on. -/
theorem Up.of_ring (h : P.Up) {q : DqrrState} (hdesc : q.swp.desc = P.swp.desc)
    (hsys : q.swp.sys = P.swp.sys) (hrel : ∃ x, q.Rel P.impl P.resetBug x) (pulls : List PullRec)
    (incs : Nat) : Up ⟨q, pulls, incs⟩ := by
  have himpl : (Port.mk q pulls incs).impl = P.impl := congrArg QbmanSwpDesc.impl hdesc
  have hbug : (Port.mk q pulls incs).resetBug = P.resetBug :=
    congrArg (fun d => (swpDefaults d).dqrr.resetBug) hdesc
  refine ⟨?_, ?_, ?_, ?_⟩
  · rw [himpl, hbug]
    exact hrel
  · show q.swp.sys.idx = BitVec.ofInt 32 q.swp.desc.idx
    rw [hsys, hdesc]
    exact h.idx
  · exact hdesc ▸ h.idx_nonneg
  · exact hdesc ▸ h.idx_lt

/-- A poll that does not move the counter. -/
theorem polled_same {q : DqrrState} (hbusy : q.swp.vdq.busy = P.swp.vdq.busy) :
    P.polled q = ⟨q, P.pulls, P.incs⟩ := by
  show Port.mk q P.pulls (P.incs + (q.swp.vdq.busy - P.swp.vdq.busy).toNat) = _
  rw [hbusy, BitVec.sub_self]
  rfl

/-- A poll that increments the counter. -/
theorem polled_inc {q : DqrrState} (hbusy : q.swp.vdq.busy = P.swp.vdq.busy + 1) :
    P.polled q = ⟨q, P.pulls, P.incs + 1⟩ := by
  have hone : P.swp.vdq.busy + 1 - P.swp.vdq.busy = 1 := by bv_omega
  show Port.mk q P.pulls (P.incs + (q.swp.vdq.busy - P.swp.vdq.busy).toNat) = _
  rw [hbusy, hone]
  rfl

theorem withSwp_self (P : Port) : P.withSwp P.swp = P := polled_same rfl

/-- After a storage poll of the entry at `x` that found a token. -/
def hooked (P : Port) (x : U64) : Port := P.withSwp { P.swp with vdq := P.swp.vdq.hook x }

/-- Only `vdq` of the portal object changes. -/
theorem Up.of_vdq (h : P.Up) (v : Vdq) (pulls : List PullRec) (incs : Nat) :
    Up ⟨{ P.ring with swp := { P.swp with vdq := v } }, pulls, incs⟩ := by
  obtain ⟨x, hx⟩ := h.ring
  exact h.of_ring (q := { P.ring with swp := { P.swp with vdq := v } }) rfl rfl
    ⟨x, hx.of_swp rfl rfl⟩ pulls incs

theorem Own.of_desc {r : PullRec} (h : P.Own r) {Q : Port} (hdesc : Q.swp.desc = P.swp.desc) :
    Q.Own r := ⟨h.wf, hdesc ▸ h.tok, h.storage⟩

/-- The token of a portal, from its index. -/
theorem Up.token (h : P.Up) : (((P.swp.sys.idx + 1).setWidth 8 : U8).toNat : Int) =
    P.swp.desc.idx + 1 := tok_toNat h.idx h.idx_nonneg h.idx_lt

namespace Inv

/-- The next pull is released when the counter goes up, and not before. -/
theorem pending_succ (h : P.Inv) : P.pulls[P.incs + 1]? = none :=
  List.getElem?_eq_none_iff.mpr h.length_le

theorem length_of_pending (h : P.Inv) {r : PullRec} (hr : P.pending = some r) :
    P.pulls.length = P.incs + 1 := by
  have := (List.getElem?_eq_some_iff.mp hr).1
  have := h.length_le
  omega

theorem length_of_none (h : P.Inv) (hp : P.pending = none) : P.pulls.length = P.incs :=
  Nat.le_antisymm (List.getElem?_eq_none_iff.mp hp) h.incs_le

theorem busy_of_pending (h : P.Inv) {r : PullRec} (hr : P.pending = some r) :
    P.swp.vdq.busy = 0 := by
  rw [h.busy, hr]
  rfl

theorem storage_of_pending (h : P.Inv) {r : PullRec} (hr : P.pending = some r) :
    P.swp.vdq.storage = r.desc.rspAddrVirt := by
  rw [h.storage, hr]

theorem pending_of_busy (h : P.Inv) (hbusy : P.swp.vdq.busy = 1) : P.pending = none := by
  cases hp : P.pending with
  | none => rfl
  | some r =>
    have := h.busy_of_pending hp
    rw [hbusy] at this
    cases this

/-! ### `qbman_swp_pull` -/

theorem pull_ptrs (impl : Impl) (p : QbmanSwp) (d : QbmanPullDesc) :
    qbmanSwpPull impl.ptrs p d = pullCall impl p d := by
  cases impl <;> rfl

theorem reject {d : QbmanPullDesc} (hret : (qbmanSwpPull P.impl.ptrs P.swp d).ret.1 ≠ 0) :
    P.afterPull (qbmanSwpPull P.impl.ptrs P.swp d) = P := by
  rw [pull_ptrs] at hret ⊢
  by_cases hbusy : P.swp.vdq.busy = 1
  · rw [(pullCall_free P.impl d hbusy).1] at hret
    exact absurd rfl hret
  · rw [pullCall_busy P.impl d hbusy]
    rfl

/-- A pull that is accepted: nothing was outstanding, and the new one is now. -/
theorem accept (h : P.Inv) {d : QbmanPullDesc} (hd : d.Built)
    (hret : (qbmanSwpPull P.impl.ptrs P.swp d).ret.1 = 0) :
    P.pending = none ∧ (qbmanSwpPull P.impl.ptrs P.swp d).ret.2 =
        { d with tok := (P.swp.sys.idx + 1).setWidth 8 } ∧
      (P.afterPull (qbmanSwpPull P.impl.ptrs P.swp d)).swp.desc = P.swp.desc ∧
      (P.afterPull (qbmanSwpPull P.impl.ptrs P.swp d)).Inv := by
  rw [pull_ptrs] at hret ⊢
  by_cases hbusy : P.swp.vdq.busy = 1
  · obtain ⟨hr, hs⟩ := pullCall_free P.impl d hbusy
    have hpend := h.pending_of_busy hbusy
    have hlen := h.length_of_none hpend
    let r : PullRec := { desc := { d with tok := (P.swp.sys.idx + 1).setWidth 8 } }
    have hafter : P.afterPull (pullCall P.impl P.swp d) =
        ⟨{ P.ring with swp := { P.swp with vdq := ⟨0, P.swp.vdq.validBit ^^^ qbValidBit,
          d.rspAddrVirt⟩ } }, P.pulls ++ [r], P.incs⟩ := by
      rw [afterPull, hr, hs, if_pos rfl]
    have hnew : (P.pulls ++ [r])[P.incs]? = some r := by
      rw [← hlen]
      exact List.getElem?_concat_length ..
    rw [hafter]
    refine ⟨hpend, by rw [hr], rfl, h.up.of_vdq _ _ _, ?_, ?_, ?_, ?_, fun r' hr' => ?_,
      fun n hn hle => ?_, fun r' n hr' hexp => ?_, fun k hk r' hr' => ?_⟩
    · rw [List.length_append, hlen]
      exact Nat.le_add_right _ _
    · rw [List.length_append, hlen]
      exact Nat.le_refl _
    · rw [pending, hnew]
      rfl
    · rw [pending, hnew]
      rfl
    · rcases List.mem_append.mp hr' with hold | hnew'
      · exact ⟨(h.own r' hold).wf, (h.own r' hold).tok, (h.own r' hold).storage⟩
      · obtain rfl := List.mem_singleton.mp hnew'
        exact ⟨⟨hd.wf.verb_bit, hd.wf.storage⟩, h.up.token, fun _ => rfl⟩
    · have hnone := h.final n hn hle
      rw [hpend] at hnone
      refine ⟨fun hfinal => ?_, fun hex => ?_⟩
      · obtain ⟨r', hr', -⟩ := hnone.mp hfinal
        cases hr'
      · obtain ⟨r', hr', hexp⟩ := hex
        cases hnew.symm.trans hr'
        cases hexp
    · cases hnew.symm.trans hr'
      cases hexp
    · have hk' : k < P.incs := hk
      rw [List.getElem?_append_left (by omega)] at hr'
      exact h.released k hk r' hr'
  · rw [pullCall_busy P.impl d hbusy] at hret
    cases hret

/-! ### `qbman_swp_dqrr_next` -/

/-- A poll that returned the final entry releases the pull. -/
theorem release (h : P.Inv) {q : DqrrState} {rec : PullRec} (hrec : P.pending = some rec)
    (hup : Up ⟨q, P.pulls, P.incs + 1⟩) (hdesc : q.swp.desc = P.swp.desc)
    (hbusy : q.swp.vdq.busy = 1) (hstorage : q.swp.vdq.storage = 0)
    (hprod : q.produced = P.ring.produced)
    (hret : ∀ n, q.returned.length ≤ n → P.ring.returned.length ≤ n ∧ rec.expiredAt ≠ some n)
    (hexp : rec.desc.toStorage = false → rec.expiredAt ≠ none) :
    Inv ⟨q, P.pulls, P.incs + 1⟩ := by
  have hnone : (Port.mk q P.pulls (P.incs + 1)).pending = none := h.pending_succ
  have hlen := h.length_of_pending hrec
  refine ⟨hup, Nat.le_of_eq hlen.symm, Nat.le_succ_of_le (Nat.le_of_eq hlen), ?_, ?_,
    fun r hr => (h.own r hr).of_desc hdesc, fun n hn hle => ?_, fun r n hr => ?_,
    fun k hk r hr hsto => ?_⟩
  · rw [hnone]
    exact hbusy
  · rw [hnone]
    exact hstorage
  · rw [hnone]
    obtain ⟨hle', hne⟩ := hret n hle
    have hfinal := h.final n (hprod ▸ hn) hle'
    refine ⟨fun hf => ?_, fun ⟨r, hr, _⟩ => (nomatch hr)⟩
    simp only [hprod] at hf
    obtain ⟨r, hr, hr'⟩ := hfinal.mp hf
    obtain rfl := Option.some.inj (hrec.symm.trans hr)
    exact absurd hr' hne
  · rw [hnone] at hr
    cases hr
  · by_cases hlast : k = P.incs
    · subst hlast
      obtain rfl := Option.some.inj (hrec.symm.trans hr)
      exact hexp hsto
    · have hk' : k < P.incs + 1 := hk
      exact h.released k (by omega) r hr hsto

/-- A call that leaves `vdq` alone, while the ring may have given an entry that is not final. -/
theorem keep (h : P.Inv) {q : DqrrState} (hup : Up ⟨q, P.pulls, P.incs⟩)
    (hdesc : q.swp.desc = P.swp.desc) (hvdq : q.swp.vdq = P.swp.vdq)
    (hprod : q.produced = P.ring.produced) (hle : P.ring.returned.length ≤ q.returned.length)
    (hret : ∀ rec n, P.pending = some rec → rec.expiredAt = some n → q.returned.length ≤ n) :
    Inv ⟨q, P.pulls, P.incs⟩ := by
  refine ⟨hup, h.incs_le, h.length_le, ?_, ?_, fun r hr => (h.own r hr).of_desc hdesc,
    fun n hn hn' => ?_, fun r n hr hr' => ?_, h.released⟩
  · show q.swp.vdq.busy = _
    rw [hvdq]
    exact h.busy
  · show q.swp.vdq.storage = _
    rw [hvdq]
    exact h.storage
  · simp only [hprod]
    exact h.final n (hprod ▸ hn) (Nat.le_trans hle hn')
  · refine ⟨hret r n hr hr', ?_⟩
    show n < q.produced.length
    rw [hprod]
    exact (h.expired r n hr hr').2

/-- A poll that gives the entry for which the pull waits in the ring. -/
theorem dqrrFinal (h : P.Inv) {q : DqrrState} {rec : PullRec} (hrec : P.pending = some rec)
    (hexp : rec.expiredAt = some P.ring.returned.length) (hrel : ∃ y, q.Rel P.impl P.resetBug y)
    (hdesc : q.swp.desc = P.swp.desc) (hsys : q.swp.sys = P.swp.sys)
    (hvdq : q.swp.vdq = { P.swp.vdq with busy := P.swp.vdq.busy + 1 })
    (hprod : q.produced = P.ring.produced)
    (hlen : q.returned.length = P.ring.returned.length + 1) :
    (P.polled q).Inv ∧ (P.polled q).incs = P.incs + 1 ∧ rec.desc.toStorage = false := by
  have hown := h.own rec (pending_mem hrec)
  have hsto : rec.desc.toStorage = false := by
    cases hs : rec.desc.toStorage with
    | false => rfl
    | true =>
      rw [hown.storage hs] at hexp
      cases hexp
  -- A pull without a storage array leaves `vdq.storage` clear.
  have haddr : rec.desc.rspAddrVirt = 0 := by
    by_contra hne
    rw [hown.wf.storage.mpr hne] at hsto
    cases hsto
  rw [polled_inc (congrArg Vdq.busy hvdq)]
  refine ⟨?_, rfl, hsto⟩
  refine h.release hrec (h.up.of_ring hdesc hsys hrel _ _) hdesc ?_ ?_ hprod (fun n hn => ?_)
    fun _ => ?_
  · rw [hvdq, h.busy_of_pending hrec]
    rfl
  · rw [hvdq, ← haddr]
    exact h.storage_of_pending hrec
  · refine ⟨by omega, ?_⟩
    rw [hexp]
    intro he
    have := Option.some.inj he
    omega
  · rw [hexp]
    exact nofun

/-- A poll that gives no entry, or one for which no pull waits. -/
theorem dqrrQuiet (h : P.Inv) {q : DqrrState} (hrel : ∃ y, q.Rel P.impl P.resetBug y)
    (hdesc : q.swp.desc = P.swp.desc) (hsys : q.swp.sys = P.swp.sys) (hvdq : q.swp.vdq = P.swp.vdq)
    (hprod : q.produced = P.ring.produced) (hle : P.ring.returned.length ≤ q.returned.length)
    (hret : ∀ rec n, P.pending = some rec → rec.expiredAt = some n → q.returned.length ≤ n) :
    (P.polled q).Inv ∧ (P.polled q).incs = P.incs := by
  rw [polled_same (congrArg Vdq.busy hvdq)]
  exact ⟨h.keep (h.up.of_ring hdesc hsys hrel _ _) hdesc hvdq hprod hle hret, rfl⟩

theorem dqrrNext (h : P.Inv) {r : Regions} {q : DqrrState}
    (hstep : (dqrrSys P.impl P.resetBug).step P.ring (.poll r) q) :
    (P.polled q).Inv ∧ (P.polled q).swp.desc = P.swp.desc ∧
      (((P.polled q).incs = P.incs + 1 ∧
          ∃ rec, P.pending = some rec ∧ rec.desc.toStorage = false ∧
            rec.expiredAt = some P.ring.returned.length ∧
            (qbmanSwpDqrrNext P.impl.ptrs P.swp r).ret ≠ none) ∨
        ((P.polled q).incs = P.incs ∧
          ¬ ∃ rec, P.pending = some rec ∧ rec.expiredAt = some P.ring.returned.length ∧
            (qbmanSwpDqrrNext P.impl.ptrs P.swp r).ret ≠ none)) := by
  obtain ⟨hcena, hpi, rfl⟩ := hstep
  obtain ⟨x, hx⟩ := h.up.ring
  obtain ⟨-, y, -, hy⟩ := hx.poll hcena hpi
  obtain ⟨hdesc, hvnone, hvsome⟩ := qbmanSwpDqrrNext_hook P.impl.ptrs P.ring.swp r
  obtain ⟨hsys, hout⟩ := hx.poll_outcome hcena hpi
  have hswp := P.ring.afterPoll_swp P.impl r
  have hprod := P.ring.afterPoll_produced P.impl r
  rw [← hswp] at hdesc hsys hvnone hvsome
  rcases hout with ⟨hlt, hret, -⟩ | ⟨-, hret, -⟩
  · -- The oldest entry of the ring.
    have hvdq := hvsome _ hret
    rw [hcena, hx.entry hlt] at hvdq
    have hfinal := h.final _ hlt (Nat.le_refl _)
    have hlen : (P.ring.afterPoll P.impl r).returned.length = P.ring.returned.length + 1 := by
      rw [DqrrState.afterPoll_some hret, List.length_append, List.length_singleton]
    by_cases hf : dqFinal P.ring.produced[P.ring.returned.length] = true
    · obtain ⟨rec, hrec, hexp⟩ := hfinal.mp hf
      rw [hf, if_pos rfl] at hvdq
      obtain ⟨hinv, hincs, hsto⟩ := h.dqrrFinal hrec hexp ⟨y, hy⟩ hdesc hsys hvdq hprod hlen
      refine ⟨hinv, hdesc, .inl ⟨hincs, rec, hrec, hsto, hexp, ?_⟩⟩
      rw [show (qbmanSwpDqrrNext P.impl.ptrs P.swp r).ret = _ from hret]
      exact nofun
    · rw [Bool.eq_false_of_not_eq_true hf, if_neg Bool.false_ne_true] at hvdq
      obtain ⟨hinv, hincs⟩ := h.dqrrQuiet ⟨y, hy⟩ hdesc hsys hvdq hprod (by omega)
        fun rec n hrec hexp => by
          have hle := (h.expired rec n hrec hexp).1
          have hn : n ≠ P.ring.returned.length := by
            rintro rfl
            exact hf (hfinal.mpr ⟨rec, hrec, hexp⟩)
          omega
      exact ⟨hinv, hdesc, .inr ⟨hincs, fun ⟨rec, hrec, hexp, _⟩ =>
        hf (hfinal.mpr ⟨rec, hrec, hexp⟩)⟩⟩
  · have hlen : (P.ring.afterPoll P.impl r).returned.length = P.ring.returned.length := by
      rw [DqrrState.afterPoll_none hret]
    obtain ⟨hinv, hincs⟩ := h.dqrrQuiet ⟨y, hy⟩ hdesc hsys (hvnone hret) hprod (by omega)
      fun rec n hrec hexp => hlen ▸ (h.expired rec n hrec hexp).1
    exact ⟨hinv, hdesc, .inr ⟨hincs, fun ⟨_, _, _, hne⟩ => hne hret⟩⟩

/-! ### The storage polls -/

/-- A storage poll of the entry that `vdq.storage` waits for releases the pull; any other poll
leaves the portal alone. -/
theorem hook (h : P.Inv) {x : U64} (hx : x ≠ 0) :
    ((∃ rec, P.pending = some rec ∧ rec.desc.toStorage = true ∧ rec.desc.rspAddrVirt = x) →
        (P.hooked x).Inv ∧ (P.hooked x).incs = P.incs + 1) ∧
      ((¬ ∃ rec, P.pending = some rec ∧ rec.desc.toStorage = true ∧ rec.desc.rspAddrVirt = x) →
        P.hooked x = P) := by
  constructor
  · rintro ⟨rec, hrec, hsto, rfl⟩
    have hstorage := h.storage_of_pending hrec
    have hvdq : P.swp.vdq.hook rec.desc.rspAddrVirt =
        { P.swp.vdq with storage := 0, busy := atomicInc P.swp.vdq.busy } := if_pos hstorage
    rw [hooked, hvdq]
    have hpolled : P.withSwp { P.swp with
        vdq := { P.swp.vdq with storage := 0, busy := atomicInc P.swp.vdq.busy } } =
          ⟨{ P.ring with swp := { P.swp with
            vdq := { P.swp.vdq with storage := 0, busy := atomicInc P.swp.vdq.busy } } },
            P.pulls, P.incs + 1⟩ := polled_inc rfl
    rw [hpolled]
    refine ⟨?_, rfl⟩
    refine h.release hrec (h.up.of_vdq _ _ _) rfl ?_ rfl rfl (fun n hn => ⟨hn, ?_⟩) fun hno => ?_
    · show atomicInc P.swp.vdq.busy = 1
      rw [h.busy_of_pending hrec]
      rfl
    · rw [(h.own rec (pending_mem hrec)).storage hsto]
      exact nofun
    · rw [hsto] at hno
      cases hno
  · intro hno
    have hne : P.swp.vdq.storage ≠ x := by
      rintro rfl
      cases hp : P.pending with
      | none =>
        have := h.storage
        rw [hp] at this
        exact hx this
      | some rec =>
        have hstorage := h.storage_of_pending hp
        refine hno ⟨rec, hp, ?_, hstorage.symm⟩
        rw [hstorage] at hx
        exact (h.own rec (pending_mem hp)).wf.storage.mpr hx
    have hvdq : P.swp.vdq.hook x = P.swp.vdq := if_neg hne
    rw [hooked, hvdq]
    exact withSwp_self P

theorem hooked (h : P.Inv) {x : U64} (hx : x ≠ 0) : (P.hooked x).Inv := by
  obtain ⟨hyes, hno⟩ := h.hook hx
  by_cases hrec : ∃ rec, P.pending = some rec ∧ rec.desc.toStorage = true ∧ rec.desc.rspAddrVirt = x
  · exact (hyes hrec).1
  · rw [hno hrec]
    exact h

/-! ### The hardware -/

/-- An entry that is not final. -/
theorem produce (h : P.Inv) {l : Line} {q : DqrrState} (hl : dqFinal l = false)
    (hstep : (dqrrSys P.impl P.resetBug).step P.ring (.produce l) q) :
    Inv { P with ring := q } := by
  obtain ⟨hfree, hbit, rfl⟩ := hstep
  obtain ⟨x, hx⟩ := h.up.ring
  obtain ⟨-, y, -, hy⟩ := hx.produce hfree hbit
  have hprod : (P.ring.afterProduce P.impl P.resetBug l).produced = P.ring.produced ++ [l] := rfl
  have hup : Up ⟨P.ring.afterProduce P.impl P.resetBug l, P.pulls, P.incs⟩ :=
    h.up.of_ring (q := P.ring.afterProduce P.impl P.resetBug l) rfl rfl ⟨y, hy⟩ _ _
  refine ⟨hup, h.incs_le, h.length_le, h.busy, h.storage,
    fun r hr => (h.own r hr).of_desc rfl, fun n hn hle => ?_, fun r n hr hexp => ?_, h.released⟩
  · have hn' : n < P.ring.produced.length + 1 := by
      rw [← List.length_singleton (a := l), ← List.length_append, ← hprod]
      exact hn
    simp only [hprod]
    by_cases hlast : n = P.ring.produced.length
    · subst hlast
      rw [List.getElem_concat_length rfl, hl]
      refine ⟨nofun, fun ⟨r, hr, hexp⟩ => ?_⟩
      have := (h.expired r _ hr hexp).2
      omega
    · rw [List.getElem_append_left (by omega)]
      exact h.final n (by omega) hle
  · have := h.expired r n hr hexp
    refine ⟨this.1, ?_⟩
    show n < (P.ring.produced ++ [l]).length
    rw [List.length_append]
    exact Nat.lt_add_right _ this.2

/-- A pull whose results go to the ring and have not ended is the one that is not released. -/
theorem pending_of_unexpired (h : P.Inv) {k : Nat} {r : PullRec} (hr : P.pulls[k]? = some r)
    (hsto : r.desc.toStorage = false) (hexp : r.expiredAt = none) :
    k = P.incs ∧ P.pending = some r := by
  have hlt := (List.getElem?_eq_some_iff.mp hr).1
  have hle := h.length_le
  have hge : ¬ k < P.incs := fun hk => h.released k hk r hr hsto hexp
  obtain rfl : k = P.incs := by omega
  exact ⟨rfl, hr⟩

theorem setPull_pending (P : Port) {k : Nat} {r r' : PullRec} (hr : P.pulls[k]? = some r) :
    (P.setPull k r').pending = if k = P.incs then some r' else P.pending := by
  have hlt := (List.getElem?_eq_some_iff.mp hr).1
  show (P.pulls.set k r')[P.incs]? = _
  rw [List.getElem?_set]
  split
  · rfl
  · rfl

/-- The final entry of the pull that is not released. -/
theorem expire (h : P.Inv) {k : Nat} {r : PullRec} {l : Line} {q : DqrrState}
    (hr : P.pulls[k]? = some r) (hsto : r.desc.toStorage = false) (hexp : r.expiredAt = none)
    (hl : dqFinal l = true)
    (hstep : (dqrrSys P.impl P.resetBug).step P.ring (.produce l) q) :
    Inv { P.setPull k { r with expiredAt := some P.ring.produced.length } with ring := q } := by
  obtain ⟨rfl, hpend⟩ := h.pending_of_unexpired hr hsto hexp
  obtain ⟨hfree, hbit, rfl⟩ := hstep
  obtain ⟨x, hx⟩ := h.up.ring
  obtain ⟨-, y, -, hy⟩ := hx.produce hfree hbit
  let r' : PullRec := { r with expiredAt := some P.ring.produced.length }
  have hlen : (P.pulls.set P.incs r').length = P.pulls.length := List.length_set
  have hpend' : (Port.mk (P.ring.afterProduce P.impl P.resetBug l) (P.pulls.set P.incs r')
      P.incs).pending = some r' := (setPull_pending P hr).trans (if_pos rfl)
  have hprod : (P.ring.afterProduce P.impl P.resetBug l).produced = P.ring.produced ++ [l] := rfl
  have hown := h.own r (pending_mem hpend)
  have hup : Up ⟨P.ring.afterProduce P.impl P.resetBug l, P.pulls.set P.incs r', P.incs⟩ :=
    h.up.of_ring (q := P.ring.afterProduce P.impl P.resetBug l) rfl rfl ⟨y, hy⟩ _ _
  show Inv (Port.mk _ (P.pulls.set P.incs r') P.incs)
  refine ⟨hup, hlen ▸ h.incs_le, hlen ▸ h.length_le, ?_, ?_,
    fun r'' hr'' => ?_, fun n hn hle => ?_, fun r'' n hr'' hexp'' => ?_, fun j hj r'' hr'' => ?_⟩
  · rw [hpend']
    exact h.busy_of_pending hpend
  · rw [hpend']
    exact (h.storage_of_pending hpend : _ = r.desc.rspAddrVirt)
  · rcases List.mem_or_eq_of_mem_set hr'' with hmem | rfl
    · exact (h.own r'' hmem).of_desc rfl
    · refine ⟨hown.wf, hown.tok, fun hs => ?_⟩
      rw [show r.desc.toStorage = true from hs] at hsto
      cases hsto
  · have hn' : n < P.ring.produced.length + 1 := by
      rw [← List.length_singleton (a := l), ← List.length_append, ← hprod]
      exact hn
    simp only [hprod, hpend']
    by_cases hlast : n = P.ring.produced.length
    · subst hlast
      rw [List.getElem_concat_length rfl, hl]
      exact ⟨fun _ => ⟨r', rfl, rfl⟩, fun _ => rfl⟩
    · rw [List.getElem_append_left (by omega), h.final n (by omega) hle, hpend]
      refine ⟨fun ⟨r₁, hr₁, hexp₁⟩ => ?_, fun ⟨r₁, hr₁, hexp₁⟩ => ?_⟩
      · obtain rfl := Option.some.inj hr₁
        rw [hexp] at hexp₁
        cases hexp₁
      · obtain rfl := Option.some.inj hr₁
        exact absurd (Option.some.inj hexp₁).symm hlast
  · obtain rfl := Option.some.inj (hpend'.symm.trans hr'')
    obtain rfl := Option.some.inj hexp''
    refine ⟨hx.returned_le, ?_⟩
    show P.ring.produced.length < (P.ring.produced ++ [l]).length
    rw [List.length_append]
    exact Nat.lt_succ_self _
  · have hj' : j < P.incs := hj
    rw [List.getElem?_set_ne (by omega)] at hr''
    exact h.released j hj' r'' hr''

theorem consume (h : P.Inv) {k : Nat} {q : DqrrState}
    (hstep : (dqrrSys P.impl P.resetBug).step P.ring (.consume k) q) :
    Inv { P with ring := q } := by
  obtain ⟨dq, hk, hc, rfl⟩ := hstep
  obtain ⟨x, hx⟩ := h.up.ring
  have hup : Up ⟨P.ring.afterConsume k dq, P.pulls, P.incs⟩ :=
    h.up.of_ring (q := P.ring.afterConsume k dq) rfl rfl ⟨x, hx.consume hk hc⟩ _ _
  exact h.keep hup rfl rfl rfl (Nat.le_refl _) fun rec n hrec hexp => (h.expired rec n hrec hexp).1

/-- What the hardware does in host memory changes neither the command nor the ring. -/
theorem setPull (h : P.Inv) {k : Nat} {r r' : PullRec} (hr : P.pulls[k]? = some r)
    (hdesc : r'.desc = r.desc) (hexp : r'.expiredAt = r.expiredAt) : (P.setPull k r').Inv := by
  have hlen : (P.setPull k r').pulls.length = P.pulls.length := List.length_set
  have hpend : (P.setPull k r').pending = if k = P.incs then some r' else P.pending :=
    setPull_pending P hr
  -- The pending pull is the same but for the bookkeeping of the hardware.
  have hsame : ((P.setPull k r').pending = none ∧ P.pending = none) ∨
      ∃ r₁ r₀, (P.setPull k r').pending = some r₁ ∧ P.pending = some r₀ ∧ r₁.desc = r₀.desc ∧
        r₁.expiredAt = r₀.expiredAt := by
    rw [hpend]
    split
    · rename_i hk
      subst hk
      exact .inr ⟨r', r, rfl, hr, hdesc, hexp⟩
    · cases hp : P.pending with
      | none => exact .inl ⟨rfl, rfl⟩
      | some r₀ => exact .inr ⟨r₀, r₀, rfl, rfl, rfl, rfl⟩
  have hup : (P.setPull k r').Up := h.up.of_ring rfl rfl h.up.ring _ _
  refine ⟨hup, hlen ▸ h.incs_le, hlen ▸ h.length_le, ?_, ?_, fun r₁ hr₁ => ?_, fun n hn hle => ?_,
    fun r₁ n hr₁ hexp₁ => ?_, fun j hj r₁ hr₁ hsto => ?_⟩
  · have hbusy := h.busy
    rcases hsame with ⟨h₁, h₀⟩ | ⟨r₁, r₀, h₁, h₀, -⟩
    · rw [h₁]
      rwa [h₀] at hbusy
    · rw [h₁]
      rwa [h₀] at hbusy
  · have hstorage := h.storage
    rcases hsame with ⟨h₁, h₀⟩ | ⟨r₁, r₀, h₁, h₀, hd, -⟩
    · rw [h₁]
      rwa [h₀] at hstorage
    · rw [h₀] at hstorage
      rw [h₁]
      exact hstorage.trans (congrArg QbmanPullDesc.rspAddrVirt hd).symm
  · rcases List.mem_or_eq_of_mem_set hr₁ with hmem | rfl
    · exact (h.own r₁ hmem).of_desc rfl
    · have hown := h.own r (List.mem_of_getElem? hr)
      exact ⟨hdesc ▸ hown.wf, hdesc ▸ hown.tok, fun hs => hexp.trans (hown.storage (hdesc ▸ hs))⟩
  · refine (h.final n hn hle).trans ?_
    rcases hsame with ⟨h₁, h₀⟩ | ⟨r₁, r₀, h₁, h₀, -, he⟩
    · rw [h₁, h₀]
    · rw [h₁, h₀]
      refine ⟨fun ⟨r₂, hr₂, hexp₂⟩ => ?_, fun ⟨r₂, hr₂, hexp₂⟩ => ?_⟩
      · obtain rfl := Option.some.inj hr₂
        exact ⟨r₁, rfl, he.trans hexp₂⟩
      · obtain rfl := Option.some.inj hr₂
        exact ⟨r₀, rfl, he.symm.trans hexp₂⟩
  · rcases hsame with ⟨h₁, -⟩ | ⟨r₂, r₀, h₁, h₀, -, he⟩
    · rw [h₁] at hr₁
      cases hr₁
    · rw [h₁] at hr₁
      obtain rfl := Option.some.inj hr₁
      exact h.expired r₀ n h₀ (he.symm.trans hexp₁)
  · have hset : (P.pulls.set k r')[j]? = some r₁ := hr₁
    by_cases hjk : k = j
    · subst hjk
      rw [List.getElem?_set_self (List.getElem?_eq_some_iff.mp hr).1] at hset
      obtain rfl := Option.some.inj hset
      rw [hexp]
      exact h.released k hj r hr (hdesc ▸ hsto)
    · rw [List.getElem?_set_ne hjk] at hset
      exact h.released j hj r₁ hset hsto

end Inv

end Port

end Qbman
