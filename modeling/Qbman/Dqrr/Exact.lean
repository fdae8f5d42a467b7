import Qbman.Dqrr.Ring

/-!
# Polling returns exactly what the hardware produced

A poll receives the oldest entry of the channel or finds it empty (`Rel.poll`), the hardware sends
one entry (`Rel.produce`), and consuming an entry frees its slot only (`Rel.consume`).
-/

namespace Qbman

variable {impl : Impl} {resetBug : Bool} {s : DqrrState} {x : Chan Line (dqrrEntries resetBug)}

namespace DqrrState

theorem afterPoll_none {r : Regions} (h : (qbmanSwpDqrrNext impl.ptrs s.swp r).ret = none) :
    s.afterPoll impl r = { s with swp := (qbmanSwpDqrrNext impl.ptrs s.swp r).swp } := by
  simp only [afterPoll, h]

theorem afterPoll_some {r : Regions} {off : Nat}
    (h : (qbmanSwpDqrrNext impl.ptrs s.swp r).ret = some off) :
    s.afterPoll impl r = { s with
      swp := (qbmanSwpDqrrNext impl.ptrs s.swp r).swp
      returned := s.returned ++ [s.cena.line off]
      handles := s.handles ++ [s.swp.sys.addrCena + off] } := by
  simp only [afterPoll, h]

/-- A poll changes the portal as the call does, and adds no entry. -/
theorem afterPoll_swp (impl : Impl) (s : DqrrState) (r : Regions) :
    (s.afterPoll impl r).swp = (qbmanSwpDqrrNext impl.ptrs s.swp r).swp := by
  cases hret : (qbmanSwpDqrrNext impl.ptrs s.swp r).ret with
  | none => rw [afterPoll_none hret]
  | some off => rw [afterPoll_some hret]

theorem afterPoll_produced (impl : Impl) (s : DqrrState) (r : Regions) :
    (s.afterPoll impl r).produced = s.produced := by
  cases hret : (qbmanSwpDqrrNext impl.ptrs s.swp r).ret with
  | none => rw [afterPoll_none hret]
  | some off => rw [afterPoll_some hret]

namespace Rel

/-- A poll receives the oldest entry, or nothing when there is none. -/
theorem poll (h : s.Rel impl resetBug x) {r : Regions} (hcena : r.cena = s.cena)
    (hpi : (r.cinh qbmanCinhSwpDqpi &&& qmanDqrrPiMask).toNat =
      s.produced.length % (2 * dqrrEntries resetBug)) :
    ∃ bs y, (Chan.sys Line (dqrrEntries resetBug)).Steps x bs y ∧
      (s.afterPoll impl r).Rel impl resetBug y := by
  obtain ⟨hsys, ⟨hlt, hret, hpos, hbug⟩ | ⟨-, hret, hdqrr⟩⟩ := h.poll_outcome hcena hpi
  · have hgot : x.got < x.sent.length := by rw [h.sent, h.got_eq]; exact hlt
    have hentry : s.cena.line (impl.dqrrOff resetBug s.returned.length) = x.sent[x.got] := by
      simp only [h.sent, h.got_eq]
      exact h.entry hlt
    rw [afterPoll_some hret]
    refine ⟨_, x.pull hgot, x.receives hgot,
      ⟨h.memBack, hsys ▸ h.aligned, h.sent, ?_, ?_, ?_, h.bits, h.stored.pull hgot,
      fun t ht ht' hb => ?_, ?_, fun k hk => ?_, h.held, h.reused, fun j hj => ?_⟩⟩
    · rw [Chan.received_pull, h.received, hentry]
    · rw [List.length_append]
      exact hpos
    · rw [List.length_append]
      exact hbug
    · rw [List.length_append, List.length_singleton] at ht'
      by_cases hlast : t = s.returned.length + dqrrEntries resetBug
      · -- The slot of the entry just returned: its next turn has the other polarity.
        subst hlast
        have hslot : s.cena.dqrr impl (s.returned.length % dqrrEntries resetBug) =
            s.produced[s.returned.length] := h.entry hlt
        rw [Nat.add_mod_right, hslot, h.bits _ hlt, dqrrPolarity, dqrrPolarity,
          Cyclic.phase_add (dqrrEntries_pos resetBug)]
        exact (Bool.not_ne_self _).symm
      · exact h.stale t ht (by omega) hb
    · rw [List.length_append, List.length_append, h.handles_length]
      rfl
    · rw [List.length_append, List.length_singleton] at hk
      show (s.handles ++ [_])[k] = (qbmanSwpDqrrNext impl.ptrs s.swp r).swp.sys.addrCena + _
      rw [hsys]
      by_cases hold : k < s.handles.length
      · rw [List.getElem_append_left hold]
        exact h.handles k hold
      · have hk' : k = s.handles.length := by omega
        subst hk'
        rw [List.getElem_append_right (Nat.le_refl _)]
        simp only [Nat.sub_self, List.getElem_singleton, h.handles_length]
    · rw [List.length_append]
      exact Nat.lt_succ_of_lt (h.consumed j hj)
  · rw [afterPoll_none hret]
    exact ⟨[], x, .nil x, ⟨h.memBack, hsys ▸ h.aligned, h.sent, h.received, hdqrr ▸ h.pos,
      hdqrr ▸ h.bug, h.bits, h.stored, h.stale, h.handles_length, hsys ▸ h.handles, h.held,
      h.reused, h.consumed⟩⟩

/-- The entry that had the slot of the next one was consumed. -/
theorem consumed_of_free (h : s.Rel impl resetBug x)
    (hfree : s.held (s.produced.length % dqrrEntries resetBug) = false) {j : Nat}
    (hj : j + dqrrEntries resetBug = s.produced.length) : s.consumed j = true := by
  have hpos := dqrrEntries_pos resetBug
  have hheld := h.held j (by omega) (by omega)
  rw [← hj, Nat.add_mod_right, hheld] at hfree
  simpa using hfree

theorem room (h : s.Rel impl resetBug x)
    (hfree : s.held (s.produced.length % dqrrEntries resetBug) = false) :
    s.produced.length < s.returned.length + dqrrEntries resetBug := by
  have hpos := dqrrEntries_pos resetBug
  by_cases hlap : s.produced.length < dqrrEntries resetBug
  · omega
  · obtain ⟨j, hj⟩ := Nat.exists_eq_add_of_le (Nat.le_of_not_lt hlap)
    have := h.consumed j (h.consumed_of_free hfree (by omega))
    omega

end Rel

theorem dqrr_run_memcpyWords (impl : Impl) (m : Region) (i : Nat) (l : Line) :
    (m.run (memcpyWords (impl.dqrrBase + 64 * i) l)).dqrr impl =
      Function.update (m.dqrr impl) i l := by
  funext i' j
  simp only [Region.dqrr, Region.line]
  by_cases hi : i' = i
  · subst hi
    rw [Function.update_self]
    exact run_memcpyWords m _ l j
  · rw [Function.update_of_ne hi]
    refine run_memcpyWords_of_lt _ _ _ fun j' hj' => ?_
    omega

namespace Rel

/-- The hardware sends one entry. -/
theorem produce (h : s.Rel impl resetBug x) {e : Line}
    (hfree : s.held (s.produced.length % dqrrEntries resetBug) = false)
    (hbit : (e 0).getLsbD 7 = dqrrPolarity resetBug s.produced.length) :
    ∃ bs y, (Chan.sys Line (dqrrEntries resetBug)).Steps x bs y ∧
      (s.afterProduce impl resetBug e).Rel impl resetBug y := by
  have hpos := dqrrEntries_pos resetBug
  have hroom := h.room hfree
  have hret := h.returned_le
  have hslots := dqrr_run_memcpyWords impl s.cena
    (s.produced.length % dqrrEntries resetBug) e
  obtain ⟨y, hsteps, happend, hgot⟩ := Chan.sends x [e] (by rw [h.sent, h.got_eq]; exact hroom)
  have hsent : y.sent = s.produced ++ [e] := by rw [happend, h.sent]
  have hlen : (s.produced ++ [e]).length = s.produced.length + 1 := List.length_append
  have hbits : ∀ i (hi : i < (s.produced ++ [e]).length),
      ((s.produced ++ [e])[i] 0).getLsbD 7 = dqrrPolarity resetBug i := by
    intro i hi
    by_cases hlt : i < s.produced.length
    · rw [List.getElem_append_left hlt]
      exact h.bits i hlt
    · have hlast : i = s.produced.length := by omega
      subst hlast
      rw [List.getElem_append_right (Nat.le_refl _)]
      simpa using hbit
  refine ⟨_, y, hsteps, ⟨h.memBack, h.aligned, hsent, ?_, h.pos, h.bug, fun i hi => ?_, ?_,
    fun t ht ht' hb => ?_, h.handles_length, h.handles, fun j hj hj' => ?_, fun j hj => ?_,
    h.consumed⟩⟩
  · show y.received = s.returned
    rw [← h.received, Chan.received, Chan.received, hsent, hgot, h.sent,
      List.take_append_of_le_length (by rw [h.got_eq]; exact hret)]
  · exact hbits i hi
  · refine h.stored.append happend hgot (fun j hj => ?_) fun k hk => ?_
    · obtain rfl : j = 0 := Nat.lt_one_iff.mp hj
      rw [Nat.zero_add, Nat.add_zero, h.sent]
      exact (congrFun hslots _).trans (Function.update_self _ _ _)
    · have hk₀ := hk 0 Nat.one_pos
      rw [Nat.zero_add, Nat.add_zero, h.sent] at hk₀
      exact (congrFun hslots _).trans (Function.update_of_ne hk₀ _ _)
  · -- A turn behind the new one has another slot.
    have ht₁ : s.produced.length + 1 ≤ t := hlen ▸ ht
    have ht₂ : t < s.returned.length + dqrrEntries resetBug := ht'
    have hne : t % dqrrEntries resetBug ≠ s.produced.length % dqrrEntries resetBug := fun he => by
      have := Cyclic.slot_inj he.symm (by omega) (by omega)
      omega
    show ((s.cena.run _).dqrr impl (t % dqrrEntries resetBug) 0).getLsbD 7 ≠ _
    rw [hslots, Function.update_of_ne hne]
    exact h.stale t (by omega) ht₂ hb
  · have hj₁ : j < s.produced.length + 1 := hlen ▸ hj
    have hj₂ : s.produced.length + 1 ≤ j + dqrrEntries resetBug := hlen ▸ hj'
    show Function.update s.held _ true (j % dqrrEntries resetBug) = !s.consumed j
    by_cases hlast : j = s.produced.length
    · subst hlast
      rw [Function.update_self]
      cases hc : s.consumed s.produced.length with
      | false => rfl
      | true =>
        have := h.consumed _ hc
        omega
    · have hne : j % dqrrEntries resetBug ≠ s.produced.length % dqrrEntries resetBug := fun he => by
        have := Cyclic.slot_inj he (by omega) (by omega)
        omega
      rw [Function.update_of_ne hne]
      exact h.held j (by omega) (by omega)
  · have hj₁ : j + dqrrEntries resetBug < s.produced.length + 1 := hlen ▸ hj
    by_cases hlast : j + dqrrEntries resetBug = s.produced.length
    · exact h.consumed_of_free hfree hlast
    · exact h.reused j (by omega)

/-- The `DCAP` write for an entry names its slot. -/
theorem dcapSlot_consume (h : s.Rel impl resetBug x) (k : Nat) :
    dcapSlot (qbmanSwpDqrrConsume (s.swp.sys.addrCena + impl.dqrrOff resetBug k)) =
      some (k % dqrrEntries resetBug) := by
  have halign : @Eq Nat (s.swp.sys.addrCena % 512) 0 := h.aligned
  have hle := dqrrEntries_le resetBug
  have hlt := Nat.mod_lt k (dqrrEntries_pos resetBug)
  have hbase : impl.dqrrBase % 512 = 0 := by cases impl <;> rfl
  have hidx : qbmanIdxFromDqrr (s.swp.sys.addrCena + impl.dqrrOff resetBug k) =
      k % dqrrEntries resetBug := by
    rw [qbmanIdxFromDqrr_eq, Impl.dqrrOff]
    omega
  show some (BitVec.ofNat 32 (qbmanIdxFromDqrr _)).toNat = _
  rw [hidx, BitVec.toNat_ofNat, Nat.mod_eq_of_lt (by omega)]

/-- Consuming an entry sends and receives nothing. -/
theorem consume (h : s.Rel impl resetBug x) {k : Nat} {dq : Addr} (hk : s.handles[k]? = some dq)
    (hc : s.consumed k = false) : (s.afterConsume k dq).Rel impl resetBug x := by
  obtain ⟨hklt, rfl⟩ := List.getElem?_eq_some_iff.mp hk
  have hslot := h.dcapSlot_consume k
  rw [← h.handles k hklt] at hslot
  have hheld : (s.afterConsume k s.handles[k]).held =
      Function.update s.held (k % dqrrEntries resetBug) false := by
    simp only [afterConsume, hslot]
  -- The entry is still the last one of its slot.
  have hwindow : s.produced.length ≤ k + dqrrEntries resetBug := by
    refine Nat.le_of_not_lt fun hlt => ?_
    rw [h.reused k hlt] at hc
    cases hc
  have hret := h.returned_le
  have hlen := h.handles_length
  refine ⟨h.memBack, h.aligned, h.sent, h.received, h.pos, h.bug, h.bits, h.stored, h.stale,
    h.handles_length, h.handles, fun j hj hj' => ?_, fun j hj => ?_, fun j hj => ?_⟩
  · show (s.afterConsume k s.handles[k]).held _ = !Function.update s.consumed k true j
    rw [hheld]
    by_cases hjk : j = k
    · rw [hjk, Function.update_self, Function.update_self]
      rfl
    · have hne : j % dqrrEntries resetBug ≠ k % dqrrEntries resetBug := fun he => by
        have hj₁ : j < s.produced.length := hj
        have hj₂ : s.produced.length ≤ j + dqrrEntries resetBug := hj'
        rcases Nat.le_total j k with hle | hle
        · exact hjk (Cyclic.slot_inj he hle (by omega))
        · exact hjk (Cyclic.slot_inj he.symm hle (by omega)).symm
      rw [Function.update_of_ne hne, Function.update_of_ne hjk]
      exact h.held j hj hj'
  · show Function.update s.consumed k true j = true
    rw [Function.update_apply]
    split
    · rfl
    · exact h.reused j hj
  · have hj₁ : Function.update s.consumed k true j = true := hj
    by_cases hjk : j = k
    · rw [hjk]
      exact hlen ▸ hklt
    · rw [Function.update_of_ne hjk] at hj₁
      exact h.consumed j hj₁

end Rel

/-- The state after `qbman_swp_init` stores the empty channel. -/
theorem Init.rel (h : s.Init impl resetBug) :
    ∃ x : Chan Line (dqrrEntries resetBug), x.got = 0 ∧ s.Rel impl resetBug x := by
  obtain ⟨g, d, env, a, hp, -, himpl⟩ := h.built
  obtain ⟨-, -, -, -, -, hdqrr, -⟩ := qbmanSwpInit_some hp
  have hbug := h.bug
  have hret : s.returned.length = 0 := by rw [h.returned]; rfl
  have hprod : s.produced.length = 0 := by rw [h.produced]; rfl
  have hfields : s.swp.dqrr.nextIdx = 0 ∧ s.swp.dqrr.validBit = qbValidBit ∧
      s.swp.dqrr.dqrrSize.toNat = dqrrEntries resetBug := by
    rw [hdqrr] at hbug ⊢
    simp only [swpDefaults] at hbug ⊢
    split at hbug
    · rename_i hlt
      rw [if_pos hlt, ← hbug]
      exact ⟨rfl, rfl, rfl⟩
    · rename_i hge
      rw [if_neg hge, ← hbug]
      exact ⟨rfl, rfl, rfl⟩
  have hpos := dqrrEntries_pos resetBug
  refine ⟨⟨[], 0, Nat.le_refl _, Nat.zero_le _⟩, rfl, ⟨?_, h.aligned, h.produced.symm,
    h.returned.symm, ⟨hfields.2.2, ?_, ?_⟩, ?_, fun i hi => ?_, fun i hi => ?_,
    fun t ht ht' hb => ?_, ?_, fun k hk => ?_, fun j hj => ?_, fun j hj => ?_, fun j hj => ?_⟩⟩
  · rintro rfl
    rw [← hbug, hdqrr]
    exact swpDefaults_resetBug (QbmanSwpDesc.impl_eq_memBack.mp himpl)
  · rw [hfields.1, hret]
    exact (Nat.zero_mod _).symm
  · rw [hfields.2.1, hret, dqrrPolarity, Cyclic.phase_self]
    rfl
  · rw [hbug, hret, decide_eq_true hpos, Bool.and_true]
  · omega
  · cases hi
  · rw [hret, Nat.zero_add] at ht'
    cases hb' : resetBug with
    | true =>
      have := hb hb'
      omega
    | false =>
      subst hb'
      rw [Nat.mod_eq_of_lt ht', h.clear rfl t ht', dqrrPolarity, Cyclic.phase,
        Nat.div_eq_of_lt ht']
      decide
  · rw [h.handles, h.returned]
    rfl
  · rw [h.handles] at hk
    cases hk
  · omega
  · omega
  · rw [h.consumed] at hj
    cases hj

end DqrrState

/-- The ring refines the channel of its entries. -/
theorem dqrrSys_simulation (impl : Impl) (resetBug : Bool) :
    (dqrrSys impl resetBug).Simulation (Chan.sys Line (dqrrEntries resetBug))
      (DqrrState.Rel impl resetBug) where
  init _ hs := hs.rel
  step s l t x h hstep := by
    cases l with
    | poll r =>
      obtain ⟨hcena, hpi, rfl⟩ := hstep
      exact h.poll hcena hpi
    | produce e =>
      obtain ⟨hfree, hbit, rfl⟩ := hstep
      exact h.produce hfree hbit
    | consume k =>
      obtain ⟨dq, hk, hc, rfl⟩ := hstep
      exact ⟨[], x, .nil x, h.consume hk hc⟩

/-- What polls returned is a prefix of what the hardware produced; a poll now returns `NULL` only if
everything was returned, and else the next entry with the bytes the hardware wrote. -/
theorem dqrrSys_exact {impl : Impl} {resetBug : Bool} {s : DqrrState}
    (h : (dqrrSys impl resetBug).Reach s) :
    s.returned <+: s.produced ∧
      ∀ r t, (dqrrSys impl resetBug).step s (.poll r) t →
        ((qbmanSwpDqrrNext impl.ptrs s.swp r).ret = none →
          s.returned = s.produced ∧ t.returned = s.returned) ∧
        ∀ off, (qbmanSwpDqrrNext impl.ptrs s.swp r).ret = some off →
          ∃ hlt : s.returned.length < s.produced.length,
            s.cena.line off = s.produced[s.returned.length] ∧
              t.returned = s.returned ++ [s.produced[s.returned.length]] := by
  obtain ⟨x, -, hrel⟩ := (dqrrSys_simulation impl resetBug).reach h
  have hpre : s.returned <+: s.produced := by
    rw [← hrel.received, ← hrel.sent]
    exact x.received_isPrefix
  refine ⟨hpre, ?_⟩
  rintro r t ⟨hcena, hpi, rfl⟩
  obtain ⟨-, ⟨hlt, hret, -⟩ | ⟨heq, hret, -⟩⟩ := hrel.poll_outcome hcena hpi
  · refine ⟨fun hnone => ?_, fun off hoff => ?_⟩
    · rw [hret] at hnone
      cases hnone
    · cases hret.symm.trans hoff
      have hentry := hrel.entry hlt
      refine ⟨hlt, hentry, ?_⟩
      rw [DqrrState.afterPoll_some hret, ← hentry]
  · refine ⟨fun _ => ⟨hpre.eq_of_length heq, ?_⟩, fun off hoff => ?_⟩
    · rw [DqrrState.afterPoll_none hret]
    · rw [hret] at hoff
      cases hoff

/-- One entry produced and returned on a ring with the reset bug. -/
theorem dqrrSys_exact_one :
    ∃ s, (dqrrSys .direct true).Reach s ∧ s.returned.length = 1 ∧ s.returned <+: s.produced := by
  let p := ((qbmanSwpInit {} (.rev4000 .vbRing 0) (.ok 0x1000 0 0)).ret.get rfl).2
  let s₁ := (DqrrState.cleared p).afterProduce .direct true fun _ => 0x80
  let r : Regions := ⟨s₁.cena, fun _ => 1⟩
  have hinit : (dqrrSys .direct true).init (DqrrState.cleared p) :=
    ⟨⟨{}, .rev4000 .vbRing 0, .ok 0x1000 0 0, 0x1000, rfl, rfl, rfl⟩, rfl, by decide, rfl, rfl, rfl,
      fun _ => rfl, fun _ => rfl, fun h => nomatch h⟩
  have hproduce : (dqrrSys .direct true).step (DqrrState.cleared p) (.produce fun _ => 0x80) s₁ :=
    ⟨rfl, by decide, rfl⟩
  have hpoll : (dqrrSys .direct true).step s₁ (.poll r) (s₁.afterPoll .direct r) :=
    ⟨rfl, by decide, rfl⟩
  have hreach := ((Trans.Sys.Reach.of_init hinit).step hproduce).step hpoll
  exact ⟨_, hreach, by decide, (dqrrSys_exact hreach).1⟩

end Qbman
