import Qbman.Eqcr.Ring

/-!
# The enqueue ring in direct mode

The hardware takes the slot it looks at when its valid bit has the polarity of this lap. The slots
behind the producer hold commands of the last lap or what was there at first, and none of these has
the polarity of its next turn (`DirectHw`), so the hardware takes what was accepted, in order, and
stops where the accepted commands end (`directSys_exact`).
-/

namespace Qbman

/-- To a hardware that looks at turn `lo`, the slots of the turns from `T` on do not look valid. -/
def Stale (N j₀ : Nat) (v₀ : Bool) (T lo : Nat) (m : Region) : Prop :=
  ∀ t, T ≤ t → t < lo + N → (m.slots (t % N) 0).getLsbD 7 ≠ Cyclic.phase N j₀ v₀ t

/-- A slot that was taken has the wrong polarity for its next turn. -/
theorem Stale.take {N j₀ T lo : Nat} {v₀ : Bool} {m : Region} (h : Stale N j₀ v₀ T lo m)
    (hN : 0 < N) (hready : (m.slots (lo % N) 0).getLsbD 7 = Cyclic.phase N j₀ v₀ lo) :
    Stale N j₀ v₀ T (lo + 1) m := by
  intro t ht ht'
  by_cases hlast : t = lo + N
  · subst hlast
    rw [Nat.add_mod_right, hready, Cyclic.phase_add hN]
    simp
  · exact h t ht (by omega)

/-- The slot that the hardware looks at is valid for this lap. -/
def RingState.directReady (s : RingState) : Prop :=
  (s.cena.slots (s.cons % 8) 0).getLsbD 7 = s.hwVb

instance (s : RingState) : Decidable s.directReady := inferInstanceAs (Decidable (_ = _))

/-- The states after `qbman_swp_init` with equal counters, when no slot looks valid for its next
turn. -/
structure RingState.DirectInit (s : RingState) : Prop where
  built : ∃ g d env a, (qbmanSwpInit g d env).ret = some (a, s.swp) ∧
    (qbmanSwpInit g d env).globals.ptrs = Impl.direct.ptrs ∧ d.impl = .direct ∧ s.Fresh d env
  empty : s.swp.eqcr.pi = s.swp.eqcr.ci
  hwVb : s.hwVb = s.refVb
  stale : ∀ t, s.next ≤ t → t < s.cons + 8 →
    (s.cena.slots (t % 8) 0).getLsbD 7 ≠ s.polarity .direct t

/-- The ring of a direct portal. -/
def directSys : Trans.Sys RingState RingLabel :=
  ringSys .direct RingState.DirectInit RingState.directReady EnqCall.Valid

/-- What is known of the hardware's side. -/
structure RingState.DirectHw (s : RingState) : Prop where
  vb : s.hwVb = s.polarity .direct s.cons
  bits : ∀ i (h : i < s.accepted.length),
    (s.accepted[i] 0).getLsbD 7 = s.polarity .direct (s.start + i)
  stale : ∀ t, s.next ≤ t → t < s.cons + 8 →
    (s.cena.slots (t % 8) 0).getLsbD 7 ≠ s.polarity .direct t

/-! ## The valid bit of a command -/

theorem getLsbD_patchDca (w : U32) (b : Option U8) : (patchDca w b).getLsbD 7 = w.getLsbD 7 := by
  cases b with
  | none => rfl
  | some b => simp [patchDca, setByte]

theorem getLsbD_or_vbit {w : U32} (h : w &&& qbValidBit = 0) (v : Bool) :
    (w ||| vbit v).getLsbD 7 = v := by
  have hw : w.getLsbD 7 = false := by
    rw [and_validBit] at h
    cases hb : w.getLsbD 7 with
    | false => rfl
    | true =>
      rw [hb] at h
      exact absurd h (by decide)
  rw [BitVec.getLsbD_or, hw]
  cases v <;> rfl

/-- A command of a caller who built its descriptors has the valid bit it was given. -/
theorem EnqCall.command_validBit {call : EnqCall} (h : call.Built) (i : Nat) (v : Bool) :
    (call.command i (vbit v) 0).getLsbD 7 = v := by
  show (patchDca (call.cl i 0 ||| vbit v) _).getLsbD 7 = v
  rw [getLsbD_patchDca, getLsbD_or_vbit (h.validBit i)]

/-! ## The refinement -/

variable {s : RingState} {x : Chan Line (2 ^ Impl.direct.ringExp)}

/-- The hardware's test is whether there is an accepted command that it has not taken. -/
theorem RingState.Rel.directReady_iff (h : s.Rel .direct x) (hw : s.DirectHw) :
    s.directReady ↔ s.taken.length < s.accepted.length := by
  have hcons := h.cons_lt_iff
  constructor
  · intro hr
    by_contra hlt
    have hle := h.cons_le
    have heq : s.cons = s.next := by omega
    refine hw.stale s.cons (by omega) (by omega) ?_
    rw [show (s.cena.slots (s.cons % 8) 0).getLsbD 7 = s.hwVb from hr, hw.vb]
  · intro hlt
    have hslot := h.intact hlt (Nat.le_refl _)
    have hturn : s.start + s.taken.length = s.cons := by rw [h.cons, h.got_eq]
    rw [hturn] at hslot
    show (s.cena.slots (s.cons % 8) 0).getLsbD 7 = s.hwVb
    rw [show s.cena.slots (s.cons % 8) = _ from hslot, hw.bits _ hlt, hturn, hw.vb]

theorem RingState.DirectHw.call (hw : s.DirectHw) (h : s.Rel .direct x) {call : EnqCall}
    {r : Regions} {c : Nat} (hok : call.Valid) (hc : s.seen ≤ c) (hc' : c ≤ s.cons)
    (hv : (r.cena Impl.direct.ciReg).toNat % 2 ^ (Impl.direct.ringExp + 1) =
      c % 2 ^ (Impl.direct.ringExp + 1)) : (s.afterCall .direct call r c).DirectHw := by
  have heff := h.enqueued hok.2 hc hc' hv
  set n := call.accepted (call.run Impl.direct.ptrs s.swp r).ret
  have hlen : (s.commands .direct call n).length = n := s.length_commands .direct call n
  have hbits : ∀ i (hi : i < (s.accepted ++ s.commands .direct call n).length),
      ((s.accepted ++ s.commands .direct call n)[i] 0).getLsbD 7 =
        s.polarity .direct (s.start + i) := by
    intro i hi
    rw [List.length_append, hlen] at hi
    by_cases hlt : i < s.accepted.length
    · rw [List.getElem_append_left hlt]
      exact hw.bits i hlt
    · rw [List.getElem_append_right (by omega)]
      rw [RingState.getElem_commands, EnqCall.command_validBit hok.1, RingState.next]
      congr 1
      omega
  refine ⟨hw.vb, hbits, fun t ht ht' => ?_⟩
  · have ht₈ : t < s.cons + 8 := ht'
    have hle := h.cons_le
    have hnext : s.next + n ≤ t := RingState.next_afterCall .direct s call r c ▸ ht
    -- A turn behind the new ones has a slot that the call leaves as it was.
    have hold := heff.old s.cena (t % 8) fun j hj he => by
      have := Cyclic.slot_inj_window (a := s.cons) (N := 8) (by omega) ht₈ (by omega) (by omega) he
      omega
    show ((s.cena.run _).slots (t % 8) 0).getLsbD 7 ≠ s.polarity .direct t
    rw [hold]
    exact hw.stale t (by omega) ht₈

theorem RingState.DirectHw.take (hw : s.DirectHw) (hr : s.directReady) :
    (s.afterTake .direct).DirectHw := by
  have hready : (s.cena.slots (s.cons % 8) 0).getLsbD 7 = s.polarity .direct s.cons :=
    hw.vb ▸ (show (s.cena.slots (s.cons % 8) 0).getLsbD 7 = s.hwVb from hr)
  have hstale : Stale 8 s.refTurn s.refVb s.next s.cons s.cena := hw.stale
  refine ⟨?_, hw.bits, hstale.take (by decide) hready⟩
  show (if (s.cons + 1) % 8 = 0 then !s.hwVb else s.hwVb) =
    Cyclic.phase 8 s.refTurn s.refVb (s.cons + 1)
  rw [Cyclic.phase_succ, hw.vb]
  rfl

/-- The direct ring refines the channel of its commands. -/
theorem directSys_simulation :
    directSys.Simulation (Chan.sys Line 8) (fun s x => s.Rel .direct x ∧ s.DirectHw) := by
  refine ringSys_simulation RingState.DirectHw ?_
    (fun _ hc => hc.2) ?_ ?_ (fun _ _ _ hw hr => hw.take hr)
  · intro s hs
    obtain ⟨g, d, env, a, hp, -, himpl, hf⟩ := hs.built
    obtain ⟨hnil, hcons, x, hx, hrel⟩ := hf.rel_of_eq hp hs.empty himpl
    refine ⟨x, hx, hrel, ?_, ?_, hs.stale⟩
    · rw [hs.hwVb, RingState.polarity, hcons, Cyclic.phase_self]
    · intro i hi
      simp [hnil] at hi
  · intro s x hrel hw hr
    exact hrel.cons_lt_iff.mpr ((hrel.directReady_iff hw).mp hr)
  · rintro s x call r c hrel hw ⟨hok, hc, hc', hv, -⟩
    exact hw.call hrel hok hc hc' hv

/-- The hardware has taken a prefix of what the calls accepted; what it has not taken is in its
slot, at most a ring of it; and it waits only when it has taken everything. -/
theorem directSys_exact {s : RingState} (h : directSys.Reach s) :
    s.taken <+: s.accepted ∧ s.accepted.length ≤ s.taken.length + 8 ∧
      (∀ i (hi : i < s.accepted.length), s.taken.length ≤ i →
        s.cena.slots ((s.start + i) % 8) = s.accepted[i]) ∧
      (s.directReady ↔ s.taken ≠ s.accepted) := by
  obtain ⟨x, -, hrel, hw⟩ := directSys_simulation.reach h
  refine ⟨hrel.taken_isPrefix, hrel.accepted_le, fun i hi ht => hrel.intact hi ht, ?_⟩
  rw [hrel.directReady_iff hw, hrel.taken_lt_iff]

/-- One frame enqueued on an empty ring and taken. -/
theorem directSys_exact_one :
    ∃ s, directSys.Reach s ∧ s.accepted.length = 1 ∧ s.taken <+: s.accepted ∧
      (s.directReady ↔ s.taken ≠ s.accepted) := by
  let p := ((qbmanSwpInit {} (.rev4100 .vbRing 0) (.ok 0x1000 0x80 0)).ret.get rfl).2
  let s₁ := (RingState.cleared p).afterCall .direct (.enqueue {} fun _ => 7)
    { cena := fun _ => 0, cinh := fun _ => 0 } 0
  have hinit : directSys.init (RingState.cleared p) := by
    refine ⟨⟨{}, .rev4100 .vbRing 0, .ok 0x1000 0x80 0, 0x1000, rfl, rfl, rfl,
      ⟨rfl, rfl, rfl, by decide, rfl, rfl, by decide, rfl, ?_⟩⟩, rfl, rfl, ?_⟩
    · intro i hi
      cases hi
    · intro t _ ht
      have hturn : (RingState.cleared p).refTurn = 0 := by decide
      have hvb : (RingState.cleared p).refVb = true := by decide
      have hcons : (RingState.cleared p).cons = 0 := by decide
      have hdiv : t / 8 = 0 := Nat.div_eq_of_lt (by omega)
      rw [RingState.polarity, hturn, hvb]
      simp [Cyclic.phase, Impl.ringExp, hdiv, RingState.cleared, Region.slots, Region.line]
  have hcall : directSys.step (RingState.cleared p) (.call (.enqueue {} fun _ => 7) _ 0) s₁ :=
    ⟨⟨⟨[], rfl⟩, Int.one_nonneg⟩, Nat.le_refl _, Nat.le_refl _, rfl, rfl⟩
  have htake : directSys.step s₁ .take (s₁.afterTake .direct) := ⟨by decide, rfl⟩
  have hreach := ((Trans.Sys.Reach.of_init hinit).step hcall).step htake
  obtain ⟨hpre, -, -, hready⟩ := directSys_exact hreach
  exact ⟨_, hreach, by decide, hpre, hready⟩

end Qbman
