import Qbman.Eqcr.Ring

/-!
# The enqueue ring in memory-backed mode

The hardware learns the producer index from the value last written to `EQCR_PI` and consumes while
its consumer index differs from it. The last write of a call is the producer index after it
(`MemBackHw`), so the hardware consumes what was accepted, in order, and nothing else. A call
stores to no slot of an unconsumed command, and its doorbell is three disjoint parts
(`memBackSys_exact`).
-/

namespace Qbman

/-- The consumer index differs from the producer index that the hardware learnt. -/
def RingState.memBackReady (s : RingState) : Prop := s.cons % 64 ≠ s.hwPi

instance (s : RingState) : Decidable s.memBackReady := inferInstanceAs (Decidable (_ ≠ _))

/-- The states after `qbman_swp_init` with equal counters, the producer index being the
hardware's. -/
structure RingState.MemBackInit (s : RingState) : Prop where
  built : ∃ g d env a, (qbmanSwpInit g d env).ret = some (a, s.swp) ∧
    (qbmanSwpInit g d env).globals.ptrs = Impl.memBack.ptrs ∧ d.impl = .memBack ∧ s.Fresh d env
  empty : s.swp.eqcr.pi = s.swp.eqcr.ci
  hwPi : s.hwPi = s.swp.eqcr.pi.toNat

/-- The ring of a memory-backed portal. -/
def memBackSys : Trans.Sys RingState RingLabel :=
  ringSys .memBack RingState.MemBackInit RingState.memBackReady (0 ≤ ·.numFrames)

/-- The hardware knows how far the ring is filled. -/
def RingState.MemBackHw (s : RingState) : Prop := s.hwPi = s.next % 64

variable {s : RingState} {x : Chan Line (2 ^ Impl.memBack.ringExp)}

/-! ## The doorbell -/

theorem vbit_toNat_mod (v : Bool) : (vbit v).toNat % 2 ^ 6 = 0 := by cases v <;> rfl

namespace Eqcr

variable {e : Eqcr} {v : Bool}

/-- The low six bits of a doorbell are the producer index. -/
theorem doorbell_toNat_mod (hpi : e.pi.toNat < 2 ^ 6) (hvb : e.piVb = vbit v) :
    e.doorbell.toNat % 64 = e.pi.toNat := by
  have hrt : qbRtBit.toNat % 2 ^ 6 = 0 := rfl
  rw [doorbell, hvb, BitVec.toNat_or, BitVec.toNat_or, show 64 = 2 ^ 6 from rfl,
    Nat.or_mod_two_pow, Nat.or_mod_two_pow, hrt, vbit_toNat_mod, Nat.mod_eq_of_lt hpi,
    Nat.zero_or, Nat.or_zero]

/-- Bit 7 of a doorbell is the polarity. -/
theorem doorbell_getLsbD (hpi : e.pi.toNat < 2 ^ 6) (hvb : e.piVb = vbit v) :
    e.doorbell.getLsbD 7 = v := by
  have hbit : e.pi.getLsbD 7 = false :=
    Nat.testBit_lt_two_pow (Nat.lt_trans hpi (by decide))
  rw [doorbell, hvb, BitVec.getLsbD_or, BitVec.getLsbD_or, hbit]
  cases v <;> rfl

/-- The three parts of a doorbell have no bit in common. -/
theorem doorbell_disjoint (hpi : e.pi.toNat < 2 ^ 6) (hvb : e.piVb = vbit v) :
    qbRtBit &&& e.pi = 0 ∧ qbRtBit &&& e.piVb = 0 ∧ e.pi &&& e.piVb = 0 := by
  refine ⟨?_, ?_, ?_⟩
  · rw [BitVec.and_comm]
    exact Words.and_eq_zero hpi rfl
  · rw [hvb]
    cases v <;> rfl
  · rw [hvb]
    exact Words.and_eq_zero hpi (vbit_toNat_mod v)

end Eqcr

/-! ## The hardware's producer index -/

theorem eqcrPiAfter_append (p : Nat) (as bs : List Access) :
    eqcrPiAfter p (as ++ bs) = eqcrPiAfter (eqcrPiAfter p as) bs := List.foldl_append

/-- The part of a call before the doorbell writes no register. -/
theorem eqcrPiAfter_pre {p N : Nat} {slot : Nat → Nat} {pre : List Access}
    (h : ∀ a ∈ pre, (∃ off v, a = .cenaRead off v) ∨ ∃ j < N, a.StoresIn (slot j)) :
    eqcrPiAfter p pre = p := by
  induction pre with
  | nil => rfl
  | cons a as ih =>
    have htail := ih fun b hb => h b (List.mem_cons_of_mem a hb)
    rcases h a (List.mem_cons_self ..) with ⟨off, v, rfl⟩ | ⟨j, -, off, hoff, -⟩
    · exact htail
    · cases a with
      | cinhWrite => cases hoff
      | _ => exact htail

theorem RingState.MemBackHw.call (hw : s.MemBackHw) (h : s.Rel .memBack x) {call : EnqCall}
    {r : Regions} {c : Nat} (hok : 0 ≤ call.numFrames) (hc : s.seen ≤ c) (hc' : c ≤ s.cons)
    (hv : (r.cena Impl.memBack.ciReg).toNat % 2 ^ (Impl.memBack.ringExp + 1) =
      c % 2 ^ (Impl.memBack.ringExp + 1)) : (s.afterCall .memBack call r c).MemBackHw := by
  have heff := h.enqueued hok hc hc' hv
  set n := call.accepted (call.run Impl.memBack.ptrs s.swp r).ret with hn
  rw [RingState.MemBackHw, RingState.next_afterCall, ← hn]
  show eqcrPiAfter s.hwPi (call.run Impl.memBack.ptrs s.swp r).accs = _
  obtain ⟨pre, hpre, haccs | ⟨h0, haccs⟩⟩ := heff.accs_eq
  · have hpi := heff.counts.pi
    have hlt : (call.run Impl.memBack.ptrs s.swp r).swp.eqcr.pi.toNat < 2 ^ 6 := by
      rw [hpi]
      exact Nat.mod_lt _ (by decide)
    rw [haccs, eqcrPiAfter_append]
    show (call.run Impl.memBack.ptrs s.swp r).swp.eqcr.doorbell.toNat % 64 = _
    rw [Eqcr.doorbell_toNat_mod hlt heff.counts.vb, hpi]
    rfl
  · rw [haccs, eqcrPiAfter_pre hpre, h0]
    exact hw

/-- The hardware's test is whether there is an accepted command that it has not taken. -/
theorem RingState.Rel.memBackReady_iff (h : s.Rel .memBack x) (hw : s.MemBackHw) :
    s.memBackReady ↔ s.taken.length < s.accepted.length := by
  have hlt := h.cons_lt_iff
  have hle := h.cons_le
  have hfit : s.next ≤ s.cons + 32 := by
    have := h.accepted_le
    have := h.cons
    have := h.got_eq
    simp only [Impl.ringExp, RingState.next] at *
    omega
  rw [RingState.memBackReady, hw, ← hlt]
  omega

/-- The memory-backed ring refines the channel of its commands. -/
theorem memBackSys_simulation :
    memBackSys.Simulation (Chan.sys Line 32) (fun s x => s.Rel .memBack x ∧ s.MemBackHw) := by
  refine ringSys_simulation RingState.MemBackHw ?_ (fun _ hc => hc) ?_ ?_
    (fun s x _ hw _ => hw)
  · intro s hs
    obtain ⟨g, d, env, a, hp, -, himpl, hf⟩ := hs.built
    obtain ⟨hnil, hcons, x, hx, hrel⟩ := hf.rel_of_eq hp hs.empty himpl
    refine ⟨x, hx, hrel, ?_⟩
    have hpi := hrel.counts.pi
    rw [RingState.MemBackHw, hs.hwPi, hpi]
    rfl
  · intro s x hrel hw hr
    exact hrel.cons_lt_iff.mpr ((hrel.memBackReady_iff hw).mp hr)
  · rintro s x call r c hrel hw ⟨hok, hc, hc', hv, -⟩
    exact hw.call hrel hok hc hc' hv

/-! ## Exactness -/

/-- The value `w` that a call leaving the state `t` writes to `EQCR_PI`: three disjoint parts, the
low six bits the producer index, bit 7 the polarity of the next slot to be filled. -/
structure RingState.Doorbell (t : RingState) (w : U32) : Prop where
  parts : w = qbRtBit ||| t.swp.eqcr.pi ||| t.swp.eqcr.piVb
  disjoint : qbRtBit &&& t.swp.eqcr.pi = 0 ∧ qbRtBit &&& t.swp.eqcr.piVb = 0 ∧
    t.swp.eqcr.pi &&& t.swp.eqcr.piVb = 0
  pi : w.toNat % 64 = t.next % 64
  vb : w.getLsbD 7 = t.polarity .memBack t.next

/-- Each access of a call: it stores to no slot of an unconsumed command, and if it writes `EQCR_PI`
it writes the doorbell of the state after the call. -/
theorem RingState.Rel.memBack_accs (h : s.Rel .memBack x) {call : EnqCall} {r : Regions} {c : Nat}
    (hok : 0 ≤ call.numFrames) (hc : s.seen ≤ c) (hc' : c ≤ s.cons)
    (hv : (r.cena Impl.memBack.ciReg).toNat % 2 ^ (Impl.memBack.ringExp + 1) =
      c % 2 ^ (Impl.memBack.ringExp + 1)) {a : Access}
    (ha : a ∈ (call.run Impl.memBack.ptrs s.swp r).accs) :
    (∀ off, a.storeOff? = some off → ∀ i, s.cons ≤ i → i < s.next → off / 64 ≠ i % 32) ∧
      ∀ w, a = .cinhWrite qbmanCinhSwpEqcrPi w → (s.afterCall .memBack call r c).Doorbell w := by
  have heff := h.enqueued hok hc hc' hv
  obtain ⟨pre, hpre, haccs⟩ := heff.accs_eq
  have hsplit : a ∈ pre ∨ a ∈ ringDoorbell (call.run Impl.memBack.ptrs s.swp r).swp.eqcr := by
    rcases haccs with haccs | ⟨-, haccs⟩
    · exact List.mem_append.mp (haccs ▸ ha)
    · exact .inl (haccs ▸ ha)
  rcases hsplit with ha | ha
  · rcases hpre a ha with ⟨off, v, rfl⟩ | ⟨j, hj, off, hoff, hlo, hhi⟩
    · refine ⟨fun _ h' => ?_, fun _ h' => ?_⟩
      · cases h'
      · cases h'
    · refine ⟨fun off' hoff' i hi hi' he => ?_, ?_⟩
      · cases hoff.symm.trans hoff'
        have hfits := heff.counts.fits
        have hle := h.cons_le
        have hseen : (s.afterCall .memBack call r c).seen ≤ s.cons := by
          simp only [RingState.afterCall]
          split
          · exact hc'
          · exact h.seen_le
        have hslot : (s.next + j) % 32 = i % 32 := by
          have : 64 * ((s.next + j) % 32) ≤ off := hlo
          have : off < 64 * ((s.next + j) % 32) + 64 := hhi
          omega
        have hfits₃₂ : s.next + _ ≤ (s.afterCall .memBack call r c).seen + 32 := hfits
        have := Cyclic.slot_inj_window (a := s.cons) (N := 32) (by omega) (by omega) hi (by omega)
          hslot
        omega
      · rintro w rfl
        cases hoff
  · obtain rfl := List.mem_singleton.mp ha
    refine ⟨fun _ h' => ?_, fun w hw => ?_⟩
    · cases h'
    cases hw
    have hpi := heff.counts.pi
    have hlt : (call.run Impl.memBack.ptrs s.swp r).swp.eqcr.pi.toNat < 2 ^ 6 := by
      rw [hpi]
      exact Nat.mod_lt _ (by decide)
    refine ⟨rfl, Eqcr.doorbell_disjoint hlt heff.counts.vb, ?_, ?_⟩
    · rw [Eqcr.doorbell_toNat_mod hlt heff.counts.vb, hpi, RingState.next_afterCall]
      rfl
    · rw [Eqcr.doorbell_getLsbD hlt heff.counts.vb, RingState.next_afterCall]
      rfl

/-- The hardware consumes what the calls accepted, once and in order; what it has not consumed is in
its slot, at most a ring of it; it waits only when it has consumed everything; and no call of the
next step stores to the slot of an unconsumed command or rings with another value than the doorbell
of its state. -/
theorem memBackSys_exact {s : RingState} (h : memBackSys.Reach s) :
    s.taken <+: s.accepted ∧ s.accepted.length ≤ s.taken.length + 32 ∧
      (∀ i (hi : i < s.accepted.length), s.taken.length ≤ i →
        s.cena.slots ((s.start + i) % 32) = s.accepted[i]) ∧
      (s.memBackReady ↔ s.taken ≠ s.accepted) ∧
      ∀ call r c t, memBackSys.step s (.call call r c) t →
        ∀ a ∈ (call.run Impl.memBack.ptrs s.swp r).accs,
          (∀ off, a.storeOff? = some off → ∀ i, s.cons ≤ i → i < s.next → off / 64 ≠ i % 32) ∧
            ∀ w, a = .cinhWrite qbmanCinhSwpEqcrPi w → t.Doorbell w := by
  obtain ⟨x, -, hrel, hw⟩ := memBackSys_simulation.reach h
  refine ⟨hrel.taken_isPrefix, hrel.accepted_le, fun i hi ht => hrel.intact hi ht, ?_, ?_⟩
  · rw [hrel.memBackReady_iff hw, hrel.taken_lt_iff]
  · rintro call r c t ⟨hok, hc, hc', hv, rfl⟩ a ha
    exact hrel.memBack_accs hok hc hc' hv ha

/-- One frame enqueued on an empty ring and consumed. -/
theorem memBackSys_exact_one :
    ∃ s, memBackSys.Reach s ∧ s.accepted.length = 1 ∧ s.taken <+: s.accepted ∧
      (s.memBackReady ↔ s.taken ≠ s.accepted) := by
  let p := ((qbmanSwpInit {} (.rev5000 .vbRing 0) (.ok 0x1000 0x80 0)).ret.get rfl).2
  let s₁ := (RingState.cleared p).afterCall .memBack (.enqueue {} fun _ => 7)
    { cena := fun _ => 0, cinh := fun _ => 0 } 0
  have hinit : memBackSys.init (RingState.cleared p) := by
    refine ⟨⟨{}, .rev5000 .vbRing 0, .ok 0x1000 0x80 0, 0x1000, rfl, rfl, rfl,
      ⟨rfl, rfl, rfl, by decide, rfl, rfl, by decide, rfl, ?_⟩⟩, rfl, rfl⟩
    intro i hi
    cases hi
  have hcall : memBackSys.step (RingState.cleared p) (.call (.enqueue {} fun _ => 7) _ 0) s₁ :=
    ⟨Int.one_nonneg, Nat.le_refl _, Nat.le_refl _, rfl, rfl⟩
  have htake : memBackSys.step s₁ .take (s₁.afterTake .memBack) := ⟨by decide, rfl⟩
  have hreach := ((Trans.Sys.Reach.of_init hinit).step hcall).step htake
  obtain ⟨hpre, -, -, hready, -⟩ := memBackSys_exact hreach
  exact ⟨_, hreach, by decide, hpre, hready⟩

end Qbman
