import Qbman.Eqcr.Init
import Qbman.Lib.Chan

/-!
# The enqueue ring between the driver and the hardware

`ringSys` interleaves ring-mode calls of the three entry points with the hardware's consumption of
one slot. What the hardware may take is a parameter (`ready`), as are the initial states and the
calls that are made. `RingState.Rel` relates a state to the channel of accepted commands
(`Chan`): the counters, and the slots of the commands that are not yet consumed. A call sends the
commands it accepts (`Rel.call`), the hardware receives the oldest one (`Rel.take`).
-/

namespace Qbman

/-- A portal of one implementation, the memory of its ring and the hardware's side. `accepted` and
`taken` are the commands that calls accepted (from turn `start` on) and those the hardware took. -/
structure RingState where
  swp : QbmanSwp
  cena : Region
  start : Nat
  /-- A turn and its polarity. -/
  refTurn : Nat
  refVb : Bool
  /-- The hardware's consumer counter. -/
  cons : Nat
  /-- The value of `cons` that the last read of the consumer index returned. -/
  seen : Nat
  accepted : List Line
  taken : List Line
  /-- The polarity the hardware expects in the slot it looks at. -/
  hwVb : Bool
  /-- The producer index the hardware learnt from `EQCR_PI`. -/
  hwPi : Nat

/-- The low six bits of the value that was last written to `EQCR_PI`. -/
def eqcrPiAfter (hwPi : Nat) (accs : List Access) : Nat :=
  accs.foldl (fun p a => match a with
    | .cinhWrite off v => if off = qbmanCinhSwpEqcrPi then v.toNat % 64 else p
    | _ => p) hwPi

namespace RingState

variable (impl : Impl) (s : RingState)

/-- The turn of the next frame. -/
def next : Nat := s.start + s.accepted.length

/-- The polarity of a turn. -/
def polarity (t : Nat) : Bool := Cyclic.phase (2 ^ impl.ringExp) s.refTurn s.refVb t

/-- The first `n` commands of a call, with the valid bits of their turns. -/
def commands (call : EnqCall) (n : Nat) : List Line :=
  (List.range n).map fun i => call.command i (vbit (s.polarity impl (s.next + i)))

@[simp] theorem length_commands (call : EnqCall) (n : Nat) :
    (s.commands impl call n).length = n := by simp [commands]

theorem getElem_commands (call : EnqCall) (n i : Nat) (h : i < (s.commands impl call n).length) :
    (s.commands impl call n)[i] = call.command i (vbit (s.polarity impl (s.next + i))) := by
  simp [commands]

/-- After a call in which a read of the consumer index stands for the counter `c`. -/
def afterCall (call : EnqCall) (r : Regions) (c : Nat) : RingState :=
  let o := call.run impl.ptrs s.swp r
  { s with
    swp := o.swp
    cena := s.cena.run o.accs
    seen := if s.swp.eqcr.available = 0 then c else s.seen
    accepted := s.accepted ++ s.commands impl call (call.accepted o.ret)
    hwPi := eqcrPiAfter s.hwPi o.accs }

theorem next_afterCall (call : EnqCall) (r : Regions) (c : Nat) :
    (s.afterCall impl call r c).next =
      s.next + call.accepted (call.run impl.ptrs s.swp r).ret := by
  show s.start + (s.accepted ++ s.commands impl call _).length = s.start + s.accepted.length + _
  rw [List.length_append, length_commands, Nat.add_assoc]

/-- After the hardware took the slot it looks at. -/
def afterTake : RingState :=
  { s with
    cons := s.cons + 1
    taken := s.taken ++ [s.cena.slots (s.cons % 2 ^ impl.ringExp)]
    hwVb := if (s.cons + 1) % 2 ^ impl.ringExp = 0 then !s.hwVb else s.hwVb }

end RingState

/-- A step: a call with what its register reads return, or the hardware taking a slot. -/
inductive RingLabel where
  | call (call : EnqCall) (r : Regions) (c : Nat)
  | take

/-- Ring-mode calls and consumption in any order. A read of the consumer index returns, modulo
twice the ring size, a value that the counter has had since the last read. -/
def ringSys (impl : Impl) (init ready : RingState → Prop) (ok : EnqCall → Prop) :
    Trans.Sys RingState RingLabel where
  init := init
  step s l t := match l with
    | .call call r c => ok call ∧ s.seen ≤ c ∧ c ≤ s.cons ∧
        (r.cena impl.ciReg).toNat % 2 ^ (impl.ringExp + 1) = c % 2 ^ (impl.ringExp + 1) ∧
        t = s.afterCall impl call r c
    | .take => ready s ∧ t = s.afterTake impl

variable {impl : Impl} {s : RingState} {x : Chan Line (2 ^ impl.ringExp)}

/-- The state stores the channel of its commands. -/
structure RingState.Rel (impl : Impl) (s : RingState) (x : Chan Line (2 ^ impl.ringExp)) :
    Prop where
  mode : s.swp.sys.eqcrMode = .vbRing
  sent : x.sent = s.accepted
  received : x.received = s.taken
  cons : s.cons = s.start + x.got
  counts : s.swp.eqcr.Counts impl.ringExp s.refTurn s.refVb s.next s.seen
  seen_le : s.seen ≤ s.cons
  stored : x.Stored s.start s.cena.slots

namespace RingState.Rel

theorem cons_le (h : s.Rel impl x) : s.cons ≤ s.next := by
  have := x.got_le
  rw [h.sent] at this
  rw [h.cons, RingState.next]
  omega

theorem got_eq (h : s.Rel impl x) : x.got = s.taken.length := by
  rw [← h.received, Chan.length_received]

theorem taken_le (h : s.Rel impl x) : s.taken.length ≤ s.accepted.length := by
  have := x.got_le
  rwa [h.sent, h.got_eq] at this

/-- What a call does to the counters and slots. -/
theorem enqueued (h : s.Rel impl x) {call : EnqCall} {r : Regions} {c : Nat}
    (hn : 0 ≤ call.numFrames) (hc : s.seen ≤ c) (hc' : c ≤ s.cons)
    (hv : (r.cena impl.ciReg).toNat % 2 ^ (impl.ringExp + 1) = c % 2 ^ (impl.ringExp + 1)) :
    Enqueued impl.ringExp s.refTurn s.refVb s.next (s.afterCall impl call r c).seen impl.notify
      call.command s.swp (call.accepted (call.run impl.ptrs s.swp r).ret)
      (call.run impl.ptrs s.swp r).swp (call.run impl.ptrs s.swp r).accs :=
  call.run_enqueued impl h.mode h.counts hv hc (Nat.le_trans hc' h.cons_le) hn

/-- A call sends the commands it accepts. -/
theorem call (h : s.Rel impl x) {call : EnqCall} {r : Regions} {c : Nat}
    (hn : 0 ≤ call.numFrames) (hc : s.seen ≤ c) (hc' : c ≤ s.cons)
    (hv : (r.cena impl.ciReg).toNat % 2 ^ (impl.ringExp + 1) = c % 2 ^ (impl.ringExp + 1)) :
    ∃ bs y, (Chan.sys Line (2 ^ impl.ringExp)).Steps x bs y ∧
      (s.afterCall impl call r c).Rel impl y := by
  have heff := h.enqueued hn hc hc' hv
  set n := call.accepted (call.run impl.ptrs s.swp r).ret with hacc
  have hlen : (s.commands impl call n).length = n := s.length_commands impl call n
  have hseen : (s.afterCall impl call r c).seen ≤ s.cons := by
    simp only [RingState.afterCall]
    split
    · exact hc'
    · exact h.seen_le
  have hfits : x.sent.length + (s.commands impl call n).length ≤ x.got + 2 ^ impl.ringExp := by
    have := heff.counts.fits
    have := h.cons
    rw [hlen, h.sent]
    simp only [RingState.next] at *
    omega
  obtain ⟨y, hsteps, hsent, hgot⟩ := Chan.sends x _ hfits
  have haccepted : (s.afterCall impl call r c).accepted =
      s.accepted ++ s.commands impl call n := rfl
  refine ⟨_, y, hsteps, ⟨?_, ?_, ?_, ?_, ?_, hseen, ?_⟩⟩
  · show (call.run impl.ptrs s.swp r).swp.sys.eqcrMode = .vbRing
    rw [heff.frame]
    exact h.mode
  · rw [hsent, h.sent, haccepted]
  · show y.received = s.taken
    rw [← h.received, Chan.received, Chan.received, hsent, hgot,
      List.take_append_of_le_length x.got_le]
  · show s.cons = s.start + y.got
    rw [hgot, h.cons]
  · rw [RingState.next_afterCall]
    exact heff.counts
  · refine h.stored.append hsent hgot (fun j hj => ?_) fun i hi => ?_
    · rw [hlen] at hj
      rw [RingState.getElem_commands, h.sent]
      exact heff.new s.cena j hj
    · rw [hlen, h.sent] at hi
      exact heff.old s.cena i hi

/-- The hardware receives the oldest command. -/
theorem take (h : s.Rel impl x) (hlt : s.taken.length < s.accepted.length) :
    ∃ bs y, (Chan.sys Line (2 ^ impl.ringExp)).Steps x bs y ∧ (s.afterTake impl).Rel impl y := by
  have hgot : x.got < x.sent.length := by rw [h.sent, h.got_eq]; exact hlt
  have hslot : s.cena.slots (s.cons % 2 ^ impl.ringExp) = x.sent[x.got] := by
    rw [h.cons]
    exact h.stored.head hgot
  refine ⟨_, x.pull hgot, x.receives hgot,
    ⟨h.mode, h.sent, ?_, ?_, h.counts, ?_, h.stored.pull hgot⟩⟩
  · rw [Chan.received_pull, h.received]
    exact congrArg (s.taken ++ [·]) hslot.symm
  · show s.cons + 1 = s.start + (x.got + 1)
    rw [h.cons]
    rfl
  · exact Nat.le_succ_of_le h.seen_le

/-- The commands that are not yet consumed are in their slots. -/
theorem intact (h : s.Rel impl x) {i : Nat} (hi : i < s.accepted.length) (ht : s.taken.length ≤ i) :
    s.cena.slots ((s.start + i) % 2 ^ impl.ringExp) = s.accepted[i] := by
  have := h.stored i (by rw [h.sent]; exact hi) (by rw [h.got_eq]; exact ht)
  simpa only [h.sent] using this

theorem taken_isPrefix (h : s.Rel impl x) : s.taken <+: s.accepted := by
  rw [← h.received, ← h.sent]
  exact x.received_isPrefix

theorem accepted_le (h : s.Rel impl x) :
    s.accepted.length ≤ s.taken.length + 2 ^ impl.ringExp := by
  have := x.fits
  rwa [h.sent, h.got_eq] at this

theorem taken_lt_iff (h : s.Rel impl x) :
    s.taken.length < s.accepted.length ↔ s.taken ≠ s.accepted := by
  constructor
  · intro hlt heq
    rw [heq] at hlt
    exact Nat.lt_irrefl _ hlt
  · intro hne
    refine Nat.lt_of_le_of_ne h.taken_le fun hlen => hne ?_
    exact h.taken_isPrefix.eq_of_length hlen

/-- There is a command in the ring, by the hardware's counter. -/
theorem cons_lt_iff (h : s.Rel impl x) : s.cons < s.next ↔ s.taken.length < s.accepted.length := by
  rw [h.cons, RingState.next, h.got_eq]
  omega

end RingState.Rel

/-- The ring refines the channel, with what else is known of the hardware (`I`). -/
theorem ringSys_simulation {init ready : RingState → Prop} {ok : EnqCall → Prop}
    (I : RingState → Prop)
    (hinit : ∀ s, init s → ∃ x : Chan Line (2 ^ impl.ringExp), x.got = 0 ∧ s.Rel impl x ∧ I s)
    (hok : ∀ call, ok call → 0 ≤ call.numFrames)
    (hready : ∀ s x, s.Rel impl x → I s → ready s → s.cons < s.next)
    (hcall : ∀ s x call r c, s.Rel impl x → I s →
      (ringSys impl init ready ok).step s (.call call r c) (s.afterCall impl call r c) →
        I (s.afterCall impl call r c))
    (htake : ∀ s x, s.Rel impl x → I s → ready s → I (s.afterTake impl)) :
    Trans.Sys.Simulation (ringSys impl init ready ok) (Chan.sys Line (2 ^ impl.ringExp))
      (fun s x => s.Rel impl x ∧ I s) where
  init := hinit
  step s l t x := by
    rintro ⟨hrel, hI⟩ hstep
    cases l with
    | call call r c =>
      obtain ⟨hc, hseen, hcons, hv, rfl⟩ := hstep
      obtain ⟨bs, y, hs, hrel'⟩ := hrel.call (hok call hc) hseen hcons hv
      exact ⟨bs, y, hs, hrel', hcall s x call r c hrel hI ⟨hc, hseen, hcons, hv, rfl⟩⟩
    | take =>
      obtain ⟨hr, rfl⟩ := hstep
      obtain ⟨bs, y, hs, hrel'⟩ := hrel.take (hrel.cons_lt_iff.mp (hready s x hrel hI hr))
      exact ⟨bs, y, hs, hrel', htake s x hrel hI hr⟩

/-! ## The states after `qbman_swp_init` -/

/-- A portal just built from the readouts in `env`, with the commands still in its ring. A
memory-backed portal takes `ci` from `EQCR_PI`; the hardware's consumer index is assumed to be the
same. -/
structure RingState.Fresh (d : QbmanSwpDesc) (env : InitEnv) (s : RingState) : Prop where
  mode : d.eqcrMode = .vbRing
  start : s.start = s.swp.eqcr.ci.toNat
  refTurn : s.refTurn = s.swp.eqcr.pi.toNat
  refVb : s.refVb = (env.cinh 2 qbmanCinhSwpEqcrPi).getLsbD 7
  cons : s.cons = s.start
  seen : s.seen = s.start
  accepted : s.accepted.length = s.swp.eqcr.dist d.impl
  taken : s.taken = []
  stored : ∀ i (h : i < s.accepted.length),
    s.cena.slots ((s.start + i) % 2 ^ d.impl.ringExp) = s.accepted[i]

/-- A portal with an empty ring over cleared memory. -/
def RingState.cleared (p : QbmanSwp) : RingState where
  swp := p
  cena := fun _ => 0
  start := p.eqcr.ci.toNat
  refTurn := p.eqcr.pi.toNat
  refVb := p.eqcr.piVb.getLsbD 7
  cons := p.eqcr.ci.toNat
  seen := p.eqcr.ci.toNat
  accepted := []
  taken := []
  hwVb := p.eqcr.piVb.getLsbD 7
  hwPi := p.eqcr.pi.toNat

/-- With an exact free count, the state after `qbman_swp_init` stores the inherited channel. -/
theorem RingState.Fresh.rel {d : QbmanSwpDesc} {env : InitEnv} {s : RingState}
    (hf : s.Fresh d env) {g : Globals} {a : Addr}
    (hp : (qbmanSwpInit g d env).ret = some (a, s.swp))
    (hd : s.swp.eqcr.dist d.impl ≤ 2 ^ d.impl.ringExp)
    (ha : s.swp.eqcr.available = (2 ^ d.impl.ringExp : Nat) - (s.swp.eqcr.dist d.impl : Nat)) :
    ∃ x : Chan Line (2 ^ d.impl.ringExp), x.got = 0 ∧ s.Rel d.impl x := by
  obtain ⟨-, -, -, -, -, -, heqcr, hmode, -⟩ := qbmanSwpInit_some hp
  rw [← d.impl_memBacked] at heqcr
  have hlen := hf.accepted
  refine ⟨⟨s.accepted, 0, Nat.zero_le _, by omega⟩, rfl, hmode.trans hf.mode, rfl, ?_, ?_,
    ?_, ?_, ?_⟩
  · rw [hf.taken]
    rfl
  · rw [hf.cons]
    rfl
  · rw [RingState.next, hlen, hf.seen, hf.refTurn, hf.refVb, hf.start]
    rw [heqcr] at hd ha ⊢
    exact eqcrInit_counts hd ha
  · rw [hf.seen, hf.cons]
  · intro i hi _
    exact hf.stored i hi

/-- With equal counters the ring is empty and the free count is exact. -/
theorem RingState.Fresh.rel_of_eq {d : QbmanSwpDesc} {env : InitEnv} {s : RingState}
    (hf : s.Fresh d env) {g : Globals} {a : Addr}
    (hp : (qbmanSwpInit g d env).ret = some (a, s.swp))
    (he : s.swp.eqcr.pi = s.swp.eqcr.ci) (hd : d.impl = impl) :
    s.accepted = [] ∧ s.cons = s.refTurn ∧
      ∃ x : Chan Line (2 ^ impl.ringExp), x.got = 0 ∧ s.Rel impl x := by
  subst hd
  obtain ⟨-, -, -, -, -, -, heqcr, -⟩ := qbmanSwpInit_some hp
  rw [← d.impl_memBacked] at heqcr
  have hpi := eqcrInit_pi d.impl (env.cinh 2 qbmanCinhSwpEqcrPi) (env.cinh 3 (initCiReg d))
  have hci := eqcrInit_ci d.impl (env.cinh 2 qbmanCinhSwpEqcrPi) (env.cinh 3 (initCiReg d))
  have hiff := eqcrInit_available_iff d.impl (env.cinh 2 qbmanCinhSwpEqcrPi)
    (env.cinh 3 (initCiReg d))
  rw [← heqcr] at hpi hci hiff
  have hdist : s.swp.eqcr.dist d.impl = 0 := by
    have hlt := Nat.mod_lt (env.cinh 3 (initCiReg d)).toNat (Nat.two_pow_pos (d.impl.ringExp + 1))
    rw [pow_succ, Nat.mul_comm] at hlt hci
    rw [Eqcr.dist, he, Cyclic.cycDist_self (hci ▸ hlt)]
  have hparity : (env.cinh 2 qbmanCinhSwpEqcrPi).toNat % 2 =
      (env.cinh 3 (initCiReg d)).toNat % 2 := by
    have hmod := fun z : Nat => Nat.mod_mod_of_dvd z (Dvd.intro_left (2 ^ d.impl.ringExp) rfl :
      2 ∣ 2 ^ (d.impl.ringExp + 1))
    rw [← hmod, ← hpi, he, hci, hmod]
  refine ⟨List.length_eq_zero_iff.mp (hf.accepted.trans hdist), ?_, hf.rel hp (by omega) ?_⟩
  · rw [hf.cons, hf.start, hf.refTurn, he]
  · exact hiff.mpr hparity

end Qbman
