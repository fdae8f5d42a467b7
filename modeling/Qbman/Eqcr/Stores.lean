import Qbman.Eqcr.Publish
import Qbman.Portal.Whole

/-!
# The enqueue ring, access by access

`directSys` and `memBackSys` run a call at once. In `ringStores` a call makes one access at a time
and the hardware may take a slot between any two of them, so that in direct mode it takes the first
frames of a call while the last ones are not yet published. The system refines the one whose calls
are made at once, at their start (`ringStores_simulation`): a slot that the hardware finds in the
middle of a call is as it will be at the end of it.
-/

namespace Qbman

/-- A ring-mode call in progress: what its read of the consumer index stands for, and the accesses
that it has still to make. -/
structure RingCall where
  call : EnqCall
  r : Regions
  c : Nat
  todo : List Access

/-- A ring and the call in progress. -/
structure RingStores where
  ring : RingState
  call : Option RingCall

inductive RingStoresLabel where
  | start (call : EnqCall) (r : Regions) (c : Nat)
  | access
  | finish
  | take

/-- A call that publishes its commands last: in direct mode no patch of a `dca` byte changes a
byte. -/
def EnqCall.Publishes : Impl → EnqCall → Prop
  | .direct, call => call.Valid ∧ ∀ i : Nat, (i : Int) < call.numFrames → ∀ k : Fin 8, k.val = 0 →
      DcaKept (call.cl i k) (dcaByte call.flags i)
  | .memBack, call => 0 ≤ call.numFrames

namespace RingState

variable (impl : Impl) (s : RingState)

/-- After one access. -/
def afterAccess (a : Access) : RingState :=
  { s with cena := s.cena.access a, hwPi := eqcrPiAfter s.hwPi [a] }

/-- The commands that a call adds. -/
def added (k : RingCall) : List Line :=
  s.commands impl k.call (k.call.accepted (k.call.run impl.ptrs s.swp k.r).ret)

/-- After a call returned. -/
def afterReturn (k : RingCall) : RingState :=
  { s with
    swp := (k.call.run impl.ptrs s.swp k.r).swp
    seen := if s.swp.eqcr.available = 0 then k.c else s.seen
    accepted := s.accepted ++ s.added impl k }

/-- What the ring will be when the call in progress has returned. -/
def pending (k : RingCall) : RingState :=
  { s.afterReturn impl k with cena := s.cena.run k.todo, hwPi := eqcrPiAfter s.hwPi k.todo }

end RingState

/-- Ring-mode calls, access by access, and consumption in any order. -/
def ringStores (impl : Impl) : Trans.Sys RingStores RingStoresLabel where
  init s := impl.ringSys.init s.ring ∧ s.call = none
  step s l t := match l with
    | .start call r c => s.call = none ∧ call.Publishes impl ∧ s.ring.seen ≤ c ∧ c ≤ s.ring.cons ∧
        (r.cena impl.ciReg).toNat % 2 ^ (impl.ringExp + 1) = c % 2 ^ (impl.ringExp + 1) ∧
        t = ⟨s.ring, some ⟨call, r, c, (call.run impl.ptrs s.ring.swp r).accs⟩⟩
    | .access => ∃ k a rest, s.call = some k ∧ k.todo = a :: rest ∧
        t = ⟨s.ring.afterAccess a, some { k with todo := rest }⟩
    | .finish => ∃ k, s.call = some k ∧ k.todo = [] ∧ t = ⟨s.ring.afterReturn impl k, none⟩
    | .take => s.ring.Ready impl ∧ t = { s with ring := s.ring.afterTake impl }

/-! ## Slots that the hardware finds in the middle of a call -/

namespace RingState

variable {impl : Impl} {s : RingState} {as : List Access} {a : Access}

/-- The commands that are in the ring are found now, and what the hardware finds at any later point
of the accesses is not changed by the rest of them. -/
def Settled (s : RingState) (as : List Access) : Impl → Prop
  | .direct => SlotsKept 8 s.refTurn s.refVb s.cons s.cena as ∧ s.next ≤ s.cons + 8 ∧
      ∀ t, s.cons ≤ t → t < s.next → (s.cena.slots (t % 8) 0).getLsbD 7 = s.polarity .direct t
  | .memBack => as = [] ∨ (s.hwPi = s.next % 64 ∧ s.cons ≤ s.next ∧
      (∀ a ∈ as.dropLast, ∀ p, eqcrPiAfter p [a] = p) ∧
      ∀ a ∈ as, ∀ (m : Region) (t : Nat), s.cons ≤ t → t < s.next →
        (m.access a).slots (t % 32) = m.slots (t % 32))

/-- With an exact free count no slot too many is counted as free. -/
theorem Inv.guarded (h : s.Inv .direct) : s.Guarded := by
  obtain ⟨x, hx, hw⟩ := h
  have hfits := hx.counts.fits
  have havail := hx.counts.available
  refine ⟨hx.mode, ⟨hx.counts.small, hx.counts.ring, hx.counts.mask, hx.counts.pi, hx.counts.ci,
    hx.counts.vb, ?_, ?_, hx.counts.le⟩, hx.seen_le, hx.cons_le, hw.vb, hw.stale⟩
  · omega
  · simp only [Impl.ringExp] at *
    omega

/-- At most a ring of commands is not taken. -/
theorem Inv.fits (h : s.Inv impl) : s.next ≤ s.cons + 2 ^ impl.ringExp := by
  obtain ⟨x, hx, -⟩ := h
  have hle := hx.accepted_le
  rw [RingState.next, hx.cons, hx.got_eq]
  omega

/-- A command that is in the ring looks valid. -/
theorem Inv.bit (h : s.Inv .direct) {t : Nat} (ht : s.cons ≤ t) (ht' : t < s.next) :
    (s.cena.slots (t % 8) 0).getLsbD 7 = s.polarity .direct t := by
  obtain ⟨x, hx, hw⟩ := h
  have hcons := hx.cons
  have hgot := hx.got_eq
  have hnext : s.next = s.start + s.accepted.length := rfl
  have hturn : s.start + (t - s.start) = t := by omega
  have hslot := hx.intact (i := t - s.start) (by omega) (by omega)
  rw [hturn] at hslot
  have hbit := hw.bits (t - s.start) (by omega)
  rw [hturn] at hbit
  rw [← hbit]
  exact congrArg (fun l : Line => (l 0).getLsbD 7) hslot

/-- A call that starts. -/
theorem Inv.settled (h : s.Inv impl) {call : EnqCall} {r : Regions} {c : Nat}
    (hok : call.Publishes impl) (hc : s.seen ≤ c) (hc' : c ≤ s.cons)
    (hv : (r.cena impl.ciReg).toNat % 2 ^ (impl.ringExp + 1) = c % 2 ^ (impl.ringExp + 1)) :
    s.Settled (call.run impl.ptrs s.swp r).accs impl := by
  cases impl with
  | direct =>
    refine ⟨?_, h.fits, fun t ht ht' => h.bit ht ht'⟩
    rw [← s.publishedLast_iff]
    exact (h.guarded.publishedLast_iff hok.1 hc hc' hv).mpr fun i hi _ => hok.2 i hi 0 rfl
  | memBack =>
    obtain ⟨x, hx, hw⟩ := h
    have hn : 0 ≤ call.numFrames := hok
    have heff := hx.enqueued hn hc hc' hv
    obtain ⟨pre, hpre, haccs⟩ := heff.accs_eq
    have hbefore : ∀ a ∈ pre, (∀ p, eqcrPiAfter p [a] = p) ∧
        ∀ (m : Region) (t : Nat), s.cons ≤ t → t < s.next →
          (m.access a).slots (t % 32) = m.slots (t % 32) := by
      intro a ha
      refine ⟨fun p => @eqcrPiAfter_pre p _ _ [a] (by simpa using hpre a ha), fun m t ht ht' => ?_⟩
      rcases hpre a ha with ⟨off, v, rfl⟩ | ⟨j, hj, hs⟩
      · rfl
      · refine hs.slots_eq (fun he => ?_) m
        have hfits := heff.counts.fits
        have hseen : (s.afterCall .memBack call r c).seen ≤ s.cons := by
          simp only [RingState.afterCall]
          split
          · exact hc'
          · exact hx.seen_le
        have hle := hx.cons_le
        simp only [Impl.ringExp] at hfits
        have := Cyclic.slot_inj_window (a := s.cons) (N := 32) ht (by omega) (by omega)
          (by omega) he
        omega
    have hbell : ∀ (e : Eqcr), ∀ a ∈ Impl.memBack.notify e, ∀ m : Region, m.access a = m := by
      intro e a ha m
      obtain rfl := List.mem_singleton.mp ha
      rfl
    refine .inr ⟨hw, hx.cons_le, fun a ha => ?_, fun a ha m t ht ht' => ?_⟩
    · rcases haccs with haccs | ⟨-, haccs⟩
      · rw [haccs] at ha
        exact (hbefore a (by simpa [Impl.notify, ringDoorbell] using ha)).1
      · exact (hbefore a (haccs ▸ List.mem_of_mem_dropLast ha)).1
    · rcases haccs with haccs | ⟨-, haccs⟩
      · rcases List.mem_append.mp (haccs ▸ ha) with ha | ha
        · exact (hbefore a ha).2 m t ht ht'
        · rw [hbell _ a ha]
      · exact (hbefore a (haccs ▸ ha)).2 m t ht ht'

theorem Settled.access (h : s.Settled (a :: as) impl) : (s.afterAccess a).Settled as impl := by
  cases impl with
  | direct =>
    obtain ⟨hkept, hroom, hbit⟩ := h
    have hnext : (s.afterAccess a).next = s.next := rfl
    refine ⟨fun t ht ht' => (hkept t ht ht').2, hroom, fun t ht ht' => ?_⟩
    have hsame := (hkept t ht (by rw [hnext] at ht'; omega)).1 (hbit t ht ht')
    exact (congrArg (fun l : Line => (l 0).getLsbD 7) hsame).trans (hbit t ht ht')
  | memBack =>
    obtain h | ⟨hpi, hle, hlast, hslots⟩ := h
    · cases h
    by_cases has : as = []
    · exact .inl has
    rw [List.dropLast_cons_of_ne_nil has] at hlast
    refine .inr ⟨?_, hle, fun b hb => hlast b (List.mem_cons_of_mem a hb),
      fun b hb => hslots b (List.mem_cons_of_mem a hb)⟩
    exact (hlast a (List.mem_cons_self ..) s.hwPi).trans hpi

/-- The hardware, told how far the ring is filled, finds a command. -/
theorem cons_lt_of_ready (hpi : s.hwPi = s.next % 64) (hle : s.cons ≤ s.next)
    (hr : s.Ready .memBack) :
    s.cons < s.next := by
  have hready : s.cons % 64 ≠ s.hwPi := hr
  refine Nat.lt_of_le_of_ne hle fun he => hready ?_
  rw [hpi, he]

/-- The slot that the hardware takes is as it will be at the end of the call. -/
theorem Settled.slot (h : s.Settled as impl)
    (hvb : impl = .direct → s.hwVb = s.polarity .direct s.cons)
    (hr : s.Ready impl) : (s.cena.run as).slots (s.cons % 2 ^ impl.ringExp) =
      s.cena.slots (s.cons % 2 ^ impl.ringExp) := by
  cases impl with
  | direct =>
    obtain ⟨hkept, -, -⟩ := h
    have hready : (s.cena.slots (s.cons % 8) 0).getLsbD 7 = s.hwVb := hr
    exact (hkept s.cons (Nat.le_refl _) (by omega)).view_eq (hready.trans (hvb rfl))
  | memBack =>
    obtain rfl | ⟨hpi, hle, -, hslots⟩ := h
    · rfl
    have hlt := cons_lt_of_ready hpi hle hr
    exact Region.run_same (f := fun m => m.slots (s.cons % 32))
      (fun a ha m => hslots a ha m s.cons (Nat.le_refl _) hlt) s.cena

/-- The hardware takes a slot in the middle of a call. -/
theorem Settled.take (h : s.Settled as impl)
    (hvb : impl = .direct → s.hwVb = s.polarity .direct s.cons) (hr : s.Ready impl) :
    (s.afterTake impl).Settled as impl := by
  cases impl with
  | direct =>
    obtain ⟨hkept, hroom, hbit⟩ := h
    have hnext : (s.afterTake .direct).next = s.next := rfl
    have hcons : (s.afterTake .direct).cons = s.cons + 1 := rfl
    have hready : (s.cena.slots (s.cons % 8) 0).getLsbD 7 = s.polarity .direct s.cons :=
      Eq.trans (show (s.cena.slots (s.cons % 8) 0).getLsbD 7 = s.hwVb from hr) (hvb rfl)
    refine ⟨fun t ht ht' => ?_, by omega, fun t ht ht' => hbit t (by omega) ht'⟩
    rw [hcons] at ht ht'
    by_cases hlast : t = s.cons + 8
    · -- The slot just taken does not change any more, so it does not look valid for its next turn.
      rw [hlast, Nat.add_mod_right]
      exact (hkept s.cons (Nat.le_refl _) (by omega)).of_valid hready
    · exact hkept t (by omega) (by omega)
  | memBack =>
    obtain rfl | ⟨hpi, hle, hlast, hslots⟩ := h
    · exact .inl rfl
    have hlt := cons_lt_of_ready hpi hle hr
    exact .inr ⟨hpi, hlt, hlast, fun a ha m t ht ht' =>
      hslots a ha m t (Nat.le_of_succ_le ht) ht'⟩

/-- The hardware finds a command that it has not taken, however far the call is. -/
theorem Settled.ready (h : s.Settled as impl) (hne : as ≠ [])
    (hvb : impl = .direct → s.hwVb = s.polarity .direct s.cons)
    (hfits : s.next ≤ s.cons + 2 ^ impl.ringExp) (hlt : s.cons < s.next) : s.Ready impl := by
  cases impl with
  | direct =>
    obtain ⟨-, -, hbit⟩ := h
    exact (hbit s.cons (Nat.le_refl _) hlt).trans (hvb rfl).symm
  | memBack =>
    obtain rfl | ⟨hpi, -, -, -⟩ := h
    · exact absurd rfl hne
    show s.cons % 64 ≠ s.hwPi
    rw [hpi]
    simp only [Impl.ringExp] at hfits
    omega

/-- The hardware expects the polarity of the slot it looks at. -/
theorem Inv.hwVb (h : s.Inv impl) : impl = .direct → s.hwVb = s.polarity .direct s.cons := by
  rintro rfl
  obtain ⟨x, -, hw⟩ := h
  exact hw.vb

/-- The hardware finds a command exactly if it has not taken all of them. -/
theorem Inv.ready_iff (h : s.Inv impl) : s.Ready impl ↔ s.cons < s.next := by
  obtain ⟨x, hx, hw⟩ := h
  rw [hx.cons_lt_iff]
  cases impl with
  | direct => exact hx.directReady_iff hw
  | memBack => exact hx.memBackReady_iff hw

theorem pending_access (s : RingState) (k : RingCall) :
    (s.afterAccess a).pending impl { k with todo := as } =
      s.pending impl { k with todo := a :: as } := rfl

theorem pending_finish (s : RingState) {k : RingCall} (h : k.todo = []) :
    s.pending impl k = s.afterReturn impl k := by
  rw [pending, h]
  rfl

/-- A slot taken in the middle of a call is one taken after it. -/
theorem pending_take (s : RingState) {k : RingCall}
    (h : (s.cena.run k.todo).slots (s.cons % 2 ^ impl.ringExp) =
      s.cena.slots (s.cons % 2 ^ impl.ringExp)) :
    (s.afterTake impl).pending impl k = (s.pending impl k).afterTake impl := by
  show { (s.afterTake impl).pending impl k with
      taken := s.taken ++ [s.cena.slots (s.cons % 2 ^ impl.ringExp)] } = _
  rw [← h]
  rfl

theorem ready_finish (s : RingState) {k : RingCall} (h : k.todo = []) :
    (s.pending impl k).Ready impl ↔ s.Ready impl := by
  rw [pending_finish s h]
  cases impl with
  | direct => exact Iff.rfl
  | memBack => exact Iff.rfl

theorem ready_pending (h : s.Settled as impl) (k : RingCall) (hk : k.todo = as)
    (hu : (s.pending impl k).Inv impl) (hr : s.Ready impl) : (s.pending impl k).Ready impl := by
  have hslot := h.slot hu.hwVb hr
  rw [← hk] at hslot
  cases impl with
  | direct => exact (congrArg (fun l : Line => (l 0).getLsbD 7) hslot).trans hr
  | memBack =>
    obtain has | ⟨hpi, hle, -, -⟩ := h
    · have hsame : (s.pending .memBack k).hwPi = s.hwPi := by
        rw [pending_finish s (hk.trans has)]
        rfl
      show s.cons % 64 ≠ (s.pending .memBack k).hwPi
      rw [hsame]
      exact hr
    · have hlt := cons_lt_of_ready hpi hle hr
      refine hu.ready_iff.mpr (Nat.lt_of_lt_of_le hlt ?_)
      show s.start + s.accepted.length ≤ s.start + (s.accepted ++ s.added .memBack k).length
      rw [List.length_append]
      omega

end RingState

/-! ## The refinement -/

namespace RingStores

variable {impl : Impl} {s t : RingStores} {u : RingState}

theorem reach_accesses (n : Nat) {g : RingState} {call : EnqCall} {r : Regions} {c : Nat}
    {todo : List Access} (h : (ringStores impl).Reach ⟨g, some ⟨call, r, c, todo⟩⟩) :
    (ringStores impl).Reach
      ⟨(todo.take n).foldl RingState.afterAccess g, some ⟨call, r, c, todo.drop n⟩⟩ := by
  refine Trans.Sys.Reach.foldl_take (fun g todo => (⟨g, some ⟨call, r, c, todo⟩⟩ : RingStores))
    (fun g a as => ⟨RingStoresLabel.access, ?_⟩) n h
  exact ⟨_, _, _, rfl, rfl, rfl⟩

/-- The ring as it is when calls are made at once, at their start. -/
inductive Rel (impl : Impl) (s : RingStores) (u : RingState) : Prop
  | idle (h : s.call = none) (hu : u = s.ring)
  | busy (k : RingCall) (h : s.call = some k) (hu : u = s.ring.pending impl k)
      (settled : s.ring.Settled k.todo impl)

def Sim (impl : Impl) (s : RingStores) (u : RingState) : Prop := s.Rel impl u ∧ u.Inv impl

theorem Sim.step (h : s.Sim impl u) {l : RingStoresLabel} (hstep : (ringStores impl).step s l t) :
    ∃ ls u', impl.ringSys.Steps u ls u' ∧ t.Sim impl u' := by
  obtain ⟨hrel, hu⟩ := h
  have hone : ∀ l u', impl.ringSys.step u l u' → t.Rel impl u' →
      ∃ ls u', impl.ringSys.Steps u ls u' ∧ t.Sim impl u' := fun l u' hs ht =>
    ⟨[l], u', .cons hs (.nil _), ht, hu.step hs⟩
  have hnone : t.Rel impl u → ∃ ls u', impl.ringSys.Steps u ls u' ∧ t.Sim impl u' :=
    fun ht => ⟨[], u, .nil _, ht, hu⟩
  cases l with
  | start call r c =>
    obtain ⟨hcall, hok, hc, hc', hv, rfl⟩ := hstep
    cases hrel with
    | busy k h => cases hcall.symm.trans h
    | idle h hs =>
      subst hs
      refine hone (.call call r c) (s.ring.afterCall impl call r c) ?_
        (.busy _ rfl rfl (hu.settled hok hc hc' hv))
      cases impl with
      | direct => exact ⟨hok.1, hc, hc', hv, rfl⟩
      | memBack => exact ⟨hok, hc, hc', hv, rfl⟩
  | access =>
    obtain ⟨k, a, rest, hcall, htodo, rfl⟩ := hstep
    cases hrel with
    | idle h => cases h.symm.trans hcall
    | busy k' h hs hsettled =>
      obtain rfl := Option.some.inj (hcall.symm.trans h)
      rw [htodo] at hsettled
      refine hnone (.busy { k with todo := rest } rfl ?_ hsettled.access)
      rw [RingState.pending_access, ← htodo]
      exact hs
  | finish =>
    obtain ⟨k, hcall, htodo, rfl⟩ := hstep
    cases hrel with
    | idle h => cases h.symm.trans hcall
    | busy k' h hs hsettled =>
      obtain rfl := Option.some.inj (hcall.symm.trans h)
      exact hnone (.idle rfl (hs.trans (s.ring.pending_finish htodo)))
  | take =>
    obtain ⟨hr, rfl⟩ := hstep
    have htake : ∀ {u : RingState}, u.Ready impl →
        impl.ringSys.step u .take (u.afterTake impl) := by
      intro u hr
      cases impl with
      | direct => exact ⟨hr, rfl⟩
      | memBack => exact ⟨hr, rfl⟩
    cases hrel with
    | idle h hs =>
      subst hs
      exact hone .take _ (htake hr) (.idle h rfl)
    | busy k h hs hsettled =>
      subst hs
      have hvb : impl = .direct → s.ring.hwVb = s.ring.polarity .direct s.ring.cons := hu.hwVb
      refine hone .take _ (htake (RingState.ready_pending hsettled k rfl hu hr))
        (.busy k h ?_ (hsettled.take hvb hr))
      exact (s.ring.pending_take (hsettled.slot hvb hr)).symm

end RingStores

/-- The ring refines the one whose calls are made at once. -/
theorem ringStores_simulation (impl : Impl) :
    (ringStores impl).Simulation impl.ringSys (RingStores.Sim impl) where
  init s h := ⟨s.ring, h.1, .idle h.2 rfl, RingState.inv_init h.1⟩
  step _ _ _ _ h hstep := h.step hstep

namespace RingStores

variable {impl : Impl} {s : RingStores} {u : RingState}

/-- The commands of the calls that returned and of the one in progress. -/
def commands (impl : Impl) (s : RingStores) : List Line :=
  match s.call with
  | none => s.ring.accepted
  | some k => s.ring.accepted ++ s.ring.added impl k

/-- However far a call is: the hardware took commands of calls, in order; what it finds is the next
of them, whole; it finds one while it has not taken all of the calls that returned; and it waits,
once the call has made its accesses, only when it has taken all. -/
structure Exact (impl : Impl) (s : RingStores) : Prop where
  taken : s.ring.taken <+: s.commands impl
  room : (s.commands impl).length ≤ s.ring.taken.length + 2 ^ impl.ringExp
  found : s.ring.Ready impl → (s.commands impl)[s.ring.taken.length]? =
    some (s.ring.cena.slots (s.ring.cons % 2 ^ impl.ringExp))
  ready : s.ring.taken.length < s.ring.accepted.length → s.ring.Ready impl
  waits : (∀ k, s.call = some k → k.todo = []) →
    (s.ring.Ready impl ↔ s.ring.taken ≠ s.commands impl)

/-- The ring when calls are made at once: what it has and what the hardware finds. -/
structure Seen (impl : Impl) (s : RingStores) (u : RingState) : Prop where
  commands : u.accepted = s.commands impl
  taken : u.taken = s.ring.taken
  cons : s.ring.cons = u.start + s.ring.taken.length
  ready : s.ring.Ready impl → u.Ready impl ∧ u.cena.slots (s.ring.cons % 2 ^ impl.ringExp) =
    s.ring.cena.slots (s.ring.cons % 2 ^ impl.ringExp)
  old : s.ring.taken.length < s.ring.accepted.length → s.ring.Ready impl
  done : (∀ k, s.call = some k → k.todo = []) → (s.ring.Ready impl ↔ u.Ready impl)

theorem Sim.seen (h : s.Sim impl u) : s.Seen impl u := by
  obtain ⟨hrel, hu⟩ := h
  obtain ⟨x, hx, -⟩ := id hu
  have hcons : u.cons = u.start + u.taken.length := by rw [hx.cons, hx.got_eq]
  cases hrel with
  | idle h hs =>
    subst hs
    refine ⟨by rw [commands, h], rfl, hcons, fun hr => ⟨hr, rfl⟩, fun hlt => ?_, fun _ => Iff.rfl⟩
    rw [hu.ready_iff, hcons, RingState.next]
    omega
  | busy k h hs hsettled =>
    subst hs
    have hvb : impl = .direct → s.ring.hwVb = s.ring.polarity .direct s.ring.cons := hu.hwVb
    have hcons' : s.ring.cons = s.ring.start + s.ring.taken.length := hcons
    refine ⟨by rw [commands, h]; rfl, rfl, hcons', fun hr => ?_, fun hlt => ?_, fun hdone => ?_⟩
    · exact ⟨RingState.ready_pending hsettled k rfl hu hr, hsettled.slot hvb hr⟩
    · have hle : s.ring.next ≤ (s.ring.pending impl k).next := by
        show s.ring.start + s.ring.accepted.length ≤
          s.ring.start + (s.ring.accepted ++ s.ring.added impl k).length
        rw [List.length_append]
        omega
      have hnext : s.ring.cons < s.ring.next := by
        rw [hcons', RingState.next]
        omega
      by_cases htodo : k.todo = []
      · exact (s.ring.ready_finish htodo).mp (hu.ready_iff.mpr (Nat.lt_of_lt_of_le hnext hle))
      · exact hsettled.ready htodo hvb (Nat.le_trans hle hu.fits) hnext
    · exact (s.ring.ready_finish (hdone k h)).symm

theorem Sim.exact (h : s.Sim impl u) : s.Exact impl := by
  have hexact := h.2.exact
  obtain ⟨hcommands, htaken, hcons, hready, hold, hdone⟩ := h.seen
  refine ⟨?_, ?_, fun hr => ?_, hold, fun hcall => ?_⟩
  · rw [← hcommands, ← htaken]
    exact hexact.taken
  · rw [← hcommands, ← htaken]
    exact hexact.room
  · obtain ⟨hr', hslot⟩ := hready hr
    have hlt : u.taken.length < u.accepted.length := by
      refine Nat.lt_of_le_of_ne hexact.taken.length_le fun hlen => ?_
      exact hexact.ready_iff.mp hr' (hexact.taken.eq_of_length hlen)
    have hintact := hexact.intact _ hlt (Nat.le_refl _)
    rw [← hcommands, ← htaken, List.getElem?_eq_getElem hlt, ← hintact, ← hslot, hcons, htaken]
  · rw [hdone hcall, hexact.ready_iff, hcommands, htaken]

end RingStores

/-- In every run of calls made access by access, with the hardware taking slots between any two of
them. -/
theorem ringStores_exact {impl : Impl} {s : RingStores} (h : (ringStores impl).Reach s) :
    s.Exact impl := by
  obtain ⟨u, -, hsim⟩ := (ringStores_simulation impl).reach h
  exact hsim.exact

/-- A batch of two frames in direct mode: the first is taken while the second is not published. -/
theorem ringStores_exact_first :
    ∃ s, (ringStores .direct).Reach s ∧ s.ring.taken.map (fun l => l 8) = [7] ∧
      s.ring.accepted = [] ∧
      (s.commands .direct).length = 2 ∧ s.Exact .direct := by
  let p := ((qbmanSwpInit {} (.rev4100 .vbRing 0) (.ok 0x1000 0x80 0)).ret.get rfl).2
  let call : EnqCall := .multiple {} (fun i _ => 7 + BitVec.ofNat 32 i) none 2
  have hinit : (ringStores .direct).init ⟨.cleared p, none⟩ := ⟨RingState.fresh_init, rfl⟩
  have hok : call.Publishes .direct :=
    ⟨⟨⟨[], rfl⟩, (show (0 : Int) ≤ 2 by decide)⟩, fun i _ k _ b hb => by cases hb⟩
  have hstart := (Trans.Sys.Reach.of_init hinit).step
    (a := RingStoresLabel.start call ⟨fun _ => 0, fun _ => 0⟩ 0) (t := ⟨_, some ⟨_, _, _, _⟩⟩)
    ⟨rfl, hok, Nat.le_refl _, Nat.le_refl _, rfl, rfl⟩
  have hhalf := RingStores.reach_accesses 31 hstart
  have htake := hhalf.step (a := RingStoresLabel.take) (t := ⟨_, some _⟩)
    ⟨(show RingState.directReady _ by decide), rfl⟩
  exact ⟨_, htake, by decide, rfl, by decide, ringStores_exact htake⟩

end Qbman
