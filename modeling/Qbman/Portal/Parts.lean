import Qbman.Lib.Share
import Qbman.Portal.Layout
import Qbman.Vdq.Accounting

/-!
# The interfaces of a portal as parts that share its memory

Each interface is a `Trans.Part` over the portal object and the cache-enabled region: the system
that interleaves its calls with its side of the hardware, its invariant, and what is shown of it
alone. Its steps leave every other interface what that one relies on, and its invariant is stable
under the steps of the others.
-/

namespace Qbman

variable {impl : Impl} {j : PortalPart} {m : PortalMem}

/-! ## Enqueues in ring mode -/

namespace RingState

/-- The hardware finds a command in the slot it looks at. -/
def Ready : Impl → RingState → Prop
  | .direct => directReady
  | .memBack => memBackReady

/-- What is known of the hardware's side. -/
def Hw : Impl → RingState → Prop
  | .direct => DirectHw
  | .memBack => MemBackHw

/-- The ring stores a channel that can be reached, and the hardware knows how far it is filled. -/
def Inv (impl : Impl) (s : RingState) : Prop :=
  ∃ x : Chan Line (2 ^ impl.ringExp), s.Rel impl x ∧ s.Hw impl

/-- The accesses of a call. -/
def accs (impl : Impl) (s : RingState) : RingLabel → List Access
  | .call call r _ => (call.run impl.ptrs s.swp r).accs
  | .take => []

end RingState

/-- The enqueue ring of an implementation. -/
def Impl.ringSys : Impl → Trans.Sys RingState RingLabel
  | .direct => directSys
  | .memBack => memBackSys

def ringPart (impl : Impl) : Trans.Part PortalMem where
  State := RingState
  Label := RingLabel
  sys := impl.ringSys
  get s := ⟨s.swp, s.cena⟩
  set s m := { s with swp := m.swp, cena := m.cena }
  get_set _ _ := rfl

/-- A slot of the ring, with everything else in the region changed. -/
theorem slots_of_kept {i : Nat} {m m' : Region}
    (h : ∀ off, impl.owner off = some .eqcr → m' off = m off) (hi : i < 2 ^ impl.ringExp) :
    m'.slots i = m.slots i := by
  funext k
  exact h _ (owner_eqcr (by omega))

namespace RingState

variable {s t : RingState} {l : RingLabel}

theorem inv_init (h : impl.ringSys.init s) : s.Inv impl := by
  cases impl with
  | direct =>
    obtain ⟨x, -, hx⟩ := directSys_simulation.init s h
    exact ⟨x, hx⟩
  | memBack =>
    obtain ⟨x, -, hx⟩ := memBackSys_simulation.init s h
    exact ⟨x, hx⟩

theorem Inv.step (h : s.Inv impl) (hstep : impl.ringSys.step s l t) : t.Inv impl := by
  obtain ⟨x, hx⟩ := h
  cases impl with
  | direct =>
    obtain ⟨-, y, -, hy⟩ := directSys_simulation.step s l t x hx hstep
    exact ⟨y, hy⟩
  | memBack =>
    obtain ⟨-, y, -, hy⟩ := memBackSys_simulation.step s l t x hx hstep
    exact ⟨y, hy⟩

/-- What a step is made of, in either implementation. -/
theorem step_cases (hstep : impl.ringSys.step s l t) :
    (∃ call r c, l = .call call r c ∧ 0 ≤ call.numFrames ∧ s.seen ≤ c ∧ c ≤ s.cons ∧
      (r.cena impl.ciReg).toNat % 2 ^ (impl.ringExp + 1) = c % 2 ^ (impl.ringExp + 1) ∧
      t = s.afterCall impl call r c) ∨ l = .take ∧ t = s.afterTake impl := by
  cases l with
  | call call r c =>
    left
    cases impl with
    | direct =>
      obtain ⟨hok, hseen, hcons, hv, rfl⟩ := hstep
      exact ⟨call, r, c, rfl, hok.2, hseen, hcons, hv, rfl⟩
    | memBack =>
      obtain ⟨hok, hseen, hcons, hv, rfl⟩ := hstep
      exact ⟨call, r, c, rfl, hok, hseen, hcons, hv, rfl⟩
  | take =>
    right
    cases impl with
    | direct => exact ⟨rfl, hstep.2⟩
    | memBack => exact ⟨rfl, hstep.2⟩

theorem Inv.owned (h : s.Inv impl) (hstep : impl.ringSys.step s l t) :
    ∀ a ∈ s.accs impl l, a.OwnedBy impl .eqcr := by
  obtain ⟨x, hx, -⟩ := h
  rcases step_cases hstep with ⟨call, r, c, rfl, hn, hseen, hcons, hv, -⟩ | ⟨rfl, -⟩
  · exact owned_enqueued (hx.enqueued hn hseen hcons hv) rfl
  · exact List.forall_mem_nil _

theorem Inv.leaves (h : s.Inv impl) (hj : PortalPart.eqcr ≠ j) (hstep : impl.ringSys.step s l t) :
    j.Kept impl ⟨s.swp, s.cena⟩ ⟨t.swp, t.cena⟩ := by
  have howned := h.owned hstep
  rcases step_cases hstep with ⟨call, r, c, rfl, -, -, -, -, rfl⟩ | ⟨rfl, rfl⟩
  · have hview : ∀ {α : Type} (view : QbmanSwp → α), (∀ s eqcr, view { s with eqcr } = view s) →
        view (call.run impl.ptrs s.swp r).swp = view s.swp :=
      fun view hv => call.run_view view hv impl.ptrs s.swp r
    refine .of_owned hj howned (hview QbmanSwp.desc fun _ _ => rfl)
      (hview QbmanSwp.sys fun _ _ => rfl) ?_ s.cena
    cases j with
    | eqcr => exact absurd rfl hj
    | dqrr => exact ⟨hview QbmanSwp.dqrr fun _ _ => rfl, hview QbmanSwp.vdq fun _ _ => rfl⟩
    | rcr => trivial
    | mc => exact ⟨hview QbmanSwp.mc fun _ _ => rfl, hview QbmanSwp.mr fun _ _ => rfl⟩
    | sdqcr => exact hview QbmanSwp.sdq fun _ _ => rfl
  · exact .refl _

theorem Inv.stable (h : s.Inv impl) (hm : PortalPart.eqcr.Kept impl ⟨s.swp, s.cena⟩ m) :
    RingState.Inv impl { s with swp := m.swp, cena := m.cena } := by
  obtain ⟨x, hx, hw⟩ := h
  have hslots : ∀ i, m.cena.slots (i % 2 ^ impl.ringExp) = s.cena.slots (i % 2 ^ impl.ringExp) :=
    fun i => slots_of_kept hm.cena (Nat.mod_lt _ (Nat.two_pow_pos _))
  have hsame : m.swp.eqcr = s.swp.eqcr := hm.same
  refine ⟨x, ⟨hm.sys ▸ hx.mode, hx.sent, hx.received, hx.cons, hsame ▸ hx.counts, hx.seen_le,
    fun i hi hg => (hslots _).trans (hx.stored i hi hg)⟩, ?_⟩
  cases impl with
  | direct =>
    exact ⟨hw.vb, hw.bits, fun t ht ht' => (congrFun (hslots t) 0) ▸ hw.stale t ht ht'⟩
  | memBack => exact hw

/-- The hardware has taken a prefix of what the calls accepted; what it has not taken is in its
slot, at most a ring of it; and it waits only when it has taken everything. -/
structure Exact (impl : Impl) (s : RingState) : Prop where
  taken : s.taken <+: s.accepted
  room : s.accepted.length ≤ s.taken.length + 2 ^ impl.ringExp
  intact : ∀ i (hi : i < s.accepted.length), s.taken.length ≤ i →
    s.cena.slots ((s.start + i) % 2 ^ impl.ringExp) = s.accepted[i]
  ready_iff : s.Ready impl ↔ s.taken ≠ s.accepted

theorem Inv.exact (h : s.Inv impl) : s.Exact impl := by
  obtain ⟨x, hx, hw⟩ := h
  refine ⟨hx.taken_isPrefix, hx.accepted_le, fun i hi ht => hx.intact hi ht, ?_⟩
  rw [← hx.taken_lt_iff]
  cases impl with
  | direct => exact hx.directReady_iff hw
  | memBack => exact hx.memBackReady_iff hw

end RingState

/-! ## Releases, and enqueues in array mode -/

section Grant

variable {Op α : Type} {R : GrantRing Op α} {ok : QbmanSwp → Op → Prop}
variable {init : GrantState α → Prop} {i : PortalPart}

def grantPart (R : GrantRing Op α) (ok : QbmanSwp → Op → Prop) (init : GrantState α → Prop) :
    Trans.Part PortalMem where
  State := GrantState α
  Label := GrantLabel Op
  sys := grantSys R ok init
  get s := ⟨s.swp, s.cena⟩
  set s m := { s with swp := m.swp, cena := m.cena }
  get_set _ _ := rfl

/-- The ring belongs to an interface: its slots are there, and a call stays there if it is granted a
slot of the ring. -/
structure GrantRing.Within (R : GrantRing Op α) (ok : QbmanSwp → Op → Prop) (impl : Impl)
    (i : PortalPart) : Prop where
  slots : ∀ m m' : Region, (∀ off, impl.owner off = some i → m' off = m off) →
    ∀ k < R.size, R.read m' k = R.read m k ∧ R.bit m' k = R.bit m k
  owned : ∀ s r op, ok s op → (R.grants (r.cinh R.reg) = true → R.idx (r.cinh R.reg) < R.size) →
    ∀ a ∈ (R.call s r op).accs, a.OwnedBy impl i

namespace GrantState

variable {s t : GrantState α} {l : GrantLabel Op}

/-- The busy slots are those with a command, of slots that lose none. -/
def Inv (R : GrantRing Op α) (s : GrantState α) : Prop := ∃ x, s.Rel R x

/-- The accesses of a call. -/
def accs (R : GrantRing Op α) (s : GrantState α) : GrantLabel Op → List Access
  | .call op r => (R.call s.swp r op).accs
  | .take _ => []

theorem Inv.step (hR : R.Spec ok) (h : s.Inv R) (hstep : (grantSys R ok init).step s l t) :
    t.Inv R := by
  obtain ⟨x, hx⟩ := h
  obtain ⟨-, y, -, hy⟩ := (grantSys_simulation hR init).step s l t x hx hstep
  exact ⟨y, hy⟩

theorem owned_of_step (hW : R.Within ok impl i) (hstep : (grantSys R ok init).step s l t) :
    ∀ a ∈ s.accs R l, a.OwnedBy impl i := by
  cases l with
  | call op r =>
    obtain ⟨hok, hmay, -⟩ := hstep
    exact hW.owned _ _ _ hok fun hw => (hmay hw).1
  | take k => exact List.forall_mem_nil _

/-- A call leaves the portal object alone. -/
theorem call_swp (hR : R.Spec ok) {op : Op} {r : Regions} (hok : ok s.swp op)
    (hmay : s.MayGrant R (r.cinh R.reg)) : (R.call s.swp r op).swp = s.swp := by
  cases hw : R.grants (r.cinh R.reg) with
  | true => exact (hR.puts _ _ _ hok hw (hmay hw).1).swp
  | false => exact ((hR.rejects _ _ _ hok).noTrace hw).swp

theorem leaves (hR : R.Spec ok) (hW : R.Within ok impl i) (hj : i ≠ j)
    (hstep : (grantSys R ok init).step s l t) : j.Kept impl ⟨s.swp, s.cena⟩ ⟨t.swp, t.cena⟩ := by
  have howned := owned_of_step hW hstep
  cases l with
  | call op r =>
    obtain ⟨hok, hmay, rfl⟩ := hstep
    have hswp : (s.afterCall R op r).swp = s.swp := call_swp hR hok hmay
    rw [hswp]
    exact .of_owned hj howned rfl rfl (.refl j _) s.cena
  | take k =>
    obtain ⟨-, -, rfl⟩ := hstep
    exact .refl _

theorem Inv.stable (hW : R.Within ok impl i) (h : s.Inv R)
    (hm : i.Kept impl ⟨s.swp, s.cena⟩ m) :
    GrantState.Inv R { s with swp := m.swp, cena := m.cena } := by
  obtain ⟨x, hx⟩ := h
  have hslots := hW.slots s.cena m.cena hm.cena
  refine ⟨x, hx.sent, hx.taken, hx.busy, fun k hk y hy => ?_, fun k hk => ?_⟩
  · show R.read m.cena k = y
    rw [(hslots k hk).1]
    exact hx.holds.read k hk y hy
  · rw [← hx.holds.ready k hk]
    simp only [GrantRing.ready, (hslots k hk).2]

theorem Inv.exact (h : s.Inv R) : s.Exact R := by
  obtain ⟨x, hx⟩ := h
  exact hx.exact

end GrantState

end Grant

theorem rcrRing_within (impl : Impl) : (rcrRing impl).Within (fun _ op => op.Valid) impl .rcr where
  slots m m' h k hk := by
    have hk8 : k < 8 := hk
    have hread : (rcrRing impl).read m' k = (rcrRing impl).read m k :=
      decodeRelease_congr fun i hi => h _ (owner_rcr (by omega) (by omega))
    exact ⟨hread, congrArg ReleaseCmd.vb hread⟩
  owned _ _ _ hok _ := owned_release _ _ hok

theorem eqcrArray_within (impl : Impl) :
    (eqcrArray impl).Within (fun s _ => s.sys.eqcrMode = .vbArray) impl .eqcr where
  slots m m' h k hk := by
    have hread : m'.slots k = m.slots k := slots_of_kept h (impl.ringSize_eq ▸ hk)
    exact ⟨hread, congrArg (fun l : Line => (l 0).getLsbD 7) hread⟩
  owned s r op hok hidx := by
    show ∀ a ∈ (qbmanSwpEnqueue impl.ptrs s r _ _).accs, _
    rw [qbmanSwpEnqueue_array impl hok]
    exact owned_enqueueArrayMode _ _ fun hne => impl.ringSize_eq ▸ hidx (decide_eq_true hne)

/-! ## Push dequeues -/

/-- The portal, the `qbman_swp_push_set` calls since it was initialised and the accesses since then,
those of `qbman_swp_init` included. -/
structure SdqcrState where
  swp : QbmanSwp
  cena : Region
  calls : List PushCall
  written : List Access

/-- Calls of `qbman_swp_push_set`. -/
def sdqcrSys : Trans.Sys SdqcrState PushCall where
  init s := ∃ g d env a, (qbmanSwpInit g d env).ret = some (a, s.swp) ∧ s.calls = [] ∧
    s.written = (qbmanSwpInit g d env).accs
  step s c t := c.channelIdx ≤ 15 ∧ t = { s with
    swp := (qbmanSwpPushSet s.swp c.channelIdx c.enable).swp
    calls := s.calls ++ [c]
    written := s.written ++ (qbmanSwpPushSet s.swp c.channelIdx c.enable).accs }

def sdqcrPart : Trans.Part PortalMem where
  State := SdqcrState
  Label := PushCall
  sys := sdqcrSys
  get s := ⟨s.swp, s.cena⟩
  set s m := { s with swp := m.swp, cena := m.cena }
  get_set _ _ := rfl

namespace SdqcrState

variable {s t : SdqcrState} {c : PushCall}

/-- The command and the accesses are those of a run of the calls alone. -/
def Inv (s : SdqcrState) : Prop :=
  PushCall.Valid s.calls ∧ ∃ g d env a p, (qbmanSwpInit g d env).ret = some (a, p) ∧
    s.swp.sdq = (pushRun p (qbmanSwpInit g d env).accs s.calls).1.sdq ∧
    s.written = (pushRun p (qbmanSwpInit g d env).accs s.calls).2

theorem inv_init (h : sdqcrSys.init s) : s.Inv := by
  obtain ⟨g, d, env, a, hp, hcalls, hwritten⟩ := h
  refine ⟨?_, g, d, env, a, s.swp, hp, ?_, ?_⟩
  · rw [hcalls]
    exact List.forall_mem_nil _
  · rw [hcalls]
    rfl
  · rw [hcalls]
    exact hwritten

/-- What a call does depends on the cached command only. -/
theorem pushSet_congr {p q : QbmanSwp} (h : p.sdq = q.sdq) (c : PushCall) :
    (qbmanSwpPushSet p c.channelIdx c.enable).swp.sdq =
        (qbmanSwpPushSet q c.channelIdx c.enable).swp.sdq ∧
      (qbmanSwpPushSet p c.channelIdx c.enable).accs =
        (qbmanSwpPushSet q c.channelIdx c.enable).accs := by
  simp only [qbmanSwpPushSet, h, and_self]

theorem Inv.step (h : s.Inv) (hstep : sdqcrSys.step s c t) : t.Inv := by
  obtain ⟨hvalid, g, d, env, a, p, hp, hsdq, hwritten⟩ := h
  obtain ⟨hc, rfl⟩ := hstep
  have hcongr := pushSet_congr hsdq c
  refine ⟨?_, g, d, env, a, p, hp, ?_, ?_⟩
  · intro c' hc'
    rcases List.mem_append.mp hc' with hc' | hc'
    · exact hvalid c' hc'
    · rw [List.mem_singleton.mp hc']
      exact hc
  · rw [pushRun_concat]
    exact hcongr.1
  · show s.written ++ _ = _
    rw [pushRun_concat, hwritten, hcongr.2]
    rfl

theorem owned (s : SdqcrState) (c : PushCall) :
    ∀ a ∈ (qbmanSwpPushSet s.swp c.channelIdx c.enable).accs, a.OwnedBy impl .sdqcr := by
  intro a ha
  obtain rfl := List.mem_singleton.mp ha
  rfl

theorem leaves (hj : PortalPart.sdqcr ≠ j) (hstep : sdqcrSys.step s c t) :
    j.Kept impl ⟨s.swp, s.cena⟩ ⟨t.swp, t.cena⟩ := by
  obtain ⟨-, rfl⟩ := hstep
  refine ⟨rfl, rfl, ?_, fun _ _ => rfl⟩
  cases j with
  | sdqcr => exact absurd rfl hj
  | rcr => trivial
  | eqcr => rfl
  | dqrr => exact ⟨rfl, rfl⟩
  | mc => exact ⟨rfl, rfl⟩

theorem Inv.stable (h : s.Inv) (hm : PortalPart.sdqcr.Kept impl ⟨s.swp, s.cena⟩ m) :
    SdqcrState.Inv { s with swp := m.swp, cena := m.cena } := by
  obtain ⟨hvalid, g, d, env, a, p, hp, hsdq, hwritten⟩ := h
  have hsame : m.swp.sdq = s.swp.sdq := hm.same
  exact ⟨hvalid, g, d, env, a, p, hp, hsame.trans hsdq, hwritten⟩

theorem Inv.matches (h : s.Inv) : SdqcrMatches s.calls (s.swp, s.written) := by
  obtain ⟨hvalid, g, d, env, a, p, hp, hsdq, hwritten⟩ := h
  have hmatch := pushRun_sdqcr hp hvalid
  exact ⟨hwritten ▸ hmatch.none, hwritten ▸ hmatch.some, hsdq ▸ hmatch.cached⟩

end SdqcrState

/-! ## Management commands -/

/-- Calls that poll until there is a response. -/
def mcPart (impl : Impl) : Trans.Part PortalMem where
  State := McState
  Label := McLabel
  sys := mcSys impl none
  get s := ⟨s.swp, s.cena⟩
  set s m := { s with swp := m.swp, cena := m.cena }
  get_set _ _ := rfl

namespace McState

variable {s t : McState} {l : McLabel} {b : Bool}

def Inv (impl : Impl) (s : McState) : Prop := (∃ b, s.Link impl b) ∧ s.Complete

/-- The accesses of a call. -/
def accs (s : McState) : McLabel → List Access
  | .submit cmd cmdVerb => qbmanSwpMcSubmit s.swp cmd cmdVerb
  | .respond _ _ => []
  | .poll => (qbmanSwpMcResult s.swp s.cena).accs

theorem Inv.owned (h : s.Inv impl) (l : McLabel) : ∀ a ∈ s.accs l, a.OwnedBy impl .mc := by
  obtain ⟨⟨b, hlink⟩, -⟩ := h
  cases l with
  | submit cmd cmdVerb => exact owned_mcSubmit hlink.mode cmd cmdVerb
  | respond k l => exact List.forall_mem_nil _
  | poll => exact owned_mcResult _ _

theorem owned_rr (b : Bool) (l : Line) : ∀ a ∈ memcpyWords (impl.rr b) l, a.OwnedBy impl .mc :=
  owned_memcpyWords l fun k hk => owner_rr b (by omega) (by omega)

theorem afterPoll_mem (s : McState) (n : Option Nat) :
    (s.afterPoll n).swp = (qbmanSwpMcResult s.swp s.cena).swp ∧ (s.afterPoll n).cena = s.cena := by
  cases hret : (qbmanSwpMcResult s.swp s.cena).ret with
  | some l =>
    rw [afterPoll_some hret]
    exact ⟨rfl, rfl⟩
  | none =>
    rw [afterPoll_none hret]
    rcases n with _ | _ | n
    · exact ⟨rfl, rfl⟩
    · exact ⟨rfl, rfl⟩
    · exact ⟨rfl, rfl⟩

theorem Inv.leaves (h : s.Inv impl) (hj : PortalPart.mc ≠ j)
    (hstep : (mcSys impl none).step s l t) :
    j.Kept impl ⟨s.swp, s.cena⟩ ⟨t.swp, t.cena⟩ := by
  have howned := h.owned l
  cases l with
  | submit cmd cmdVerb =>
    obtain ⟨-, -, rfl⟩ := hstep
    cases impl with
    | memBack => exact .of_owned hj howned rfl rfl (.refl j _) s.cena
    | direct =>
      -- The hardware clears the response register behind the command.
      have hcena : ∀ (v : Bool) (l : Line), (s.cena.run (qbmanSwpMcSubmit s.swp cmd cmdVerb)).run
          (memcpyWords (Impl.direct.rr v) l) = s.cena.run (qbmanSwpMcSubmit s.swp cmd cmdVerb ++
            memcpyWords (Impl.direct.rr v) l) := fun v l => (Region.run_append ..).symm
      simp only [afterSubmit, hcena]
      refine .of_owned hj (fun a ha => ?_) rfl rfl (.refl j _) s.cena
      rcases List.mem_append.mp ha with ha | ha
      · exact howned a ha
      · exact owned_rr _ _ a ha
  | respond k l =>
    obtain ⟨c, -, -, -, -, -, rfl⟩ := hstep
    exact .of_owned hj (owned_rr _ l) rfl rfl (.refl j _) s.cena
  | poll =>
    obtain ⟨n, -, rfl⟩ := hstep
    obtain ⟨hswp, hcena⟩ := s.afterPoll_mem n
    have hview : ∀ {α : Type} (view : QbmanSwp → α), (∀ p mc mr, view { p with mc, mr } = view p) →
        view (qbmanSwpMcResult s.swp s.cena).swp = view s.swp :=
      fun view hv => qbmanSwpMcResult_view view hv s.swp s.cena
    rw [hswp, hcena]
    refine ⟨hview QbmanSwp.desc fun _ _ _ => rfl, hview QbmanSwp.sys fun _ _ _ => rfl, ?_,
      fun _ _ => rfl⟩
    cases j with
    | mc => exact absurd rfl hj
    | rcr => trivial
    | eqcr => exact hview QbmanSwp.eqcr fun _ _ _ => rfl
    | dqrr => exact ⟨hview QbmanSwp.dqrr fun _ _ _ => rfl, hview QbmanSwp.vdq fun _ _ _ => rfl⟩
    | sdqcr => exact hview QbmanSwp.sdq fun _ _ _ => rfl

theorem Inv.stable (h : s.Inv impl) (hm : PortalPart.mc.Kept impl ⟨s.swp, s.cena⟩ m) :
    McState.Inv impl { s with swp := m.swp, cena := m.cena } := by
  obtain ⟨⟨b, hlink⟩, hc⟩ := h
  have hline : m.cena.line (impl.rr b) = s.cena.line (impl.rr b) :=
    funext fun k => hm.cena _ (owner_rr b (by omega) (by omega))
  have hword : m.cena (impl.rr b) = s.cena (impl.rr b) := congrFun hline 0
  have hsame : m.swp.mc = s.swp.mc ∧ m.swp.mr = s.swp.mr := hm.same
  have hmode : m.swp.desc.impl = impl := (congrArg QbmanSwpDesc.impl hm.desc).trans hlink.mode
  have hbit : m.swp.mcValidBit impl = vbit b := by
    rw [← hlink.bit]
    cases impl with
    | direct => exact congrArg Mc.validBit hsame.1
    | memBack => exact congrArg Mr.validBit hsame.2
  refine ⟨⟨b, hmode, hbit, hlink.history.frame m.swp m.cena, ?_⟩, hc.accepted, hc.results, hc.phase⟩
  rcases hlink.state with hsync | ⟨k, hk⟩
  · refine .inl ⟨hsync.last, hsync.idle, hsync.answered, fun hi => ?_, hsync.returned⟩
    exact (congrArg (impl.mcReady b) hword).trans (hsync.stale hi)
  · refine .inr ⟨k, hk.last, hk.accepted, hk.bit, hk.answered, hk.gaveUp, fun hready => ?_,
      fun l hlast hl => ?_⟩
    · exact (hk.shown ((congrArg (impl.mcReady b) hword).symm.trans hready)).trans
        (congrArg some hline.symm)
    · obtain ⟨hvis, hready⟩ := hk.visible l hlast hl
      exact ⟨hline.trans hvis, (congrArg (impl.mcReady b) hword).trans hready⟩

/-- The hardware took every command as new, and a poll returns the response to the command just
submitted, as soon as there is one. -/
structure Exact (s : McState) : Prop where
  accepted : ∀ k < s.submitted.length, s.accepted k = true
  poll : s.phase ≠ .idle → ∃ k, k + 1 = s.submitted.length ∧
    (qbmanSwpMcResult s.swp s.cena).ret = s.answer k

theorem Inv.exact (h : s.Inv impl) : s.Exact := by
  obtain ⟨⟨b, hlink⟩, hc⟩ := h
  refine ⟨hc.accepted, fun hphase => ?_⟩
  obtain ⟨k, hlast, hk⟩ := hc.awaiting hlink hphase
  refine ⟨k, hlast, ?_⟩
  rw [hlink.ready_iff.1]
  cases ha : s.answer k with
  | none => rw [hk.empty ha, if_neg Bool.false_ne_true]
  | some l =>
    obtain ⟨hline, hready⟩ := hk.visible l hlast ha
    rw [if_pos hready, hline]

end McState

end Qbman
