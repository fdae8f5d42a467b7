import Qbman.Portal.Volatile

/-!
# A whole portal

`wholeSys` interleaves, call by call and event by event, everything that happens at one portal:
enqueues, polls of the dequeue ring and of storage entries, volatile dequeues, releases, management
commands, push dequeues, and the hardware on the other side of each. All of them work on one portal
object and one cache-enabled region. The enqueue ring is empty at first, and a management call polls
until there is a response (`mcPart`). What holds of each interface alone holds in every such run
(`wholeSys_exact`), and no call touches what another interface owns (`wholeSys_owned`).
-/

namespace Qbman

variable {impl : Impl} {mode : QbmanEqcrMode}

/-- The enqueue ring of a portal initialised in array mode, as a part. -/
def arrayPart (impl : Impl) : Trans.Part PortalMem :=
  grantPart (eqcrArray impl) (fun s _ => s.sys.eqcrMode = .vbArray) fun s =>
    ∃ g d env a, (qbmanSwpInit g d env).ret = some (a, s.swp) ∧ d.impl = impl ∧
      d.eqcrMode = .vbArray

/-- The release ring as a part. -/
def rcrPart (impl : Impl) : Trans.Part PortalMem :=
  grantPart (rcrRing impl) (fun _ op => op.Valid) fun s =>
    ∃ g d env a, (qbmanSwpInit g d env).ret = some (a, s.swp) ∧ d.impl = impl

/-- The enqueues, in the mode of the portal. -/
def eqcrPart (impl : Impl) : QbmanEqcrMode → Trans.Part PortalMem
  | .vbRing => ringPart impl
  | .vbArray => arrayPart impl

/-- The interfaces of a portal. -/
def portalPart (impl : Impl) (mode : QbmanEqcrMode) : PortalPart → Trans.Part PortalMem
  | .eqcr => eqcrPart impl mode
  | .dqrr => portPart impl
  | .rcr => rcrPart impl
  | .mc => mcPart impl
  | .sdqcr => sdqcrPart

/-- A portal: the state of each of its interfaces. -/
abbrev Whole (impl : Impl) (mode : QbmanEqcrMode) := ∀ i, (portalPart impl mode i).State

/-- Everything that happens at a portal, in any order. -/
def wholeSys (impl : Impl) (mode : QbmanEqcrMode) :
    Trans.Sys (Whole impl mode) (Σ i, (portalPart impl mode i).Label) :=
  Trans.Part.compose (portalPart impl mode)

/-- The invariant of the enqueues. -/
def eqcrInv (impl : Impl) : (mode : QbmanEqcrMode) → (eqcrPart impl mode).State → Prop
  | .vbRing => RingState.Inv impl
  | .vbArray => GrantState.Inv (eqcrArray impl)

/-- The invariant of an interface. -/
def partInv (impl : Impl) (mode : QbmanEqcrMode) :
    (i : PortalPart) → (portalPart impl mode i).State → Prop
  | .eqcr => eqcrInv impl mode
  | .dqrr => Port.Sound impl
  | .rcr => GrantState.Inv (rcrRing impl)
  | .mc => McState.Inv impl
  | .sdqcr => SdqcrState.Inv

/-- The accesses of the driver in a step of an interface. -/
def partAccs (impl : Impl) (mode : QbmanEqcrMode) :
    (i : PortalPart) → (portalPart impl mode i).State → (portalPart impl mode i).Label → List Access
  | .eqcr => match mode with
    | .vbRing => RingState.accs impl
    | .vbArray => GrantState.accs (eqcrArray impl)
  | .dqrr => Port.accs
  | .rcr => GrantState.accs (rcrRing impl)
  | .mc => McState.accs
  | .sdqcr => fun s c => (qbmanSwpPushSet (SdqcrState.swp s) (PushCall.channelIdx c) c.enable).accs

/-- The interfaces are compatible: each keeps what the others rely on. -/
theorem portalPart_compatible (impl : Impl) (mode : QbmanEqcrMode) :
    Trans.Part.Compatible (portalPart impl mode) (partInv impl mode) (PortalPart.Kept impl) where
  init i s h := by
    cases i with
    | eqcr =>
      cases mode with
      | vbRing => exact RingState.inv_init h
      | vbArray => exact ⟨_, GrantState.Rel.of_init h.2⟩
    | dqrr => exact Port.sound_init h
    | rcr => exact ⟨_, GrantState.Rel.of_init h.2⟩
    | mc => exact (mcSys_inductive impl).init s h
    | sdqcr => exact SdqcrState.inv_init h
  keeps i s l t h hstep := by
    cases i with
    | eqcr =>
      cases mode with
      | vbRing => exact RingState.Inv.step h hstep
      | vbArray => exact GrantState.Inv.step (eqcrArray_spec impl) h hstep
    | dqrr => exact Port.Sound.step h hstep
    | rcr => exact GrantState.Inv.step (rcrRing_spec impl) h hstep
    | mc => exact (mcSys_inductive impl).step s l t h hstep
    | sdqcr => exact SdqcrState.Inv.step h hstep
  leaves i j hij s l t h hstep := by
    cases i with
    | eqcr =>
      cases mode with
      | vbRing => exact RingState.Inv.leaves h hij hstep
      | vbArray =>
        exact GrantState.leaves (eqcrArray_spec impl) (eqcrArray_within impl) hij hstep
    | dqrr => exact Port.Sound.leaves h hij hstep
    | rcr => exact GrantState.leaves (rcrRing_spec impl) (rcrRing_within impl) hij hstep
    | mc => exact McState.Inv.leaves h hij hstep
    | sdqcr => exact SdqcrState.leaves hij hstep
  stable i s m h hm := by
    cases i with
    | eqcr =>
      cases mode with
      | vbRing => exact RingState.Inv.stable h hm
      | vbArray => exact GrantState.Inv.stable (eqcrArray_within impl) h hm
    | dqrr => exact Port.Sound.stable h hm
    | rcr => exact GrantState.Inv.stable (rcrRing_within impl) h hm
    | mc => exact McState.Inv.stable h hm
    | sdqcr => exact SdqcrState.Inv.stable h hm

/-- The invariants of the interfaces. -/
abbrev Whole.Sound (s : Whole impl mode) : Prop :=
  Trans.Part.Inv (portalPart impl mode) (partInv impl mode) s

theorem Whole.Sound.step {s t : Whole impl mode} (h : s.Sound)
    {l : Σ p, (portalPart impl mode p).Label} (hstep : (wholeSys impl mode).step s l t) : t.Sound :=
  (portalPart_compatible impl mode).step h hstep

/-- What holds of the enqueues. -/
def EqcrExact (impl : Impl) : (mode : QbmanEqcrMode) → (eqcrPart impl mode).State → Prop
  | .vbRing => RingState.Exact impl
  | .vbArray => GrantState.Exact (eqcrArray impl)

/-- What holds of each interface, on one portal object and one region. -/
structure Whole.Exact (s : Whole impl mode) : Prop where
  eqcr : EqcrExact impl mode (s .eqcr)
  dqrr : Port.Exact (s .dqrr)
  rcr : GrantState.Exact (rcrRing impl) (s .rcr)
  mc : McState.Exact (s .mc)
  sdqcr : SdqcrMatches (SdqcrState.calls (s .sdqcr))
    (SdqcrState.swp (s .sdqcr), SdqcrState.written (s .sdqcr))
  shared : ∀ i j, (portalPart impl mode i).get (s i) = (portalPart impl mode j).get (s j)

theorem Whole.Sound.exact {s : Whole impl mode} (h : s.Sound) : s.Exact := by
  obtain ⟨hinv, hshared⟩ := h
  refine ⟨?_, Port.Sound.exact (hinv .dqrr), GrantState.Inv.exact (hinv .rcr),
    McState.Inv.exact (hinv .mc), SdqcrState.Inv.matches (hinv .sdqcr), hshared⟩
  have heqcr := hinv .eqcr
  cases mode with
  | vbRing => exact RingState.Inv.exact heqcr
  | vbArray => exact GrantState.Inv.exact heqcr

/-- In every run of a whole portal each interface does what it does alone: enqueued and released
commands reach the hardware once and unchanged, polls return what was produced, at most one volatile
dequeue is outstanding, management responses are those of their commands, and the static dequeue
register has the enabled channels. -/
theorem wholeSys_exact {s : Whole impl mode} (h : (wholeSys impl mode).Reach s) : s.Exact :=
  Whole.Sound.exact ((portalPart_compatible impl mode).reach h)

theorem Whole.Sound.owned {s t : Whole impl mode} (h : s.Sound) {i : PortalPart}
    {l : (portalPart impl mode i).Label} (hstep : (wholeSys impl mode).step s ⟨i, l⟩ t) :
    ∀ a ∈ partAccs impl mode i (s i) l, a.OwnedBy impl i := by
  have hinv := h.inv i
  obtain ⟨c, hc, -⟩ := hstep
  cases i with
  | eqcr =>
    cases mode with
    | vbRing => exact RingState.Inv.owned hinv hc
    | vbArray => exact GrantState.owned_of_step (eqcrArray_within impl) hc
  | dqrr =>
    have himpl : Port.impl (s .dqrr) = impl := Port.Sound.impl_eq hinv
    have howned := Port.owned (s .dqrr) l
    rw [himpl] at howned
    exact howned
  | rcr => exact GrantState.owned_of_step (rcrRing_within impl) hc
  | mc => exact McState.Inv.owned hinv l
  | sdqcr => exact SdqcrState.owned (s .sdqcr) l

/-- In every run of a whole portal a call stores to the lines and writes to the registers of its own
interface only. -/
theorem wholeSys_owned {s t : Whole impl mode} (h : (wholeSys impl mode).Reach s) {i : PortalPart}
    {l : (portalPart impl mode i).Label} (hstep : (wholeSys impl mode).step s ⟨i, l⟩ t) :
    ∀ a ∈ partAccs impl mode i (s i) l, a.OwnedBy impl i :=
  Whole.Sound.owned ((portalPart_compatible impl mode).reach h) hstep

/-! ## A direct portal -/

/-- The initialisation of a direct portal whose hardware waits for set valid bits. -/
def wholeInit : InitResult := qbmanSwpInit {} (.rev4100 .vbRing 0) (.ok 0x1000 0x80 0)

/-- That portal over cleared memory. -/
def Whole.fresh : Whole .direct .vbRing
  | .eqcr => RingState.cleared (wholeInit.ret.get rfl).2
  | .dqrr => ⟨DqrrState.cleared (wholeInit.ret.get rfl).2, [], 0⟩
  | .rcr => GrantState.cleared ReleaseCmd (wholeInit.ret.get rfl).2
  | .mc => McState.cleared (wholeInit.ret.get rfl).2
  | .sdqcr => ⟨(wholeInit.ret.get rfl).2, fun _ => 0, [], wholeInit.accs⟩

theorem RingState.fresh_init :
    Impl.direct.ringSys.init (RingState.cleared (wholeInit.ret.get rfl).2) := by
  refine ⟨⟨{}, .rev4100 .vbRing 0, .ok 0x1000 0x80 0, 0x1000, rfl, rfl, rfl,
    ⟨rfl, rfl, rfl, by decide, rfl, rfl, by decide, rfl, fun i hi => by cases hi⟩⟩, rfl, rfl,
    fun t _ ht => ?_⟩
  have hturn : (RingState.cleared (wholeInit.ret.get rfl).2).refTurn = 0 := by decide
  have hvb : (RingState.cleared (wholeInit.ret.get rfl).2).refVb = true := by decide
  have hcons : (RingState.cleared (wholeInit.ret.get rfl).2).cons = 0 := by decide
  have hdiv : t / 8 = 0 := Nat.div_eq_of_lt (by omega)
  rw [RingState.polarity, hturn, hvb]
  simp [Cyclic.phase, Impl.ringExp, hdiv, RingState.cleared, Region.slots, Region.line]

theorem Whole.fresh_init : (wholeSys .direct .vbRing).init Whole.fresh := by
  have hret : wholeInit.ret = some (0x1000, (wholeInit.ret.get rfl).2) := rfl
  refine ⟨fun i => ?_, fun i j => ?_⟩
  · cases i with
    | eqcr => exact RingState.fresh_init
    | dqrr =>
      exact ⟨⟨⟨{}, _, _, 0x1000, hret, rfl, rfl⟩, rfl, by decide, rfl, rfl, rfl, fun _ => rfl,
        fun _ => rfl, fun _ _ _ => (by decide : (0 : U32).getLsbD 7 = false)⟩, rfl, rfl, rfl,
        by decide, by decide⟩
    | rcr => exact ⟨⟨{}, _, _, 0x1000, hret, rfl⟩, fun _ => rfl, by decide, rfl, rfl⟩
    | mc =>
      exact ⟨⟨{}, _, _, 0x1000, hret, rfl⟩, fun _ => rfl, rfl, rfl, rfl, fun _ => rfl, fun _ => rfl,
        rfl⟩
    | sdqcr => exact ⟨{}, _, _, 0x1000, hret, rfl, rfl⟩
  · cases i <;> cases j <;> rfl

/-- A channel enabled, a frame enqueued and taken, and two buffers released. -/
theorem wholeSys_exact_three :
    ∃ s : Whole .direct .vbRing, (wholeSys .direct .vbRing).Reach s ∧ s.Exact ∧
      (RingState.taken (s .eqcr)).length = 1 ∧ (GrantState.sent (s .rcr)).length = 1 ∧
      (SdqcrState.swp (s .sdqcr)).sdq = 0x21bb0004 := by
  have h₁ := Trans.Part.reach_step (.of_init Whole.fresh_init) .sdqcr ⟨2, 1⟩ ⟨by decide, rfl⟩
  have h₂ := Trans.Part.reach_step h₁ .eqcr
    (.call (.enqueue {} fun _ => 7) ⟨fun _ => 0, fun _ => 0⟩ 0)
    ⟨⟨⟨[], rfl⟩, Int.one_nonneg⟩, Nat.le_refl _, Nat.le_refl _, rfl, rfl⟩
  have h₃ := Trans.Part.reach_step h₂ .eqcr .take ⟨rfl, rfl⟩
  have h₄ := Trans.Part.reach_step h₃ .rcr
    (.call ⟨[.bpid 5], fun _ => 8, 2⟩ ⟨fun _ => 0, fun _ => 0x183⟩)
    ⟨Nat.le_of_lt_succ (by decide), fun _ => ⟨by decide, rfl, fun _ => by decide⟩, rfl⟩
  exact ⟨_, h₄, wholeSys_exact h₄, by decide, by decide, by decide⟩

/-- The stores of a release are those of its entry. -/
theorem wholeSys_owned_release :
    ∃ s t : Whole .direct .vbRing, ∃ l, (wholeSys .direct .vbRing).step s ⟨.rcr, l⟩ t ∧
      (partAccs .direct .vbRing .rcr (s .rcr) l).length = 6 ∧
      ∀ a ∈ partAccs .direct .vbRing .rcr (s .rcr) l, a.OwnedBy .direct .rcr := by
  have hstep : (wholeSys .direct .vbRing).step Whole.fresh
      ⟨.rcr, .call ⟨[.bpid 5], fun _ => 8, 2⟩ ⟨fun _ => 0, fun _ => 0x183⟩⟩ _ :=
    ⟨_, ⟨Nat.le_of_lt_succ (by decide), fun _ => ⟨by decide, rfl, fun _ => by decide⟩, rfl⟩, rfl⟩
  exact ⟨_, _, _, hstep, by decide, wholeSys_owned (.of_init Whole.fresh_init) hstep⟩

end Qbman
