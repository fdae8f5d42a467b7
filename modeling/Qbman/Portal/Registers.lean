import Qbman.Interrupt
import Qbman.Portal.Whole

/-!
# The registers of a whole portal

`registersSys` adds the calls of the interrupt functions to everything else that happens at a
portal, and records what the driver does to the registers, `qbman_swp_init` included. In every run
the interrupt registers are written by these calls only, with the values that they are given, so
what they return is what was last set; the configuration is written once; and the static dequeue
register is last written by the push dequeues (`registersSys_exact`).
-/

namespace Qbman

variable {impl : Impl} {mode : QbmanEqcrMode}

/-! ## What the accesses write -/

/-- An interface writes only its own registers. -/
theorem filterMap_written_of_owned {accs : List Access} {i : PortalPart} {off : Nat}
    (h : ∀ a ∈ accs, a.OwnedBy impl i) (hoff : regOwner off ≠ some i) :
    accs.filterMap (Access.written off) = [] := by
  refine List.filterMap_eq_nil_iff.mpr fun a ha => ?_
  have howned := h a ha
  cases a with
  | cinhWrite off' v =>
    refine if_neg ?_
    rintro rfl
    exact hoff howned
  | cinhRead off' v => rfl
  | cenaRead off' v => rfl
  | cenaWord off' v => rfl
  | cenaByte off' v => rfl
  | cenaMemset len => rfl

namespace IntrCall

variable (s : QbmanSwp) (c : IntrCall)

theorem filterMap_written_off (r : SwpReg) :
    (c.accs s).filterMap (Access.written r.off) = (c.mask? r).toList := by
  cases c with
  | get q v => simp [Access.written, mask?]
  | set q mask => by_cases h : q = r <;>
      simp [Access.written, mask?, SwpReg.off_injective.eq_iff, h]
  | getInhibit v => rfl
  | setInhibit inhibit => simp [Access.written, mask?, r.off_ne_iir.symm]

theorem filterMap_written_iir :
    (c.accs s).filterMap (Access.written qbmanCinhSwpIir) =
      (c.inhibit?.map inhibitMask).toList := by
  cases c with
  | get q v => simp [Access.written, inhibit?]
  | set q mask => simp [Access.written, inhibit?, q.off_ne_iir]
  | getInhibit v => rfl
  | setInhibit inhibit => rfl

/-- The calls write no other register. -/
theorem filterMap_written_other {off : Nat} (hoff : ∀ r : SwpReg, r.off ≠ off)
    (hiir : qbmanCinhSwpIir ≠ off) : (c.accs s).filterMap (Access.written off) = [] := by
  cases c with
  | get q v => simp [Access.written]
  | set q mask => simp [Access.written, hoff q]
  | getInhibit v => rfl
  | setInhibit inhibit => simp [Access.written, hiir]

end IntrCall

/-- No interface owns an interrupt register. -/
theorem regOwner_off (r : SwpReg) : regOwner r.off = none := by cases r <;> rfl

/-- What a `qbman_swp_sys_init` that succeeds does to the portal. -/
theorem sysInit_accs {d : QbmanSwpDesc} {dqrrSize : U8} {mallocCena : Option Addr} {cfg : U32}
    (h : ¬ (qbmanSwpSysInit d dqrrSize mallocCena cfg).ret ≠ 0) :
    (qbmanSwpSysInit d dqrrSize mallocCena cfg).accs =
      (if d.memBacked then [.cenaMemset (64 * 1024)] else []) ++
        [.cinhWrite qbmanCinhSwpCfg (swpCfg d dqrrSize), .cinhRead qbmanCinhSwpCfg cfg] ++
        if d.memBacked then [.cinhWrite qbmanCinhSwpEqcrPi qmanRtMode,
          .cinhWrite qbmanCinhSwpRcrPi qmanRtMode] else [] := by
  unfold qbmanSwpSysInit at h ⊢
  cases mallocCena with
  | none => simp at h
  | some cena =>
    simp only at h ⊢
    split at h
    · simp at h
    · rename_i hcfg
      rw [if_neg hcfg]
      cases d.memBacked <;> rfl

/-- What a `qbman_swp_init` that succeeds does to the portal. -/
theorem qbmanSwpInit_accs {g : Globals} {d : QbmanSwpDesc} {env : InitEnv} {a : Addr} {p : QbmanSwp}
    (h : (qbmanSwpInit g d env).ret = some (a, p)) :
    (qbmanSwpInit g d env).accs =
      ((if d.memBacked then [.cenaMemset (64 * 1024)] else []) ++
        [.cinhWrite qbmanCinhSwpCfg (swpCfg d (swpDefaults d).dqrr.dqrrSize),
          .cinhRead qbmanCinhSwpCfg (env.cinh 0 qbmanCinhSwpCfg)] ++
        if d.memBacked then [.cinhWrite qbmanCinhSwpEqcrPi qmanRtMode,
          .cinhWrite qbmanCinhSwpRcrPi qmanRtMode] else []) ++
        [.cinhRead qbmanCinhSwpDqpi (env.cinh 1 qbmanCinhSwpDqpi)] ++
        [.cinhWrite qbmanCinhSwpSdqcr 0,
          .cinhRead qbmanCinhSwpEqcrPi (env.cinh 2 qbmanCinhSwpEqcrPi),
          .cinhRead (initCiReg d) (env.cinh 3 (initCiReg d))] := by
  unfold qbmanSwpInit at h ⊢
  cases hm : env.mallocSwp with
  | none => simp [hm] at h
  | some a' =>
    simp only [hm] at h ⊢
    split at h
    · cases h
    · rename_i hr
      rw [if_neg hr]
      split at h
      · cases h
      · rename_i hd
        rw [if_neg hd, ← sysInit_accs hr]

/-- `qbman_swp_init` writes none of these registers. -/
theorem qbmanSwpInit_written {g : Globals} {d : QbmanSwpDesc} {env : InitEnv} {a : Addr}
    {p : QbmanSwp} (h : (qbmanSwpInit g d env).ret = some (a, p)) {off : Nat}
    (hcfg : qbmanCinhSwpCfg ≠ off) (hpi : qbmanCinhSwpEqcrPi ≠ off) (hrcr : qbmanCinhSwpRcrPi ≠ off)
    (hsdq : qbmanCinhSwpSdqcr ≠ off) :
    (qbmanSwpInit g d env).accs.filterMap (Access.written off) = [] := by
  rw [qbmanSwpInit_accs h]
  cases d.memBacked <;> simp [Access.written, hcfg, hpi, hrcr, hsdq]

/-- `qbman_swp_init` writes the configuration once. -/
theorem qbmanSwpInit_cfg {g : Globals} {d : QbmanSwpDesc} {env : InitEnv} {a : Addr}
    {p : QbmanSwp} (h : (qbmanSwpInit g d env).ret = some (a, p)) :
    (qbmanSwpInit g d env).accs.filterMap (Access.written qbmanCinhSwpCfg) =
      [swpCfg d (swpDefaults d).dqrr.dqrrSize] := by
  rw [qbmanSwpInit_accs h]
  cases d.memBacked <;> rfl

/-! ## The system -/

namespace IntrCall

/-- The hardware answers a call: a register reads as it was last written, except the interrupt
status, which the hardware changes itself. -/
def Answered (trace : List Access) : IntrCall → Prop
  | get r v => r ≠ .status → ∀ w, lastWritten r.off trace = some w → v = w
  | getInhibit v => ∀ w, lastWritten qbmanCinhSwpIir trace = some w → v = w
  | set _ _ => True
  | setInhibit _ => True

/-- A call after the calls `before` returns what was last set. -/
def ReadsBack (before : List IntrCall) : IntrCall → Prop
  | get r v => r ≠ .status → ∀ mask, (before.filterMap (mask? r)).getLast? = some mask →
      ∀ p, (r.get p v).ret = mask
  | getInhibit v => ∀ inhibit, (before.filterMap inhibit?).getLast? = some inhibit →
      ∀ p, (qbmanSwpInterruptGetInhibit p v).ret = if inhibit ≠ 0 then -1 else 0
  | set _ _ => True
  | setInhibit _ => True

end IntrCall

/-- A portal, the calls of the interrupt functions and the accesses of the driver, those of
`qbman_swp_init` included. -/
structure Registers (impl : Impl) (mode : QbmanEqcrMode) where
  portal : Whole impl mode
  calls : List IntrCall
  trace : List Access

inductive RegistersLabel (impl : Impl) (mode : QbmanEqcrMode) where
  | portal (i : PortalPart) (l : (portalPart impl mode i).Label)
  | call (c : IntrCall)

/-- A portal and the interrupt functions, which leave the portal object as it was
(`IntrCall.swp_eq`). -/
def registersSys (impl : Impl) (mode : QbmanEqcrMode) :
    Trans.Sys (Registers impl mode) (RegistersLabel impl mode) where
  init s := (wholeSys impl mode).init s.portal ∧ s.calls = [] ∧
    s.trace = SdqcrState.written (s.portal .sdqcr)
  step
    | s, .portal i l, t => ∃ p, (wholeSys impl mode).step s.portal ⟨i, l⟩ p ∧
        t = { s with portal := p, trace := s.trace ++ partAccs impl mode i (s.portal i) l }
    | s, .call c, t => c.Answered s.trace ∧
        t = { s with
          calls := s.calls ++ [c]
          trace := s.trace ++ c.accs (SdqcrState.swp (s.portal .sdqcr)) }

namespace Registers

/-- The descriptor of the portal. -/
def desc (s : Registers impl mode) : QbmanSwpDesc := (SdqcrState.swp (s.portal .sdqcr)).desc

/-- The interrupt registers are written with what the calls set, the calls return it, and the
configuration is written once. -/
structure Matches (s : Registers impl mode) : Prop where
  set : ∀ r : SwpReg,
    s.trace.filterMap (Access.written r.off) = s.calls.filterMap (IntrCall.mask? r)
  inhibit : s.trace.filterMap (Access.written qbmanCinhSwpIir) =
    (s.calls.filterMap IntrCall.inhibit?).map inhibitMask
  get : Calls.Each IntrCall.ReadsBack s.calls
  cfg : s.trace.filterMap (Access.written qbmanCinhSwpCfg) =
    [swpCfg s.desc (swpDefaults s.desc).dqrr.dqrrSize]

/-- What holds of the registers and of the rest of the portal. -/
structure Exact (s : Registers impl mode) : Prop extends s.Matches where
  sdqcr : SdqcrMatches (SdqcrState.calls (s.portal .sdqcr))
    (SdqcrState.swp (s.portal .sdqcr), s.trace)
  portal : s.portal.Exact

/-- What every step keeps. -/
structure Inv (s : Registers impl mode) : Prop extends s.Matches where
  sound : s.portal.Sound
  sdqcr : s.trace.filterMap (Access.written qbmanCinhSwpSdqcr) =
    (SdqcrState.written (s.portal .sdqcr)).filterMap (Access.written qbmanCinhSwpSdqcr)

end Registers

/-! ## A step of an interface -/

namespace Whole.Sound

variable {s t : Whole impl mode} {i : PortalPart} {l : (portalPart impl mode i).Label}

/-- No interface changes the descriptor. -/
theorem desc_eq (h : s.Sound) (hstep : (wholeSys impl mode).step s ⟨i, l⟩ t) (k : PortalPart) :
    ((portalPart impl mode k).get (t k)).swp.desc =
      ((portalPart impl mode k).get (s k)).swp.desc := by
  obtain ⟨j, hij⟩ : ∃ j : PortalPart, i ≠ j := by
    cases i with
    | sdqcr => exact ⟨.mc, by decide⟩
    | eqcr | dqrr | rcr | mc => exact ⟨.sdqcr, by decide⟩
  have ht := h.step hstep
  obtain ⟨c, hc, rfl⟩ := hstep
  have hkept := (portalPart_compatible impl mode).leaves i j hij _ _ _ (h.inv i) hc
  rw [ht.shared k i, h.shared k i, Function.update_self]
  exact hkept.desc

/-- A step writes the static dequeue register as the push dequeues record it. -/
theorem written_sdqcr (h : s.Sound) (hstep : (wholeSys impl mode).step s ⟨i, l⟩ t) :
    (SdqcrState.written (t .sdqcr)).filterMap (Access.written qbmanCinhSwpSdqcr) =
      (SdqcrState.written (s .sdqcr)).filterMap (Access.written qbmanCinhSwpSdqcr) ++
        (partAccs impl mode i (s i) l).filterMap (Access.written qbmanCinhSwpSdqcr) := by
  have howned := h.owned hstep
  obtain ⟨c, hc, rfl⟩ := hstep
  by_cases hi : i = .sdqcr
  · subst hi
    have hself := Function.update_self PortalPart.sdqcr c
      fun j => (portalPart impl mode j).set (s j) ((portalPart impl mode .sdqcr).get c)
    rw [hself, hc.2]
    exact List.filterMap_append
  · have hnone : regOwner qbmanCinhSwpSdqcr ≠ some i := fun h => hi (Option.some.inj h).symm
    rw [filterMap_written_of_owned howned hnone, List.append_nil,
      Function.update_of_ne (Ne.symm hi)]
    rfl

end Whole.Sound

/-! ## Runs -/

namespace Registers

variable {s t : Registers impl mode}

theorem Inv.of_init (h : (registersSys impl mode).init s) : s.Inv := by
  obtain ⟨hinit, hcalls, htrace⟩ := h
  obtain ⟨g, d, env, a, hret, -, hwritten⟩ := hinit.1 .sdqcr
  have haccs : s.trace = (qbmanSwpInit g d env).accs := htrace.trans hwritten
  have hdesc : s.desc = d := (qbmanSwpInit_some hret).2.1
  refine ⟨⟨fun r => ?_, ?_, ?_, ?_⟩, (portalPart_compatible impl mode).inductive.init _ hinit, ?_⟩
  · rw [haccs, hcalls]
    cases r <;> exact qbmanSwpInit_written hret (by decide) (by decide) (by decide) (by decide)
  · rw [haccs, hcalls]
    exact qbmanSwpInit_written hret (by decide) (by decide) (by decide) (by decide)
  · rw [hcalls]
    exact Calls.each_nil
  · rw [haccs, hdesc]
    exact qbmanSwpInit_cfg hret
  · rw [htrace]

/-- Everything else that happens at the portal. -/
theorem Inv.portal_step (h : s.Inv) {i : PortalPart} {l : (portalPart impl mode i).Label}
    (hstep : (registersSys impl mode).step s (.portal i l) t) : t.Inv := by
  obtain ⟨p, hp, rfl⟩ := hstep
  have howned := h.sound.owned hp
  -- No interface owns an interrupt register or the configuration.
  have hnone : ∀ off, regOwner off = none →
      (s.trace ++ partAccs impl mode i (s.portal i) l).filterMap (Access.written off) =
        s.trace.filterMap (Access.written off) := by
    intro off hoff
    rw [List.filterMap_append, filterMap_written_of_owned howned (by rw [hoff]; simp),
      List.append_nil]
  have hdesc : desc { s with
      portal := p, trace := s.trace ++ partAccs impl mode i (s.portal i) l } = s.desc :=
    h.sound.desc_eq hp .sdqcr
  refine ⟨⟨fun r => ?_, ?_, h.get, ?_⟩, h.sound.step hp, ?_⟩
  · exact (hnone _ (regOwner_off r)).trans (h.set r)
  · exact (hnone _ rfl).trans h.inhibit
  · rw [hdesc]
    exact (hnone _ rfl).trans h.cfg
  · show (s.trace ++ _).filterMap _ = _
    rw [List.filterMap_append, h.sdqcr, h.sound.written_sdqcr hp]

/-- What the hardware returns to a call is what was last set. -/
theorem Inv.readsBack (h : s.Inv) {c : IntrCall} (hc : c.Answered s.trace) :
    c.ReadsBack s.calls := by
  cases c with
  | get r v =>
    intro hr mask hmask p
    have hv : v = mask := hc hr mask (by rw [lastWritten, h.set, hmask])
    rw [r.get_ret, hv]
  | getInhibit v =>
    intro inhibit hlast p
    have hv : v = inhibitMask inhibit :=
      hc _ (by rw [lastWritten, h.inhibit, List.getLast?_map, hlast]; rfl)
    show v.toInt = _
    rw [hv, inhibitMask]
    split <;> rfl
  | set r mask => trivial
  | setInhibit inhibit => trivial

/-- A call of an interrupt function. -/
theorem Inv.call_step (h : s.Inv) {c : IntrCall}
    (hstep : (registersSys impl mode).step s (.call c) t) : t.Inv := by
  obtain ⟨hc, rfl⟩ := hstep
  refine ⟨⟨fun r => ?_, ?_, h.get.concat (h.readsBack hc), ?_⟩, h.sound, ?_⟩
  · show (s.trace ++ _).filterMap _ = (s.calls ++ [c]).filterMap _
    rw [List.filterMap_append, List.filterMap_append, h.set r, c.filterMap_written_off]
    cases hm : c.mask? r <;> simp [hm]
  · show (s.trace ++ _).filterMap _ = ((s.calls ++ [c]).filterMap _).map _
    rw [List.filterMap_append, List.filterMap_append, List.map_append, h.inhibit,
      c.filterMap_written_iir]
    cases hm : c.inhibit? <;> simp [hm]
  · show (s.trace ++ _).filterMap _ = _
    rw [List.filterMap_append, h.cfg,
      c.filterMap_written_other _ (fun r => by cases r <;> decide) (by decide), List.append_nil]
    rfl
  · show (s.trace ++ _).filterMap _ = _
    rw [List.filterMap_append, h.sdqcr,
      c.filterMap_written_other _ (fun r => by cases r <;> decide) (by decide), List.append_nil]

theorem registersSys_inductive (impl : Impl) (mode : QbmanEqcrMode) :
    (registersSys impl mode).Inductive Inv where
  init _ h := .of_init h
  step _ l _ h hstep := by
    cases l with
    | portal i l => exact h.portal_step hstep
    | call c => exact h.call_step hstep

theorem Inv.exact (h : s.Inv) : s.Exact := by
  have hlast : lastWritten qbmanCinhSwpSdqcr s.trace =
      lastWritten qbmanCinhSwpSdqcr (SdqcrState.written (s.portal .sdqcr)) :=
    congrArg List.getLast? h.sdqcr
  have hmatch := SdqcrState.Inv.matches (h.sound.inv .sdqcr)
  exact ⟨h.toMatches, ⟨fun hnone => hlast.trans (hmatch.none hnone), fun hsome => by
    obtain ⟨w, hw, hbits⟩ := hmatch.some hsome
    exact ⟨w, hlast.trans hw, hbits⟩, hmatch.cached⟩, h.sound.exact⟩

end Registers

/-- In every run of a whole portal with calls of the interrupt functions in between, the interrupt
registers are written with exactly what these calls set, in order, and the calls return what was
last set (an inhibited interrupt as -1); the configuration is written once, by `qbman_swp_init`; the
static dequeue register is last written with the enabled channels; and each interface does what it
does alone. -/
theorem registersSys_exact {s : Registers impl mode} (h : (registersSys impl mode).Reach s) :
    s.Exact :=
  ((Registers.registersSys_inductive impl mode).reach h).exact

/-- A trigger set, a channel enabled, the interrupts inhibited, and both registers read back. -/
theorem registersSys_exact_readBack :
    ∃ s : Registers .direct .vbRing, (registersSys .direct .vbRing).Reach s ∧ s.Exact ∧
      s.calls = [.set .trigger 3, .setInhibit 1, .get .trigger 3, .getInhibit 0xffffffff] ∧
      lastWritten qbmanCinhSwpSdqcr s.trace = some 0x21bb0004 := by
  have h₀ : (registersSys .direct .vbRing).Reach ⟨Whole.fresh, [], wholeInit.accs⟩ :=
    .of_init ⟨Whole.fresh_init, rfl, rfl⟩
  have h₁ := h₀.step (a := RegistersLabel.call (.set .trigger 3)) ⟨trivial, rfl⟩
  have h₂ := h₁.step (a := RegistersLabel.portal .sdqcr ⟨2, 1⟩) ⟨_, ⟨_, ⟨by decide, rfl⟩, rfl⟩, rfl⟩
  have h₃ := h₂.step (a := RegistersLabel.call (.setInhibit 1)) ⟨trivial, rfl⟩
  have h₄ := h₃.step (a := RegistersLabel.call (.get .trigger 3))
    ⟨fun _ w hw => Option.some.inj hw, rfl⟩
  have h₅ := h₄.step (a := RegistersLabel.call (.getInhibit 0xffffffff))
    ⟨fun w hw => Option.some.inj hw, rfl⟩
  exact ⟨_, h₅, registersSys_exact h₅, rfl, by decide⟩

end Qbman
