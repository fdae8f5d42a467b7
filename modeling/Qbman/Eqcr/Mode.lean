import Qbman.Eqcr.Enqueued

/-!
# The allocation rule of a portal's mode

Array mode: a call stores only to the slot that a successful `EQAR` read of this call granted, with
the valid bit that `EQAR` gave (`ArrayRule`). Ring mode: the `k`-th frame of a call is stored in the
slot `k` turns from the producer index, with the polarity there (`RingRule`). Only
`qbman_swp_enqueue` looks at the mode; the batch functions always use the ring, so the rule of array
mode holds in a run exactly when no batch call of it takes a slot (`enqTrace_rule_iff`).
-/

namespace Qbman

/-- The access stores to the slot at `p`; if it stores the first word, with the valid bit `vb`. -/
def Access.SlotStore (p : Nat) (vb : U32) (a : Access) : Prop :=
  a.StoresIn p ∧ ∀ w, a = .cenaWord p w → w &&& qbValidBit = vb &&& qbValidBit

/-- The rule of array mode; the first access of a call is its `EQAR` read. -/
def ArrayRule (accs : List Access) : Prop :=
  ∀ a ∈ accs, ∀ off, a.storeOff? = some off →
    ∃ eqar, accs.head? = some (.cinhRead qbmanCinhSwpEqar eqar) ∧ eqarSuccess eqar ≠ 0 ∧
      a.SlotStore (qbmanCenaSwpEqcr (eqarIdx eqar)) (eqarVb eqar)

/-- The rule of ring mode, for a call that accepts `n` frames on a ring with the counters `e`. -/
def RingRule (e : Eqcr) (n : Nat) (accs : List Access) : Prop :=
  ∀ a ∈ accs, ∀ off, a.storeOff? = some off →
    ∃ j < n, a.SlotStore (eqcrSlotAt e.halfMask e.pi j) (verbLoopVb e.halfMask j e.pi e.piVb)

/-- A step of a run: the pointers and the portal before it, what its reads return, and the call. -/
structure EnqStep where
  ptrs : FnPtrs
  swp : QbmanSwp
  regs : Regions
  call : EnqCall

namespace EnqStep

def outcome (x : EnqStep) : Outcome Int := x.call.run x.ptrs x.swp x.regs

/-- The step follows the rule of the portal's mode. -/
def Rule (x : EnqStep) : Prop :=
  match x.swp.sys.eqcrMode with
  | .vbArray => ArrayRule x.outcome.accs
  | .vbRing => RingRule x.swp.eqcr (x.call.accepted x.outcome.ret) x.outcome.accs

/-- The implementation that the call is dispatched to when it is a batch. -/
def batchImpl (x : EnqStep) : Option Impl :=
  match x.call with
  | .enqueue .. => none
  | .multiple .. => some x.ptrs.enqueueMultiplePtr
  | .multipleDesc .. => some x.ptrs.enqueueMultipleDescPtr

/-- A batch call with frames to send that finds free slots in the ring. -/
def BatchTakes (x : EnqStep) : Prop :=
  ∃ impl, x.batchImpl = some impl ∧ 0 < x.call.numFrames ∧
    0 < (x.swp.eqcr.refill (x.regs.cena impl.ciReg)).available

end EnqStep

/-- The steps of a run of calls from the portal `s`. -/
def enqTrace (s : QbmanSwp) : List (FnPtrs × Regions × EnqCall) → List EnqStep
  | [] => []
  | (ptrs, r, call) :: rest => ⟨ptrs, s, r, call⟩ :: enqTrace (call.run ptrs s r).swp rest

/-! ## The stores of a call -/

theorem Access.SlotStore.of_body {p : Nat} {vb : U32} {cl : Fin 8 → U32} {fd : QbmanFd} {a : Access}
    (ha : a ∈ enqueueBody p cl fd) : a.SlotStore p vb := by
  refine ⟨storesIn_enqueueBody ha, ?_⟩
  rintro w rfl
  simp only [enqueueBody, memcpyWords, List.mem_append, List.mem_ofFn] at ha
  rcases ha with ⟨j, hj⟩ | ⟨j, hj⟩
  · simp only [Access.cenaWord.injEq] at hj
    omega
  · simp only [Access.cenaWord.injEq] at hj
    omega

theorem Access.SlotStore.of_word {p : Nat} {w vb : U32} (h : w &&& qbValidBit = 0) :
    (Access.cenaWord p (w ||| vb)).SlotStore p vb := by
  refine ⟨⟨p, rfl, Nat.le_refl p, by omega⟩, ?_⟩
  rintro w' hw
  cases hw
  rw [BitVec.and_or_distrib_right, h]
  exact BitVec.zero_or

theorem slotStore_fillLoop {half pi : U32} (vb : U32) {cl : Nat → Fin 8 → U32}
    {fd : Nat → QbmanFd} {n i : Nat} {a : Access} (ha : a ∈ fillLoop half cl fd n i pi) :
    ∃ j < n, a.SlotStore (eqcrSlotAt half pi j) (verbLoopVb half j pi vb) := by
  induction n generalizing i pi vb with
  | zero => cases ha
  | succ n ih =>
    rcases List.mem_append.mp ha with ha | ha
    · exact ⟨0, Nat.succ_pos n, eqcrSlotAt_zero half pi ▸ .of_body ha⟩
    · obtain ⟨j, hj, hs⟩ := ih (flipAtWrap half (pi + 1) vb) ha
      exact ⟨j + 1, Nat.succ_lt_succ hj, eqcrSlotAt_succ half pi j ▸ hs⟩

theorem slotStore_verbLoop {half pi vb : U32} {cl : Nat → Fin 8 → U32}
    {flags : Option (Nat → U32)} {n i : Nat} {a : Access}
    (hcl : ∀ i, cl i 0 &&& qbValidBit = 0) (ha : a ∈ verbLoop half cl flags n i pi vb) :
    ∃ j < n, a.SlotStore (eqcrSlotAt half pi j) (verbLoopVb half j pi vb) := by
  induction n generalizing i pi vb with
  | zero => cases ha
  | succ n ih =>
    have h0 := eqcrSlotAt_zero half pi
    rcases List.mem_cons.mp ha with rfl | ha
    · exact ⟨0, Nat.succ_pos n, h0 ▸ .of_word (hcl i)⟩
    rcases List.mem_append.mp ha with ha | ha
    · obtain ⟨b, -, rfl⟩ := List.mem_map.mp ha
      exact ⟨0, Nat.succ_pos n, ⟨_, rfl, by omega, by omega⟩, fun _ h => (nomatch h)⟩
    · obtain ⟨j, hj, hs⟩ := ih ha
      exact ⟨j + 1, Nat.succ_lt_succ hj, eqcrSlotAt_succ half pi j ▸ hs⟩

theorem Eqcr.refill_pi (e : Eqcr) (v : U32) : (e.refill v).pi = e.pi := by
  unfold Eqcr.refill
  split <;> rfl

theorem Eqcr.refill_piVb (e : Eqcr) (v : U32) : (e.refill v).piVb = e.piVb := by
  unfold Eqcr.refill
  split <;> rfl

theorem Eqcr.refill_halfMask (e : Eqcr) (v : U32) : (e.refill v).halfMask = e.halfMask := by
  unfold Eqcr.refill
  split <;> rfl

/-- What hands over to the hardware is register writes. -/
def RegWrites (as : List Access) : Prop := ∀ a ∈ as, ∃ off v, a = .cinhWrite off v

theorem RegWrites.no_store {as : List Access} (h : RegWrites as) {a : Access} (ha : a ∈ as)
    {off : Nat} : a.storeOff? ≠ some off := by
  obtain ⟨off', v, rfl⟩ := h a ha
  exact fun h' => nomatch h'

theorem Impl.regWrites_notify (impl : Impl) (e : Eqcr) : RegWrites (impl.notify e) := by
  intro a ha
  cases impl with
  | direct => cases ha
  | memBack => exact ⟨_, _, List.mem_singleton.mp ha⟩

theorem regWrites_amRt (idx : U8) : RegWrites (qbmanWriteEqcrAmRtRegister idx) := by
  intro a ha
  unfold qbmanWriteEqcrAmRtRegister at ha
  split at ha
  · exact ⟨_, _, List.mem_singleton.mp ha⟩
  · exact ⟨_, _, List.mem_singleton.mp ha⟩

/-- An array mode enqueue follows the rule of array mode. -/
theorem arrayRule_enqueueArrayMode {notify : U32 → List Access} {s : QbmanSwp} {r : Regions}
    {d : QbmanEqDesc} {fd : QbmanFd} (hnotify : ∀ idx, RegWrites (notify idx))
    (hd : d.cl 0 &&& qbValidBit = 0) : ArrayRule (enqueueArrayMode notify s r d fd).accs := by
  intro a ha off hoff
  unfold enqueueArrayMode at ha ⊢
  simp only at ha ⊢
  split at ha
  · rename_i hfail
    obtain rfl := List.mem_singleton.mp ha
    cases hoff
  · rename_i hgrant
    rw [if_neg hgrant]
    refine ⟨_, rfl, hgrant, ?_⟩
    rcases List.mem_cons.mp ha with rfl | ha
    · cases hoff
    rcases List.mem_append.mp ha with ha | ha
    · exact .of_body ha
    rcases List.mem_cons.mp ha with rfl | ha
    · exact .of_word hd
    · exact absurd hoff ((hnotify _).no_store ha)

/-- A ring mode enqueue follows the rule of ring mode. -/
theorem ringRule_enqueueRingMode {ciReg : Nat} {notify : Eqcr → List Access} {s : QbmanSwp}
    {r : Regions} {d : QbmanEqDesc} {fd : QbmanFd} (hnotify : ∀ e, RegWrites (notify e))
    (hd : d.cl 0 &&& qbValidBit = 0) :
    RingRule s.eqcr (if (enqueueRingMode ciReg notify s r d fd).ret = 0 then 1 else 0)
      (enqueueRingMode ciReg notify s r d fd).accs := by
  intro a ha off hoff
  unfold enqueueRingMode at ha ⊢
  simp only [Eqcr.refill_pi, Eqcr.refill_piVb, Eqcr.refill_halfMask] at ha ⊢
  by_cases h0 : (s.eqcr.refill (r.cena ciReg)).available = 0
  · rw [if_pos h0] at ha
    obtain ⟨_, _, rfl⟩ := Eqcr.mem_refillReads ha
    cases hoff
  · rw [if_neg h0] at ha ⊢
    refine ⟨0, Nat.one_pos, ?_⟩
    rw [eqcrSlotAt_zero]
    rcases List.mem_append.mp ha with ha | ha
    · obtain ⟨_, _, rfl⟩ := Eqcr.mem_refillReads ha
      cases hoff
    rcases List.mem_append.mp ha with ha | ha
    · exact .of_body ha
    rcases List.mem_cons.mp ha with rfl | ha
    · exact .of_word hd
    · exact absurd hoff ((hnotify _).no_store ha)

section Batch

variable {ciReg : Nat} {notify : Eqcr → List Access} {s : QbmanSwp} {r : Regions}
  {cl : Nat → Fin 8 → U32} {fd : Nat → QbmanFd} {flags : Option (Nat → U32)} {numFrames : Int}

/-- An access of a batch is a read of the consumer index, a register write, or a store to the slot
of one of its frames. -/
theorem mem_enqueueBatch (hnotify : ∀ e, RegWrites (notify e))
    (hcl : ∀ i, cl i 0 &&& qbValidBit = 0) {a : Access}
    (ha : a ∈ (enqueueBatch ciReg notify s r cl fd flags numFrames).accs) :
    (∃ off v, a = .cenaRead off v) ∨ (∃ off v, a = .cinhWrite off v) ∨
      ∃ j < (enqueueBatch ciReg notify s r cl fd flags numFrames).ret.toNat,
        a.SlotStore (eqcrSlotAt s.eqcr.halfMask s.eqcr.pi j)
          (verbLoopVb s.eqcr.halfMask j s.eqcr.pi s.eqcr.piVb) := by
  unfold enqueueBatch at ha ⊢
  simp only [Eqcr.refill_pi, Eqcr.refill_piVb, Eqcr.refill_halfMask] at ha ⊢
  by_cases h0 : (s.eqcr.refill (r.cena ciReg)).available = 0
  · rw [if_pos h0] at ha
    exact .inl (Eqcr.mem_refillReads ha)
  · rw [if_neg h0] at ha ⊢
    rcases List.mem_append.mp ha with ha | ha
    · exact .inl (Eqcr.mem_refillReads ha)
    rcases List.mem_append.mp ha with ha | ha
    · exact .inr (.inr (slotStore_fillLoop _ ha))
    rcases List.mem_append.mp ha with ha | ha
    · exact .inr (.inr (slotStore_verbLoop hcl ha))
    · exact .inr (.inl (hnotify _ a ha))

theorem ringRule_enqueueBatch (hnotify : ∀ e, RegWrites (notify e))
    (hcl : ∀ i, cl i 0 &&& qbValidBit = 0) :
    RingRule s.eqcr (enqueueBatch ciReg notify s r cl fd flags numFrames).ret.toNat
      (enqueueBatch ciReg notify s r cl fd flags numFrames).accs := by
  intro a ha off hoff
  rcases mem_enqueueBatch hnotify hcl ha with ⟨_, _, rfl⟩ | ⟨_, _, rfl⟩ | hs
  · cases hoff
  · cases hoff
  · exact hs

/-- The number of frames a batch sends is positive when there are frames and free slots. -/
theorem enqueueBatch_ret_pos :
    0 < (enqueueBatch ciReg notify s r cl fd flags numFrames).ret ↔
      0 < numFrames ∧ 0 < (s.eqcr.refill (r.cena ciReg)).available := by
  unfold enqueueBatch
  simp only
  split
  · simp only
    omega
  · simp only
    split <;> omega

/-- A batch that sends frames stores to the ring. -/
theorem enqueueBatch_stores (h : 0 < (enqueueBatch ciReg notify s r cl fd flags numFrames).ret) :
    ∃ a ∈ (enqueueBatch ciReg notify s r cl fd flags numFrames).accs, ∃ off,
      a.storeOff? = some off := by
  unfold enqueueBatch at h ⊢
  simp only at h ⊢
  by_cases h0 : (s.eqcr.refill (r.cena ciReg)).available = 0
  · rw [if_pos h0] at h
    exact absurd h (Int.lt_irrefl 0)
  · rw [if_neg h0] at h ⊢
    obtain ⟨n, hn⟩ := Int.eq_succ_of_zero_lt h
    simp only at hn ⊢
    rw [hn]
    refine ⟨_, List.mem_append_right _ (List.mem_append_right _ (List.mem_append_left _
      (List.mem_cons_self ..))), _, rfl⟩

/-- A batch follows the rule of array mode only when it sends nothing: it reads no `EQAR`. -/
theorem arrayRule_enqueueBatch_iff (hnotify : ∀ e, RegWrites (notify e))
    (hcl : ∀ i, cl i 0 &&& qbValidBit = 0) :
    ArrayRule (enqueueBatch ciReg notify s r cl fd flags numFrames).accs ↔
      ¬ (0 < numFrames ∧ 0 < (s.eqcr.refill (r.cena ciReg)).available) := by
  have hpos : 0 < (enqueueBatch ciReg notify s r cl fd flags numFrames).ret ↔
      0 < numFrames ∧ 0 < (s.eqcr.refill (r.cena ciReg)).available := enqueueBatch_ret_pos
  rw [← hpos]
  constructor
  · intro hrule hret
    obtain ⟨a, ha, off, hoff⟩ := enqueueBatch_stores hret
    obtain ⟨eqar, hhead, -⟩ := hrule a ha off hoff
    rcases mem_enqueueBatch hnotify hcl (List.mem_of_head? hhead) with
      ⟨_, _, h⟩ | ⟨_, _, h⟩ | ⟨_, _, ⟨_, h, -⟩, -⟩
    · cases h
    · cases h
    · cases h
  · intro hret a ha off hoff
    rcases mem_enqueueBatch hnotify hcl ha with ⟨_, _, rfl⟩ | ⟨_, _, rfl⟩ | ⟨j, hj, -⟩
    · cases hoff
    · cases hoff
    · omega

end Batch

/-! ## Steps and runs -/

namespace EnqStep

variable {x : EnqStep} {impl : Impl}

/-- A batch call is `enqueueBatch` with the parameters of its implementation. -/
theorem batch_outcome (h : x.batchImpl = some impl) :
    x.outcome = enqueueBatch impl.ciReg impl.notify x.swp x.regs x.call.cl x.call.fd x.call.flags
      x.call.numFrames ∧ x.call.accepted x.outcome.ret = x.outcome.ret.toNat := by
  obtain ⟨ptrs, swp, regs, call⟩ := x
  cases call with
  | enqueue d fd => cases h
  | multiple d fd flags n =>
    cases h
    exact ⟨qbmanSwpEnqueueMultiple_eq ptrs swp regs d fd flags n, rfl⟩
  | multipleDesc d fd n =>
    cases h
    exact ⟨qbmanSwpEnqueueMultipleDesc_eq ptrs swp regs d fd n, rfl⟩

/-- The single-frame entry point follows the rule of either mode. -/
theorem rule_enqueue (hb : x.call.Built) (h : x.batchImpl = none) : x.Rule := by
  obtain ⟨ptrs, swp, regs, call⟩ := x
  cases call with
  | multiple d fd flags n => cases h
  | multipleDesc d fd n => cases h
  | enqueue d fd =>
    have hd : d.cl 0 &&& qbValidBit = 0 := QbmanEqDesc.Built.validBit hb
    cases hmode : swp.sys.eqcrMode with
    | vbArray =>
      have hrun : outcome ⟨ptrs, swp, regs, .enqueue d fd⟩ =
          qbmanSwpEnqueueArrayMode ptrs swp regs d fd := by
        show qbmanSwpEnqueue ptrs swp regs d fd = _
        rw [qbmanSwpEnqueue, if_pos hmode]
      simp only [Rule, hmode, hrun, qbmanSwpEnqueueArrayMode]
      cases ptrs.enqueueArrayModePtr with
      | direct => exact arrayRule_enqueueArrayMode (fun _ _ ha => (List.not_mem_nil ha).elim) hd
      | memBack => exact arrayRule_enqueueArrayMode (fun _ => regWrites_amRt _) hd
    | vbRing =>
      have hrun : outcome ⟨ptrs, swp, regs, .enqueue d fd⟩ =
          qbmanSwpEnqueueRingMode ptrs swp regs d fd := by
        show qbmanSwpEnqueue ptrs swp regs d fd = _
        rw [qbmanSwpEnqueue, if_neg (by rw [hmode]; decide)]
      simp only [Rule, hmode, hrun, qbmanSwpEnqueueRingMode]
      cases ptrs.enqueueRingModePtr with
      | direct => exact ringRule_enqueueRingMode (Impl.regWrites_notify .direct) hd
      | memBack => exact ringRule_enqueueRingMode (Impl.regWrites_notify .memBack) hd

/-- A step follows the rule of the mode unless it is a batch that takes slots in array mode. -/
theorem rule_iff (hb : x.call.Built) :
    x.Rule ↔ x.swp.sys.eqcrMode = .vbRing ∨ ¬ x.BatchTakes := by
  cases himpl : x.batchImpl with
  | none =>
    refine iff_of_true (rule_enqueue hb himpl) (.inr ?_)
    rintro ⟨impl, h, -⟩
    rw [himpl] at h
    cases h
  | some impl =>
    obtain ⟨hout, hacc⟩ := batch_outcome himpl
    have htakes : x.BatchTakes ↔ 0 < x.call.numFrames ∧
        0 < (x.swp.eqcr.refill (x.regs.cena impl.ciReg)).available := by
      constructor
      · rintro ⟨impl', h, hpos⟩
        rw [himpl] at h
        cases h
        exact hpos
      · exact fun hpos => ⟨impl, himpl, hpos⟩
    have hnotify := impl.regWrites_notify
    have hcl := hb.validBit
    unfold Rule
    cases hmode : x.swp.sys.eqcrMode with
    | vbArray =>
      simp only [hout, htakes, reduceCtorEq, false_or]
      exact arrayRule_enqueueBatch_iff hnotify hcl
    | vbRing =>
      simp only [hacc, true_or, iff_true]
      rw [hout]
      exact ringRule_enqueueBatch hnotify hcl

end EnqStep

theorem eqcrMode_enqTrace {s : QbmanSwp} {calls : List (FnPtrs × Regions × EnqCall)} {x : EnqStep}
    (hx : x ∈ enqTrace s calls) : x.swp.sys = s.sys := by
  induction calls generalizing s with
  | nil => cases hx
  | cons c rest ih =>
    obtain ⟨ptrs, r, call⟩ := c
    rcases List.mem_cons.mp hx with rfl | hx
    · rfl
    · rw [ih hx, EnqCall.run_view QbmanSwp.sys fun _ _ => rfl]

theorem mem_enqTrace_call {s : QbmanSwp} {calls : List (FnPtrs × Regions × EnqCall)} {x : EnqStep}
    (hx : x ∈ enqTrace s calls) : ∃ c ∈ calls, x.call = c.2.2 := by
  induction calls generalizing s with
  | nil => cases hx
  | cons c rest ih =>
    obtain ⟨ptrs, r, call⟩ := c
    rcases List.mem_cons.mp hx with rfl | hx
    · exact ⟨_, List.mem_cons_self .., rfl⟩
    · obtain ⟨c, hc, hcall⟩ := ih hx
      exact ⟨c, List.mem_cons_of_mem _ hc, hcall⟩

/-- In a run of calls on a portal, every step follows the rule of the mode the portal was
initialised with if and only if this is ring mode, or no batch call takes a slot. -/
theorem enqTrace_rule_iff {g : Globals} {d : QbmanSwpDesc} {env : InitEnv} {a : Addr} {p : QbmanSwp}
    (h : (qbmanSwpInit g d env).ret = some (a, p)) {calls : List (FnPtrs × Regions × EnqCall)}
    (hb : ∀ c ∈ calls, c.2.2.Built) :
    (∀ x ∈ enqTrace p calls, x.Rule) ↔
      d.eqcrMode = .vbRing ∨ ∀ x ∈ enqTrace p calls, ¬ x.BatchTakes := by
  obtain ⟨-, -, -, -, -, -, -, hmode, -⟩ := qbmanSwpInit_some h
  have hstep : ∀ x ∈ enqTrace p calls,
      (x.Rule ↔ d.eqcrMode = .vbRing ∨ ¬ x.BatchTakes) := by
    intro x hx
    obtain ⟨c, hc, hcall⟩ := mem_enqTrace_call hx
    rw [EnqStep.rule_iff (hcall ▸ hb c hc), eqcrMode_enqTrace hx, hmode]
  constructor
  · intro hrule
    by_cases hring : d.eqcrMode = .vbRing
    · exact .inl hring
    · exact .inr fun x hx => ((hstep x hx).mp (hrule x hx)).resolve_left hring
  · rintro (hring | hno) x hx
    · exact (hstep x hx).mpr (.inl hring)
    · exact (hstep x hx).mpr (.inr (hno x hx))

/-- A batch of one frame on a ring mode portal follows the rule. -/
theorem enqTrace_rule_iff_ring :
    ∃ p, (qbmanSwpInit {} (.rev4100 .vbRing 0) (.ok 0x1000 0 0)).ret = some (0x1000, p) ∧
      ∀ x ∈ enqTrace p [({}, ⟨fun _ => 0, fun _ => 0⟩, .multiple {} (fun _ _ => 7) none 1)],
        x.Rule := by
  obtain ⟨p, hp⟩ : ∃ p, (qbmanSwpInit {} (.rev4100 .vbRing 0) (.ok 0x1000 0 0)).ret =
      some (0x1000, p) := ⟨_, rfl⟩
  refine ⟨p, hp, (enqTrace_rule_iff hp fun c hc => ?_).mpr (.inl rfl)⟩
  obtain rfl := List.mem_singleton.mp hc
  exact ⟨[], rfl⟩

/-- A batch of one frame on an array mode portal does not: no `EQAR` read granted its slot. -/
theorem enqTrace_not_rule :
    ∃ p, (qbmanSwpInit {} (.rev4100 .vbArray 0) (.ok 0x1000 0 0)).ret = some (0x1000, p) ∧
      ¬ ∀ x ∈ enqTrace p [({}, ⟨fun _ => 0, fun _ => 0⟩, .multiple {} (fun _ _ => 7) none 1)],
        x.Rule := by
  refine ⟨_, rfl, fun hrule => ?_⟩
  have hstep := hrule _ (List.mem_cons_self ..)
  rcases (EnqStep.rule_iff (by exact ⟨[], rfl⟩)).mp hstep with h | h
  · exact absurd h (by decide)
  · exact h ⟨.direct, rfl, by decide, by decide⟩

end Qbman
