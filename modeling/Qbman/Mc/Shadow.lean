import Qbman.Mc.Command

/-!
# The shadow of the command register

`qbman_swp_mc_start` hands out a line of the shadow, which `malloc` gave and nobody cleared, and
relies on `dcbz` to clear it. `dcbz` clears the naturally aligned 64-byte block that contains the
pointer: this is the line if the shadow is aligned to 64 bytes (`mcStart_zero`), else the end of the
line keeps what was there before, and the submitted command depends on it
(`mcCommand_independent_iff`).
-/

namespace Qbman

/-- `dc zva` with a 64-byte block. -/
def dcbz (m : Bytes.Mem) (p : Nat) : Bytes.Mem := fun a => if a / 64 = p / 64 then 0 else m a

/-- `qbman_cena_write_start`: the shadow pointer, and the shadow after it. -/
def qbmanCenaWriteStart (s : QbmanSwpSys) (offset : Nat) (m : Bytes.Mem) : Addr × Bytes.Mem :=
  let shadow := s.cena + offset
  (shadow, dcbz m shadow)

def qbmanSwpMcStart (p : QbmanSwp) (m : Bytes.Mem) : Addr × Bytes.Mem :=
  if p.desc.memBacked then qbmanCenaWriteStart p.sys qbmanCenaSwpCrMem m
  else qbmanCenaWriteStart p.sys qbmanCenaSwpCr m

/-- The offset that `qbman_swp_mc_result` reads the response from. -/
def mcResponseOff (p : QbmanSwp) : Nat :=
  if p.desc.memBacked then qbmanCenaSwpRrMem else qbmanCenaSwpRr p.mc.validBit

/-- The valid bit of the next command. -/
def mcCommandValidBit (p : QbmanSwp) : U32 :=
  if p.desc.memBacked then p.mr.validBit else p.mc.validBit

/-- A portal with its shadow. -/
structure McHost where
  swp : QbmanSwp
  shadow : Bytes.Mem

namespace McHost

/-- Where the command is in the shadow. -/
def cmd (s : McHost) : Nat := (qbmanSwpMcStart s.swp s.shadow).1

/-- The shadow when the caller has stored its fields. -/
def filled (s : McHost) (r : McRequest) : Bytes.Mem :=
  Bytes.storeFields s.cmd r.fields (qbmanSwpMcStart s.swp s.shadow).2

/-- The accesses of start, stores and submit. -/
def command (s : McHost) (r : McRequest) : List Access :=
  qbmanSwpMcSubmit s.swp (lineAt (s.filled r) s.cmd) r.verb

/-- The portal and its shadow after start, stores and submit: the last store is that of the verb. -/
def afterCommand (s : McHost) (r : McRequest) : McHost :=
  let verb := r.verb ||| (mcCommandValidBit s.swp).setWidth 8
  { s with shadow := Bytes.store (s.filled r) s.cmd 1 verb }

/-- The portal and its shadow after a poll, which copies the response to the shadow. -/
def afterPoll (s : McHost) (cena : Region) : McHost where
  swp := (qbmanSwpMcResult s.swp cena).swp
  shadow := fun a =>
    let off := s.swp.sys.cena + mcResponseOff s.swp
    if off ≤ a ∧ a < off + 64 then byteOf (cena.line (mcResponseOff s.swp)) (a - off)
    else s.shadow a

end McHost

/-- Earlier use of the management interface. -/
inductive McPast where
  | command (r : McRequest)
  | poll (cena : Region)

namespace McHost

def apply (s : McHost) : McPast → McHost
  | .command r => s.afterCommand r
  | .poll cena => s.afterPoll cena

/-- The portal and its shadow after earlier commands and polls. -/
def after (s : McHost) (past : List McPast) : McHost := past.foldl apply s

/-- What the command register holds after a command. -/
def crLine (s : McHost) (r : McRequest) (cena : Region) : Line :=
  (cena.run (s.command r)).line s.swp.desc.impl.cr

variable {s : McHost} {r : McRequest}

theorem cmd_eq (s : McHost) : s.cmd = (s.swp.sys.cena : Nat) + s.swp.desc.impl.cr := by
  unfold cmd qbmanSwpMcStart
  by_cases h : s.swp.desc.memBacked = true
  · rw [if_pos h, QbmanSwpDesc.impl_eq_memBack.mpr h]
    rfl
  · have hi : s.swp.desc.impl = .direct := by rw [QbmanSwpDesc.impl, if_neg h]
    rw [if_neg h, hi]
    rfl

theorem mcStart_shadow (s : McHost) : (qbmanSwpMcStart s.swp s.shadow).2 = dcbz s.shadow s.cmd := by
  unfold cmd qbmanSwpMcStart
  split <;> rfl

/-- The register holds the command, whatever was there before. -/
theorem crLine_eq (s : McHost) (r : McRequest) (cena : Region) :
    s.crLine r cena =
      mcSetVerb (lineAt (s.filled r) s.cmd) r.verb (mcCommandValidBit s.swp) := by
  unfold crLine command qbmanSwpMcSubmit mcCommandValidBit
  by_cases h : s.swp.desc.memBacked = true
  · have hcr : Impl.memBack.cr = qbmanCenaSwpCrMem := rfl
    rw [if_pos h, if_pos h, QbmanSwpDesc.impl_eq_memBack.mpr h, Region.run_append,
      run_qbmanCenaWriteComplete, Region.run_cons, Region.access_cinhWrite, Region.run_nil, hcr,
      line_memcpyWords]
  · have hi : s.swp.desc.impl = .direct := by rw [QbmanSwpDesc.impl, if_neg h]
    have hcr : Impl.direct.cr = qbmanCenaSwpCr := rfl
    rw [if_neg h, if_neg h, hi, run_qbmanCenaWriteComplete, hcr, line_memcpyWords]

theorem byteOf_crLine (s : McHost) (r : McRequest) (cena : Region) {k : Nat} (hk : k < 64) :
    byteOf (s.crLine r cena) k =
      if k = 0 then r.verb ||| (mcCommandValidBit s.swp).setWidth 8
      else Bytes.storeFields s.cmd r.fields (dcbz s.shadow s.cmd) (s.cmd + k) := by
  rw [crLine_eq, byteOf_mcSetVerb _ _ _ hk, byteOf_lineAt _ _ hk, filled, mcStart_shadow]

theorem qbmanSwpMcResult_frame (p : QbmanSwp) (cena : Region) :
    (qbmanSwpMcResult p cena).swp.desc = p.desc ∧ (qbmanSwpMcResult p cena).swp.sys = p.sys :=
  ⟨qbmanSwpMcResult_view QbmanSwp.desc (fun _ _ _ => rfl) p cena,
    qbmanSwpMcResult_view QbmanSwp.sys (fun _ _ _ => rfl) p cena⟩

/-- Earlier use changes neither the descriptor nor the address of the shadow. -/
theorem after_frame (s : McHost) (past : List McPast) :
    (s.after past).swp.desc = s.swp.desc ∧ (s.after past).swp.sys = s.swp.sys := by
  induction past generalizing s with
  | nil => exact ⟨rfl, rfl⟩
  | cons op past ih =>
    obtain ⟨hdesc, hsys⟩ := ih (s.apply op)
    unfold after at hdesc hsys ⊢
    rw [List.foldl_cons, hdesc, hsys]
    cases op with
    | command r => exact ⟨rfl, rfl⟩
    | poll cena => exact qbmanSwpMcResult_frame s.swp cena

theorem cmd_after (s : McHost) (past : List McPast) : (s.after past).cmd = s.cmd := by
  obtain ⟨hdesc, hsys⟩ := s.after_frame past
  rw [cmd_eq, cmd_eq, hdesc, hsys]

/-- The command registers are aligned to 64 bytes in their region. -/
theorem cmd_mod (s : McHost) : s.cmd % 64 = s.swp.sys.cena % 64 := by
  have hcr : s.swp.desc.impl.cr % 64 = 0 := by cases s.swp.desc.impl <;> decide
  rw [cmd_eq]
  omega

/-- With an aligned shadow, `dcbz` clears the line. -/
theorem mcStart_zero (h : s.cmd % 64 = 0) {k : Nat} (hk : k < 64) :
    dcbz s.shadow s.cmd (s.cmd + k) = 0 := by
  unfold dcbz
  rw [if_pos (by omega)]

/-- Otherwise it leaves the end of the line as it was. -/
theorem mcStart_stale (h : s.cmd % 64 ≠ 0) :
    dcbz s.shadow s.cmd (s.cmd + 63) = s.shadow (s.cmd + 63) := by
  unfold dcbz
  rw [if_neg (by omega)]

end McHost

/-- The bytes that a call does not set: neither the verb nor those of a field. -/
def McRequest.Unset (r : McRequest) (k : Nat) : Prop := k ≠ 0 ∧ ∀ f ∈ r.fields, ¬ f.Covers k

/-- The command of a call depends on nothing but the call and the valid bit, and is zero where the
call sets nothing. -/
def McIndependent (p : QbmanSwp) (r : McRequest) : Prop :=
  ∀ (m m' : Bytes.Mem) (past past' : List McPast) (cena cena' : Region),
    let s := (McHost.mk p m).after past
    let s' := (McHost.mk p m').after past'
    mcCommandValidBit s.swp = mcCommandValidBit s'.swp →
      s.crLine r cena = s'.crLine r cena' ∧
        ∀ k < 64, r.Unset k → byteOf (s.crLine r cena) k = 0

theorem mcIndependent_of_aligned {p : QbmanSwp} (r : McRequest) (h : p.sys.cena % 64 = 0) :
    McIndependent p r := by
  intro m m' past past' cena cena' s s' hv
  have hs : s.cmd % 64 = 0 := by
    rw [McHost.cmd_after, McHost.cmd_mod]
    exact h
  have hs' : s'.cmd % 64 = 0 := by
    rw [McHost.cmd_after, McHost.cmd_mod]
    exact h
  constructor
  · refine line_ext fun k hk => ?_
    rw [McHost.byteOf_crLine _ _ _ hk, McHost.byteOf_crLine _ _ _ hk, hv]
    congr 1
    refine Bytes.storeFields_congr r.fields fun _ => ?_
    rw [McHost.mcStart_zero hs hk, McHost.mcStart_zero hs' hk]
  · rintro k hk ⟨hne, hcover⟩
    rw [McHost.byteOf_crLine _ _ _ hk, if_neg hne, Bytes.storeFields_of_uncovered hcover,
      McHost.mcStart_zero hs hk]

/-- No call sets the end of its command. -/
theorem McApi.request_unset {a : McApi} {r : McRequest} (hr : a.request = some r) : r.Unset 63 := by
  refine ⟨by decide, ?_⟩
  cases a with
  | acquire b n =>
    simp only [request, qbmanSwpAcquireRequest] at hr
    split at hr
    · cases hr
    · obtain rfl := Option.some.inj hr
      simp [Bytes.Field.Covers]
  | cgrRejectStatistics i c =>
    obtain rfl := Option.some.inj hr
    simp [qbmanCgrStatisticsQueryRequest, Bytes.Field.Covers]
  | ccgrRejectStatistics i c =>
    obtain rfl := Option.some.inj hr
    simp [qbmanCgrStatisticsQueryRequest, Bytes.Field.Covers]
  | cqDequeueStatistics i c =>
    obtain rfl := Option.some.inj hr
    simp [qbmanCgrStatisticsQueryRequest, Bytes.Field.Covers]
  | _ =>
    obtain rfl := Option.some.inj hr
    simp [qbmanSwpAltFqStateRequest, qbmanSwpCDANSetRequest, qbmanBpQueryRequest,
      qbmanFqQueryRequest, qbmanFqQueryStateRequest, qbmanCgrQueryRequest,
      qbmanCgrWredQueryRequest, qbmanWqchanQueryRequest, idQueryRequest, fqQueryRequest,
      Bytes.Field.Covers]

theorem aligned_of_mcIndependent {p : QbmanSwp} {r : McRequest} (hr : r.Unset 63)
    (h : McIndependent p r) : p.sys.cena % 64 = 0 := by
  by_contra hmod
  let s : McHost := ⟨p, fun _ => 1⟩
  have hs : s.cmd % 64 ≠ 0 := by
    rw [McHost.cmd_mod]
    exact hmod
  have hzero := (h s.shadow s.shadow [] [] (fun _ => 0) (fun _ => 0) rfl).2 63 (by decide) hr
  have hbyte : byteOf (s.crLine r fun _ => 0) 63 = 1 := by
    rw [McHost.byteOf_crLine _ _ _ (by decide), if_neg hr.1, Bytes.storeFields_of_uncovered hr.2,
      McHost.mcStart_stale hs]
  rw [show byteOf (s.crLine r fun _ => 0) 63 = 0 from hzero] at hbyte
  cases hbyte

/-- The shadow of a portal is what `malloc` returned for it. -/
theorem qbmanSwpInit_cena {g : Globals} {d : QbmanSwpDesc} {env : InitEnv} {addr : Addr}
    {p : QbmanSwp} (h : (qbmanSwpInit g d env).ret = some (addr, p)) :
    env.mallocCena = some p.sys.cena := by
  unfold qbmanSwpInit at h
  cases hm : env.mallocSwp with
  | none => simp [hm] at h
  | some a =>
    simp only [hm] at h
    split at h
    · cases h
    · rename_i hr
      split at h
      · cases h
      · obtain ⟨-, rfl⟩ := Prod.mk.inj (Option.some.inj h)
        unfold qbmanSwpSysInit at hr ⊢
        cases hc : env.mallocCena with
        | none => simp [hc] at hr
        | some cena =>
          simp only
          split <;> rfl

/-- The command of a management call depends on its own call only, if and only if `malloc` returned
a 64-byte aligned shadow. -/
theorem mcCommand_independent_iff {g : Globals} {d : QbmanSwpDesc} {env : InitEnv} {addr : Addr}
    {p : QbmanSwp} (h : (qbmanSwpInit g d env).ret = some (addr, p)) {cena : Addr}
    (hc : env.mallocCena = some cena) {a : McApi} {r : McRequest} (hr : a.request = some r) :
    McIndependent p r ↔ cena % 64 = 0 := by
  have hcena : p.sys.cena = cena := by
    have := qbmanSwpInit_cena h
    rw [hc, Option.some.injEq] at this
    exact this.symm
  subst hcena
  exact ⟨aligned_of_mcIndependent (McApi.request_unset hr), mcIndependent_of_aligned r⟩

/-- A call of `qbman_swp_init` that succeeds, with the address of the shadow. -/
def InitEnv.shadowAt (cena : Addr) : InitEnv :=
  { InitEnv.ok 0x1000 0 0 with mallocCena := some cena }

/-- A frame queue query of a portal with its shadow at `0x2000`. -/
theorem mcCommand_independent_iff_fqQuery :
    McIndependent (swpRev4100 0 0x1000) (qbmanFqQueryRequest 5) ↔ 0x2000 % 64 = 0 :=
  @mcCommand_independent_iff {} (.rev4100 .vbRing 0) (.ok 0x1000 0 0) 0x1000 _ rfl 0x2000 rfl
    (.fqQuery 5) _ rfl

/-- A shadow at `0x2010`, which `malloc` may return. -/
theorem mcCommand_not_independent :
    ¬ ∀ (g : Globals) (d : QbmanSwpDesc) (env : InitEnv) (addr : Addr) (p : QbmanSwp) (cena : Addr)
      (a : McApi) (r : McRequest), (qbmanSwpInit g d env).ret = some (addr, p) →
      env.mallocCena = some cena → cena % 16 = 0 → a.request = some r → McIndependent p r := by
  intro h
  have hsome : (qbmanSwpInit {} (.rev4100 .vbRing 0) (.shadowAt 0x2010)).ret.isSome = true := by
    simp [qbmanSwpInit, qbmanSwpSysInit, InitEnv.shadowAt, InitEnv.ok]
  obtain ⟨⟨addr, p⟩, hinit⟩ := Option.isSome_iff_exists.mp hsome
  have hcena : some (0x2010 : Addr) = some p.sys.cena := qbmanSwpInit_cena hinit
  have hind := h {} (.rev4100 .vbRing 0) (.shadowAt 0x2010) addr p 0x2010 (.fqQuery 5) _ hinit rfl
    rfl rfl
  have hunset : (qbmanFqQueryRequest 5).Unset 63 := McApi.request_unset (a := .fqQuery 5) rfl
  have halign := aligned_of_mcIndependent hunset hind
  rw [← Option.some.inj hcena] at halign
  cases halign

end Qbman
