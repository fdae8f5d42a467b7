import Qbman.Sys

/-!
# The portal object, its constructor and its destructor

`QbmanSwp` is `struct qbman_swp` of the default build (no `QBMAN_CHECKING`). `qbmanSwpInit` is
`qbman_swp_init` with what the outside answers during the call as an `InitEnv`: the two `malloc`
outcomes and each register readout. The state of the process that portals share (`Globals`) is the
last version seen, the seven implementation pointers and the table from portal index to portal.
-/

namespace Qbman

/-! ## The portal object -/

/-- `mc` and `mr`: the valid bit of the next management command and of the next response. -/
structure Mc where
  validBit : U32 := 0
  deriving DecidableEq, Repr

structure Mr where
  validBit : U32 := 0
  deriving DecidableEq, Repr

/-- Volatile dequeues. `busy` is an `atomic_t` (a 32-bit `int`), `storage` is `NULL` if DQRR. -/
structure Vdq where
  busy : U32 := 0
  validBit : U32 := 0
  storage : U64 := 0
  deriving DecidableEq, Repr

/-- The dequeue response ring. -/
structure Dqrr where
  nextIdx : U32 := 0
  validBit : U32 := 0
  dqrrSize : U8 := 0
  resetBug : Bool := false
  deriving DecidableEq, Repr

/-- The enqueue command ring. -/
structure Eqcr where
  pi : U32 := 0
  piVb : U32 := 0
  piRingSize : U32 := 0
  piCiMask : U32 := 0
  ci : U32 := 0
  available : Int := 0
  deriving DecidableEq, Repr

/-- `struct qbman_swp`. -/
structure QbmanSwp where
  desc : QbmanSwpDesc
  sys : QbmanSwpSys := {}
  mc : Mc := {}
  mr : Mr := {}
  sdq : U32 := 0
  vdq : Vdq := {}
  dqrr : Dqrr := {}
  eqcr : Eqcr := {}
  deriving DecidableEq, Repr

/-- What a driver call on a portal gives back: its result, the portal object and the accesses. -/
structure Outcome (α : Type) where
  ret : α
  swp : QbmanSwp
  accs : List Access

/-! ## The state of the process -/

/-- The implementation that a function pointer names. -/
inductive Impl where
  | direct
  | memBack
  deriving DecidableEq, Repr

/-- The seven `qbman_swp_*_ptr`. -/
structure FnPtrs where
  enqueueArrayModePtr : Impl := .direct
  enqueueRingModePtr : Impl := .direct
  enqueueMultiplePtr : Impl := .direct
  enqueueMultipleDescPtr : Impl := .direct
  pullPtr : Impl := .direct
  dqrrNextPtr : Impl := .direct
  releasePtr : Impl := .direct
  deriving DecidableEq, Repr

/-- The pointers after `qbman_swp_init` of a memory-backed portal. -/
def FnPtrs.memBack : FnPtrs :=
  { enqueueArrayModePtr := .memBack, enqueueRingModePtr := .memBack, enqueueMultiplePtr := .memBack,
    enqueueMultipleDescPtr := .memBack, pullPtr := .memBack, dqrrNextPtr := .memBack,
    releasePtr := .memBack }

/-- The process-wide state of the driver. -/
structure Globals where
  qmanVersion : U32 := 0
  ptrs : FnPtrs := {}
  portalIdxMap : Int → Option Addr := fun _ => none

/-! ## `qbman_swp_init` -/

/-- `qm_cyc_diff`: `first` is included, `last` is excluded. -/
def qmCycDiff (ringsize first last : U8) : U8 :=
  if first ≤ last then last - first else 2 * ringsize + last - first

def qbSdqcrFcShift : Nat := 29
def qbSdqcrDctShift : Nat := 24
def qbSdqcrTokShift : Nat := 16
def qbmanSdqcrDctPrioIcs : U32 := 1
def qbmanSdqcrFcUpTo3 : U32 := 1
def qmanSdqcrToken : U32 := 0xbb

/-- `for (mask_size = ..; mask_size > 0; mask_size >>= 1) pi_ci_mask = (pi_ci_mask << 1) + 1`; a
32-bit `mask_size` is zero after at most 32 shifts. -/
def piCiMaskLoop : Nat → U32 → U32 → U32
  | 0, _, mask => mask
  | fuel + 1, maskSize, mask =>
    if maskSize > 0 then piCiMaskLoop fuel (maskSize >>> 1) (mask <<< 1 + 1) else mask

/-- The `eqcr` fields that `qbman_swp_init` sets from its two readouts `eqcrPi` and `ciReg`. -/
def eqcrInit (memBacked : Bool) (eqcrPi ciReg : U32) : Eqcr :=
  let piRingSize : U32 := if memBacked then 32 else 8
  let piCiMask := piCiMaskLoop 32 piRingSize 0
  let pi := eqcrPi &&& piCiMask
  let ci := ciReg &&& piCiMask
  let used := qmCycDiff (piRingSize.setWidth 8) ((ci &&& piCiMask <<< 1).setWidth 8)
    ((pi &&& piCiMask <<< 1).setWidth 8)
  { pi, piVb := eqcrPi &&& qbValidBit, piRingSize, piCiMask, ci,
    available := (piRingSize - used.setWidth 32).toInt }

/-- The fields that `qbman_swp_init` sets before it touches the hardware. -/
def swpDefaults (d : QbmanSwpDesc) : QbmanSwp :=
  { desc := d
    mc := { validBit := qbValidBit }
    mr := { validBit := if d.memBacked then qbValidBit else 0 }
    sdq := qbmanSdqcrDctPrioIcs <<< qbSdqcrDctShift ||| qbmanSdqcrFcUpTo3 <<< qbSdqcrFcShift |||
      qmanSdqcrToken <<< qbSdqcrTokShift
    vdq := { busy := 1, validBit := qbValidBit }
    dqrr := if (d.qmanVersion &&& qmanRevMask) < qmanRev4100 then
        { validBit := qbValidBit, dqrrSize := 4, resetBug := true }
      else { validBit := qbValidBit, dqrrSize := 8, resetBug := false } }

/-- What the outside answers during a `qbman_swp_init` call: the address `malloc` returns for the
portal object and for the shadow (`none` for `NULL`), and the value the `n`-th register read of the
call returns at each offset. -/
structure InitEnv where
  mallocSwp : Option Addr
  mallocCena : Option Addr
  cinh : Nat → Region

/-- What `qbman_swp_init` leaves: the returned portal (`none` for `NULL`), the process-wide state,
the accesses to the portal and the blocks freed. -/
structure InitResult where
  ret : Option (Addr × QbmanSwp)
  globals : Globals
  accs : List Access
  freed : List Addr

/-- The second register that `qbman_swp_init` reads for the ring counters. -/
def initCiReg (d : QbmanSwpDesc) : Nat :=
  if d.memBacked then qbmanCinhSwpEqcrPi else qbmanCinhSwpEqcrCi

def qbmanSwpInit (g : Globals) (d : QbmanSwpDesc) (env : InitEnv) : InitResult :=
  match env.mallocSwp with
  | none => { ret := none, globals := g, accs := [], freed := [] }
  | some a =>
    let p := swpDefaults d
    let g := { g with qmanVersion := d.qmanVersion }
    let r := qbmanSwpSysInit d p.dqrr.dqrrSize env.mallocCena (env.cinh 0 qbmanCinhSwpCfg)
    if r.ret ≠ 0 then { ret := none, globals := g, accs := r.accs, freed := r.freed ++ [a] }
    else
      let dqpi := env.cinh 1 qbmanCinhSwpDqpi
      let accs := r.accs ++ [.cinhRead qbmanCinhSwpDqpi dqpi]
      if dqpi &&& 0xF ≠ 0 then { ret := none, globals := g, accs, freed := r.freed ++ [a] }
      else
        let g := if d.memBacked then { g with ptrs := FnPtrs.memBack } else g
        let eqcrPi := env.cinh 2 qbmanCinhSwpEqcrPi
        let ciReg := env.cinh 3 (initCiReg d)
        let p := { p with sys := r.sys, eqcr := eqcrInit d.memBacked eqcrPi ciReg }
        { ret := some (a, p)
          globals := { g with portalIdxMap := Function.update g.portalIdxMap d.idx (some a) }
          accs := accs ++ [.cinhWrite qbmanCinhSwpSdqcr 0, .cinhRead qbmanCinhSwpEqcrPi eqcrPi,
            .cinhRead (initCiReg d) ciReg]
          freed := r.freed }

/-- `qbman_swp_finish`: the process-wide state after it; it frees the shadow and the object. -/
def qbmanSwpFinish (g : Globals) (p : QbmanSwp) : Globals :=
  { g with portalIdxMap := Function.update g.portalIdxMap p.desc.idx none }

/-! ## Three portals -/

/-- A portal of QMan 4.0, which has the reset bug. -/
def QbmanSwpDesc.rev4000 (eqcrMode : QbmanEqcrMode) (idx : Int) : QbmanSwpDesc :=
  { cenaBar := 0x10000, cinhBar := 0x20000, idx, qmanVersion := 0x04000000, eqcrMode,
    cenaAccessMode := .fastestAccess }

/-- A portal of QMan 4.1. -/
def QbmanSwpDesc.rev4100 (eqcrMode : QbmanEqcrMode) (idx : Int) : QbmanSwpDesc :=
  { cenaBar := 0x10000, cinhBar := 0x20000, idx, qmanVersion := qmanRev4100, eqcrMode,
    cenaAccessMode := .fastestAccess }

/-- A memory-backed portal of QMan 5.0. -/
def QbmanSwpDesc.rev5000 (eqcrMode : QbmanEqcrMode) (idx : Int) : QbmanSwpDesc :=
  { cenaBar := 0x10000, cinhBar := 0x20000, idx, qmanVersion := qmanRev5000, eqcrMode,
    cenaAccessMode := .fastestAccess }

/-- A call of `qbman_swp_init` that succeeds and reads the ring counters as `eqcrPi` and `ciReg`. -/
def InitEnv.ok (mallocSwp : Addr) (eqcrPi ciReg : U32) : InitEnv :=
  { mallocSwp := some mallocSwp, mallocCena := some 0x2000
    cinh := fun n _ => if n = 0 then 1 else if n = 1 then 0 else if n = 2 then eqcrPi else ciReg }

theorem swpRev4100_isSome (idx : Int) (a : Addr) :
    (qbmanSwpInit {} (.rev4100 .vbRing idx) (.ok a 0 0)).ret.isSome = true := by
  simp [qbmanSwpInit, qbmanSwpSysInit, InitEnv.ok]

/-- A portal of QMan 4.1 that was just initialised, with an empty ring. -/
def swpRev4100 (idx : Int) (a : Addr) : QbmanSwp :=
  ((qbmanSwpInit {} (.rev4100 .vbRing idx) (.ok a 0 0)).ret.get (swpRev4100_isSome idx a)).2

/-! ## What a successful `qbman_swp_init` builds -/

theorem qbmanSwpInit_some {g : Globals} {d : QbmanSwpDesc} {env : InitEnv} {a : Addr} {p : QbmanSwp}
    (h : (qbmanSwpInit g d env).ret = some (a, p)) :
    env.mallocSwp = some a ∧ p.desc = d ∧ p.mc = (swpDefaults d).mc ∧ p.mr = (swpDefaults d).mr ∧
      p.vdq = (swpDefaults d).vdq ∧ p.dqrr = (swpDefaults d).dqrr ∧
      p.eqcr = eqcrInit d.memBacked (env.cinh 2 qbmanCinhSwpEqcrPi) (env.cinh 3 (initCiReg d)) ∧
      p.sys.eqcrMode = d.eqcrMode ∧ p.sys.idx = BitVec.ofInt 32 d.idx ∧
      p.sys.addrCena = d.cenaBar ∧
      (qbmanSwpInit g d env).globals =
        { qmanVersion := d.qmanVersion
          ptrs := if d.memBacked then FnPtrs.memBack else g.ptrs
          portalIdxMap := Function.update g.portalIdxMap d.idx (some a) } := by
  unfold qbmanSwpInit at h ⊢
  cases hm : env.mallocSwp with
  | none => simp [hm] at h
  | some a' =>
    simp only [hm] at h ⊢
    split at h
    · cases h
    · rename_i hr
      rw [if_neg hr]
      split at h
      · cases h
      · rename_i hd
        rw [if_neg hd]
        simp only [Option.some.injEq, Prod.mk.injEq] at h
        obtain ⟨rfl, rfl⟩ := h
        obtain ⟨hmode, hidx, hcena⟩ : _ ∧ _ ∧ _ := sysInit_ok hr
        refine ⟨rfl, rfl, rfl, rfl, rfl, rfl, rfl, hmode, hidx, hcena, ?_⟩
        cases d.memBacked <;> rfl

end Qbman
