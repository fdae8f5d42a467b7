import Qbman.Desc

/-!
# The system layer (`qbman_sys.h`)

Register offsets, the portal descriptor, the 64-bit list marshalling, and the setup of a portal's
system part (`qbmanSwpSysInit`).
-/

namespace Qbman

/-! ## Register offsets -/

def qbmanCinhSwpEqcrPi : Nat := 0x800
def qbmanCinhSwpEqcrCi : Nat := 0x840
def qbmanCinhSwpEqar : Nat := 0x8c0
def qbmanCinhSwpCrRt : Nat := 0x900
def qbmanCinhSwpVdqcrRt : Nat := 0x940
def qbmanCinhSwpEqcrAmRt : Nat := 0x980
def qbmanCinhSwpRcrAmRt : Nat := 0x9c0
def qbmanCinhSwpDqpi : Nat := 0xa00
def qbmanCinhSwpDqrrItr : Nat := 0xa80
def qbmanCinhSwpDcap : Nat := 0xac0
def qbmanCinhSwpSdqcr : Nat := 0xb00
def qbmanCinhSwpEqcrAmRt2 : Nat := 0xb40
def qbmanCinhSwpRcrPi : Nat := 0xc00
def qbmanCinhSwpRar : Nat := 0xcc0
def qbmanCinhSwpCfg : Nat := 0xd00
def qbmanCinhSwpIsr : Nat := 0xe00
def qbmanCinhSwpIer : Nat := 0xe40
def qbmanCinhSwpIsdr : Nat := 0xe80
def qbmanCinhSwpIir : Nat := 0xec0
def qbmanCinhSwpItpr : Nat := 0xf40

def qbmanCenaSwpEqcr (n : U32) : Nat := (0x000 + n <<< 6).toNat
def qbmanCenaSwpDqrr (n : U32) : Nat := (0x200 + n <<< 6).toNat
def qbmanCenaSwpRcr (n : U32) : Nat := (0x400 + n <<< 6).toNat
def qbmanCenaSwpCr : Nat := 0x600
def qbmanCenaSwpRr (vb : U32) : Nat := (0x700 + vb >>> 1).toNat
def qbmanCenaSwpVdqcr : Nat := 0x780
def qbmanCenaSwpEqcrCi : Nat := 0x840
def qbmanCenaSwpEqcrCiMemback : Nat := 0x1840

def qbmanCenaSwpDqrrMem (n : U32) : Nat := (0x800 + n <<< 6).toNat
def qbmanCenaSwpRcrMem (n : U32) : Nat := (0x1400 + n <<< 6).toNat
def qbmanCenaSwpCrMem : Nat := 0x1600
def qbmanCenaSwpRrMem : Nat := 0x1680
def qbmanCenaSwpVdqcrMem : Nat := 0x1780

/-! ## The portal descriptor -/

/-- `enum qbman_eqcr_mode`. -/
inductive QbmanEqcrMode where
  | vbRing
  | vbArray
  deriving DecidableEq, Repr

/-- `enum qbman_cena_access_mode`. -/
inductive QbmanCenaAccessMode where
  | fastestAccess
  | directAccess
  deriving DecidableEq, Repr

/-- `struct qbman_swp_desc`, with the fields the driver reads. -/
structure QbmanSwpDesc where
  cenaBar : Addr
  cinhBar : Addr
  idx : Int
  qmanVersion : U32
  eqcrMode : QbmanEqcrMode
  cenaAccessMode : QbmanCenaAccessMode
  deriving DecidableEq, Repr

def qmanRev4100 : U32 := 0x04010000
def qmanRev5000 : U32 := 0x05000000
def qmanRevMask : U32 := 0xffff0000

/-- The test of the memory-backed mode, as every function of the driver makes it. -/
def QbmanSwpDesc.memBacked (d : QbmanSwpDesc) : Bool :=
  (d.qmanVersion &&& qmanRevMask) ≥ qmanRev5000 && d.cenaAccessMode = .fastestAccess

/-- `struct qbman_swp_sys`. -/
structure QbmanSwpSys where
  cena : Addr := 0
  addrCena : Addr := 0
  addrCinh : Addr := 0
  idx : U32 := 0
  eqcrMode : QbmanEqcrMode := .vbRing
  deriving DecidableEq, Repr

/-! ## 64-bit lists -/

/-- The words of a list of 64-bit values in host memory. -/
def hostWords (bigEndian : Bool) (s : Nat → U64) (i : Nat) : U32 :=
  if (i % 2 = 0) = bigEndian then (s (i / 2) >>> 32).setWidth 32 else (s (i / 2)).setWidth 32

/-- The words that `u64_to_le32_copy(d, s, cnt)` stores at `d`, in order. -/
def u64ToLe32Copy (bigEndian : Bool) : Nat → (Nat → U32) → List U32
  | 0, _ => []
  | cnt + 1, ss =>
    (if bigEndian then [ss 1, ss 0] else [ss 0, ss 1]) ++
      u64ToLe32Copy bigEndian cnt fun i => ss (i + 2)

/-! ## Setup -/

def cenaWriteEnable : U8 := 0

/-- `qbman_set_swp_cfg`. -/
def qbmanSetSwpCfg (maxFill wn est rpm dcm epm : U8) (sd sp se dp de ep : U32) : U32 :=
  maxFill.setWidth 32 <<< 20 ||| est.setWidth 32 <<< 16 ||| wn.setWidth 32 <<< 14 |||
    rpm.setWidth 32 <<< 12 ||| dcm.setWidth 32 <<< 10 ||| epm.setWidth 32 <<< 8 |||
    sd <<< 5 ||| sp <<< 4 ||| se <<< 3 ||| dp <<< 2 ||| de <<< 1 ||| ep

/-- What `qbman_swp_sys_init` leaves. -/
structure SysInitResult where
  ret : Int
  sys : QbmanSwpSys
  accs : List Access
  freed : List Addr

/-- The value that `qbman_swp_sys_init` writes to `SWP_CFG`. -/
def swpCfg (d : QbmanSwpDesc) (dqrrSize : U8) : U32 :=
  let wn := cenaWriteEnable
  let reg := if d.eqcrMode = .vbArray then qbmanSetSwpCfg dqrrSize wn 0 3 2 3 1 1 1 1 1 1
    else if d.memBacked then qbmanSetSwpCfg dqrrSize wn 1 3 2 0 1 1 1 1 1 1
    else qbmanSetSwpCfg dqrrSize wn 1 3 2 2 1 1 1 1 1 1
  if d.memBacked then reg ||| (1 <<< 15 ||| 1 <<< 7 ||| 1 <<< 6) else reg

/-- `qbman_swp_sys_init`. `mallocCena` is what `malloc` returns for the shadow (`none` for `NULL`),
`cfg` what reading `SWP_CFG` back returns. -/
def qbmanSwpSysInit (d : QbmanSwpDesc) (dqrrSize : U8) (mallocCena : Option Addr) (cfg : U32) :
    SysInitResult :=
  let cenaRegionSize := if d.memBacked then 64 * 1024 else 4 * 1024
  let s : QbmanSwpSys :=
    { addrCena := d.cenaBar, addrCinh := d.cinhBar, idx := BitVec.ofInt 32 d.idx }
  match mallocCena with
  | none => { ret := -1, sys := s, accs := [], freed := [] }
  | some cena =>
    let s := { s with cena, eqcrMode := d.eqcrMode }
    -- The direct mode only invalidates cache lines here.
    let clear := if d.memBacked then [.cenaMemset cenaRegionSize] else []
    let accs := clear ++ [.cinhWrite qbmanCinhSwpCfg (swpCfg d dqrrSize),
      .cinhRead qbmanCinhSwpCfg cfg]
    if cfg = 0 then { ret := -1, sys := s, accs, freed := [cena] }
    else
      let rt := if d.memBacked then [.cinhWrite qbmanCinhSwpEqcrPi qmanRtMode,
        .cinhWrite qbmanCinhSwpRcrPi qmanRtMode] else []
      { ret := 0, sys := s, accs := accs ++ rt, freed := [] }

/-- A system part that was set up has the descriptor's mode, index and region. -/
theorem sysInit_ok {d : QbmanSwpDesc} {dqrrSize : U8} {mallocCena : Option Addr} {cfg : U32}
    (h : ¬ (qbmanSwpSysInit d dqrrSize mallocCena cfg).ret ≠ 0) :
    (qbmanSwpSysInit d dqrrSize mallocCena cfg).sys.eqcrMode = d.eqcrMode ∧
      (qbmanSwpSysInit d dqrrSize mallocCena cfg).sys.idx = BitVec.ofInt 32 d.idx ∧
      (qbmanSwpSysInit d dqrrSize mallocCena cfg).sys.addrCena = d.cenaBar := by
  unfold qbmanSwpSysInit at h ⊢
  cases mallocCena with
  | none => simp at h
  | some cena =>
    simp only at h ⊢
    split
    · exact ⟨rfl, rfl, rfl⟩
    · exact ⟨rfl, rfl, rfl⟩

end Qbman
