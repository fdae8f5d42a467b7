import Mathlib.Data.Fin.VecNotation
import Qbman.Basic

/-!
# Frame, enqueue, pull and release descriptors

The descriptors of `fsl_qbman_portal.h` with their setters, and the words that the driver copies
to the hardware (`qb_cl`). A caller builds a descriptor with the clear function and setters only
(the words are `dont_manipulate_directly`), so a history of setter calls (`EqDescSet`,
`PullDescSet`) stands for a descriptor. No history sets the valid bit, which the enqueue and pull
functions OR in (`QbmanEqDesc.Built.validBit`, `QbmanPullDesc.WF.validBit`).
-/

namespace Qbman

/-- `struct qbman_fd`: its eight words. -/
abbrev QbmanFd := Fin 8 → U32

/-! ## Enqueue descriptors -/

/-- `struct qbman_eq_desc`. -/
structure QbmanEqDesc where
  verb : U8 := 0
  dca : U8 := 0
  seqnum : U16 := 0
  orpid : U16 := 0
  reserved1 : U16 := 0
  tgtid : U32 := 0
  tag : U32 := 0
  qdbin : U16 := 0
  qpri : U8 := 0
  /-- `uint8_t reserved[3]` -/
  reserved : BitVec 24 := 0
  wae : U8 := 0
  rspid : U8 := 0
  rspAddr : U64 := 0
  deriving DecidableEq

namespace QbmanEqDesc

/-- `qb_cl(d)`: the descriptor as 32-bit words. -/
def cl (d : QbmanEqDesc) : Fin 8 → U32 :=
  ![d.seqnum ++ d.dca ++ d.verb,
    d.reserved1 ++ d.orpid,
    d.tgtid,
    d.tag,
    d.reserved.setWidth 8 ++ d.qpri ++ d.qdbin,
    d.rspid ++ d.wae ++ (d.reserved >>> 8).setWidth 16,
    d.rspAddr.setWidth 32,
    (d.rspAddr >>> 32).setWidth 32]

end QbmanEqDesc

/-! `QB_ENQUEUE_CMD_*` -/

def enqueueResponseAlways : U8 := 1
def enqueueRejectsToFq : U8 := 2
def qbEnqueueCmdEcOptionMask : U8 := 0x3
def qbEnqueueCmdOrpEnableShift : Nat := 2
def qbEnqueueCmdIrqOnDispatchShift : Nat := 3
def qbEnqueueCmdTargetTypeShift : Nat := 4
def qbEnqueueCmdDcaPkShift : Nat := 6
def qbEnqueueCmdDcaEnShift : Nat := 7
def qbEnqueueCmdNlisShift : Nat := 14
def qbEnqueueCmdIsNesnShift : Nat := 15

def qbmanEqDescClear : QbmanEqDesc := {}

def qbmanEqDescSetNoOrp (d : QbmanEqDesc) (respondSuccess : Int) : QbmanEqDesc :=
  let d := { d with verb := d.verb &&& ~~~((1 : U8) <<< qbEnqueueCmdOrpEnableShift) }
  if respondSuccess ≠ 0 then { d with verb := d.verb ||| enqueueResponseAlways }
  else { d with verb := d.verb ||| enqueueRejectsToFq }

def qbmanEqDescSetOrp (d : QbmanEqDesc) (respondSuccess : Int) (oprId seqnum : U16)
    (incomplete : Int) : QbmanEqDesc :=
  let d := { d with verb := d.verb ||| (1 : U8) <<< qbEnqueueCmdOrpEnableShift }
  let d := if respondSuccess ≠ 0 then { d with verb := d.verb ||| enqueueResponseAlways }
    else { d with verb := d.verb ||| enqueueRejectsToFq }
  let d := { d with orpid := oprId, seqnum := seqnum }
  if incomplete ≠ 0 then { d with seqnum := d.seqnum ||| (1 : U16) <<< qbEnqueueCmdNlisShift }
  else { d with seqnum := d.seqnum &&& ~~~((1 : U16) <<< qbEnqueueCmdNlisShift) }

def qbmanEqDescSetOrpHole (d : QbmanEqDesc) (oprId seqnum : U16) : QbmanEqDesc :=
  let d := { d with verb := d.verb ||| (1 : U8) <<< qbEnqueueCmdOrpEnableShift }
  let d := { d with verb := d.verb &&& ~~~qbEnqueueCmdEcOptionMask }
  let d := { d with orpid := oprId, seqnum := seqnum }
  let d := { d with seqnum := d.seqnum &&& ~~~((1 : U16) <<< qbEnqueueCmdNlisShift) }
  { d with seqnum := d.seqnum &&& ~~~((1 : U16) <<< qbEnqueueCmdIsNesnShift) }

def qbmanEqDescSetOrpNesn (d : QbmanEqDesc) (oprId seqnum : U16) : QbmanEqDesc :=
  let d := { d with verb := d.verb ||| (1 : U8) <<< qbEnqueueCmdOrpEnableShift }
  let d := { d with verb := d.verb &&& ~~~qbEnqueueCmdEcOptionMask }
  let d := { d with orpid := oprId, seqnum := seqnum }
  let d := { d with seqnum := d.seqnum &&& ~~~((1 : U16) <<< qbEnqueueCmdNlisShift) }
  { d with seqnum := d.seqnum ||| (1 : U16) <<< qbEnqueueCmdIsNesnShift }

def qbmanEqDescSetResponse (d : QbmanEqDesc) (storagePhys : U64) (stash : Int) : QbmanEqDesc :=
  { d with rspAddr := storagePhys, wae := BitVec.ofInt 8 stash }

def qbmanEqDescSetToken (d : QbmanEqDesc) (token : U8) : QbmanEqDesc := { d with rspid := token }

def qbmanEqDescSetFq (d : QbmanEqDesc) (fqid : U32) : QbmanEqDesc :=
  { d with verb := d.verb &&& ~~~((1 : U8) <<< qbEnqueueCmdTargetTypeShift), tgtid := fqid }

def qbmanEqDescSetQd (d : QbmanEqDesc) (qdid : U32) (qdBin : U16) (qdPrio : U8) : QbmanEqDesc :=
  { d with verb := d.verb ||| (1 : U8) <<< qbEnqueueCmdTargetTypeShift, tgtid := qdid,
           qdbin := qdBin, qpri := qdPrio }

def qbmanEqDescSetEqdi (d : QbmanEqDesc) (enable : Int) : QbmanEqDesc :=
  if enable ≠ 0 then { d with verb := d.verb ||| (1 : U8) <<< qbEnqueueCmdIrqOnDispatchShift }
  else { d with verb := d.verb &&& ~~~((1 : U8) <<< qbEnqueueCmdIrqOnDispatchShift) }

def qbmanEqDescSetDca (d : QbmanEqDesc) (enable : Int) (dqrrIdx : U8) (park : Int) :
    QbmanEqDesc :=
  if enable ≠ 0 then
    let d := { d with dca := dqrrIdx }
    let d := if park ≠ 0 then { d with dca := d.dca ||| (1 : U8) <<< qbEnqueueCmdDcaPkShift }
      else { d with dca := d.dca &&& ~~~((1 : U8) <<< qbEnqueueCmdDcaPkShift) }
    { d with dca := d.dca ||| (1 : U8) <<< qbEnqueueCmdDcaEnShift }
  else { d with dca := d.dca &&& ~~~((1 : U8) <<< qbEnqueueCmdDcaEnShift) }

/-- A call of one of the `qbman_eq_desc_set_*` functions. -/
inductive EqDescSet where
  | noOrp (respondSuccess : Int)
  | orp (respondSuccess : Int) (oprId seqnum : U16) (incomplete : Int)
  | orpHole (oprId seqnum : U16)
  | orpNesn (oprId seqnum : U16)
  | response (storagePhys : U64) (stash : Int)
  | token (token : U8)
  | fq (fqid : U32)
  | qd (qdid : U32) (qdBin : U16) (qdPrio : U8)
  | eqdi (enable : Int)
  | dca (enable : Int) (dqrrIdx : U8) (park : Int)

namespace EqDescSet

def apply (d : QbmanEqDesc) : EqDescSet → QbmanEqDesc
  | noOrp r => qbmanEqDescSetNoOrp d r
  | orp r o s i => qbmanEqDescSetOrp d r o s i
  | orpHole o s => qbmanEqDescSetOrpHole d o s
  | orpNesn o s => qbmanEqDescSetOrpNesn d o s
  | response p s => qbmanEqDescSetResponse d p s
  | token t => qbmanEqDescSetToken d t
  | fq f => qbmanEqDescSetFq d f
  | qd q b p => qbmanEqDescSetQd d q b p
  | eqdi e => qbmanEqDescSetEqdi d e
  | dca e i p => qbmanEqDescSetDca d e i p

/-- The descriptor that a history of setter calls builds from the cleared one. -/
def build (sets : List EqDescSet) : QbmanEqDesc := sets.foldl apply qbmanEqDescClear

/-- A setter keeps bit 7 of the verb clear. -/
theorem apply_verb_bit (d : QbmanEqDesc) (h : d.verb[7] = false) (s : EqDescSet) :
    (s.apply d).verb[7] = false := by
  cases s <;>
    simp only [apply, qbmanEqDescSetNoOrp, qbmanEqDescSetOrp, qbmanEqDescSetOrpHole,
      qbmanEqDescSetOrpNesn, qbmanEqDescSetResponse, qbmanEqDescSetToken, qbmanEqDescSetFq,
      qbmanEqDescSetQd, qbmanEqDescSetEqdi, qbmanEqDescSetDca] <;>
    (repeat' split) <;>
    simp [h, enqueueResponseAlways, enqueueRejectsToFq, qbEnqueueCmdOrpEnableShift,
      qbEnqueueCmdIrqOnDispatchShift, qbEnqueueCmdTargetTypeShift]

theorem build_verb_bit (sets : List EqDescSet) : (build sets).verb[7] = false := by
  have key : ∀ d : QbmanEqDesc, d.verb[7] = false →
      (sets.foldl apply d).verb[7] = false := by
    induction sets with
    | nil => exact fun d h => h
    | cons s sets ih => exact fun d h => ih _ (apply_verb_bit d h s)
  exact key _ rfl

end EqDescSet

/-- A descriptor that the clear function and setters built. -/
def QbmanEqDesc.Built (d : QbmanEqDesc) : Prop := ∃ sets, d = EqDescSet.build sets

/-- The first word of a built descriptor has no valid bit. -/
theorem QbmanEqDesc.Built.validBit {d : QbmanEqDesc} (h : d.Built) :
    d.cl 0 &&& qbValidBit = 0 := by
  obtain ⟨sets, rfl⟩ := h
  have hb : ((EqDescSet.build sets).cl 0).getLsbD 7 = false := by
    show ((EqDescSet.build sets).seqnum ++ (EqDescSet.build sets).dca ++
      (EqDescSet.build sets).verb).getLsbD 7 = false
    rw [BitVec.getLsbD_append]
    simpa using EqDescSet.build_verb_bit sets
  rw [and_validBit, hb]
  rfl

/-! ## Pull descriptors -/

/-- `struct qbman_pull_desc`. -/
structure QbmanPullDesc where
  verb : U8 := 0
  numf : U8 := 0
  tok : U8 := 0
  reserved : U8 := 0
  dqSrc : U32 := 0
  rspAddr : U64 := 0
  rspAddrVirt : U64 := 0
  deriving DecidableEq

/-- The words of `qb_cl(d)` that `qbman_swp_pull` copies. -/
def QbmanPullDesc.cl (d : QbmanPullDesc) : Fin 4 → U32 :=
  ![d.reserved ++ d.tok ++ d.numf ++ d.verb, d.dqSrc, d.rspAddr.setWidth 32,
    (d.rspAddr >>> 32).setWidth 32]

def qbVdqcrVerbDctShift : Nat := 0
def qbVdqcrVerbDtShift : Nat := 2
def qbVdqcrVerbRlsShift : Nat := 4
def qbVdqcrVerbWaeShift : Nat := 5
def qbVdqcrVerbRadShift : Nat := 6

/-- `enum qb_pull_dt_e`. -/
def qbPullDtChannel : U8 := 0
def qbPullDtWorkqueue : U8 := 1
def qbPullDtFramequeue : U8 := 2

/-- `enum qbman_pull_type_e`. -/
inductive QbmanPullType where
  | prio
  | active
  | activeNoics
  deriving DecidableEq, Repr

def QbmanPullType.val : QbmanPullType → U8
  | .prio => 1
  | .active => 2
  | .activeNoics => 3

def qbmanPullDescClear : QbmanPullDesc := {}

def qbmanPullDescSetStorage (d : QbmanPullDesc) (storage : U64) (storagePhys : U64) (stash : Int) :
    QbmanPullDesc :=
  let d := { d with rspAddrVirt := storage }
  if storage = 0 then { d with verb := d.verb &&& ~~~((1 : U8) <<< qbVdqcrVerbRlsShift) }
  else
    let d := { d with verb := d.verb ||| (1 : U8) <<< qbVdqcrVerbRlsShift }
    let d := if stash ≠ 0 then { d with verb := d.verb ||| (1 : U8) <<< qbVdqcrVerbWaeShift }
      else { d with verb := d.verb &&& ~~~((1 : U8) <<< qbVdqcrVerbWaeShift) }
    { d with rspAddr := storagePhys }

def qbmanPullDescSetNumframes (d : QbmanPullDesc) (numframes : U8) : QbmanPullDesc :=
  { d with numf := numframes - 1 }

def qbmanPullDescSetToken (d : QbmanPullDesc) (token : U8) : QbmanPullDesc :=
  { d with tok := token }

def qbmanPullDescSetFq (d : QbmanPullDesc) (fqid : U32) : QbmanPullDesc :=
  let d := { d with verb := d.verb ||| (1 : U8) <<< qbVdqcrVerbDctShift }
  { d with verb := d.verb ||| qbPullDtFramequeue <<< qbVdqcrVerbDtShift, dqSrc := fqid }

def qbmanPullDescSetWq (d : QbmanPullDesc) (wqid : U32) (dct : QbmanPullType) : QbmanPullDesc :=
  let d := { d with verb := d.verb ||| dct.val <<< qbVdqcrVerbDctShift }
  { d with verb := d.verb ||| qbPullDtWorkqueue <<< qbVdqcrVerbDtShift, dqSrc := wqid }

def qbmanPullDescSetChannel (d : QbmanPullDesc) (chid : U32) (dct : QbmanPullType) :
    QbmanPullDesc :=
  let d := { d with verb := d.verb ||| dct.val <<< qbVdqcrVerbDctShift }
  { d with verb := d.verb ||| qbPullDtChannel <<< qbVdqcrVerbDtShift, dqSrc := chid }

def qbmanPullDescSetRad (d : QbmanPullDesc) (rad : Int) : QbmanPullDesc :=
  if d.verb &&& (1 : U8) <<< qbVdqcrVerbRlsShift ≠ 0 then
    if rad ≠ 0 then { d with verb := d.verb ||| (1 : U8) <<< qbVdqcrVerbRadShift }
    else { d with verb := d.verb &&& ~~~((1 : U8) <<< qbVdqcrVerbRadShift) }
  else d

/-- A call of one of the `qbman_pull_desc_set_*` functions. -/
inductive PullDescSet where
  | storage (storage : U64) (storagePhys : U64) (stash : Int)
  | numframes (numframes : U8)
  | token (token : U8)
  | fq (fqid : U32)
  | wq (wqid : U32) (dct : QbmanPullType)
  | channel (chid : U32) (dct : QbmanPullType)
  | rad (rad : Int)

namespace PullDescSet

def apply (d : QbmanPullDesc) : PullDescSet → QbmanPullDesc
  | storage v p st => qbmanPullDescSetStorage d v p st
  | numframes n => qbmanPullDescSetNumframes d n
  | token t => qbmanPullDescSetToken d t
  | fq f => qbmanPullDescSetFq d f
  | wq w t => qbmanPullDescSetWq d w t
  | channel c t => qbmanPullDescSetChannel d c t
  | rad r => qbmanPullDescSetRad d r

/-- The descriptor that a history of setter calls builds from the cleared one. -/
def build (sets : List PullDescSet) : QbmanPullDesc := sets.foldl apply qbmanPullDescClear

end PullDescSet

/-- The results go to a storage array (`RLS`), else to the ring. -/
def QbmanPullDesc.toStorage (d : QbmanPullDesc) : Bool := d.verb[4]

/-- What every setter keeps: the valid bit is clear, `RLS` is set if there is a storage address. -/
structure QbmanPullDesc.WF (d : QbmanPullDesc) : Prop where
  verb_bit : d.verb[7] = false
  storage : d.toStorage = true ↔ d.rspAddrVirt ≠ 0

theorem PullDescSet.apply_wf {d : QbmanPullDesc} (h : d.WF) (s : PullDescSet) : (s.apply d).WF := by
  obtain ⟨hbit, hsto⟩ := h
  rw [QbmanPullDesc.toStorage] at hsto
  cases s with
  | storage v p st =>
    simp only [apply, qbmanPullDescSetStorage]
    constructor
    · split
      · simp [hbit, qbVdqcrVerbRlsShift]
      · split <;> simp [hbit, qbVdqcrVerbRlsShift, qbVdqcrVerbWaeShift]
    · split
      · rename_i hv
        simp [QbmanPullDesc.toStorage, qbVdqcrVerbRlsShift, hv]
      · rename_i hv
        split
        · simpa [QbmanPullDesc.toStorage, qbVdqcrVerbRlsShift, qbVdqcrVerbWaeShift] using hv
        · simpa [QbmanPullDesc.toStorage, qbVdqcrVerbRlsShift, qbVdqcrVerbWaeShift] using hv
  | numframes n => exact ⟨hbit, hsto⟩
  | token t => exact ⟨hbit, hsto⟩
  | fq f =>
    constructor
    · simp [apply, qbmanPullDescSetFq, hbit, qbVdqcrVerbDctShift, qbVdqcrVerbDtShift,
        qbPullDtFramequeue]
    · simpa [QbmanPullDesc.toStorage, apply, qbmanPullDescSetFq, qbVdqcrVerbDctShift,
        qbVdqcrVerbDtShift, qbPullDtFramequeue] using hsto
  | wq w t =>
    constructor
    · cases t <;> simp [apply, qbmanPullDescSetWq, hbit, qbVdqcrVerbDctShift, qbVdqcrVerbDtShift,
        qbPullDtWorkqueue, QbmanPullType.val]
    · cases t <;> simpa [QbmanPullDesc.toStorage, apply, qbmanPullDescSetWq, qbVdqcrVerbDctShift,
        qbVdqcrVerbDtShift, qbPullDtWorkqueue, QbmanPullType.val] using hsto
  | channel c t =>
    constructor
    · cases t <;> simp [apply, qbmanPullDescSetChannel, hbit, qbVdqcrVerbDctShift,
        qbVdqcrVerbDtShift, qbPullDtChannel, QbmanPullType.val]
    · cases t <;> simpa [QbmanPullDesc.toStorage, apply, qbmanPullDescSetChannel,
        qbVdqcrVerbDctShift, qbVdqcrVerbDtShift, qbPullDtChannel, QbmanPullType.val] using hsto
  | rad r =>
    simp only [apply, qbmanPullDescSetRad]
    split
    · split
      · exact ⟨by simp [hbit, qbVdqcrVerbRadShift],
          by simpa [QbmanPullDesc.toStorage, qbVdqcrVerbRadShift] using hsto⟩
      · exact ⟨by simp [hbit, qbVdqcrVerbRadShift],
          by simpa [QbmanPullDesc.toStorage, qbVdqcrVerbRadShift] using hsto⟩
    · exact ⟨hbit, hsto⟩

/-- A descriptor that the clear function and setters built. -/
def QbmanPullDesc.Built (d : QbmanPullDesc) : Prop := ∃ sets, d = PullDescSet.build sets

theorem QbmanPullDesc.Built.wf {d : QbmanPullDesc} (h : d.Built) : d.WF := by
  obtain ⟨sets, rfl⟩ := h
  have key : ∀ d : QbmanPullDesc, d.WF → (sets.foldl PullDescSet.apply d).WF := by
    induction sets with
    | nil => exact fun d h => h
    | cons s sets ih => exact fun d h => ih _ (PullDescSet.apply_wf h s)
  exact key _ ⟨rfl, by decide⟩

/-- The first word of a well-formed descriptor has no valid bit, whatever its token. -/
theorem QbmanPullDesc.WF.validBit {d : QbmanPullDesc} (h : d.WF) : d.cl 0 &&& qbValidBit = 0 := by
  have hb : (d.cl 0).getLsbD 7 = false := by
    show (d.reserved ++ d.tok ++ d.numf ++ d.verb).getLsbD 7 = false
    rw [BitVec.getLsbD_append]
    simpa using h.verb_bit
  rw [and_validBit, hb]
  rfl

/-! ## Release descriptors -/

/-- `struct qbman_release_desc`, with the fields before its buffers. -/
structure QbmanReleaseDesc where
  verb : U8 := 0
  reserved : U8 := 0
  bpid : U16 := 0
  deriving DecidableEq

/-- `qb_cl(d)[0]`. -/
def QbmanReleaseDesc.cl0 (d : QbmanReleaseDesc) : U32 := d.bpid ++ d.reserved ++ d.verb

def qbBrRcValidShift : Nat := 5
def qbBrRcdiShift : Nat := 6

def qbmanReleaseDescClear : QbmanReleaseDesc := { verb := (1 : U8) <<< qbBrRcValidShift }

def qbmanReleaseDescSetBpid (d : QbmanReleaseDesc) (bpid : U16) : QbmanReleaseDesc :=
  { d with bpid := bpid }

def qbmanReleaseDescSetRcdi (d : QbmanReleaseDesc) (enable : Int) : QbmanReleaseDesc :=
  if enable ≠ 0 then { d with verb := d.verb ||| (1 : U8) <<< qbBrRcdiShift }
  else { d with verb := d.verb &&& ~~~((1 : U8) <<< qbBrRcdiShift) }

end Qbman
