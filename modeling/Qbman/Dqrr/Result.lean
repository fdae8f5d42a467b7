import Qbman.Dqrr
import Qbman.Mc.Command

/-!
# What a dequeue result says

A result is a frame or a notification. `qbman_result_is_*` tell which one by the verb, and each kind
has functions that read its fields. `QbmanResult` is what a result says; the functions read it back
from any line that says it, whatever its valid bit and its reserved bytes (`qbmanResult_parse`).
-/

namespace Qbman

/-! ## The kind -/

def qbmanResultFqrn : U32 := 0x21
def qbmanResultFqrni : U32 := 0x22
def qbmanResultFqpn : U32 := 0x24
def qbmanResultFqdan : U32 := 0x25
def qbmanResultCdan : U32 := 0x26
def qbmanResultCscnMem : U32 := 0x27
def qbmanResultCgcu : U32 := 0x28
def qbmanResultBpscn : U32 := 0x29
def qbmanResultCscnWq : U32 := 0x2a

/-- `__qbman_result_is_x`. -/
def qbmanResultIsX (dq : Line) (x : U32) : Bool :=
  (dqVerb dq).setWidth 32 &&& qbmanResponseVerbMask = x

def qbmanResultIsDQ (dq : Line) : Bool := qbmanResultIsX dq qbmanResultDq

/-- `qbman_result_is_SCN`: a state change notification of one kind or another. -/
def qbmanResultIsSCN (dq : Line) : Bool := !qbmanResultIsDQ dq

def qbmanResultDQFlags (dq : Line) : U8 := dqStat dq

/-- `qbman_result_DQ_is_pull`: the volatile flag. -/
def qbmanResultDQIsPull (dq : Line) : Int :=
  ((qbmanResultDQFlags dq).setWidth 32 &&& qbmanDqStatVolatile).toInt

/-- `qbman_result_DQ_is_pull_complete`: the expired flag. -/
def qbmanResultDQIsPullComplete (dq : Line) : Int :=
  ((qbmanResultDQFlags dq).setWidth 32 &&& qbmanDqStatExpired).toInt

/-- The user's tests find the last result of a pull where the driver finds it. -/
theorem dqFinal_iff (dq : Line) : dqFinal dq = true ↔
    qbmanResultIsDQ dq = true ∧ qbmanResultDQIsPull dq ≠ 0 ∧
    qbmanResultDQIsPullComplete dq ≠ 0 := by
  have hint : ∀ x : U32, x.toInt ≠ 0 ↔ x ≠ 0 := fun x => by
    rw [← BitVec.toInt_zero (w := 32), BitVec.toInt_ne]
    rfl
  simp only [dqFinal, qbmanResultIsDQ, qbmanResultIsX, qbmanResultDQIsPull,
    qbmanResultDQIsPullComplete, qbmanResultDQFlags, Bool.and_eq_true, decide_eq_true_eq, and_assoc,
    hint]

def qbmanResultDQFqid (dq : Line) : U32 := Bytes.load 32 (byteOf dq) 8 4

/-- The frame descriptor is the second half of the line. -/
def qbmanResultDQFd (dq : Line) : QbmanFd := fun k => dq (Fin.ofNat 16 (k + 8))

/-! ## Notifications -/

/-- The notifications of queues, channels and congestion groups. -/
inductive ScnKind where
  | fqrn
  | fqrni
  | fqpn
  | fqdan
  | cdan
  | cscn
  deriving DecidableEq

/-- What a result says. -/
inductive QbmanResult where
  | dq (stat : U8) (seqnum oprid : U16) (tok : U8) (fqid byteCnt frmCnt : U32) (ctx : U64)
    (fd : QbmanFd)
  | scn (kind : ScnKind) (state : U8) (rid : U32) (ctx : U64)
  | bpscn (freeBufs depleted surplus : Bool) (bpid : BitVec 14) (ctx : U64)
  | cgcu (cgid : U16) (icnt : U64)

namespace QbmanResult

/-- A notification congestion groups write to memory, or to a work queue. -/
def verb (wq : Bool) : QbmanResult → U32
  | dq .. => qbmanResultDq
  | scn .fqrn .. => qbmanResultFqrn
  | scn .fqrni .. => qbmanResultFqrni
  | scn .fqpn .. => qbmanResultFqpn
  | scn .fqdan .. => qbmanResultFqdan
  | scn .cdan .. => qbmanResultCdan
  | scn .cscn .. => if wq then qbmanResultCscnWq else qbmanResultCscnMem
  | bpscn .. => qbmanResultBpscn
  | cgcu .. => qbmanResultCgcu

def scnFields (state : U8) (rid : U32) (ctx : U64) : List Bytes.Field :=
  [⟨2, 1, state⟩, ⟨4, 4, rid⟩, ⟨8, 8, ctx⟩]

/-- The fields behind the verb. -/
def body : QbmanResult → List Bytes.Field
  | dq stat seqnum oprid tok fqid byteCnt frmCnt ctx fd =>
    [⟨1, 1, stat⟩, ⟨2, 2, seqnum⟩, ⟨4, 2, oprid⟩, ⟨7, 1, tok⟩, ⟨8, 4, fqid⟩, ⟨16, 4, byteCnt⟩,
      ⟨20, 4, frmCnt⟩, ⟨24, 8, ctx⟩] ++ (List.finRange 8).map fun k => ⟨32 + 4 * k, 4, fd k⟩
  | scn _ state rid ctx => scnFields state rid ctx
  | bpscn free depleted surplus bpid ctx =>
    scnFields ((if free then 0 else 1) ||| (if depleted then 2 else 0) ||| if surplus then 4 else 0)
      (bpid.setWidth 32) ctx
  | cgcu cgid icnt => scnFields 0 (cgid.setWidth 32) icnt

def fields (r : QbmanResult) (vb wq : Bool) : List Bytes.Field :=
  ⟨0, 1, (r.verb wq).setWidth 8 ||| (vbit vb).setWidth 8⟩ :: r.body

/-- A line that says `r`, written over the memory `m`. -/
def line (m : Bytes.Mem) (vb wq : Bool) (r : QbmanResult) : Line :=
  lineAt (Bytes.storeFields 0 (r.fields vb wq) m) 0

variable (m : Bytes.Mem) (vb wq : Bool) (r : QbmanResult)

/-- The kind that a caller finds. -/
inductive Kind where
  | dq
  | scn (kind : ScnKind)
  | bpscn
  | cgcu
  deriving DecidableEq

def kind : QbmanResult → Kind
  | dq .. => .dq
  | scn k .. => .scn k
  | bpscn .. => .bpscn
  | cgcu .. => .cgcu

end QbmanResult

end Qbman
