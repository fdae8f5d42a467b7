import Qbman.Lib.Bytes
import Qbman.Mc

/-!
# The commands of the management API

A management function fills a few fields of the command that `qbman_swp_mc_start` hands out and
submits it with its verb (`McRequest`). `McApi` is a call of one of these functions.
-/

namespace Qbman

/-! ## Lines as bytes -/

/-- The bytes of a line. -/
def byteOf (l : Line) : Bytes.Mem := fun k => getByte (l (Fin.ofNat 16 (k / 4))) (k % 4)

/-- The line at an address of byte-addressed memory. -/
def lineAt (m : Bytes.Mem) (a : Nat) : Line := fun i => Bytes.load 32 m (a + 4 * i) 4

theorem byteOf_lineAt (m : Bytes.Mem) (a : Nat) {k : Nat} (hk : k < 64) :
    byteOf (lineAt m a) k = m (a + k) := by
  refine BitVec.eq_of_getLsbD_eq fun i hi => ?_
  have hword : k / 4 % 16 = k / 4 := Nat.mod_eq_of_lt (by omega)
  have hbyte : a + 4 * (k / 4) + (8 * (k % 4) + i) / 8 = a + k := by omega
  have hbit : (8 * (k % 4) + i) % 8 = i := by omega
  have hlt : 8 * (k % 4) + i < 32 ∧ 8 * (k % 4) + i < 8 * 4 := by omega
  rw [byteOf, getByte_getLsbD, lineAt, Bytes.load_getLsbD, Fin.val_ofNat, hword, hbyte, hbit,
    decide_eq_true hi, decide_eq_true hlt, Bool.true_and, Bool.true_and]

/-- A line is determined by its bytes. -/
theorem line_ext {l l' : Line} (h : ∀ k < 64, byteOf l k = byteOf l' k) : l = l' := by
  funext i
  refine BitVec.eq_of_getLsbD_eq fun j hj => ?_
  have hk := congrArg (·.getLsbD (j % 8)) (h (4 * i + j / 8) (by omega))
  have hword : Fin.ofNat 16 ((4 * i + j / 8) / 4) = i := Fin.ext (by
    rw [Fin.val_ofNat]
    omega)
  have hbit : 8 * ((4 * i + j / 8) % 4) + j % 8 = j := by omega
  simpa only [byteOf, hword, getByte_getLsbD, hbit, Nat.mod_lt j (show 0 < 8 by decide),
    decide_true, Bool.true_and] using hk

/-- `qbman_swp_mc_submit` writes one byte of the command. -/
theorem byteOf_mcSetVerb (l : Line) (verb : U8) (validBit : U32) {k : Nat} (hk : k < 64) :
    byteOf (mcSetVerb l verb validBit) k =
      if k = 0 then verb ||| validBit.setWidth 8 else byteOf l k := by
  unfold byteOf mcSetVerb
  have hword : k / 4 % 16 = k / 4 := Nat.mod_eq_of_lt (by omega)
  by_cases h : k / 4 = 0
  · have h0 : Fin.ofNat 16 (k / 4) = 0 := Fin.ext (by rw [Fin.val_ofNat, hword, h]; rfl)
    have hmod : k % 4 = k := by omega
    rw [h0, Function.update_self, getByte_setByte (by decide), hmod]
  · have h0 : Fin.ofNat 16 (k / 4) ≠ 0 := fun h' => h (by
      have := congrArg Fin.val h'
      rwa [Fin.val_ofNat, hword] at this)
    have hne : k ≠ 0 := by
      rintro rfl
      exact h rfl
    rw [Function.update_of_ne h0, if_neg hne]

/-- Submitting a command that is in byte-addressed memory. -/
theorem lineAt_store_verb (m : Bytes.Mem) (a : Nat) (verb : U8) (validBit : U32) :
    lineAt (Bytes.store m a 1 (verb ||| validBit.setWidth 8)) a =
      mcSetVerb (lineAt m a) verb validBit := by
  refine line_ext fun k hk => ?_
  rw [byteOf_lineAt _ _ hk, byteOf_mcSetVerb _ _ _ hk]
  by_cases h : k = 0
  · subst h
    rw [if_pos rfl, Bytes.store_of_mem (by omega) (by omega)]
    simp
  · rw [if_neg h, byteOf_lineAt _ _ hk, Bytes.store_of_not_mem (by omega)]

/-! ## Requests -/

/-- What a management function stores in the command, and the verb it submits it with. -/
structure McRequest where
  fields : List Bytes.Field
  verb : U8

/-- The command after the caller's stores to the line that `qbman_swp_mc_start` handed out. -/
def McRequest.fill (r : McRequest) (start : Line) : Line :=
  lineAt (Bytes.storeFields 0 r.fields (byteOf start)) 0

/-- The line that `qbman_swp_mc_submit` writes to the command register, for a command that was
handed out as `start`. -/
def McRequest.image (r : McRequest) (start : Line) (v : Bool) : Line :=
  mcSetVerb (r.fill start) r.verb (vbit v)

theorem McRequest.image_eq_lineAt (r : McRequest) (start : Line) (v : Bool) :
    r.image start v =
      lineAt (Bytes.store (Bytes.storeFields 0 r.fields (byteOf start)) 0 1
        (r.verb ||| (vbit v).setWidth 8)) 0 :=
  (lineAt_store_verb _ 0 r.verb (vbit v)).symm

def qbmanMcAcquire : U8 := 0x30
def qbmanWqchanConfigure : U8 := 0x46
def qbmanFqSchedule : U8 := 0x48
def qbmanFqForce : U8 := 0x49
def qbmanFqXon : U8 := 0x4d
def qbmanFqXoff : U8 := 0x4e
def qbmanBpQuery : U8 := 0x32
def qbmanFqQuery : U8 := 0x44
def qbmanFqQueryNp : U8 := 0x45
def qbmanWqQuery : U8 := 0x47
def qbmanCgrQuery : U8 := 0x51
def qbmanWredQuery : U8 := 0x54
def qbmanCgrStatQuery : U8 := 0x55
def qbmanCgrStatQueryClr : U8 := 0x56

/-- The command of `qbman_swp_acquire`; `none` is `-EINVAL`. -/
def qbmanSwpAcquireRequest (bpid : U16) (numBuffers : U32) : Option McRequest :=
  if numBuffers = 0 ∨ numBuffers > 7 then none
  else some { fields := [⟨2, 2, bpid⟩, ⟨4, 1, numBuffers.setWidth 8⟩], verb := qbmanMcAcquire }

def altFqFqidMask : U32 := 0x00FFFFFF

/-- The command of `qbman_swp_alt_fq_state`. -/
def qbmanSwpAltFqStateRequest (fqid : U32) (altFqVerb : U8) : McRequest :=
  { fields := [⟨4, 4, fqid &&& altFqFqidMask⟩], verb := altFqVerb }

def codeCdanWeEn : U8 := 0x1
def codeCdanWeCtx : U8 := 0x4

/-- The command of `qbman_swp_CDAN_set`. -/
def qbmanSwpCDANSetRequest (channelid : U16) (weMask cdanEn : U8) (ctx : U64) : McRequest :=
  { fields := [⟨2, 2, channelid⟩, ⟨4, 1, weMask⟩, ⟨5, 1, if cdanEn ≠ 0 then 1 else 0⟩, ⟨8, 8, ctx⟩]
    verb := qbmanWqchanConfigure }

/-- The command of the queries of a pool, congestion group or channel: its id is a 16-bit field. -/
def idQueryRequest (verb : U8) (id : U16) : McRequest := { fields := [⟨2, 2, id⟩], verb }

def qbmanBpQueryRequest (bpid : U32) : McRequest := idQueryRequest qbmanBpQuery (bpid.setWidth 16)

def qbmanCgrQueryRequest (cgid : U32) : McRequest := idQueryRequest qbmanCgrQuery (cgid.setWidth 16)

def qbmanCgrWredQueryRequest (cgid : U32) : McRequest :=
  idQueryRequest qbmanWredQuery (cgid.setWidth 16)

def qbmanWqchanQueryRequest (chanid : U16) : McRequest := idQueryRequest qbmanWqQuery chanid

/-- The command of `qbman_fq_query` and `qbman_fq_query_state`. -/
def fqQueryRequest (verb : U8) (fqid : U32) : McRequest := { fields := [⟨4, 4, fqid⟩], verb }

def qbmanFqQueryRequest (fqid : U32) : McRequest := fqQueryRequest qbmanFqQuery fqid

def qbmanFqQueryStateRequest (fqid : U32) : McRequest := fqQueryRequest qbmanFqQueryNp fqid

/-- The command of `qbman_cgr_statistics_query`: a `command_type` of 2 or more is not stored. -/
def qbmanCgrStatisticsQueryRequest (cgid : U32) (clear : Int) (commandType : U32) : McRequest :=
  { fields := ⟨2, 2, cgid.setWidth 16⟩ ::
      if commandType < 2 then [⟨5, 1, commandType.setWidth 8⟩] else []
    verb := if clear ≠ 0 then qbmanCgrStatQueryClr else qbmanCgrStatQuery }

/-- A call of a management function, with the arguments that its command depends on. -/
inductive McApi where
  | acquire (bpid : U16) (numBuffers : U32)
  | fqSchedule (fqid : U32)
  | fqForce (fqid : U32)
  | fqXon (fqid : U32)
  | fqXoff (fqid : U32)
  | cdanSetContext (channelid : U16) (ctx : U64)
  | cdanEnable (channelid : U16)
  | cdanDisable (channelid : U16)
  | cdanSetContextEnable (channelid : U16) (ctx : U64)
  | bpQuery (bpid : U32)
  | fqQuery (fqid : U32)
  | fqQueryState (fqid : U32)
  | cgrQuery (cgid : U32)
  | cgrWredQuery (cgid : U32)
  | cgrRejectStatistics (cgid : U32) (clear : Int)
  | ccgrRejectStatistics (cgid : U32) (clear : Int)
  | cqDequeueStatistics (cgid : U32) (clear : Int)
  | wqchanQuery (chanid : U16)
  deriving DecidableEq

namespace McApi

/-- The command of a call; `none` if the function rejects the arguments. -/
def request : McApi → Option McRequest
  | acquire b n => qbmanSwpAcquireRequest b n
  | fqSchedule f => some (qbmanSwpAltFqStateRequest f qbmanFqSchedule)
  | fqForce f => some (qbmanSwpAltFqStateRequest f qbmanFqForce)
  | fqXon f => some (qbmanSwpAltFqStateRequest f qbmanFqXon)
  | fqXoff f => some (qbmanSwpAltFqStateRequest f qbmanFqXoff)
  | cdanSetContext ch ctx => some (qbmanSwpCDANSetRequest ch codeCdanWeCtx 0 ctx)
  | cdanEnable ch => some (qbmanSwpCDANSetRequest ch codeCdanWeEn 1 0)
  | cdanDisable ch => some (qbmanSwpCDANSetRequest ch codeCdanWeEn 0 0)
  | cdanSetContextEnable ch ctx =>
    some (qbmanSwpCDANSetRequest ch (codeCdanWeEn ||| codeCdanWeCtx) 1 ctx)
  | bpQuery b => some (qbmanBpQueryRequest b)
  | fqQuery f => some (qbmanFqQueryRequest f)
  | fqQueryState f => some (qbmanFqQueryStateRequest f)
  | cgrQuery c => some (qbmanCgrQueryRequest c)
  | cgrWredQuery c => some (qbmanCgrWredQueryRequest c)
  | cgrRejectStatistics c cl => some (qbmanCgrStatisticsQueryRequest c cl 0xff)
  | ccgrRejectStatistics c cl => some (qbmanCgrStatisticsQueryRequest c cl 1)
  | cqDequeueStatistics c cl => some (qbmanCgrStatisticsQueryRequest c cl 0)
  | wqchanQuery ch => some (qbmanWqchanQueryRequest ch)

end McApi

end Qbman
