import Qbman.Acquire
import Qbman.Debug.Query
import Qbman.Mc.Decode

/-!
# The functions of the management API

The functions that return no more than a code (`qbman_swp_alt_fq_state`, `qbman_swp_CDAN_set` and
their wrappers), and what all functions have in common: the command that the hardware is sent
(`McApi.decode_command`) and the code that the caller gets for a response (`McApi.run_of_response`).
-/

namespace Qbman

/-- A function that turns the response into a code. -/
def mcCodeCall (req : McRequest) (p : QbmanSwp) (start : Line) (polls : Nat → Region) :
    Outcome Int :=
  let out := qbmanSwpMcComplete p (req.fill start) req.verb polls
  match out.ret with
  | none => { out with ret := - eIO }
  | some r => { out with ret := if mcRslt r ≠ qbmanMcRsltOk then - eIO else 0 }

section Functions

variable (p : QbmanSwp) (start : Line) (polls : Nat → Region)

def qbmanSwpAltFqState (fqid : U32) (altFqVerb : U8) : Outcome Int :=
  mcCodeCall (qbmanSwpAltFqStateRequest fqid altFqVerb) p start polls

def qbmanSwpFqSchedule (fqid : U32) : Outcome Int :=
  qbmanSwpAltFqState p start polls fqid qbmanFqSchedule

def qbmanSwpFqForce (fqid : U32) : Outcome Int := qbmanSwpAltFqState p start polls fqid qbmanFqForce

def qbmanSwpFqXon (fqid : U32) : Outcome Int := qbmanSwpAltFqState p start polls fqid qbmanFqXon

def qbmanSwpFqXoff (fqid : U32) : Outcome Int := qbmanSwpAltFqState p start polls fqid qbmanFqXoff

def qbmanSwpCDANSet (channelid : U16) (weMask cdanEn : U8) (ctx : U64) : Outcome Int :=
  mcCodeCall (qbmanSwpCDANSetRequest channelid weMask cdanEn ctx) p start polls

def qbmanSwpCDANSetContext (channelid : U16) (ctx : U64) : Outcome Int :=
  qbmanSwpCDANSet p start polls channelid codeCdanWeCtx 0 ctx

def qbmanSwpCDANEnable (channelid : U16) : Outcome Int :=
  qbmanSwpCDANSet p start polls channelid codeCdanWeEn 1 0

def qbmanSwpCDANDisable (channelid : U16) : Outcome Int :=
  qbmanSwpCDANSet p start polls channelid codeCdanWeEn 0 0

def qbmanSwpCDANSetContextEnable (channelid : U16) (ctx : U64) : Outcome Int :=
  qbmanSwpCDANSet p start polls channelid (codeCdanWeEn ||| codeCdanWeCtx) 1 ctx

end Functions

/-- The caller's memory that a management function may write, and what lies behind a response. -/
structure ApiMem where
  query : QueryMem
  buffers : Nat → U32
  after : Nat → U32

/-- What a management function leaves. -/
structure ApiOutcome where
  ret : Int
  swp : QbmanSwp
  accs : List Access
  mem : ApiMem

namespace McApi

section Run

variable (p : QbmanSwp) (start : Line) (polls : Nat → Region) (mem : ApiMem)

/-- A function that writes nothing of the caller's. -/
def ofCode (o : Outcome Int) : Option ApiOutcome := some ⟨o.ret, o.swp, o.accs, mem⟩

def ofQuery (o : Option QueryOutcome) : Option ApiOutcome :=
  o.map fun o => ⟨o.ret, o.swp, o.accs, { mem with query := o.mem }⟩

def ofStat (o : StatOutcome) : Option ApiOutcome :=
  some ⟨o.ret, o.swp, o.accs,
    { mem with query := { mem.query with frameCnt := o.frameCnt, byteCnt := o.byteCnt } }⟩

/-- A call; `none` if it reads through `NULL`. -/
def run : McApi → Option ApiOutcome
  | acquire bpid n =>
    let o := qbmanSwpAcquire p start polls mem.after bpid mem.buffers n
    some ⟨o.ret, o.swp, o.accs, { mem with buffers := o.buffers }⟩
  | fqSchedule f => ofCode mem (qbmanSwpFqSchedule p start polls f)
  | fqForce f => ofCode mem (qbmanSwpFqForce p start polls f)
  | fqXon f => ofCode mem (qbmanSwpFqXon p start polls f)
  | fqXoff f => ofCode mem (qbmanSwpFqXoff p start polls f)
  | cdanSetContext ch ctx => ofCode mem (qbmanSwpCDANSetContext p start polls ch ctx)
  | cdanEnable ch => ofCode mem (qbmanSwpCDANEnable p start polls ch)
  | cdanDisable ch => ofCode mem (qbmanSwpCDANDisable p start polls ch)
  | cdanSetContextEnable ch ctx => ofCode mem (qbmanSwpCDANSetContextEnable p start polls ch ctx)
  | bpQuery b => ofQuery mem (Debug.qbmanBpQuery p start polls b mem.query)
  | fqQuery f => ofQuery mem (Debug.qbmanFqQuery p start polls f mem.query)
  | fqQueryState f => ofQuery mem (Debug.qbmanFqQueryState p start polls f mem.query)
  | cgrQuery c => ofQuery mem (Debug.qbmanCgrQuery p start polls c mem.query)
  | cgrWredQuery c => ofQuery mem (Debug.qbmanCgrWredQuery p start polls c mem.query)
  | wqchanQuery ch => ofQuery mem (Debug.qbmanWqchanQuery p start polls ch mem.query)
  | cgrRejectStatistics c cl =>
    ofStat mem (qbmanCgrRejectStatistics p start polls c cl mem.query.frameCnt mem.query.byteCnt)
  | ccgrRejectStatistics c cl =>
    ofStat mem (qbmanCcgrRejectStatistics p start polls c cl mem.query.frameCnt mem.query.byteCnt)
  | cqDequeueStatistics c cl =>
    ofStat mem (qbmanCqDequeueStatistics p start polls c cl mem.query.frameCnt mem.query.byteCnt)

end Run

/-- The code for a response. -/
def code (a : McApi) (l : Line) : Int :=
  if mcRslt l ≠ qbmanMcRsltOk then - eIO
  else match a with
    | acquire _ _ => acquireNum l
    | _ => 0

/-- The response's valid bit does not matter. -/
theorem code_withoutValid (a : McApi) (l : Line) : a.code (withoutValid l) = a.code l := by
  have hrslt : mcRslt (withoutValid l) = mcRslt l := byteOf_withoutValid l (by decide)
  have hnum : acquireNum (withoutValid l) = acquireNum l :=
    congrArg BitVec.toNat (byteOf_withoutValid l (k := 4) (by decide))
  unfold code
  rw [hrslt, hnum]

section Response

variable {p : QbmanSwp} {start l : Line} {polls : Nat → Region} (mem : ApiMem) {r : McRequest}

theorem ofCode_of_response (h : (qbmanSwpMcComplete p (r.fill start) r.verb polls).ret = some l) :
    ∃ o, ofCode mem (mcCodeCall r p start polls) = some o ∧
      o.ret = (if mcRslt l ≠ qbmanMcRsltOk then - eIO else 0) ∧
      o.swp = (qbmanSwpMcComplete p (r.fill start) r.verb polls).swp ∧
      o.accs = (qbmanSwpMcComplete p (r.fill start) r.verb polls).accs := by
  refine ⟨_, rfl, ?_⟩
  simp only [mcCodeCall, h, and_self]

theorem ofQuery_of_response (h : (qbmanSwpMcComplete p (r.fill start) r.verb polls).ret = some l) :
    ∃ o, ofQuery mem (queryCopying r p start polls mem.query) = some o ∧
      o.ret = (if mcRslt l ≠ qbmanMcRsltOk then - eIO else 0) ∧
      o.swp = (qbmanSwpMcComplete p (r.fill start) r.verb polls).swp ∧
      o.accs = (qbmanSwpMcComplete p (r.fill start) r.verb polls).accs := by
  simp only [ofQuery, queryCopying, derefResponse, h, Option.map_some]
  exact ⟨_, rfl, rfl, rfl, rfl⟩

theorem ofStat_of_response {c : U32} {cl : Int} {ct : U32} {f b : U64}
    (h : (qbmanSwpMcComplete p ((qbmanCgrStatisticsQueryRequest c cl ct).fill start)
      (qbmanCgrStatisticsQueryRequest c cl ct).verb polls).ret = some l) :
    ∃ o, ofStat mem (qbmanCgrStatisticsQuery p start polls c cl ct f b) = some o ∧
      o.ret = (if mcRslt l ≠ qbmanMcRsltOk then - eIO else 0) ∧
      o.swp = (qbmanSwpMcComplete p ((qbmanCgrStatisticsQueryRequest c cl ct).fill start)
        (qbmanCgrStatisticsQueryRequest c cl ct).verb polls).swp ∧
      o.accs = (qbmanSwpMcComplete p ((qbmanCgrStatisticsQueryRequest c cl ct).fill start)
        (qbmanCgrStatisticsQueryRequest c cl ct).verb polls).accs := by
  refine ⟨_, rfl, ?_⟩
  simp only [qbmanCgrStatisticsQuery, h]
  split
  · exact ⟨rfl, rfl, rfl⟩
  · exact ⟨rfl, rfl, rfl⟩

/-- Every function submits its request and polls, and turns the response into its code. -/
theorem run_of_response {a : McApi} (hr : a.request = some r)
    (h : (qbmanSwpMcComplete p (r.fill start) r.verb polls).ret = some l) :
    ∃ o, a.run p start polls mem = some o ∧ o.ret = a.code l ∧
      o.swp = (qbmanSwpMcComplete p (r.fill start) r.verb polls).swp ∧
      o.accs = (qbmanSwpMcComplete p (r.fill start) r.verb polls).accs := by
  cases a with
  | acquire bpid n =>
    simp only [request, qbmanSwpAcquireRequest] at hr
    split at hr
    · cases hr
    · rename_i hn
      obtain rfl := Option.some.inj hr
      refine ⟨_, rfl, ?_⟩
      simp only [qbmanSwpAcquire, qbmanSwpAcquireRequest, if_neg hn, h, code]
      split
      · exact ⟨rfl, rfl, rfl⟩
      · exact ⟨rfl, rfl, rfl⟩
  | fqSchedule | fqForce | fqXon | fqXoff | cdanSetContext | cdanEnable | cdanDisable
  | cdanSetContextEnable =>
    obtain rfl := Option.some.inj hr
    exact ofCode_of_response mem h
  | bpQuery | fqQuery | fqQueryState | cgrQuery | cgrWredQuery | wqchanQuery =>
    obtain rfl := Option.some.inj hr
    exact ofQuery_of_response mem h
  | cgrRejectStatistics | ccgrRejectStatistics | cqDequeueStatistics =>
    obtain rfl := Option.some.inj hr
    exact ofStat_of_response mem h

end Response

/-! ## What the hardware is sent -/

/-- The arguments as the fields of the command hold them. -/
def narrow : McApi → McApi
  | fqSchedule f => fqSchedule (f &&& altFqFqidMask)
  | fqForce f => fqForce (f &&& altFqFqidMask)
  | fqXon f => fqXon (f &&& altFqFqidMask)
  | fqXoff f => fqXoff (f &&& altFqFqidMask)
  | bpQuery i => bpQuery ((i.setWidth 16).setWidth 32)
  | cgrQuery i => cgrQuery ((i.setWidth 16).setWidth 32)
  | cgrWredQuery i => cgrWredQuery ((i.setWidth 16).setWidth 32)
  | cgrRejectStatistics i c =>
      cgrRejectStatistics ((i.setWidth 16).setWidth 32) (if c = 0 then 0 else 1)
  | ccgrRejectStatistics i c =>
      ccgrRejectStatistics ((i.setWidth 16).setWidth 32) (if c = 0 then 0 else 1)
  | cqDequeueStatistics i c =>
      cqDequeueStatistics ((i.setWidth 16).setWidth 32) (if c = 0 then 0 else 1)
  | a => a

/-- The call that the hardware sees. -/
def sent (a : McApi) : McApi := a.narrow.asked

theorem setWidth_narrow (i : U32) :
    (((i.setWidth 16).setWidth 32 : U32)).setWidth 16 = i.setWidth 16 := by
  bv_omega

theorem narrow_lt (i : U32) : ((i.setWidth 16).setWidth 32 : U32).toNat < 2 ^ 16 := by
  bv_omega

theorem mask_mask (f : U32) : f &&& altFqFqidMask &&& altFqFqidMask = f &&& altFqFqidMask := by
  rw [BitVec.and_assoc, BitVec.and_self]

theorem statistics_narrow (i : U32) (c : Int) (ct : U32) :
    qbmanCgrStatisticsQueryRequest ((i.setWidth 16).setWidth 32) (if c = 0 then 0 else 1) ct =
      qbmanCgrStatisticsQueryRequest i c ct := by
  unfold qbmanCgrStatisticsQueryRequest
  rw [setWidth_narrow]
  by_cases h : c = 0 <;> simp [h]

theorem request_narrow (a : McApi) : a.narrow.request = a.request := by
  cases a <;> simp [narrow, request, qbmanSwpAltFqStateRequest, mask_mask, qbmanBpQueryRequest,
    qbmanCgrQueryRequest, qbmanCgrWredQueryRequest, statistics_narrow]

/-- The hardware reads the call from the command of any call. -/
theorem decode_sent {a : McApi} {r : McRequest} (hr : a.request = some r) (v : Bool) :
    decode (bytes r v) = some a.sent := by
  have hmask (f : U32) : (f &&& altFqFqidMask).toNat < 2 ^ 24 := by
    rw [Words.toNat_and_mask f altFqFqidMask (k := 24) (by decide)]
    exact Nat.mod_lt _ (by decide)
  have hflag (c : Int) : (if c = 0 then 0 else 1 : Int) = 0 ∨
      (if c = 0 then 0 else 1 : Int) = 1 := by
    split
    · exact .inl rfl
    · exact .inr rfl
  have hr' : a.narrow.request = some r := (request_narrow a).trans hr
  cases a with
  | fqQuery f =>
    obtain rfl := Option.some.inj hr
    rw [decode, verb_bytes (c := qbmanFqQuery) rfl (by decide) v, qbmanFqQueryRequest, load_fqQuery]
    rfl
  | fqQueryState f =>
    obtain rfl := Option.some.inj hr
    rw [decode, verb_bytes (c := qbmanFqQueryNp) rfl (by decide) v, qbmanFqQueryStateRequest,
      load_fqQuery]
    rfl
  | acquire b n =>
    refine decode_bytes hr' ?_ v
    simp only [request, qbmanSwpAcquireRequest] at hr
    split at hr
    · cases hr
    · rename_i hn
      rw [not_or, BitVec.not_lt] at hn
      exact hn
  | fqSchedule f => exact decode_bytes hr' (hmask f) v
  | fqForce f => exact decode_bytes hr' (hmask f) v
  | fqXon f => exact decode_bytes hr' (hmask f) v
  | fqXoff f => exact decode_bytes hr' (hmask f) v
  | bpQuery i => exact decode_bytes hr' (narrow_lt i) v
  | cgrQuery i => exact decode_bytes hr' (narrow_lt i) v
  | cgrWredQuery i => exact decode_bytes hr' (narrow_lt i) v
  | cgrRejectStatistics i c => exact decode_bytes hr' ⟨narrow_lt i, hflag c⟩ v
  | ccgrRejectStatistics i c => exact decode_bytes hr' ⟨narrow_lt i, hflag c⟩ v
  | cqDequeueStatistics i c => exact decode_bytes hr' ⟨narrow_lt i, hflag c⟩ v
  | cdanSetContext ch ctx => exact decode_bytes hr' trivial v
  | cdanEnable ch => exact decode_bytes hr' trivial v
  | cdanDisable ch => exact decode_bytes hr' trivial v
  | cdanSetContextEnable ch ctx => exact decode_bytes hr' trivial v
  | wqchanQuery ch => exact decode_bytes hr' trivial v

/-- The verbs of the management commands. -/
def verbs : List U8 :=
  [qbmanMcAcquire, qbmanWqchanConfigure, qbmanFqSchedule, qbmanFqForce, qbmanFqXon, qbmanFqXoff,
    qbmanBpQuery, qbmanFqQuery, qbmanFqQueryNp, qbmanWqQuery, qbmanCgrQuery, qbmanWredQuery,
    qbmanCgrStatQuery, qbmanCgrStatQueryClr]

theorem request_verb_mem {a : McApi} {r : McRequest} (hr : a.request = some r) :
    r.verb ∈ verbs := by
  cases a with
  | acquire b n =>
    simp only [request, qbmanSwpAcquireRequest] at hr
    split at hr
    · cases hr
    · obtain rfl := Option.some.inj hr
      simp [verbs]
  | cgrRejectStatistics i c | ccgrRejectStatistics i c | cqDequeueStatistics i c =>
    obtain rfl := Option.some.inj hr
    by_cases h : c = 0 <;> simp [verbs, qbmanCgrStatisticsQueryRequest, h]
  | _ =>
    obtain rfl := Option.some.inj hr
    simp [verbs, qbmanSwpAltFqStateRequest, qbmanSwpCDANSetRequest, qbmanBpQueryRequest,
      qbmanFqQueryRequest, qbmanFqQueryStateRequest, qbmanCgrQueryRequest, qbmanCgrWredQueryRequest,
      qbmanWqchanQueryRequest, idQueryRequest, fqQueryRequest]

/-- They have no valid bit. -/
theorem request_verb {a : McApi} {r : McRequest} (hr : a.request = some r) :
    r.verb.getLsbD 7 = false :=
  (by decide : ∀ v ∈ verbs, v.getLsbD 7 = false) _ (request_verb_mem hr)

/-- The line of a command that was handed out all-zero names the call that the hardware sees. -/
theorem decode_command {a : McApi} {r : McRequest} (hr : a.request = some r) (v : Bool) :
    decode (byteOf (r.image (fun _ => 0) v)) = some a.sent := by
  rw [← decode_sent hr v]
  refine decode_congr ?_ fun k _ hk => byteOf_image r v hk
  rw [byteOf_image r v (by decide)]

end McApi

end Qbman
