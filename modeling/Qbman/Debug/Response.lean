import Qbman.Debug.Fields
import Qbman.Debug.Query
import Qbman.Debug.Thresh

/-!
# What the queries tell the caller

A query copies the response of 64 bytes into the caller's structure, and getters read the members of
the structure. The six structures are written here with all members that a getter reads; a threshold
is a mantissa and an exponent, some members have fields of single bits, and the rest of the response
is arbitrary. After a query the getters return what the response carries (`query_reads`).
-/

namespace Qbman

open BitField (Member)

/-! ## The getters of whole members -/

def qbmanBpGetSwdet (r : Line) : Option U16 := qbmanBpThreshToValue (Bytes.load 16 (byteOf r) 16 2)

def qbmanBpGetSwdxt (r : Line) : Option U16 := qbmanBpThreshToValue (Bytes.load 16 (byteOf r) 18 2)

def qbmanBpGetHwdet (r : Line) : Option U16 := qbmanBpThreshToValue (Bytes.load 16 (byteOf r) 20 2)

def qbmanBpGetHwdxt (r : Line) : Option U16 := qbmanBpThreshToValue (Bytes.load 16 (byteOf r) 22 2)

def qbmanBpGetSwset (r : Line) : Option U16 := qbmanBpThreshToValue (Bytes.load 16 (byteOf r) 24 2)

def qbmanBpGetSwsxt (r : Line) : Option U16 := qbmanBpThreshToValue (Bytes.load 16 (byteOf r) 26 2)

def qbmanBpGetVbpid (r : Line) : U16 := Bytes.load 16 (byteOf r) 28 2

def qbmanBpGetBpscnAddr (r : Line) : U64 := Bytes.load 64 (byteOf r) 32 8

def qbmanBpGetBpscnCtx (r : Line) : U64 := Bytes.load 64 (byteOf r) 40 8

def qbmanBpGetHwTarg (r : Line) : U16 := Bytes.load 16 (byteOf r) 48 2

def qbmanBpNumFreeBufs (r : Line) : U32 := Bytes.load 32 (byteOf r) 8 4

def qbmanBpGetHdptr (r : Line) : U32 := Bytes.load 32 (byteOf r) 12 4

def qbmanBpGetSdcnt (r : Line) : U32 := (Bytes.load 8 (byteOf r) 52 1).setWidth 32

def qbmanBpGetHdcnt (r : Line) : U32 := (Bytes.load 8 (byteOf r) 53 1).setWidth 32

def qbmanBpGetSscnt (r : Line) : U32 := (Bytes.load 8 (byteOf r) 54 1).setWidth 32

def qbmanFqAttrGetFqctrl (r : Line) : U8 := Bytes.load 8 (byteOf r) 15 1

def qbmanFqAttrGetCgrid (r : Line) : U16 := Bytes.load 16 (byteOf r) 10 2

def qbmanFqAttrGetDestwq (r : Line) : U16 := Bytes.load 16 (byteOf r) 12 2

def qbmanFqAttrGetTdthresh (r : Line) : Option U16 :=
  qbmanThreshToValue (Bytes.load 16 (byteOf r) 18 2)

def qbmanFqAttrGetVfqid (r : Line) : U32 := Bytes.load 32 (byteOf r) 36 4 &&& 0x00FFFFFF

def qbmanFqAttrGetErfqid (r : Line) : U32 := Bytes.load 32 (byteOf r) 40 4 &&& 0x00FFFFFF

def qbmanFqAttrGetOpridsz (r : Line) : U16 := Bytes.load 16 (byteOf r) 44 2

def qbmanFqStateFrameCount (r : Line) : U32 := Bytes.load 32 (byteOf r) 24 4 &&& 0x00FFFFFF

def qbmanFqStateByteCount (r : Line) : U32 := Bytes.load 32 (byteOf r) 28 4

def qbmanCgrAttrGetCsThres (r : Line) : Option U16 :=
  qbmanThreshToValue (Bytes.load 16 (byteOf r) 18 2)

def qbmanCgrAttrGetCsThresX (r : Line) : Option U16 :=
  qbmanThreshToValue (Bytes.load 16 (byteOf r) 20 2)

def qbmanCgrAttrGetTdThres (r : Line) : Option U16 :=
  qbmanThreshToValue (Bytes.load 16 (byteOf r) 22 2)

/-- `r->edp[idx] & 1`; `none` behind the array. -/
def qbmanCgrAttrWredGetEdp (r : Line) (idx : U32) : Option Int :=
  if idx.toNat < 7 then some (Bytes.load 8 (byteOf r) (8 + idx.toNat) 1 &&& 1).toNat else none

/-- `r->wred_parm_dp[idx]`; `none` behind the array. -/
def qbmanCgrAttrWredGetParmDp (r : Line) (idx : U32) : Option U32 :=
  if idx.toNat < 7 then some (Bytes.load 32 (byteOf r) (16 + 4 * idx.toNat) 4) else none

/-- `r->wq_len[wq] & 0x00FFFFFF`; `none` outside the array. -/
def qbmanWqchanAttrGetWqlen (r : Line) (wq : Int) : Option U32 :=
  if 0 ≤ wq ∧ wq < 8 then some (Bytes.load 32 (byteOf r) (32 + 4 * wq.toNat) 4 &&& 0x00FFFFFF)
  else none

def qbmanWqchanAttrGetCdanCtx (r : Line) : U64 := Bytes.load 64 (byteOf r) 8 8

def qbmanWqchanAttrGetCdanWqid (r : Line) : U16 := Bytes.load 16 (byteOf r) 6 2

def qbmanWqchanAttrGetCtrl (r : Line) : U8 := Bytes.load 8 (byteOf r) 5 1

def qbmanWqchanAttrGetChanid (r : Line) : U16 := Bytes.load 16 (byteOf r) 2 2

/-! ## What a response carries -/

/-- A mantissa and an exponent of `k` bits. -/
structure Threshold (k : Nat) where
  mantissa : BitVec 8
  exponent : BitVec k

namespace Threshold

/-- A threshold of a buffer pool at an offset. -/
def bp (off : Nat) (t : Threshold 4) : Member := ⟨off, 2, [⟨0, 8, t.mantissa⟩, ⟨8, 4, t.exponent⟩]⟩

/-- A threshold of a queue or a congestion group. -/
def td (off : Nat) (t : Threshold 5) : Member := ⟨off, 2, [⟨0, 5, t.exponent⟩, ⟨5, 8, t.mantissa⟩]⟩

/-- The getter returns the value if it has a place in 16 bits. -/
def Read {k : Nat} (t : Threshold k) (v : Option U16) : Prop :=
  t.mantissa.toNat * 2 ^ t.exponent.toNat < 2 ^ 16 →
    ThreshExact v t.mantissa.toNat t.exponent.toNat

end Threshold

structure BpResponse where
  packed : BpValues
  fill : U32
  hdptr : U32
  swdet : Threshold 4
  swdxt : Threshold 4
  hwdet : Threshold 4
  hwdxt : Threshold 4
  swset : Threshold 4
  swsxt : Threshold 4
  vbpid : U16
  bpscnAddr : U64
  bpscnCtx : U64
  hwTarg : U16
  sdcnt : U8
  hdcnt : U8
  sscnt : U8

structure FqResponse where
  packed : FqValues
  cgid : U16
  destWq : U16
  fqCtrl : U8
  tdThresh : Threshold 5
  vfqid : BitVec 24
  fqidEr : BitVec 24
  opridsz : U16

structure FqStateResponse where
  packed : FqStateValues
  frmCnt : BitVec 24
  byteCnt : U32

structure CgrResponse where
  packed : CgrValues
  csThres : Threshold 5
  csThresX : Threshold 5
  tdThres : Threshold 5

structure WredResponse where
  edp : Fin 7 → BitVec 1
  wredParmDp : Fin 7 → U32

structure WqchanResponse where
  chid : U16
  ctrl : U8
  cdanWqid : U16
  cdanCtx : U64
  wqLen : Fin 8 → BitVec 24

/-- What a response to one of the six queries carries. -/
inductive QueryResponse where
  | bp (v : BpResponse)
  | fq (v : FqResponse)
  | fqState (v : FqStateResponse)
  | cgr (v : CgrResponse)
  | cgrWred (v : WredResponse)
  | wqchan (v : WqchanResponse)

namespace QueryResponse

/-- The members of the structure that a response carries values in. -/
def members : QueryResponse → List Member
  | bp v => v.packed.members ++
      [.whole 8 4 v.fill, .whole 12 4 v.hdptr, v.swdet.bp 16, v.swdxt.bp 18,
      v.hwdet.bp 20, v.hwdxt.bp 22, v.swset.bp 24, v.swsxt.bp 26, .whole 28 2 v.vbpid,
      .whole 32 8 v.bpscnAddr, .whole 40 8 v.bpscnCtx, .whole 48 2 v.hwTarg, .whole 52 1 v.sdcnt,
      .whole 53 1 v.hdcnt, .whole 54 1 v.sscnt]
  | fq v => v.packed.members ++ [.whole 10 2 v.cgid, .whole 12 2 v.destWq, .whole 15 1 v.fqCtrl,
      v.tdThresh.td 18, ⟨36, 4, [⟨0, 24, v.vfqid⟩]⟩, ⟨40, 4, [⟨0, 24, v.fqidEr⟩]⟩,
      .whole 44 2 v.opridsz]
  | fqState v => v.packed.members ++ [⟨24, 4, [⟨0, 24, v.frmCnt⟩]⟩, .whole 28 4 v.byteCnt]
  | cgr v => v.packed.members ++ [v.csThres.td 18, v.csThresX.td 20, v.tdThres.td 22]
  | cgrWred v => ((List.finRange 7).map fun k => ⟨8 + k, 1, [⟨0, 1, v.edp k⟩]⟩) ++
      (List.finRange 7).map fun k => .whole (16 + 4 * k) 4 (v.wredParmDp k)
  | wqchan v => [.whole 2 2 v.chid, .whole 5 1 v.ctrl, .whole 6 2 v.cdanWqid,
      .whole 8 8 v.cdanCtx] ++
      (List.finRange 8).map fun k => ⟨32 + 4 * k, 4, [⟨0, 24, v.wqLen k⟩]⟩

/-- A response with a result code, over the rest of its bytes. -/
def line (rslt : U8) (rest : Line) (v : QueryResponse) : Line :=
  packLine (.whole 1 1 rslt :: v.members) rest

variable (v : QueryResponse) (rslt : U8) (rest : Line)

/-- The fields of the members that are not one value. -/
theorem fields_laid : ∀ p ∈ v.members, p.fields.Pairwise BitField.Field.Apart ∧
    ∀ f ∈ p.fields, f.lo + f.width ≤ 8 * p.len := by
  have hpacked : ∀ {ps qs : List Member}, BitField.Laid 64 ps →
      (∀ p ∈ qs, p.fields.Pairwise BitField.Field.Apart ∧
        ∀ f ∈ p.fields, f.lo + f.width ≤ 8 * p.len) →
      ∀ p ∈ ps ++ qs, p.fields.Pairwise BitField.Field.Apart ∧
        ∀ f ∈ p.fields, f.lo + f.width ≤ 8 * p.len := by
    intro ps qs h hqs p hp
    rcases List.mem_append.mp hp with hp | hp
    · exact ⟨h.fields p hp, h.fieldsWithin p hp⟩
    · exact hqs p hp
  cases v with
  | bp v =>
    refine hpacked v.packed.laid ?_
    simp [Member.whole, Threshold.bp, BitField.Field.Apart]
  | fq v =>
    refine hpacked v.packed.laid ?_
    simp [Member.whole, Threshold.td, BitField.Field.Apart]
  | fqState v =>
    refine hpacked v.packed.laid ?_
    simp [Member.whole]
  | cgr v =>
    refine hpacked v.packed.laid ?_
    simp [Threshold.td, BitField.Field.Apart]
  | cgrWred v => simp [members, Member.whole, or_imp, forall_and]
  | wqchan v => simp [members, Member.whole, or_imp, forall_and]

/-- No two members of a response overlap, and none is behind the response. -/
theorem laid : BitField.Laid 64 (.whole 1 1 rslt :: v.members) where
  apart := by
    cases v <;> simp [members, Member.whole, BpValues.members, FqValues.members,
      FqStateValues.members, CgrValues.members, Threshold.bp, Threshold.td, List.finRange_succ]
  within := by
    cases v <;> simp [members, Member.whole, BpValues.members, FqValues.members,
      FqStateValues.members, CgrValues.members, Threshold.bp, Threshold.td, List.finRange_succ]
  fields p hp := by
    rcases List.mem_cons.mp hp with rfl | hp
    · exact List.pairwise_singleton _ _
    · exact (v.fields_laid p hp).1
  fieldsWithin p hp := by
    rcases List.mem_cons.mp hp with rfl | hp
    · simp [Member.whole]
    · exact (v.fields_laid p hp).2

/-- The fields of a member are in the response. -/
theorem line_holds {p : Member} (hp : p ∈ v.members) :
    BitField.Holds p.fields (Bytes.load (8 * p.len) (byteOf (v.line rslt rest)) p.off p.len) :=
  packLine_holds (v.laid rslt) (List.mem_cons_of_mem _ hp) rest

/-- A member that is one value. -/
theorem load_whole (off len : Nat) (x : BitVec (8 * len))
    (hp : Member.whole off len x ∈ v.members) :
    Bytes.load (8 * len) (byteOf (v.line rslt rest)) off len = x :=
  (v.line_holds rslt rest hp).eq_of_whole (List.mem_singleton_self _)

theorem mcRslt_line : mcRslt (v.line rslt rest) = rslt := by
  have hload : Bytes.load 8 (byteOf (v.line rslt rest)) 1 1 = rslt :=
    (packLine_holds (v.laid rslt) (List.mem_cons_self ..) rest).eq_of_whole
      (List.mem_singleton_self _)
  refine Eq.trans ?_ hload
  simp [Bytes.load, mcRslt]

/-- A member is the same whatever other members a response has. -/
theorem load_member {ps : List Member} (h : BitField.Laid 64 ps) {p : Member} (hp : p ∈ ps)
    (hp' : p ∈ v.members) : Bytes.load (8 * p.len) (byteOf (v.line rslt rest)) p.off p.len =
      Bytes.load (8 * p.len) (byteOf (packLine ps rest)) p.off p.len := by
  have hload : ∀ {qs : List Member}, BitField.Laid 64 qs → p ∈ qs →
      Bytes.load (8 * p.len) (byteOf (packLine qs rest)) p.off p.len =
        BitField.pack p.fields (Bytes.load (8 * p.len) (byteOf rest) (0 + p.off) p.len) := by
    intro qs hqs hmem
    rw [← BitField.load_packMembers hqs hmem]
    refine Bytes.load_congr fun k hk => ?_
    have := hqs.within p hmem
    rw [packLine, byteOf_lineAt _ _ (by omega), Nat.add_assoc]
  rw [hload h hp]
  exact hload (v.laid rslt) (List.mem_cons_of_mem _ hp')

end QueryResponse

namespace Threshold

variable {v : QueryResponse} (rslt : U8) (rest : Line)

theorem read_bp {off : Nat} (t : Threshold 4) (ht : t.bp off ∈ v.members) :
    t.Read (qbmanBpThreshToValue (Bytes.load 16 (byteOf (v.line rslt rest)) off 2)) := by
  have hholds := v.line_holds rslt rest ht
  have hmantissa : bpThreshMantissa (Bytes.load 16 (byteOf (v.line rslt rest)) off 2) =
      t.mantissa.toNat := congrArg BitVec.toNat (hholds ⟨0, 8, t.mantissa⟩ (by simp [bp])).2
  have hexponent : bpThreshExponent (Bytes.load 16 (byteOf (v.line rslt rest)) off 2) =
      t.exponent.toNat := congrArg BitVec.toNat (hholds ⟨8, 4, t.exponent⟩ (by simp [bp])).2
  intro hlt
  rw [← hmantissa, ← hexponent] at hlt ⊢
  exact (qbmanBpThreshToValue_exact _).mpr hlt

theorem read_td {off : Nat} (t : Threshold 5) (ht : t.td off ∈ v.members) :
    t.Read (qbmanThreshToValue (Bytes.load 16 (byteOf (v.line rslt rest)) off 2)) := by
  have hholds := v.line_holds rslt rest ht
  have hmantissa : threshMantissa (Bytes.load 16 (byteOf (v.line rslt rest)) off 2) =
      t.mantissa.toNat := congrArg BitVec.toNat (hholds ⟨5, 8, t.mantissa⟩ (by simp [td])).2
  have hexponent : threshExponent (Bytes.load 16 (byteOf (v.line rslt rest)) off 2) =
      t.exponent.toNat := congrArg BitVec.toNat (hholds ⟨0, 5, t.exponent⟩ (by simp [td])).2
  intro hlt
  rw [← hmantissa, ← hexponent] at hlt ⊢
  exact (qbmanThreshToValue_exact _).mpr hlt

end Threshold

/-! ## What the getters return -/

/-- `VA` is read as 0 whatever it is. -/
structure BpReads (v : BpResponse) (l : Line) : Prop where
  bdi : qbmanBpGetBdi (.ofLine l) = v.packed.bdi.toNat
  va : qbmanBpGetVa (.ofLine l) = 0
  wae : qbmanBpGetWae (.ofLine l) = v.packed.wae.toNat
  icid : qbmanBpGetIcid (.ofLine l) = v.packed.icid.setWidth 16
  pl : qbmanBpGetPl (.ofLine l) = v.packed.pl.toNat
  hasFreeBufs : qbmanBpHasFreeBufs (.ofLine l) = (~~~v.packed.noFreeBufs).toNat
  isDepleted : qbmanBpIsDepleted (.ofLine l) = v.packed.depleted.toNat
  isSurplus : qbmanBpIsSurplus (.ofLine l) = v.packed.surplus.toNat
  numFreeBufs : qbmanBpNumFreeBufs l = v.fill
  hdptr : qbmanBpGetHdptr l = v.hdptr
  swdet : v.swdet.Read (qbmanBpGetSwdet l)
  swdxt : v.swdxt.Read (qbmanBpGetSwdxt l)
  hwdet : v.hwdet.Read (qbmanBpGetHwdet l)
  hwdxt : v.hwdxt.Read (qbmanBpGetHwdxt l)
  swset : v.swset.Read (qbmanBpGetSwset l)
  swsxt : v.swsxt.Read (qbmanBpGetSwsxt l)
  vbpid : qbmanBpGetVbpid l = v.vbpid
  bpscnAddr : qbmanBpGetBpscnAddr l = v.bpscnAddr
  bpscnCtx : qbmanBpGetBpscnCtx l = v.bpscnCtx
  hwTarg : qbmanBpGetHwTarg l = v.hwTarg
  sdcnt : qbmanBpGetSdcnt l = v.sdcnt.setWidth 32
  hdcnt : qbmanBpGetHdcnt l = v.hdcnt.setWidth 32
  sscnt : qbmanBpGetSscnt l = v.sscnt.setWidth 32

structure FqReads (v : FqResponse) (l : Line) : Prop where
  packed : FqDecodes v.packed (.ofLine l)
  cgrid : qbmanFqAttrGetCgrid l = v.cgid
  destwq : qbmanFqAttrGetDestwq l = v.destWq
  fqctrl : qbmanFqAttrGetFqctrl l = v.fqCtrl
  tdthresh : v.tdThresh.Read (qbmanFqAttrGetTdthresh l)
  vfqid : qbmanFqAttrGetVfqid l = v.vfqid.setWidth 32
  erfqid : qbmanFqAttrGetErfqid l = v.fqidEr.setWidth 32
  opridsz : qbmanFqAttrGetOpridsz l = v.opridsz

structure FqStateReads (v : FqStateResponse) (l : Line) : Prop where
  packed : FqStateDecodes v.packed (.ofLine l)
  frameCount : qbmanFqStateFrameCount l = v.frmCnt.setWidth 32
  byteCount : qbmanFqStateByteCount l = v.byteCnt

structure CgrReads (v : CgrResponse) (l : Line) : Prop where
  packed : CgrDecodes v.packed (.ofLine l)
  csThres : v.csThres.Read (qbmanCgrAttrGetCsThres l)
  csThresX : v.csThresX.Read (qbmanCgrAttrGetCsThresX l)
  tdThres : v.tdThres.Read (qbmanCgrAttrGetTdThres l)

structure WredReads (v : WredResponse) (l : Line) : Prop where
  edp : ∀ k : Fin 7, qbmanCgrAttrWredGetEdp l (BitVec.ofNat 32 k) = some (v.edp k).toNat
  parmDp : ∀ k : Fin 7, qbmanCgrAttrWredGetParmDp l (BitVec.ofNat 32 k) = some (v.wredParmDp k)

structure WqchanReads (v : WqchanResponse) (l : Line) : Prop where
  chanid : qbmanWqchanAttrGetChanid l = v.chid
  ctrl : qbmanWqchanAttrGetCtrl l = v.ctrl
  cdanWqid : qbmanWqchanAttrGetCdanWqid l = v.cdanWqid
  cdanCtx : qbmanWqchanAttrGetCdanCtx l = v.cdanCtx
  wqlen : ∀ k : Fin 8, qbmanWqchanAttrGetWqlen l k = some ((v.wqLen k).setWidth 32)

/-- The getters for the query return what the response carries. -/
def QueryResponse.Reads : QueryResponse → Line → Prop
  | bp v => BpReads v
  | fq v => FqReads v
  | fqState v => FqStateReads v
  | cgr v => CgrReads v
  | cgrWred v => WredReads v
  | wqchan v => WqchanReads v

section

variable (rslt : U8) (rest : Line)

theorem BpResponse.reads (v : BpResponse) : BpReads v ((QueryResponse.bp v).line rslt rest) := by
  have hwhole := (QueryResponse.bp v).load_whole rslt rest
  have hmem : ∀ p ∈ v.packed.members, p ∈ (QueryResponse.bp v).members :=
    fun p hp => List.mem_append_left _ hp
  have hbdi : BitField.Holds v.packed.bdiFields
      (QbmanBpQueryRslt.ofLine ((QueryResponse.bp v).line rslt rest)).bdi :=
    (QueryResponse.bp v).line_holds rslt rest
      (hmem ⟨6, 1, v.packed.bdiFields⟩ (by simp [BpValues.members]))
  have hstate : BitField.Holds v.packed.stateFields
      (QbmanBpQueryRslt.ofLine ((QueryResponse.bp v).line rslt rest)).state :=
    (QueryResponse.bp v).line_holds rslt rest
      (hmem ⟨7, 1, v.packed.stateFields⟩ (by simp [BpValues.members]))
  have hicid : BitField.Holds v.packed.icidFields
      (QbmanBpQueryRslt.ofLine ((QueryResponse.bp v).line rslt rest)).icid :=
    (QueryResponse.bp v).line_holds rslt rest
      (hmem ⟨30, 2, v.packed.icidFields⟩ (by simp [BpValues.members]))
  constructor
  · exact maskShift_of_holds hbdi (v := v.packed.bdi) (by simp [BpValues.bdiFields]) (by decide)
  · exact qbmanBpGetVa_eq_zero _
  · exact maskShift_of_holds hbdi (v := v.packed.wae) (by simp [BpValues.bdiFields]) (by decide)
  · exact and_mask_of_holds hicid (v := v.packed.icid) (by simp [BpValues.icidFields]) (by decide)
  · exact maskShift_of_holds hicid (v := v.packed.pl) (by simp [BpValues.icidFields]) (by decide)
  · have hbit : (QbmanBpQueryRslt.ofLine ((QueryResponse.bp v).line rslt rest)).state &&& 0x1 =
        v.packed.noFreeBufs.setWidth 8 :=
      and_mask_of_holds hstate (by simp [BpValues.stateFields]) (by decide)
    rw [qbmanBpHasFreeBufs, hbit]
    exact not_setWidth v.packed.noFreeBufs
  · exact maskShift_of_holds hstate (v := v.packed.depleted) (by simp [BpValues.stateFields])
      (by decide)
  · exact maskShift_of_holds hstate (v := v.packed.surplus) (by simp [BpValues.stateFields])
      (by decide)
  · exact hwhole 8 4 v.fill (by simp [QueryResponse.members])
  · exact hwhole 12 4 v.hdptr (by simp [QueryResponse.members])
  · exact v.swdet.read_bp rslt rest (by simp [QueryResponse.members])
  · exact v.swdxt.read_bp rslt rest (by simp [QueryResponse.members])
  · exact v.hwdet.read_bp rslt rest (by simp [QueryResponse.members])
  · exact v.hwdxt.read_bp rslt rest (by simp [QueryResponse.members])
  · exact v.swset.read_bp rslt rest (by simp [QueryResponse.members])
  · exact v.swsxt.read_bp rslt rest (by simp [QueryResponse.members])
  · exact hwhole 28 2 v.vbpid (by simp [QueryResponse.members])
  · exact hwhole 32 8 v.bpscnAddr (by simp [QueryResponse.members])
  · exact hwhole 40 8 v.bpscnCtx (by simp [QueryResponse.members])
  · exact hwhole 48 2 v.hwTarg (by simp [QueryResponse.members])
  · exact congrArg (BitVec.setWidth 32) (hwhole 52 1 v.sdcnt (by simp [QueryResponse.members]))
  · exact congrArg (BitVec.setWidth 32) (hwhole 53 1 v.hdcnt (by simp [QueryResponse.members]))
  · exact congrArg (BitVec.setWidth 32) (hwhole 54 1 v.sscnt (by simp [QueryResponse.members]))

theorem FqResponse.reads (v : FqResponse) : FqReads v ((QueryResponse.fq v).line rslt rest) := by
  have hwhole := (QueryResponse.fq v).load_whole rslt rest
  have hpart := fun (p : Member) (hp : p ∈ v.packed.members) =>
    (QueryResponse.fq v).load_member rslt rest
    v.packed.laid hp (List.mem_append_left _ hp)
  have hpacked : QbmanFqQueryRslt.ofLine ((QueryResponse.fq v).line rslt rest) =
      .ofLine (packLine v.packed.members rest) := by
    have hoalOac := hpart ⟨20, 2, v.packed.oalOacFields⟩ (by simp [FqValues.members])
    have hmctl := hpart ⟨23, 1, v.packed.mctlFields⟩ (by simp [FqValues.members])
    have hicid := hpart ⟨32, 2, v.packed.icidFields⟩ (by simp [FqValues.members])
    exact QbmanFqQueryRslt.mk.injEq .. ▸ ⟨hoalOac, hmctl, hicid⟩
  constructor
  · rw [hpacked]
    exact v.packed.decodes rest
  · exact hwhole 10 2 v.cgid (by simp [QueryResponse.members])
  · exact hwhole 12 2 v.destWq (by simp [QueryResponse.members])
  · exact hwhole 15 1 v.fqCtrl (by simp [QueryResponse.members])
  · exact v.tdThresh.read_td rslt rest (by simp [QueryResponse.members])
  · exact and_mask_of_holds
      ((QueryResponse.fq v).line_holds rslt rest (p := ⟨36, 4, [⟨0, 24, v.vfqid⟩]⟩)
      (by simp [QueryResponse.members])) (List.mem_singleton_self _) (by decide)
  · exact and_mask_of_holds
      ((QueryResponse.fq v).line_holds rslt rest (p := ⟨40, 4, [⟨0, 24, v.fqidEr⟩]⟩)
      (by simp [QueryResponse.members])) (List.mem_singleton_self _) (by decide)
  · exact hwhole 44 2 v.opridsz (by simp [QueryResponse.members])

theorem FqStateResponse.reads (v : FqStateResponse) :
    FqStateReads v ((QueryResponse.fqState v).line rslt rest) := by
  have hpacked : QbmanFqQueryNpRslt.ofLine ((QueryResponse.fqState v).line rslt rest) =
      .ofLine (packLine v.packed.members rest) :=
    congrArg QbmanFqQueryNpRslt.mk ((QueryResponse.fqState v).load_member rslt rest v.packed.laid
      (p := ⟨2, 1, v.packed.st1Fields⟩) (List.mem_singleton_self _) (List.mem_cons_self ..))
  constructor
  · rw [hpacked]
    exact v.packed.decodes rest
  · exact and_mask_of_holds ((QueryResponse.fqState v).line_holds rslt rest
      (p := ⟨24, 4, [⟨0, 24, v.frmCnt⟩]⟩) (by simp [QueryResponse.members]))
        (List.mem_singleton_self _) (by decide)
  · exact (QueryResponse.fqState v).load_whole rslt rest 28 4 v.byteCnt
      (by simp [QueryResponse.members])

theorem CgrResponse.reads (v : CgrResponse) :
    CgrReads v ((QueryResponse.cgr v).line rslt rest) := by
  have hpart := fun (p : Member) (hp : p ∈ v.packed.members) =>
    (QueryResponse.cgr v).load_member rslt rest
    v.packed.laid hp (List.mem_append_left _ hp)
  have hpacked : QbmanCgrQueryRslt.ofLine ((QueryResponse.cgr v).line rslt rest) =
      .ofLine (packLine v.packed.members rest) := by
    have hctl1 := hpart ⟨8, 1, v.packed.ctl1Fields⟩ (by simp [CgrValues.members])
    have hmode := hpart ⟨14, 1, v.packed.modeFields⟩ (by simp [CgrValues.members])
    exact QbmanCgrQueryRslt.mk.injEq .. ▸ ⟨hctl1, hmode⟩
  constructor
  · rw [hpacked]
    exact v.packed.decodes rest
  · exact v.csThres.read_td rslt rest (by simp [QueryResponse.members])
  · exact v.csThresX.read_td rslt rest (by simp [QueryResponse.members])
  · exact v.tdThres.read_td rslt rest (by simp [QueryResponse.members])

theorem WredResponse.reads (v : WredResponse) :
    WredReads v ((QueryResponse.cgrWred v).line rslt rest) := by
  have hidx : ∀ k : Fin 7, (BitVec.ofNat 32 k).toNat = k := fun k =>
    (BitVec.toNat_ofNat ..).trans (Nat.mod_eq_of_lt (by omega))
  constructor
  · intro k
    have hmem : ⟨8 + k, 1, [⟨0, 1, v.edp k⟩]⟩ ∈ (QueryResponse.cgrWred v).members :=
      List.mem_append_left _ (List.mem_map_of_mem (List.mem_finRange k))
    have hholds := (QueryResponse.cgrWred v).line_holds rslt rest hmem
    have hbit := maskShift_of_holds hholds (v := v.edp k) (List.mem_singleton_self _) rfl
    rw [qbmanCgrAttrWredGetEdp, hidx, if_pos k.isLt]
    exact congrArg some hbit
  · intro k
    have hmem : Member.whole (16 + 4 * k) 4 (v.wredParmDp k) ∈ (QueryResponse.cgrWred v).members :=
      List.mem_append_right _ (List.mem_map_of_mem (List.mem_finRange k))
    rw [qbmanCgrAttrWredGetParmDp, hidx, if_pos k.isLt]
    exact congrArg some ((QueryResponse.cgrWred v).load_whole rslt rest _ _ _ hmem)

theorem WqchanResponse.reads (v : WqchanResponse) :
    WqchanReads v ((QueryResponse.wqchan v).line rslt rest) := by
  have hwhole := (QueryResponse.wqchan v).load_whole rslt rest
  constructor
  · exact hwhole 2 2 v.chid (by simp [QueryResponse.members])
  · exact hwhole 5 1 v.ctrl (by simp [QueryResponse.members])
  · exact hwhole 6 2 v.cdanWqid (by simp [QueryResponse.members])
  · exact hwhole 8 8 v.cdanCtx (by simp [QueryResponse.members])
  · intro k
    have hmem : ⟨32 + 4 * k, 4, [⟨0, 24, v.wqLen k⟩]⟩ ∈ (QueryResponse.wqchan v).members :=
      List.mem_append_right _ (List.mem_map_of_mem (List.mem_finRange k))
    have hholds := (QueryResponse.wqchan v).line_holds rslt rest hmem
    rw [qbmanWqchanAttrGetWqlen, if_pos (by omega)]
    exact congrArg some (and_mask_of_holds hholds (List.mem_singleton_self _) (by decide))

theorem QueryResponse.reads (v : QueryResponse) : v.Reads (v.line rslt rest) := by
  cases v with
  | bp v => exact v.reads rslt rest
  | fq v => exact v.reads rslt rest
  | fqState v => exact v.reads rslt rest
  | cgr v => exact v.reads rslt rest
  | cgrWred v => exact v.reads rslt rest
  | wqchan v => exact v.reads rslt rest

end

/-! ## A query -/

/-- The kind of response that a query asks for. -/
def Query.AsksFor : Query → QueryResponse → Prop
  | bp _, .bp _ => True
  | fq _, .fq _ => True
  | fqState _, .fqState _ => True
  | cgr _, .cgr _ => True
  | cgrWred _, .cgrWred _ => True
  | wqchan _, .wqchan _ => True
  | _, _ => False

theorem Query.AsksFor.copies {q : Query} {v : QueryResponse} (h : q.AsksFor v) :
    q.copies = true := by
  cases q with
  | cgrStatistics => cases v <;> exact h.elim
  | _ => rfl

/-- A query that got a response returns 0 for a success and `-EIO` else, and either way the getters
return what the response carries. -/
theorem query_reads {q : Query} {v : QueryResponse} (hq : q.AsksFor v) {p : QbmanSwp} {start : Line}
    {polls : Nat → Region} {rslt : U8} {rest : Line}
    (h : mcResponse p polls = some (v.line rslt rest)) (mem : QueryMem) :
    ∃ o, q.run p start polls mem = some o ∧
      o.ret = (if rslt = qbmanMcRsltOk then 0 else - eIO) ∧ v.Reads o.mem.rslt ∧
        o.mem.frameCnt = mem.frameCnt ∧ o.mem.byteCnt = mem.byteCnt := by
  have hret : (qbmanSwpMcComplete p (q.request.fill start) q.request.verb polls).ret =
      some (v.line rslt rest) := (qbmanSwpMcComplete_ret ..).trans h
  rw [Query.run_of_copies hq.copies]
  refine ⟨_, by simp only [queryCopying, derefResponse, hret, Option.map_some]; rfl, ?_,
    v.reads rslt rest, rfl, rfl⟩
  show (if mcRslt (v.line rslt rest) ≠ qbmanMcRsltOk then - eIO else 0) = _
  rw [v.mcRslt_line rslt rest, ite_not]

/-- A work queue channel whose queue 3 has 5 frames. -/
theorem query_reads_wqchan :
    let v : WqchanResponse := ⟨9, 1, 2, 3, fun k => if k = 3 then 5 else 0⟩
    let l := (QueryResponse.wqchan v).line 0xf0 fun _ => 1
    ∃ o, (Query.wqchan 9).run (swpRev4100 0 0x1000) (fun _ => 0)
      (fun _ a => l (Fin.ofNat 16 (a / 4)))
        ⟨fun _ => 0, 0, 0⟩ = some o ∧ o.ret = 0 ∧
      qbmanWqchanAttrGetWqlen o.mem.rslt 3 = some 5 := by
  intro v l
  have hline : ∀ i : Fin 16, Fin.ofNat 16 ((qbmanCenaSwpRr qbValidBit + 4 * i) / 4) = i := by decide
  have hfirst : mcOutcome (swpRev4100 0 0x1000) (fun _ a => l (Fin.ofNat 16 (a / 4))) 0 =
      some l := by
    have hpoll : Region.line (fun a => l (Fin.ofNat 16 (a / 4))) (qbmanCenaSwpRr qbValidBit) = l :=
      funext fun i => congrArg l (hline i)
    have hverb : l 0 &&& ~~~qbValidBit ≠ 0 := by decide
    show (qbmanSwpMcResult (swpRev4100 0 0x1000) _).ret = some l
    rw [qbmanSwpMcResult, if_neg (by decide)]
    show (if Region.line _ (qbmanCenaSwpRr qbValidBit) 0 &&& _ = 0 then _
      else _ : Outcome _).ret = _
    rw [hpoll, if_neg hverb]
    exact congrArg some hpoll
  obtain ⟨o, ho, hret, hreads, -⟩ := query_reads (q := .wqchan 9) (v := .wqchan v) trivial
    (mcResponse_of_first hfirst) ⟨fun _ => 0, 0, 0⟩
  exact ⟨o, ho, hret, hreads.wqlen 3⟩

end Qbman
