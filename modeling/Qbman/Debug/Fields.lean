import Qbman.Lib.BitField
import Qbman.Lib.Words
import Qbman.Mc.Command

/-!
# The packed fields of the query results

The getters of `qbman_debug.c` take a field out of a member of the result with a mask and a shift.
`qbman_bp_get_va` shifts by `QB_BP_VA_MASK` in place of `QB_BP_VA_SHIFT`, so that it is constant.
All the others read back what is packed at their bits, whatever the rest of the response is
(`packedFields_decode_iff`).
-/

namespace Qbman

/-! ## The getters -/

/-- `(x & mask) >> shift` as an `int`, or without a shift for `shift = 0`. -/
def maskShift {w : Nat} (x mask : BitVec w) (shift : Nat) : Int := ((x &&& mask) >>> shift).toNat

/-- The members of `struct qbman_bp_query_rslt` that hold packed fields. -/
structure QbmanBpQueryRslt where
  bdi : U8
  state : U8
  icid : U16
  deriving DecidableEq

def QbmanBpQueryRslt.ofLine (l : Line) : QbmanBpQueryRslt where
  bdi := Bytes.load 8 (byteOf l) 6 1
  state := Bytes.load 8 (byteOf l) 7 1
  icid := Bytes.load 16 (byteOf l) 30 2

def qbBpVaShift : Nat := 1
def qbBpVaMask : U8 := 0x2
def qbBpWaeShift : Nat := 2
def qbBpWaeMask : U8 := 0x4
def qbBpPlShift : Nat := 15
def qbBpPlMask : U16 := 0x8000
def qbBpIcidMask : U16 := 0x7FFF

def qbmanBpGetBdi (r : QbmanBpQueryRslt) : Int := maskShift r.bdi 1 0

def qbmanBpGetVa (r : QbmanBpQueryRslt) : Int := maskShift r.bdi qbBpVaMask qbBpVaMask.toNat

def qbmanBpGetWae (r : QbmanBpQueryRslt) : Int := maskShift r.bdi qbBpWaeMask qbBpWaeShift

def qbmanBpGetIcid (r : QbmanBpQueryRslt) : U16 := r.icid &&& qbBpIcidMask

def qbmanBpGetPl (r : QbmanBpQueryRslt) : Int := maskShift r.icid qbBpPlMask qbBpPlShift

def qbmanBpHasFreeBufs (r : QbmanBpQueryRslt) : Int := if r.state &&& 0x1 = 0 then 1 else 0

def qbmanBpIsDepleted (r : QbmanBpQueryRslt) : Int := maskShift r.state 0x2 1

def qbmanBpIsSurplus (r : QbmanBpQueryRslt) : Int := maskShift r.state 0x4 2

/-- The members of `struct qbman_fq_query_rslt` that hold packed fields. -/
structure QbmanFqQueryRslt where
  oalOac : U16
  mctl : U8
  icid : U16
  deriving DecidableEq

def QbmanFqQueryRslt.ofLine (l : Line) : QbmanFqQueryRslt where
  oalOac := Bytes.load 16 (byteOf l) 20 2
  mctl := Bytes.load 8 (byteOf l) 23 1
  icid := Bytes.load 16 (byteOf l) 32 2

def qbmanFqAttrGetOaIcs (r : QbmanFqQueryRslt) : Int := (r.oalOac >>> 14 &&& 0x1).toNat

def qbmanFqAttrGetOaCgr (r : QbmanFqQueryRslt) : Int := (r.oalOac >>> 15).toNat

def qbmanFqAttrGetOal (r : QbmanFqQueryRslt) : U16 := r.oalOac &&& 0x0FFF

def qbmanFqAttrGetBdi (r : QbmanFqQueryRslt) : Int := maskShift r.mctl 0x1 0

def qbmanFqAttrGetFf (r : QbmanFqQueryRslt) : Int := maskShift r.mctl 0x2 1

def qbmanFqAttrGetVa (r : QbmanFqQueryRslt) : Int := maskShift r.mctl 0x4 2

def qbmanFqAttrGetPs (r : QbmanFqQueryRslt) : Int := maskShift r.mctl 0x8 3

def qbmanFqAttrGetPps (r : QbmanFqQueryRslt) : Int := maskShift r.mctl 0x30 4

def qbmanFqAttrGetIcid (r : QbmanFqQueryRslt) : U16 := r.icid &&& 0x7FFF

def qbmanFqAttrGetPl (r : QbmanFqQueryRslt) : Int := maskShift r.icid 0x8000 15

/-- The member of `struct qbman_fq_query_np_rslt` that holds packed fields. -/
structure QbmanFqQueryNpRslt where
  st1 : U8
  deriving DecidableEq

def QbmanFqQueryNpRslt.ofLine (l : Line) : QbmanFqQueryNpRslt where
  st1 := Bytes.load 8 (byteOf l) 2 1

def qbmanFqStateSchedstate (r : QbmanFqQueryNpRslt) : U8 := r.st1 &&& 0x7

def qbmanFqStateForceEligible (r : QbmanFqQueryNpRslt) : Int := maskShift r.st1 0x8 3

def qbmanFqStateXoff (r : QbmanFqQueryNpRslt) : Int := maskShift r.st1 0x10 4

def qbmanFqStateRetirementPending (r : QbmanFqQueryNpRslt) : Int := maskShift r.st1 0x20 5

def qbmanFqStateOverflowError (r : QbmanFqQueryNpRslt) : Int := maskShift r.st1 0x40 6

/-- The members of `struct qbman_cgr_query_rslt` that hold packed fields. -/
structure QbmanCgrQueryRslt where
  ctl1 : U8
  mode : U8
  deriving DecidableEq

def QbmanCgrQueryRslt.ofLine (l : Line) : QbmanCgrQueryRslt where
  ctl1 := Bytes.load 8 (byteOf l) 8 1
  mode := Bytes.load 8 (byteOf l) 14 1

def qbmanCgrGetCscnWqEnEnter (r : QbmanCgrQueryRslt) : Int := maskShift r.ctl1 0x1 0

def qbmanCgrGetCscnWqEnExit (r : QbmanCgrQueryRslt) : Int := maskShift r.ctl1 0x2 1

def qbmanCgrGetCscnWqIcd (r : QbmanCgrQueryRslt) : Int := maskShift r.ctl1 0x4 2

def qbmanCgrGetMode (r : QbmanCgrQueryRslt) : U8 := r.mode &&& 0x3

def qbmanCgrGetRejCntMode (r : QbmanCgrQueryRslt) : Int := maskShift r.mode 0x4 2

def qbmanCgrGetCscnBdi (r : QbmanCgrQueryRslt) : Int := maskShift r.mode 0x8 3

/-! ## The packed values -/

/-- The response with the fields of its members replaced. -/
def packLine (ps : List BitField.Member) (rest : Line) : Line :=
  lineAt (BitField.packMembers 0 ps (byteOf rest)) 0

structure BpValues where
  bdi : BitVec 1
  va : BitVec 1
  wae : BitVec 1
  noFreeBufs : BitVec 1
  depleted : BitVec 1
  surplus : BitVec 1
  icid : BitVec 15
  pl : BitVec 1
  deriving DecidableEq

namespace BpValues

variable (v : BpValues)

def bdiFields : List BitField.Field :=
  [⟨0, 1, v.bdi⟩, ⟨qbBpVaShift, 1, v.va⟩, ⟨qbBpWaeShift, 1, v.wae⟩]

def stateFields : List BitField.Field :=
  [⟨0, 1, v.noFreeBufs⟩, ⟨1, 1, v.depleted⟩, ⟨2, 1, v.surplus⟩]

def icidFields : List BitField.Field := [⟨0, 15, v.icid⟩, ⟨qbBpPlShift, 1, v.pl⟩]

def members : List BitField.Member :=
  [⟨6, 1, v.bdiFields⟩, ⟨7, 1, v.stateFields⟩, ⟨30, 2, v.icidFields⟩]

theorem laid : BitField.Laid 64 v.members where
  apart := by simp [members]
  within := by simp [members]
  fields := by
    simp [members, bdiFields, stateFields, icidFields, BitField.Field.Apart, qbBpVaShift,
      qbBpWaeShift, qbBpPlShift]
  fieldsWithin := by
    simp [members, bdiFields, stateFields, icidFields, qbBpVaShift, qbBpWaeShift, qbBpPlShift]

end BpValues

structure FqValues where
  oal : BitVec 12
  ics : BitVec 1
  cgr : BitVec 1
  bdi : BitVec 1
  ff : BitVec 1
  va : BitVec 1
  ps : BitVec 1
  pps : BitVec 2
  icid : BitVec 15
  pl : BitVec 1
  deriving DecidableEq

namespace FqValues

variable (v : FqValues)

def oalOacFields : List BitField.Field := [⟨0, 12, v.oal⟩, ⟨14, 1, v.ics⟩, ⟨15, 1, v.cgr⟩]

def mctlFields : List BitField.Field :=
  [⟨0, 1, v.bdi⟩, ⟨1, 1, v.ff⟩, ⟨2, 1, v.va⟩, ⟨3, 1, v.ps⟩, ⟨4, 2, v.pps⟩]

def icidFields : List BitField.Field := [⟨0, 15, v.icid⟩, ⟨15, 1, v.pl⟩]

def members : List BitField.Member :=
  [⟨20, 2, v.oalOacFields⟩, ⟨23, 1, v.mctlFields⟩, ⟨32, 2, v.icidFields⟩]

theorem laid : BitField.Laid 64 v.members where
  apart := by simp [members]
  within := by simp [members]
  fields := by simp [members, oalOacFields, mctlFields, icidFields, BitField.Field.Apart]
  fieldsWithin := by simp [members, oalOacFields, mctlFields, icidFields]

end FqValues

structure FqStateValues where
  schedstate : BitVec 3
  forceEligible : BitVec 1
  xoff : BitVec 1
  retirementPending : BitVec 1
  overflowError : BitVec 1
  deriving DecidableEq

namespace FqStateValues

variable (v : FqStateValues)

def st1Fields : List BitField.Field :=
  [⟨0, 3, v.schedstate⟩, ⟨3, 1, v.forceEligible⟩, ⟨4, 1, v.xoff⟩, ⟨5, 1, v.retirementPending⟩,
    ⟨6, 1, v.overflowError⟩]

def members : List BitField.Member := [⟨2, 1, v.st1Fields⟩]

theorem laid : BitField.Laid 64 v.members where
  apart := by simp [members]
  within := by simp [members]
  fields := by simp [members, st1Fields, BitField.Field.Apart]
  fieldsWithin := by simp [members, st1Fields]

end FqStateValues

structure CgrValues where
  cscnWqEnEnter : BitVec 1
  cscnWqEnExit : BitVec 1
  cscnWqIcd : BitVec 1
  mode : BitVec 2
  rejCntMode : BitVec 1
  cscnBdi : BitVec 1
  deriving DecidableEq

namespace CgrValues

variable (v : CgrValues)

def ctl1Fields : List BitField.Field :=
  [⟨0, 1, v.cscnWqEnEnter⟩, ⟨1, 1, v.cscnWqEnExit⟩, ⟨2, 1, v.cscnWqIcd⟩]

def modeFields : List BitField.Field :=
  [⟨0, 2, v.mode⟩, ⟨2, 1, v.rejCntMode⟩, ⟨3, 1, v.cscnBdi⟩]

def members : List BitField.Member := [⟨8, 1, v.ctl1Fields⟩, ⟨14, 1, v.modeFields⟩]

theorem laid : BitField.Laid 64 v.members where
  apart := by simp [members]
  within := by simp [members]
  fields := by simp [members, ctl1Fields, modeFields, BitField.Field.Apart]
  fieldsWithin := by simp [members, ctl1Fields, modeFields]

end CgrValues

/-! ## Reading back -/

/-- The getters return the values; the bit for the free buffers says that there are none. -/
structure BpDecodes (v : BpValues) (r : QbmanBpQueryRslt) : Prop where
  bdi : qbmanBpGetBdi r = v.bdi.toNat
  va : qbmanBpGetVa r = v.va.toNat
  wae : qbmanBpGetWae r = v.wae.toNat
  icid : qbmanBpGetIcid r = v.icid.setWidth 16
  pl : qbmanBpGetPl r = v.pl.toNat
  hasFreeBufs : qbmanBpHasFreeBufs r = (~~~v.noFreeBufs).toNat
  isDepleted : qbmanBpIsDepleted r = v.depleted.toNat
  isSurplus : qbmanBpIsSurplus r = v.surplus.toNat

structure FqDecodes (v : FqValues) (r : QbmanFqQueryRslt) : Prop where
  ics : qbmanFqAttrGetOaIcs r = v.ics.toNat
  cgr : qbmanFqAttrGetOaCgr r = v.cgr.toNat
  oal : qbmanFqAttrGetOal r = v.oal.setWidth 16
  bdi : qbmanFqAttrGetBdi r = v.bdi.toNat
  ff : qbmanFqAttrGetFf r = v.ff.toNat
  va : qbmanFqAttrGetVa r = v.va.toNat
  ps : qbmanFqAttrGetPs r = v.ps.toNat
  pps : qbmanFqAttrGetPps r = v.pps.toNat
  icid : qbmanFqAttrGetIcid r = v.icid.setWidth 16
  pl : qbmanFqAttrGetPl r = v.pl.toNat

structure FqStateDecodes (v : FqStateValues) (r : QbmanFqQueryNpRslt) : Prop where
  schedstate : qbmanFqStateSchedstate r = v.schedstate.setWidth 8
  forceEligible : qbmanFqStateForceEligible r = v.forceEligible.toNat
  xoff : qbmanFqStateXoff r = v.xoff.toNat
  retirementPending : qbmanFqStateRetirementPending r = v.retirementPending.toNat
  overflowError : qbmanFqStateOverflowError r = v.overflowError.toNat

structure CgrDecodes (v : CgrValues) (r : QbmanCgrQueryRslt) : Prop where
  cscnWqEnEnter : qbmanCgrGetCscnWqEnEnter r = v.cscnWqEnEnter.toNat
  cscnWqEnExit : qbmanCgrGetCscnWqEnExit r = v.cscnWqEnExit.toNat
  cscnWqIcd : qbmanCgrGetCscnWqIcd r = v.cscnWqIcd.toNat
  mode : qbmanCgrGetMode r = v.mode.setWidth 8
  rejCntMode : qbmanCgrGetRejCntMode r = v.rejCntMode.toNat
  cscnBdi : qbmanCgrGetCscnBdi r = v.cscnBdi.toNat

theorem packLine_holds {ps : List BitField.Member} {p : BitField.Member} (h : BitField.Laid 64 ps)
    (hp : p ∈ ps) (rest : Line) :
    BitField.Holds p.fields
      (Bytes.load (8 * p.len) (byteOf (packLine ps rest)) p.off p.len) := by
  have hbytes : Bytes.load (8 * p.len) (byteOf (packLine ps rest)) p.off p.len =
      Bytes.load (8 * p.len) (BitField.packMembers 0 ps (byteOf rest)) (0 + p.off) p.len := by
    refine Bytes.load_congr fun k hk => ?_
    have := h.within p hp
    rw [packLine, byteOf_lineAt _ _ (by omega), Nat.add_assoc]
  rw [hbytes]
  exact BitField.holds_packMembers h hp (byteOf rest)

section Getters

variable {w lo width : Nat} {fs : List BitField.Field} {x mask : BitVec w} {v : BitVec width}

/-- A getter with the mask and the shift of its field. -/
theorem maskShift_of_holds (h : BitField.Holds fs x) (hf : ⟨lo, width, v⟩ ∈ fs)
    (hmask : mask = BitField.mask w lo width) : maskShift x mask lo = v.toNat := by
  rw [maskShift, hmask, h.toNat_and_mask_shift hf]

/-- A getter with the mask of the lowest field. -/
theorem and_mask_of_holds (h : BitField.Holds fs x) (hf : ⟨0, width, v⟩ ∈ fs)
    (hmask : mask = BitField.mask w 0 width) : x &&& mask = v.setWidth w := by
  rw [← h.and_mask_shift hf, ← hmask, BitVec.ushiftRight_zero]

end Getters

theorem qbmanFqAttrGetOaIcs_eq (r : QbmanFqQueryRslt) :
    qbmanFqAttrGetOaIcs r = maskShift r.oalOac 0x4000 14 := by
  rw [qbmanFqAttrGetOaIcs, maskShift, BitVec.ushiftRight_and_distrib]
  rfl

/-- The topmost bit needs no mask. -/
theorem qbmanFqAttrGetOaCgr_eq (r : QbmanFqQueryRslt) :
    qbmanFqAttrGetOaCgr r = maskShift r.oalOac 0x8000 15 := by
  have hlt : (r.oalOac >>> 15).toNat < 2 := by
    have := r.oalOac.isLt
    rw [BitVec.toNat_ushiftRight, Nat.shiftRight_eq_div_pow]
    omega
  have hmask : (0x8000 : U16) >>> 15 = 1 := rfl
  rw [qbmanFqAttrGetOaCgr, maskShift, BitVec.ushiftRight_and_distrib, hmask,
    Words.toNat_and_mask _ _ (k := 1) rfl, Nat.pow_one, Nat.mod_eq_of_lt hlt]

/-- The mask has no bit as high as the shift. -/
theorem qbmanBpGetVa_eq_zero (r : QbmanBpQueryRslt) : qbmanBpGetVa r = 0 := by
  have hmask : qbBpVaMask >>> qbBpVaMask.toNat = 0 := rfl
  rw [qbmanBpGetVa, maskShift, BitVec.ushiftRight_and_distrib, hmask]
  simp

theorem not_setWidth (b : BitVec 1) :
    (if b.setWidth 8 = 0 then 1 else 0 : Int) = (~~~b).toNat := by
  revert b
  decide

theorem FqValues.decodes (v : FqValues) (rest : Line) :
    FqDecodes v (.ofLine (packLine v.members rest)) := by
  have hoalOac : BitField.Holds v.oalOacFields
      (QbmanFqQueryRslt.ofLine (packLine v.members rest)).oalOac :=
    packLine_holds (p := ⟨20, 2, v.oalOacFields⟩) v.laid (by simp [members]) rest
  have hmctl : BitField.Holds v.mctlFields
      (QbmanFqQueryRslt.ofLine (packLine v.members rest)).mctl :=
    packLine_holds (p := ⟨23, 1, v.mctlFields⟩) v.laid (by simp [members]) rest
  have hicid : BitField.Holds v.icidFields
      (QbmanFqQueryRslt.ofLine (packLine v.members rest)).icid :=
    packLine_holds (p := ⟨32, 2, v.icidFields⟩) v.laid (by simp [members]) rest
  constructor
  · rw [qbmanFqAttrGetOaIcs_eq]
    exact maskShift_of_holds hoalOac (v := v.ics) (by simp [oalOacFields]) (by decide)
  · rw [qbmanFqAttrGetOaCgr_eq]
    exact maskShift_of_holds hoalOac (v := v.cgr) (by simp [oalOacFields]) (by decide)
  · exact and_mask_of_holds hoalOac (v := v.oal) (by simp [oalOacFields]) (by decide)
  · exact maskShift_of_holds hmctl (v := v.bdi) (by simp [mctlFields]) (by decide)
  · exact maskShift_of_holds hmctl (v := v.ff) (by simp [mctlFields]) (by decide)
  · exact maskShift_of_holds hmctl (v := v.va) (by simp [mctlFields]) (by decide)
  · exact maskShift_of_holds hmctl (v := v.ps) (by simp [mctlFields]) (by decide)
  · exact maskShift_of_holds hmctl (v := v.pps) (by simp [mctlFields]) (by decide)
  · exact and_mask_of_holds hicid (v := v.icid) (by simp [icidFields]) (by decide)
  · exact maskShift_of_holds hicid (v := v.pl) (by simp [icidFields]) (by decide)

theorem FqStateValues.decodes (v : FqStateValues) (rest : Line) :
    FqStateDecodes v (.ofLine (packLine v.members rest)) := by
  have hst1 : BitField.Holds v.st1Fields
      (QbmanFqQueryNpRslt.ofLine (packLine v.members rest)).st1 :=
    packLine_holds (p := ⟨2, 1, v.st1Fields⟩) v.laid (by simp [members]) rest
  constructor
  · exact and_mask_of_holds hst1 (v := v.schedstate) (by simp [st1Fields]) (by decide)
  · exact maskShift_of_holds hst1 (v := v.forceEligible) (by simp [st1Fields]) (by decide)
  · exact maskShift_of_holds hst1 (v := v.xoff) (by simp [st1Fields]) (by decide)
  · exact maskShift_of_holds hst1 (v := v.retirementPending) (by simp [st1Fields]) (by decide)
  · exact maskShift_of_holds hst1 (v := v.overflowError) (by simp [st1Fields]) (by decide)

theorem CgrValues.decodes (v : CgrValues) (rest : Line) :
    CgrDecodes v (.ofLine (packLine v.members rest)) := by
  have hctl1 : BitField.Holds v.ctl1Fields
      (QbmanCgrQueryRslt.ofLine (packLine v.members rest)).ctl1 :=
    packLine_holds (p := ⟨8, 1, v.ctl1Fields⟩) v.laid (by simp [members]) rest
  have hmode : BitField.Holds v.modeFields
      (QbmanCgrQueryRslt.ofLine (packLine v.members rest)).mode :=
    packLine_holds (p := ⟨14, 1, v.modeFields⟩) v.laid (by simp [members]) rest
  constructor
  · exact maskShift_of_holds hctl1 (v := v.cscnWqEnEnter) (by simp [ctl1Fields]) (by decide)
  · exact maskShift_of_holds hctl1 (v := v.cscnWqEnExit) (by simp [ctl1Fields]) (by decide)
  · exact maskShift_of_holds hctl1 (v := v.cscnWqIcd) (by simp [ctl1Fields]) (by decide)
  · exact and_mask_of_holds hmode (v := v.mode) (by simp [modeFields]) (by decide)
  · exact maskShift_of_holds hmode (v := v.rejCntMode) (by simp [modeFields]) (by decide)
  · exact maskShift_of_holds hmode (v := v.cscnBdi) (by simp [modeFields]) (by decide)

/-- A buffer pool response decodes if its `VA` bit is clear. -/
theorem BpValues.decodes_iff (v : BpValues) (rest : Line) :
    BpDecodes v (.ofLine (packLine v.members rest)) ↔ v.va = 0 := by
  have hbdi : BitField.Holds v.bdiFields
      (QbmanBpQueryRslt.ofLine (packLine v.members rest)).bdi :=
    packLine_holds (p := ⟨6, 1, v.bdiFields⟩) v.laid (by simp [members]) rest
  have hstate : BitField.Holds v.stateFields
      (QbmanBpQueryRslt.ofLine (packLine v.members rest)).state :=
    packLine_holds (p := ⟨7, 1, v.stateFields⟩) v.laid (by simp [members]) rest
  have hicid : BitField.Holds v.icidFields
      (QbmanBpQueryRslt.ofLine (packLine v.members rest)).icid :=
    packLine_holds (p := ⟨30, 2, v.icidFields⟩) v.laid (by simp [members]) rest
  have hva := qbmanBpGetVa_eq_zero (.ofLine (packLine v.members rest))
  constructor
  · intro h
    have hzero : (v.va.toNat : Int) = 0 := h.va.symm.trans hva
    exact BitVec.eq_of_toNat_eq (Int.natCast_eq_zero.mp hzero)
  · intro hzero
    constructor
    · exact maskShift_of_holds hbdi (v := v.bdi) (by simp [bdiFields]) (by decide)
    · rw [hva, hzero]
      rfl
    · exact maskShift_of_holds hbdi (v := v.wae) (by simp [bdiFields]) (by decide)
    · exact and_mask_of_holds hicid (v := v.icid) (by simp [icidFields]) (by decide)
    · exact maskShift_of_holds hicid (v := v.pl) (by simp [icidFields]) (by decide)
    · have hbit : (QbmanBpQueryRslt.ofLine (packLine v.members rest)).state &&& 0x1 =
          v.noFreeBufs.setWidth 8 :=
        and_mask_of_holds hstate (by simp [stateFields]) (by decide)
      rw [qbmanBpHasFreeBufs, hbit]
      exact not_setWidth v.noFreeBufs
    · exact maskShift_of_holds hstate (v := v.depleted) (by simp [stateFields]) (by decide)
    · exact maskShift_of_holds hstate (v := v.surplus) (by simp [stateFields]) (by decide)

/-- The getters return what was packed, whatever the rest of the responses is, if and only if the
`VA` bit of the buffer pool is clear. -/
theorem packedFields_decode_iff (bp : BpValues) (fq : FqValues) (np : FqStateValues)
    (cgr : CgrValues) (bpRest fqRest npRest cgrRest : Line) :
    (BpDecodes bp (.ofLine (packLine bp.members bpRest)) ∧
      FqDecodes fq (.ofLine (packLine fq.members fqRest)) ∧
      FqStateDecodes np (.ofLine (packLine np.members npRest)) ∧
      CgrDecodes cgr (.ofLine (packLine cgr.members cgrRest))) ↔ bp.va = 0 := by
  rw [← bp.decodes_iff bpRest]
  exact and_iff_left ⟨fq.decodes fqRest, np.decodes npRest, cgr.decodes cgrRest⟩

/-- `VA` is set and read as 0. -/
theorem packedFields_not_decode :
    ¬ BpDecodes ⟨0, 1, 0, 0, 0, 0, 0, 0⟩
      (.ofLine (packLine (BpValues.members ⟨0, 1, 0, 0, 0, 0, 0, 0⟩) fun _ => 0)) := by
  rw [BpValues.decodes_iff]
  decide

end Qbman
