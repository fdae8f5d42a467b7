import Qbman.Basic
import Qbman.Lib.CInt
import Qbman.Lib.Words

/-!
# Thresholds of the query results

Thresholds come as a mantissa and an exponent. The driver shifts in `int` and returns 16 bits, or
adds and multiplies in `int` and subtracts in 64 bits. The values are exact as long as they fit:
`qbmanThreshToValue_exact_iff` for the 16-bit thresholds, `qbmanCgrAttrWredDpDecompose_exact_iff`
for the WRED parameters.
-/

namespace Qbman

/-- `((val & 0x1FE0) >> 5) << (val & 0x1F)` in `int`, returned as a `uint16_t`. -/
def qbmanThreshToValue (val : U16) : Option U16 := do
  let x ← CInt.shl 32 ((val &&& 0x1FE0) >>> 5).toNat (val &&& 0x1F).toNat
  return BitVec.ofInt 16 x

/-- `(val & 0xff) << ((val & 0xf00) >> 8)` in `int`, returned as a `uint16_t`. -/
def qbmanBpThreshToValue (val : U16) : Option U16 := do
  let x ← CInt.shl 32 (val &&& 0xff).toNat ((val &&& 0xf00) >>> 8).toNat
  return BitVec.ofInt 16 x

/-- What `qbman_cgr_attr_wred_dp_decompose` stores. -/
structure WredDp where
  minth : U64
  maxth : U64
  maxp : U8
  deriving DecidableEq, Repr

/-- `m` if `e == 0`, else `(m + 256) * (1 << (e - 1))`. -/
def wredScale (m e : U8) : Option Int :=
  if e = 0 then some m.toNat
  else do
    let x ← CInt.add 32 m.toNat 256
    let y ← CInt.shl 32 1 (← CInt.sub 32 e.toNat 1)
    CInt.mul 32 x y

def qbmanCgrAttrWredDpDecompose (dp : U32) : Option WredDp := do
  let ma : U8 := (dp >>> 24).setWidth 8
  let mn : U8 := (dp >>> 19).setWidth 8 &&& 0x1f
  let stepI : U8 := (dp >>> 11).setWidth 8
  let stepS : U8 := (dp >>> 6).setWidth 8 &&& 0x1f
  let pn : U8 := dp.setWidth 8 &&& 0x3f
  let percent ← CInt.mul 32 (← CInt.shl 32 pn.toNat 2) 100
  let maxth : U64 := BitVec.ofInt 64 (← wredScale ma mn)
  let step : U64 := BitVec.ofInt 64 (← wredScale stepI stepS)
  return { minth := maxth - step, maxth, maxp := BitVec.ofInt 8 (percent.tdiv 256) }

/-! ## The exact values -/

/-- What the fields of a WRED threshold stand for. -/
def wredValue (m e : Nat) : Nat := if e = 0 then m else (256 + m) * 2 ^ (e - 1)

/-- The fields of a WRED parameter word. -/
structure WredFields where
  ma : Nat
  mn : Nat
  stepI : Nat
  stepS : Nat

def wredFields (dp : U32) : WredFields where
  ma := (dp.extractLsb' 24 8).toNat
  mn := (dp.extractLsb' 19 5).toNat
  stepI := (dp.extractLsb' 11 8).toNat
  stepS := (dp.extractLsb' 6 5).toNat

namespace WredFields

variable (f : WredFields)

def maxth : Nat := wredValue f.ma f.mn

def step : Nat := wredValue f.stepI f.stepS

/-- Both thresholds of the word fit into an `int`, and the step is not above the maximum. -/
def Fits : Prop := f.mn ≤ 23 ∧ f.stepS ≤ 23 ∧ f.step ≤ f.maxth

end WredFields

theorem toNat_field (dp : U32) {s k : Nat} (hk : k ≤ 8) {mask : U8}
    (hmask : mask.toNat = 2 ^ k - 1) :
    ((dp >>> s).setWidth 8 &&& mask).toNat = (dp.extractLsb' s k).toNat := by
  rw [Words.toNat_and_mask _ _ hmask, BitVec.toNat_setWidth, BitVec.toNat_ushiftRight,
    BitVec.extractLsb'_toNat, Nat.mod_mod_of_dvd _ (Nat.pow_dvd_pow 2 hk)]

theorem wredValue_lt_iff {m e : Nat} (hm : m < 256) : wredValue m e < 2 ^ 31 ↔ e ≤ 23 := by
  unfold wredValue
  by_cases he : e = 0
  · simp only [he, if_true]
    omega
  · rw [if_neg he]
    constructor
    · intro hlt
      by_contra hge
      have hpow : 2 ^ 23 ≤ 2 ^ (e - 1) := Nat.pow_le_pow_right (by decide) (by omega)
      have hmul : 256 * 2 ^ 23 ≤ (256 + m) * 2 ^ (e - 1) := Nat.mul_le_mul (by omega) hpow
      omega
    · intro hle
      have hpow : 2 ^ (e - 1) ≤ 2 ^ 22 := Nat.pow_le_pow_right (by decide) (by omega)
      have hmul : (256 + m) * 2 ^ (e - 1) ≤ 511 * 2 ^ 22 := Nat.mul_le_mul (by omega) hpow
      omega

/-- The operations of `wredScale`, one after the other. -/
theorem wredScale_of_ne_zero {m e : U8} (he : e ≠ 0) {x y n : Int}
    (hadd : CInt.add 32 m.toNat 256 = some x) (hsub : CInt.sub 32 e.toNat 1 = some n)
    (hshl : CInt.shl 32 1 n = some y) : wredScale m e = CInt.mul 32 x y := by
  simp only [wredScale, if_neg he, hadd, hsub, hshl, Option.bind_eq_bind, Option.bind_some]

/-- The computation overflows from an exponent of 24 on. -/
theorem wredScale_eq (m : U8) {e : U8} (he : e.toNat < 32) :
    wredScale m e =
      if e.toNat ≤ 23 then some (wredValue m.toNat e.toNat : Int) else none := by
  have hm : m.toNat < 256 := m.isLt
  by_cases hzero : e = 0
  · subst hzero
    simp [wredScale, wredValue]
  · have hpos : e.toNat ≠ 0 := fun h => hzero (BitVec.eq_of_toNat_eq h)
    have hadd : CInt.add 32 (m.toNat : Int) 256 = some ((m.toNat + 256 : Nat) : Int) :=
      (CInt.add_natCast m.toNat 256).trans (if_pos (by omega))
    have hsub : CInt.sub 32 (e.toNat : Int) 1 = some ((e.toNat - 1 : Nat) : Int) :=
      (CInt.sub_natCast (n := 1) (by omega)).trans (if_pos (by omega))
    have hpow : 1 * 2 ^ (e.toNat - 1) < 2 ^ (32 - 1) := by
      rw [Nat.one_mul]
      exact Nat.pow_lt_pow_right (by decide) (by omega)
    have hshl : CInt.shl 32 1 ((e.toNat - 1 : Nat) : Int) =
        some ((1 * 2 ^ (e.toNat - 1) : Nat) : Int) :=
      (CInt.shl_natCast 1 (by omega)).trans (if_pos hpow)
    have hvalue : (m.toNat + 256) * (1 * 2 ^ (e.toNat - 1)) = wredValue m.toNat e.toNat := by
      rw [wredValue, if_neg hpos, Nat.add_comm, Nat.one_mul]
    rw [wredScale_of_ne_zero hzero hadd hsub hshl, CInt.mul_natCast, hvalue]
    simp only [show 32 - 1 = 31 from rfl, wredValue_lt_iff hm]

/-- The percentage, which is below 100. -/
def wredMaxp (pn : U8) : Nat := pn.toNat * 4 * 100 / 256

theorem wredPercent_eq {pn : U8} (hpn : pn.toNat < 64) :
    CInt.shl 32 pn.toNat 2 = some ((pn.toNat * 4 : Nat) : Int) ∧
      CInt.mul 32 ((pn.toNat * 4 : Nat) : Int) 100 = some ((pn.toNat * 4 * 100 : Nat) : Int) :=
  ⟨(CInt.shl_natCast pn.toNat (n := 2) (by decide)).trans (if_pos (by omega)),
    (CInt.mul_natCast (pn.toNat * 4) 100).trans (if_pos (by omega))⟩

theorem ofInt_percent (pn : U8) :
    BitVec.ofInt 8 (((pn.toNat * 4 * 100 : Nat) : Int).tdiv 256) =
      BitVec.ofNat 8 (wredMaxp pn) := by
  have htdiv : ((pn.toNat * 4 * 100 : Nat) : Int).tdiv 256 = (wredMaxp pn : Nat) :=
    (Int.ofNat_tdiv (pn.toNat * 4 * 100) 256).symm
  rw [htdiv, BitVec.ofInt_natCast]

theorem wredDecompose_of_percent {dp : U32} {ma mn stepI stepS pn : U8} {x y : Int}
    (hma : (dp >>> 24).setWidth 8 = ma) (hmn : (dp >>> 19).setWidth 8 &&& 0x1f = mn)
    (hstepI : (dp >>> 11).setWidth 8 = stepI) (hstepS : (dp >>> 6).setWidth 8 &&& 0x1f = stepS)
    (hpn : dp.setWidth 8 &&& 0x3f = pn) (hshl : CInt.shl 32 pn.toNat 2 = some x)
    (hmul : CInt.mul 32 x 100 = some y) :
    qbmanCgrAttrWredDpDecompose dp = (wredScale ma mn).bind fun maxth =>
      (wredScale stepI stepS).bind fun step =>
        some { minth := BitVec.ofInt 64 maxth - BitVec.ofInt 64 step
               maxth := BitVec.ofInt 64 maxth, maxp := BitVec.ofInt 8 (y.tdiv 256) } := by
  subst hma hmn hstepI hstepS hpn
  simp only [qbmanCgrAttrWredDpDecompose, hshl, hmul, Option.bind_eq_bind, Option.bind_some]
  rfl

/-- What the decomposition stores, if no threshold overflows. -/
theorem qbmanCgrAttrWredDpDecompose_eq (dp : U32) :
    qbmanCgrAttrWredDpDecompose dp =
      if (wredFields dp).mn ≤ 23 ∧ (wredFields dp).stepS ≤ 23 then
        some { minth := BitVec.ofNat 64 (wredFields dp).maxth - BitVec.ofNat 64 (wredFields dp).step
               maxth := BitVec.ofNat 64 (wredFields dp).maxth
               maxp := BitVec.ofNat 8 (wredMaxp (dp.setWidth 8 &&& 0x3f)) }
      else none := by
  have hma : ((dp >>> 24).setWidth 8 : U8).toNat = (wredFields dp).ma := by
    simp [wredFields]
  have hmn : ((dp >>> 19).setWidth 8 &&& 0x1f : U8).toNat = (wredFields dp).mn :=
    toNat_field dp (by decide) rfl
  have hstepI : ((dp >>> 11).setWidth 8 : U8).toNat = (wredFields dp).stepI := by
    simp [wredFields]
  have hstepS : ((dp >>> 6).setWidth 8 &&& 0x1f : U8).toNat = (wredFields dp).stepS :=
    toNat_field dp (by decide) rfl
  have hpn : (dp.setWidth 8 &&& 0x3f : U8).toNat < 64 := by
    rw [Words.toNat_and_mask (k := 6) _ _ rfl]
    exact Nat.mod_lt _ (by decide)
  have hmn32 : (wredFields dp).mn < 32 := (dp.extractLsb' 19 5).isLt
  have hstep32 : (wredFields dp).stepS < 32 := (dp.extractLsb' 6 5).isLt
  have hmaxth : wredValue (wredFields dp).ma (wredFields dp).mn = (wredFields dp).maxth := rfl
  have hstep : wredValue (wredFields dp).stepI (wredFields dp).stepS = (wredFields dp).step := rfl
  obtain ⟨hshl, hmul⟩ := wredPercent_eq hpn
  rw [wredDecompose_of_percent rfl rfl rfl rfl rfl hshl hmul, wredScale_eq _ (hmn ▸ hmn32),
    wredScale_eq _ (hstepS ▸ hstep32), hma, hmn, hstepI, hstepS, hmaxth, hstep, ofInt_percent]
  by_cases h : (wredFields dp).mn ≤ 23 <;> by_cases h' : (wredFields dp).stepS ≤ 23 <;>
    simp [h, h']

/-- The decomposition of `dp` is exact: no operation overflows, the thresholds are the ones that the
fields stand for, and the minimum is not above the maximum. -/
structure WredExact (dp : U32) (o : WredDp) : Prop where
  decompose : qbmanCgrAttrWredDpDecompose dp = some o
  maxth : o.maxth.toNat = (wredFields dp).maxth
  minth : (wredFields dp).step ≤ (wredFields dp).maxth →
    o.minth.toNat = (wredFields dp).maxth - (wredFields dp).step
  le : o.minth ≤ o.maxth
  maxp : o.maxp.toNat ≤ 100

theorem wredValue_lt {m e : Nat} (hm : m < 256) (he : e ≤ 23) : wredValue m e < 2 ^ 64 :=
  Nat.lt_trans ((wredValue_lt_iff hm).mpr he) (by decide)

theorem wredMaxp_le {pn : U8} (hpn : pn.toNat < 64) : wredMaxp pn ≤ 100 := by
  unfold wredMaxp
  omega

theorem toNat_ofNat_sub {x y : Nat} (hx : x < 2 ^ 64) (hy : y < 2 ^ 64) :
    (BitVec.ofNat 64 x - BitVec.ofNat 64 y).toNat = if y ≤ x then x - y else 2 ^ 64 + x - y := by
  rw [BitVec.toNat_sub, BitVec.toNat_ofNat, BitVec.toNat_ofNat, Nat.mod_eq_of_lt hx,
    Nat.mod_eq_of_lt hy]
  split <;> omega

theorem wredFields_maxth_lt {dp : U32} (h : (wredFields dp).mn ≤ 23) :
    (wredFields dp).maxth < 2 ^ 64 := wredValue_lt (dp.extractLsb' 24 8).isLt h

theorem wredFields_step_lt {dp : U32} (h : (wredFields dp).stepS ≤ 23) :
    (wredFields dp).step < 2 ^ 64 := wredValue_lt (dp.extractLsb' 11 8).isLt h

/-- A step above the maximum wraps around. -/
theorem wredExact_iff (dp : U32) : (∃ o, WredExact dp o) ↔ (wredFields dp).Fits := by
  have hpn : (dp.setWidth 8 &&& 0x3f : U8).toNat < 64 := by
    rw [Words.toNat_and_mask (k := 6) _ _ rfl]
    exact Nat.mod_lt _ (by decide)
  constructor
  · rintro ⟨o, h⟩
    have hdec := h.decompose
    rw [qbmanCgrAttrWredDpDecompose_eq] at hdec
    split at hdec
    · rename_i hexp
      have hmaxth := wredFields_maxth_lt hexp.1
      have hstep := wredFields_step_lt hexp.2
      refine ⟨hexp.1, hexp.2, ?_⟩
      by_contra hlt
      have hle : o.minth.toNat ≤ o.maxth.toNat := h.le
      have hmin : o.minth.toNat = 2 ^ 64 + (wredFields dp).maxth - (wredFields dp).step := by
        obtain rfl := Option.some.inj hdec
        exact (toNat_ofNat_sub hmaxth hstep).trans (if_neg hlt)
      rw [hmin, h.maxth] at hle
      omega
    · cases hdec
  · rintro ⟨hmn, hstepS, hle⟩
    have hmaxth := wredFields_maxth_lt hmn
    have hstep := wredFields_step_lt hstepS
    refine ⟨_, ⟨(qbmanCgrAttrWredDpDecompose_eq dp).trans (if_pos ⟨hmn, hstepS⟩), ?_, ?_, ?_, ?_⟩⟩
    · exact (BitVec.toNat_ofNat ..).trans (Nat.mod_eq_of_lt hmaxth)
    · intro _
      exact (toNat_ofNat_sub hmaxth hstep).trans (if_pos hle)
    · show (BitVec.ofNat 64 _ - BitVec.ofNat 64 _).toNat ≤ (BitVec.ofNat 64 _).toNat
      rw [toNat_ofNat_sub hmaxth hstep, if_pos hle, BitVec.toNat_ofNat, Nat.mod_eq_of_lt hmaxth]
      exact Nat.sub_le _ _
    · exact Nat.le_trans ((BitVec.toNat_ofNat ..).trans_le (Nat.mod_le _ _)) (wredMaxp_le hpn)

/-! ## The thresholds in 16 bits -/

/-- A result that is `m * 2 ^ e`, with no bits lost. -/
def ThreshExact (v : Option U16) (m e : Nat) : Prop := ∃ x, v = some x ∧ x.toNat = m * 2 ^ e

/-- A shift in `int` cut to 16 bits. -/
theorem threshExact_shl {m e : Nat} (he : e < 32) :
    ThreshExact ((CInt.shl 32 m e).map (BitVec.ofInt 16)) m e ↔ m * 2 ^ e < 2 ^ 16 := by
  rw [CInt.shl_natCast _ he]
  constructor
  · rintro ⟨x, -, hx⟩
    exact hx ▸ x.isLt
  · intro hlt
    refine ⟨BitVec.ofNat 16 (m * 2 ^ e), ?_, ?_⟩
    · rw [if_pos (by omega), Option.map_some, BitVec.ofInt_natCast]
    · exact (BitVec.toNat_ofNat ..).trans (Nat.mod_eq_of_lt hlt)

/-- The mantissa and exponent of a threshold. -/
def threshMantissa (val : U16) : Nat := (val.extractLsb' 5 8).toNat
def threshExponent (val : U16) : Nat := (val.extractLsb' 0 5).toNat

/-- The mantissa and exponent of a buffer pool threshold. -/
def bpThreshMantissa (val : U16) : Nat := (val.extractLsb' 0 8).toNat
def bpThreshExponent (val : U16) : Nat := (val.extractLsb' 8 4).toNat

theorem qbmanThreshToValue_eq (val : U16) : qbmanThreshToValue val =
    (CInt.shl 32 (threshMantissa val) (threshExponent val)).map (BitVec.ofInt 16) := by
  have hmantissa : ((val &&& 0x1FE0) >>> 5).toNat = threshMantissa val := by
    rw [BitVec.ushiftRight_and_distrib, Words.toNat_and_mask (k := 8) _ _ rfl,
      BitVec.toNat_ushiftRight, threshMantissa, BitVec.extractLsb'_toNat]
  have hexponent : (val &&& 0x1F).toNat = threshExponent val := by
    rw [Words.toNat_and_mask (k := 5) _ _ rfl, threshExponent, BitVec.extractLsb'_toNat,
      Nat.shiftRight_zero]
  rw [qbmanThreshToValue, hmantissa, hexponent, Option.map_eq_bind]
  rfl

theorem qbmanBpThreshToValue_eq (val : U16) : qbmanBpThreshToValue val =
    (CInt.shl 32 (bpThreshMantissa val) (bpThreshExponent val)).map (BitVec.ofInt 16) := by
  have hmantissa : (val &&& 0xff).toNat = bpThreshMantissa val := by
    rw [Words.toNat_and_mask (k := 8) _ _ rfl, bpThreshMantissa, BitVec.extractLsb'_toNat,
      Nat.shiftRight_zero]
  have hexponent : ((val &&& 0xf00) >>> 8).toNat = bpThreshExponent val := by
    rw [BitVec.ushiftRight_and_distrib, Words.toNat_and_mask (k := 4) _ _ rfl,
      BitVec.toNat_ushiftRight, bpThreshExponent, BitVec.extractLsb'_toNat]
  rw [qbmanBpThreshToValue, hmantissa, hexponent, Option.map_eq_bind]
  rfl

theorem qbmanThreshToValue_exact (val : U16) :
    ThreshExact (qbmanThreshToValue val) (threshMantissa val) (threshExponent val) ↔
      threshMantissa val * 2 ^ threshExponent val < 2 ^ 16 := by
  rw [qbmanThreshToValue_eq]
  exact threshExact_shl (val.extractLsb' 0 5).isLt

theorem qbmanBpThreshToValue_exact (val : U16) :
    ThreshExact (qbmanBpThreshToValue val) (bpThreshMantissa val) (bpThreshExponent val) ↔
      bpThreshMantissa val * 2 ^ bpThreshExponent val < 2 ^ 16 := by
  rw [qbmanBpThreshToValue_eq]
  exact threshExact_shl (Nat.lt_trans (val.extractLsb' 8 4).isLt (by decide))

/-- Thresholds are decoded exactly as long as they fit. -/
theorem thresholds_exact_iff (dp : U32) (val : U16) :
    ((∃ o, WredExact dp o) ↔ (wredFields dp).Fits) ∧
      (ThreshExact (qbmanThreshToValue val) (threshMantissa val) (threshExponent val) ↔
        threshMantissa val * 2 ^ threshExponent val < 2 ^ 16) ∧
      (ThreshExact (qbmanBpThreshToValue val) (bpThreshMantissa val) (bpThreshExponent val) ↔
        bpThreshMantissa val * 2 ^ bpThreshExponent val < 2 ^ 16) :=
  ⟨wredExact_iff dp, qbmanThreshToValue_exact val, qbmanBpThreshToValue_exact val⟩

/-- An exponent of 24 overflows, a step above the maximum wraps around, and `128 * 2 ^ 9` has no
place in 16 bits. -/
theorem thresholds_not_exact :
    (¬ ∃ o, WredExact 0x00C00000 o) ∧ (¬ ∃ o, WredExact 0x800 o) ∧
      ¬ ThreshExact (qbmanThreshToValue 0x1009) 128 9 ∧
      ¬ ThreshExact (qbmanBpThreshToValue 0x980) 128 9 := by
  refine ⟨?_, ?_, ?_, ?_⟩
  · rintro ⟨o, h⟩
    have hnone : qbmanCgrAttrWredDpDecompose 0x00C00000 = none := by decide
    cases hnone.symm.trans h.decompose
  · rintro ⟨o, h⟩
    have hsome : qbmanCgrAttrWredDpDecompose 0x800 =
      some { minth := 0xFFFFFFFFFFFFFFFF, maxth := 0, maxp := 0 } := by decide
    obtain rfl := Option.some.inj (hsome.symm.trans h.decompose)
    exact absurd h.le (by decide)
  · rintro ⟨x, -, hx⟩
    exact absurd x.isLt (by omega)
  · rintro ⟨x, -, hx⟩
    exact absurd x.isLt (by omega)

end Qbman
