import Qbman.Portal

/-!
# Polling the dequeue response ring

`qbman_swp_dqrr_next` returns a pointer to the next entry of the ring, here its byte offset in the
cache-enabled region. The two implementations share what follows the choice of the entry
(`dqrrNextEntry`); the direct one first has the workaround for the valid bits that a reset leaves.
-/

namespace Qbman

/-! ## The fields of `struct qbman_result` -/

/-- `dq.verb` -/
def dqVerb (l : Line) : U8 := getByte (l 0) 0

/-- `dq.stat` -/
def dqStat (l : Line) : U8 := getByte (l 0) 1

/-- `dq.tok` -/
def dqTok (l : Line) : U8 := getByte (l 1) 3

def qbmanResponseVerbMask : U32 := 0x7f
def qbmanResultDq : U32 := 0x60
def qbmanDqStatVolatile : U32 := 0x02
def qbmanDqStatExpired : U32 := 0x01
def qmanDqrrPiMask : U32 := 0xf

/-- The test for the final response to a volatile dequeue command. -/
def dqFinal (l : Line) : Bool :=
  (dqVerb l).setWidth 32 &&& qbmanResponseVerbMask = qbmanResultDq &&
    (dqStat l).setWidth 32 &&& qbmanDqStatVolatile ≠ 0 &&
    (dqStat l).setWidth 32 &&& qbmanDqStatExpired ≠ 0

/-! ## `qbman_swp_dqrr_next` -/

/-- `next_idx` and `valid_bit` after an entry was returned. -/
def Dqrr.advance (q : Dqrr) : Dqrr :=
  if q.nextIdx + 1 = q.dqrrSize.setWidth 32 then
    { q with nextIdx := 0, validBit := q.validBit ^^^ qbValidBit }
  else { q with nextIdx := q.nextIdx + 1 }

/-- Both implementations from the reading of the entry at `off` on. -/
def dqrrNextEntry (off : Nat) (s : QbmanSwp) (m : Region) : Outcome (Option Nat) :=
  let p := m.line off
  let verb := (dqVerb p).setWidth 32
  let reads := [.cenaRead off (p 0)]
  if verb &&& qbValidBit ≠ s.dqrr.validBit then ⟨none, s, reads⟩
  else
    let busy := if dqFinal p then s.vdq.busy + 1 else s.vdq.busy
    ⟨some off, { s with dqrr := s.dqrr.advance, vdq := { s.vdq with busy } }, reads⟩

def qbmanSwpDqrrNextDirect (s : QbmanSwp) (r : Regions) : Outcome (Option Nat) :=
  let off := qbmanCenaSwpDqrr s.dqrr.nextIdx
  if s.dqrr.resetBug then
    let dqpi := r.cinh qbmanCinhSwpDqpi
    let reads := [.cinhRead qbmanCinhSwpDqpi dqpi]
    let pi : U8 := (dqpi &&& qmanDqrrPiMask).setWidth 8
    -- There are new entries if `pi != next_idx`.
    if pi.setWidth 32 = s.dqrr.nextIdx then ⟨none, s, reads⟩
    else
      -- The last entry of the first lap: all entries have been written, so valid bits are repaired.
      let s := if s.dqrr.nextIdx = s.dqrr.dqrrSize.setWidth 32 - 1 then
          { s with dqrr := { s.dqrr with resetBug := false } }
        else s
      let o := dqrrNextEntry off s r.cena
      { o with accs := reads ++ o.accs }
  else dqrrNextEntry off s r.cena

def qbmanSwpDqrrNextMemBack (s : QbmanSwp) (r : Regions) : Outcome (Option Nat) :=
  dqrrNextEntry (qbmanCenaSwpDqrrMem s.dqrr.nextIdx) s r.cena

def qbmanSwpDqrrNext (ptrs : FnPtrs) (s : QbmanSwp) (r : Regions) : Outcome (Option Nat) :=
  match ptrs.dqrrNextPtr with
  | .direct => qbmanSwpDqrrNextDirect s r
  | .memBack => qbmanSwpDqrrNextMemBack s r

/-- What a poll does to the portal outside the ring: the hook of the final entry. -/
def DqrrHook (s : QbmanSwp) (m : Region) (o : Outcome (Option Nat)) : Prop :=
  o.swp.desc = s.desc ∧ (o.ret = none → o.swp.vdq = s.vdq) ∧
    ∀ off, o.ret = some off → o.swp.vdq = { s.vdq with
      busy := if dqFinal (m.line off) then s.vdq.busy + 1 else s.vdq.busy }

theorem dqrrNextEntry_hook (off : Nat) (s : QbmanSwp) (m : Region) :
    DqrrHook s m (dqrrNextEntry off s m) := by
  unfold dqrrNextEntry
  simp only
  split
  · exact ⟨rfl, fun _ => rfl, nofun⟩
  · refine ⟨rfl, nofun, fun off' hoff => ?_⟩
    obtain rfl := Option.some.inj hoff
    rfl

theorem qbmanSwpDqrrNextDirect_hook (s : QbmanSwp) (r : Regions) :
    DqrrHook s r.cena (qbmanSwpDqrrNextDirect s r) := by
  unfold qbmanSwpDqrrNextDirect
  simp only
  split
  · split
    · exact ⟨rfl, fun _ => rfl, nofun⟩
    · -- The repaired workaround flag is a field of the ring.
      split
      · exact dqrrNextEntry_hook _ _ _
      · exact dqrrNextEntry_hook _ _ _
  · exact dqrrNextEntry_hook _ _ _

theorem qbmanSwpDqrrNext_hook (ptrs : FnPtrs) (s : QbmanSwp) (r : Regions) :
    DqrrHook s r.cena (qbmanSwpDqrrNext ptrs s r) := by
  unfold qbmanSwpDqrrNext
  cases ptrs.dqrrNextPtr with
  | direct => exact qbmanSwpDqrrNextDirect_hook s r
  | memBack => exact dqrrNextEntry_hook _ _ _

section View

variable {α : Type*} (view : QbmanSwp → α)
variable (hview : ∀ s dqrr vdq, view { s with dqrr, vdq } = view s)

include hview

theorem dqrrNextEntry_view (off : Nat) (s : QbmanSwp) (m : Region) :
    view (dqrrNextEntry off s m).swp = view s := by
  simp only [dqrrNextEntry]
  split
  · rfl
  · exact hview s _ _

/-- A poll leaves the fields other than `dqrr` and `vdq` alone. -/
theorem qbmanSwpDqrrNext_view (ptrs : FnPtrs) (s : QbmanSwp) (r : Regions) :
    view (qbmanSwpDqrrNext ptrs s r).swp = view s := by
  unfold qbmanSwpDqrrNext
  split
  · simp only [qbmanSwpDqrrNextDirect]
    split
    · split
      · rfl
      · rw [dqrrNextEntry_view view hview]
        split
        · exact hview s _ s.vdq
        · rfl
    · exact dqrrNextEntry_view view hview _ s r.cena
  · exact dqrrNextEntry_view view hview _ s r.cena

end View

/-! ## `qbman_swp_dqrr_consume` -/

/-- `QBMAN_IDX_FROM_DQRR` -/
def qbmanIdxFromDqrr (p : Addr) : Nat := (p &&& 0x1ff) >>> 6

theorem qbmanIdxFromDqrr_eq (p : Addr) : qbmanIdxFromDqrr p = p % 512 / 64 := by
  have hmask : p &&& 0x1ff = p % 2 ^ 9 := Nat.and_two_pow_sub_one_eq_mod p 9
  rw [qbmanIdxFromDqrr, hmask, Nat.shiftRight_eq_div_pow]
  rfl

/-- `qbman_swp_dqrr_consume` of the entry at address `dq`. -/
def qbmanSwpDqrrConsume (dq : Addr) : List Access :=
  [.cinhWrite qbmanCinhSwpDcap (BitVec.ofNat 32 (qbmanIdxFromDqrr dq))]

/-- `qbman_get_dqrr_idx` -/
def qbmanGetDqrrIdx (dqrr : Addr) : U8 := BitVec.ofNat 8 (qbmanIdxFromDqrr dqrr)

/-- `qbman_swp_dqrr_idx_consume` -/
def qbmanSwpDqrrIdxConsume (dqrrIndex : U8) : List Access :=
  [.cinhWrite qbmanCinhSwpDcap (dqrrIndex.setWidth 32)]

/-- Consuming an entry by its index is consuming it by its address. -/
theorem qbmanSwpDqrrIdxConsume_getIdx (dq : Addr) :
    qbmanSwpDqrrIdxConsume (qbmanGetDqrrIdx dq) = qbmanSwpDqrrConsume dq := by
  have hlt : qbmanIdxFromDqrr dq < 8 := by
    rw [qbmanIdxFromDqrr_eq]
    omega
  unfold qbmanSwpDqrrIdxConsume qbmanSwpDqrrConsume qbmanGetDqrrIdx
  congr 2
  rw [← BitVec.toNat_inj]
  simp only [BitVec.toNat_setWidth, BitVec.toNat_ofNat]
  omega

end Qbman
