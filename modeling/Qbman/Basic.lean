import Mathlib.Logic.Function.Basic
import Qbman.Lib.Words

/-!
# Words, the mapped regions of a portal and the accesses to them

A portal has two mapped regions: the cache-enabled one (CENA: the rings, the command and response
buffers) and the cache-inhibited one (CINH: the registers). A `Region` maps the byte offset of a
32-bit word to the word. The functions of the driver are translated to functions that take the
regions as the driver would read them and give back the accesses they make, in program order
(`Access`), so that the memory after a call, and after any part of it, is a replay (`Region.run`).
Barriers and cache maintenance (`lwsync`, `dma_wmb`, `dcbf`, `dccivac`, prefetches) change no word
and are left out. The host is little-endian, as the `aarch64` build is.
-/

namespace Qbman

abbrev U8 := BitVec 8
abbrev U16 := BitVec 16
abbrev U32 := BitVec 32
abbrev U64 := BitVec 64

/-- A host address; `0` is `NULL`. -/
abbrev Addr := Nat

/-! ## Encodings shared by all commands -/

/-- The valid-bit encoding of all command and result structures. -/
def qbValidBit : U32 := 0x80

/-- The read trigger bit. -/
def qbRtBit : U32 := 0x100

def qmanRtMode : U32 := 0x00000100

/-- The valid-bit word of a polarity. -/
def vbit (v : Bool) : U32 := if v then qbValidBit else 0

theorem vbit_not (v : Bool) : vbit (!v) = vbit v ^^^ qbValidBit := by cases v <;> rfl

theorem vbit_and_validBit (v : Bool) : vbit v &&& qbValidBit = vbit v := by cases v <;> rfl

theorem vbit_inj {v w : Bool} : vbit v = vbit w ↔ v = w := by
  cases v <;> cases w <;> simp [vbit, qbValidBit]

/-- A masked valid bit is the word of a polarity: that of bit 7. -/
theorem and_validBit (x : U32) : x &&& qbValidBit = vbit (x.getLsbD 7) := by
  rw [show qbValidBit = BitVec.twoPow 32 7 by decide, BitVec.and_twoPow]
  cases x.getLsbD 7 <;> rfl

/-! ## Error numbers -/

def eINVAL : Int := 22
def eBUSY : Int := 16
def eIO : Int := 5

/-! ## Regions and accesses -/

/-- A region: the 32-bit word at each (word-aligned) byte offset. -/
abbrev Region := Nat → U32

/-- The two regions as the driver reads them. -/
structure Regions where
  cena : Region
  cinh : Region

/-- A 64-byte cache line. -/
abbrev Line := Fin 16 → U32

/-- A line has a word `0`. -/
instance neZeroLine : NeZero 16 := ⟨by decide⟩

/-- The cache line at a byte offset. -/
def Region.line (m : Region) (off : Nat) : Line := fun i => m (off + 4 * i)

/-- `w` with byte `k` replaced (little-endian). -/
def setByte (w : U32) (k : Nat) (v : U8) : U32 :=
  (w &&& ~~~((0xff : U32) <<< (8 * k))) ||| (v.setWidth 32 <<< (8 * k))

/-- Byte `k` of a word (little-endian). -/
def getByte (w : U32) (k : Nat) : U8 := (w >>> (8 * k)).setWidth 8

theorem getByte_getLsbD (w : U32) (k i : Nat) :
    (getByte w k).getLsbD i = (decide (i < 8) && w.getLsbD (8 * k + i)) := by
  simp [getByte]

theorem lowByte_getLsbD (i : Nat) : (0xff : U32).getLsbD i = decide (i < 8) := by
  rw [show (0xff : U32) = BitVec.ofNat 32 (2 ^ 8 - 1) from rfl, BitVec.getLsbD_ofNat,
    Nat.testBit_two_pow_sub_one]
  by_cases h : i < 8
  · simp [h]
    omega
  · simp [h]

theorem setByte_getLsbD {k : Nat} (hk : k < 4) (w : U32) (v : U8) (n : Nat) :
    (setByte w k v).getLsbD n =
      if 8 * k ≤ n ∧ n < 8 * k + 8 then v.getLsbD (n - 8 * k) else w.getLsbD n := by
  rw [setByte]
  simp only [BitVec.getLsbD_or, BitVec.getLsbD_and, BitVec.getLsbD_not, BitVec.getLsbD_shiftLeft,
    lowByte_getLsbD, BitVec.getLsbD_setWidth]
  by_cases h : 8 * k ≤ n ∧ n < 8 * k + 8
  · have h32 : n < 32 := by omega
    have hlow : ¬ n < 8 * k := by omega
    have hhigh : n - 8 * k < 8 := by omega
    simp [h, h32, hlow, hhigh]
    omega
  · rw [if_neg h]
    by_cases hlow : n < 8 * k
    · have h32 : n < 32 := by omega
      simp [hlow, h32]
    · have hhigh : ¬ n - 8 * k < 8 := by omega
      rw [BitVec.getLsbD_of_ge v _ (by omega)]
      by_cases h32 : n < 32
      · simp [hlow, h32, hhigh]
      · simp [hlow, h32, hhigh, BitVec.getLsbD_of_ge w _ (Nat.le_of_not_lt h32)]

theorem getByte_setByte {k : Nat} (hk : k < 4) (w : U32) (v : U8) (j : Nat) :
    getByte (setByte w k v) j = if j = k then v else getByte w j := by
  refine BitVec.eq_of_getLsbD_eq fun i hi => ?_
  rw [getByte_getLsbD, setByte_getLsbD hk, decide_eq_true hi, Bool.true_and]
  by_cases hj : j = k
  · subst hj
    rw [if_pos (by omega), if_pos rfl, Nat.add_sub_cancel_left]
  · rw [if_neg (by omega), if_neg hj, getByte_getLsbD, decide_eq_true hi, Bool.true_and]

/-- A byte that is replaced by itself. -/
theorem setByte_eq_iff {k : Nat} (hk : k < 4) (w : U32) (v : U8) :
    setByte w k v = w ↔ getByte w k = v := by
  constructor
  · intro h
    rw [← h, getByte_setByte hk, if_pos rfl]
  · rintro rfl
    refine BitVec.eq_of_getLsbD_eq fun n hn => ?_
    rw [setByte_getLsbD hk, getByte_getLsbD]
    split
    · rw [decide_eq_true (by omega), Bool.true_and, Nat.add_sub_cancel' (by omega)]
    · rfl

/-- An access to a mapped region, with its byte offset. -/
inductive Access where
  | cinhRead (off : Nat) (v : U32)
  | cinhWrite (off : Nat) (v : U32)
  | cenaRead (off : Nat) (v : U32)
  | cenaWord (off : Nat) (v : U32)
  | cenaByte (off : Nat) (v : U8)
  /-- `memset(s->addr_cena, 0, len)` -/
  | cenaMemset (len : Nat)
  deriving DecidableEq, Repr

/-- The offset at which an access stores to the cache-enabled region. -/
def Access.storeOff? : Access → Option Nat
  | .cenaWord off _ => some off
  | .cenaByte off _ => some off
  | _ => none

/-- The cache-enabled region after an access. -/
def Region.access (m : Region) : Access → Region
  | .cenaWord off v => Function.update m off v
  | .cenaByte off v =>
    Function.update m (off - off % 4) (setByte (m (off - off % 4)) (off % 4) v)
  | .cenaMemset len => fun a => if a < len then 0 else m a
  | _ => m

/-- The cache-enabled region after a list of accesses. -/
def Region.run (m : Region) (as : List Access) : Region := as.foldl Region.access m

@[simp] theorem Region.run_nil (m : Region) : m.run [] = m := rfl

@[simp] theorem Region.run_cons (m : Region) (a : Access) (as : List Access) :
    m.run (a :: as) = (m.access a).run as := rfl

theorem Region.run_append (m : Region) (as bs : List Access) :
    m.run (as ++ bs) = (m.run as).run bs := List.foldl_append

/-- What each access leaves as it was, all of them do. -/
theorem Region.run_same {V : Type*} {f : Region → V} {as : List Access}
    (h : ∀ a ∈ as, ∀ m : Region, f (m.access a) = f m) (m : Region) : f (m.run as) = f m := by
  induction as generalizing m with
  | nil => rfl
  | cons a as ih =>
    rw [Region.run_cons, ih fun b hb => h b (List.mem_cons_of_mem a hb)]
    exact h a (List.mem_cons_self ..) m

@[simp] theorem Region.access_cinhRead (m : Region) (off : Nat) (v : U32) :
    m.access (.cinhRead off v) = m := rfl

@[simp] theorem Region.access_cinhWrite (m : Region) (off : Nat) (v : U32) :
    m.access (.cinhWrite off v) = m := rfl

@[simp] theorem Region.access_cenaRead (m : Region) (off : Nat) (v : U32) :
    m.access (.cenaRead off v) = m := rfl

@[simp] theorem Region.access_cenaWord (m : Region) (off : Nat) (v : U32) :
    m.access (.cenaWord off v) = Function.update m off v := rfl

/-- `memcpy` of `n` whole words to offset `off`. -/
def memcpyWords (off : Nat) {n : Nat} (src : Fin n → U32) : List Access :=
  List.ofFn fun j => .cenaWord (off + 4 * j) (src j)

theorem memcpyWords_succ (off : Nat) {n : Nat} (src : Fin (n + 1) → U32) :
    memcpyWords off src =
      .cenaWord off (src 0) :: memcpyWords (off + 4) (fun j => src j.succ) := by
  simp only [memcpyWords, List.ofFn_succ, Fin.val_zero, Fin.val_succ, Nat.mul_zero, Nat.add_zero]
  congr 2
  funext j
  congr 1
  omega

theorem run_memcpyWords_of_lt (m : Region) (off : Nat) {n : Nat} (src : Fin n → U32) {a : Nat}
    (h : ∀ j < n, a ≠ off + 4 * j) : m.run (memcpyWords off src) a = m a := by
  induction n generalizing m off with
  | zero => simp [memcpyWords]
  | succ n ih =>
    rw [memcpyWords_succ, Region.run_cons, ih _ _ _ fun j hj => ?_]
    · exact Function.update_of_ne (by simpa using h 0 (by omega)) _ _
    · have := h (j + 1) (by omega)
      omega

/-- The words of a `memcpy` are at their place after it. -/
theorem run_memcpyWords (m : Region) (off : Nat) {n : Nat} (src : Fin n → U32) (j : Fin n) :
    m.run (memcpyWords off src) (off + 4 * j) = src j := by
  induction n generalizing m off with
  | zero => exact j.elim0
  | succ n ih =>
    rw [memcpyWords_succ, Region.run_cons]
    cases j using Fin.cases with
    | zero =>
      rw [run_memcpyWords_of_lt _ _ _ (by simp; omega)]
      simp
    | succ j =>
      have := ih (m.access (.cenaWord off (src 0))) (off + 4) (fun j => src j.succ) j
      rwa [show off + 4 + 4 * (j : Nat) = off + 4 * (j.succ : Nat) by simp; omega] at this

end Qbman
