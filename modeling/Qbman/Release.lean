import Qbman.Portal

/-!
# Buffer releases

`qbman_swp_release` asks the `RAR` register for a slot of the release ring, copies the caller's
buffer addresses behind the first two words of the command and stores the first word last. The
implementations differ in the ring they write and in how the hardware is told.
-/

namespace Qbman

/-- `RAR_IDX` -/
def rarIdx (rar : U32) : U32 := rar &&& 0x7

/-- `RAR_VB` -/
def rarVb (rar : U32) : U32 := rar &&& 0x80

/-- `RAR_SUCCESS` -/
def rarSuccess (rar : U32) : Bool := rar &&& 0x100 ≠ 0

/-- The stores of a list of words at consecutive places from `off` on. -/
def storeWords : Nat → List U32 → List Access
  | _, [] => []
  | off, w :: ws => .cenaWord off w :: storeWords (off + 4) ws

/-- Both implementations: the command goes to `rcr idx`, and `notify idx` follows. -/
def releaseCall (rcr : U32 → Nat) (notify : U32 → List Access) (s : QbmanSwp) (r : Regions)
    (d : QbmanReleaseDesc) (buffers : Nat → U64) (numBuffers : U32) : Outcome Int :=
  let rar := r.cinh qbmanCinhSwpRar
  let reads := [.cinhRead qbmanCinhSwpRar rar]
  if !rarSuccess rar then ⟨-eBUSY, s, reads⟩
  else
    let p := rcr (rarIdx rar)
    let words := u64ToLe32Copy false numBuffers.toNat (hostWords false buffers)
    ⟨0, s, reads ++ (storeWords (p + 8) words ++
      .cenaWord p (d.cl0 ||| rarVb rar ||| numBuffers) :: notify (rarIdx rar))⟩

def qbmanSwpReleaseDirect :
    QbmanSwp → Regions → QbmanReleaseDesc → (Nat → U64) → U32 → Outcome Int :=
  releaseCall qbmanCenaSwpRcr fun _ => []

def qbmanSwpReleaseMemBack :
    QbmanSwp → Regions → QbmanReleaseDesc → (Nat → U64) → U32 → Outcome Int :=
  releaseCall qbmanCenaSwpRcrMem fun idx =>
    [.cinhWrite (qbmanCinhSwpRcrAmRt + idx.toNat * 4) qmanRtMode]

def qbmanSwpRelease (ptrs : FnPtrs) (s : QbmanSwp) (r : Regions) (d : QbmanReleaseDesc)
    (buffers : Nat → U64) (numBuffers : U32) : Outcome Int :=
  match ptrs.releasePtr with
  | .direct => qbmanSwpReleaseDirect s r d buffers numBuffers
  | .memBack => qbmanSwpReleaseMemBack s r d buffers numBuffers

/-- The entry of the release ring that an implementation writes. -/
def Impl.rcr : Impl → U32 → Nat
  | .direct => qbmanCenaSwpRcr
  | .memBack => qbmanCenaSwpRcrMem

/-- How an implementation tells the hardware. -/
def Impl.rcrNotify : Impl → U32 → List Access
  | .direct => fun _ => []
  | .memBack => fun idx => [.cinhWrite (qbmanCinhSwpRcrAmRt + idx.toNat * 4) qmanRtMode]

theorem qbmanSwpRelease_impl (ptrs : FnPtrs) (s : QbmanSwp) (r : Regions) (d : QbmanReleaseDesc)
    (buffers : Nat → U64) (n : U32) : qbmanSwpRelease ptrs s r d buffers n =
      releaseCall ptrs.releasePtr.rcr ptrs.releasePtr.rcrNotify s r d buffers n := by
  unfold qbmanSwpRelease
  cases ptrs.releasePtr <;> rfl

theorem releaseCall_swp (rcr : U32 → Nat) (notify : U32 → List Access) (s : QbmanSwp) (r : Regions)
    (d : QbmanReleaseDesc) (buffers : Nat → U64) (n : U32) :
    (releaseCall rcr notify s r d buffers n).swp = s := by
  simp only [releaseCall]
  split <;> rfl

end Qbman
