import Qbman.Portal

/-!
# Push dequeues

The static dequeue command of a portal is its field `sdq`: the source channels in the low 16 bits,
the options that `qbman_swp_init` chose above them. `qbman_swp_push_set` changes one channel and
writes the command to the hardware, or 0 when no channel is left.
-/

namespace Qbman

def qbSdqcrSrcShift : Nat := 0
def qbSdqcrSrcMask : U32 := 0xffff

/-- The source channels of a static dequeue command. -/
def sdqSrc (sdq : U32) : U16 := (sdq >>> qbSdqcrSrcShift &&& qbSdqcrSrcMask).setWidth 16

/-- `qbman_swp_push_get`: the value of `*enabled`. -/
def qbmanSwpPushGet (s : QbmanSwp) (channelIdx : U8) : U32 :=
  (sdqSrc s.sdq).setWidth 32 ||| (1 : U32) <<< channelIdx.toNat

def qbmanSwpPushSet (s : QbmanSwp) (channelIdx : U8) (enable : Int) : Outcome Unit :=
  let sdq := if enable ≠ 0 then s.sdq ||| (1 : U32) <<< channelIdx.toNat
    else s.sdq &&& ~~~((1 : U32) <<< channelIdx.toNat)
  -- Without a channel the register must be 0, or the hardware reports errors.
  { ret := (), swp := { s with sdq },
    accs := [.cinhWrite qbmanCinhSwpSdqcr (if sdqSrc sdq ≠ 0 then sdq else 0)] }

end Qbman
