import Qbman.Portal

/-!
# The enqueue functions

Array mode asks the hardware for a slot with each command (`EQAR`); ring mode and the batch
functions fill the slots from the software producer index on. The direct and the memory-backed
implementation of a function differ in the register they read the consumer index from and in how
they hand the command over (`notify`: nothing but the valid bit in direct mode, a register write in
memory-backed mode), so each pair is one definition with these two as parameters.

`EnqCall` is a call of one of the three entry points; `EnqCall.command` is the 64-byte command that
the caller asks for with its `i`-th frame.
-/

namespace Qbman

/-! ## Commands -/

/-- The words 1 to 15 of an enqueue command: `memcpy(&p[1], &cl[1], 28)`,
`memcpy(&p[8], fd, sizeof(*fd))`. -/
def enqueueBody (p : Nat) (cl : Fin 8 → U32) (fd : QbmanFd) : List Access :=
  memcpyWords (p + 4) (fun j : Fin 7 => cl j.succ) ++ memcpyWords (p + 32) fd

/-- The 64-byte enqueue command with first word `w`. -/
def eqCommand (w : U32) (cl : Fin 8 → U32) (fd : QbmanFd) : Line := fun i =>
  if i = 0 then w
  else if h : (i : Nat) < 8 then cl ⟨i, h⟩ else fd ⟨i - 8, by omega⟩

def qbmanEqcrDcaIdxmask : U32 := 0x0f
def qbmanEnqueueFlagDca : U32 := 1 <<< 31

/-- The `dca` byte that the batch functions patch in: `flags[i]` with the DCA flag. -/
def dcaByte (flags : Option (Nat → U32)) (i : Nat) : Option U8 :=
  match flags with
  | none => none
  | some f =>
    if f i &&& qbmanEnqueueFlagDca ≠ 0 then
      some ((1 : U8) <<< qbEnqueueCmdDcaEnShift ||| (f i &&& qbmanEqcrDcaIdxmask).setWidth 8)
    else none

/-- The first word of a command with its `dca` byte patched. -/
def patchDca (w : U32) : Option U8 → U32
  | none => w
  | some b => setByte w 1 b

/-! ## Array mode -/

def eqarIdx (eqar : U32) : U32 := eqar &&& 0x1f
def eqarVb (eqar : U32) : U32 := eqar &&& 0x80
def eqarSuccess (eqar : U32) : U32 := eqar &&& 0x100

/-- `qbman_write_eqcr_am_rt_register`. -/
def qbmanWriteEqcrAmRtRegister (idx : U8) : List Access :=
  if idx < 16 then [.cinhWrite (qbmanCinhSwpEqcrAmRt + idx.toNat * 4) qmanRtMode]
  else [.cinhWrite (qbmanCinhSwpEqcrAmRt2 + (idx.toNat - 16) * 4) qmanRtMode]

/-- Both array mode enqueues; `notify` is given the granted index. -/
def enqueueArrayMode (notify : U32 → List Access) (s : QbmanSwp) (r : Regions) (d : QbmanEqDesc)
    (fd : QbmanFd) : Outcome Int :=
  let eqar := r.cinh qbmanCinhSwpEqar
  if eqarSuccess eqar = 0 then ⟨-eBUSY, s, [.cinhRead qbmanCinhSwpEqar eqar]⟩
  else
    let p := qbmanCenaSwpEqcr (eqarIdx eqar)
    ⟨0, s, .cinhRead qbmanCinhSwpEqar eqar :: (enqueueBody p d.cl fd ++
      .cenaWord p (d.cl 0 ||| eqarVb eqar) :: notify (eqarIdx eqar))⟩

def qbmanSwpEnqueueArrayModeDirect : QbmanSwp → Regions → QbmanEqDesc → QbmanFd → Outcome Int :=
  enqueueArrayMode fun _ => []

def qbmanSwpEnqueueArrayModeMemBack : QbmanSwp → Regions → QbmanEqDesc → QbmanFd → Outcome Int :=
  enqueueArrayMode fun idx => qbmanWriteEqcrAmRtRegister (idx.setWidth 8)

/-! ## Ring mode -/

namespace Eqcr

def fullMask (e : Eqcr) : U32 := e.piCiMask
def halfMask (e : Eqcr) : U32 := e.piCiMask >>> 1

/-- `if (!s->eqcr.available) { .. }`: the counters after the consumer index `v` was read. -/
def refill (e : Eqcr) (v : U32) : Eqcr :=
  if e.available = 0 then
    { e with
      ci := v &&& e.fullMask
      available := (qmCycDiff (e.piRingSize.setWidth 8) (e.ci.setWidth 8)
        ((v &&& e.fullMask).setWidth 8)).toNat }
  else e

/-- The register read of `refill`. -/
def refillReads (e : Eqcr) (ciReg : Nat) (v : U32) : List Access :=
  if e.available = 0 then [.cenaRead ciReg v] else []

/-- The counters after one frame of `qbman_swp_enqueue_ring_mode_*`. -/
def advance (e : Eqcr) : Eqcr :=
  let pi := (e.pi + 1) &&& e.fullMask
  { e with
    pi
    available := e.available - 1
    piVb := if pi &&& e.halfMask = 0 then e.piVb ^^^ qbValidBit else e.piVb }

/-- The value that the memory-backed functions write to `EQCR_PI`. -/
def doorbell (e : Eqcr) : U32 := qbRtBit ||| e.pi ||| e.piVb

end Eqcr

/-- The register write of the memory-backed functions. -/
def ringDoorbell (e : Eqcr) : List Access := [.cinhWrite qbmanCinhSwpEqcrPi e.doorbell]

/-- Both ring mode enqueues. -/
def enqueueRingMode (ciReg : Nat) (notify : Eqcr → List Access) (s : QbmanSwp) (r : Regions)
    (d : QbmanEqDesc) (fd : QbmanFd) : Outcome Int :=
  let v := r.cena ciReg
  let reads := s.eqcr.refillReads ciReg v
  let e := s.eqcr.refill v
  if e.available = 0 then ⟨-eBUSY, { s with eqcr := e }, reads⟩
  else
    let p := qbmanCenaSwpEqcr (e.pi &&& e.halfMask)
    ⟨0, { s with eqcr := e.advance }, reads ++ (enqueueBody p d.cl fd ++
      .cenaWord p (d.cl 0 ||| e.piVb) :: notify e.advance)⟩

def qbmanSwpEnqueueRingModeDirect : QbmanSwp → Regions → QbmanEqDesc → QbmanFd → Outcome Int :=
  enqueueRingMode qbmanCenaSwpEqcrCi fun _ => []

def qbmanSwpEnqueueRingModeMemBack : QbmanSwp → Regions → QbmanEqDesc → QbmanFd → Outcome Int :=
  enqueueRingMode qbmanCenaSwpEqcrCiMemback ringDoorbell

/-! ## Batches -/

/-- The loop `Fill in the EQCR ring`: `n` frames from frame `i` on, at the running index `pi`. -/
def fillLoop (half : U32) (cl : Nat → Fin 8 → U32) (fd : Nat → QbmanFd) :
    Nat → Nat → U32 → List Access
  | 0, _, _ => []
  | n + 1, i, pi => enqueueBody (qbmanCenaSwpEqcr (pi &&& half)) (cl i) (fd i) ++
      fillLoop half cl fd n (i + 1) (pi + 1)

/-- The polarity after the running index was incremented to `pi`. -/
def flipAtWrap (half pi vb : U32) : U32 := if pi &&& half = 0 then vb ^^^ qbValidBit else vb

/-- The loop `Set the verb byte`, with the patch of the `dca` byte. -/
def verbLoop (half : U32) (cl : Nat → Fin 8 → U32) (flags : Option (Nat → U32)) :
    Nat → Nat → U32 → U32 → List Access
  | 0, _, _, _ => []
  | n + 1, i, pi, vb =>
    let p := qbmanCenaSwpEqcr (pi &&& half)
    .cenaWord p (cl i 0 ||| vb) :: ((dcaByte flags i).toList.map (.cenaByte (p + 1)) ++
      verbLoop half cl flags n (i + 1) (pi + 1) (flipAtWrap half (pi + 1) vb))

/-- `pi_vb` after `verbLoop`. -/
def verbLoopVb (half : U32) : Nat → U32 → U32 → U32
  | 0, _, vb => vb
  | n + 1, pi, vb => verbLoopVb half n (pi + 1) (flipAtWrap half (pi + 1) vb)

/-- The counters after `num` frames of a batch. -/
def Eqcr.advanceBatch (e : Eqcr) (num : Int) : Eqcr :=
  { e with
    pi := (e.pi + BitVec.ofNat 32 num.toNat) &&& e.fullMask
    piVb := verbLoopVb e.halfMask num.toNat e.pi e.piVb
    available := e.available - num }

/-- The four batch enqueues: frame `i` has the descriptor words `cl i`. -/
def enqueueBatch (ciReg : Nat) (notify : Eqcr → List Access) (s : QbmanSwp) (r : Regions)
    (cl : Nat → Fin 8 → U32) (fd : Nat → QbmanFd) (flags : Option (Nat → U32)) (numFrames : Int) :
    Outcome Int :=
  let v := r.cena ciReg
  let reads := s.eqcr.refillReads ciReg v
  let e := s.eqcr.refill v
  if e.available = 0 then ⟨0, { s with eqcr := e }, reads⟩
  else
    let numEnqueued := if e.available < numFrames then e.available else numFrames
    ⟨numEnqueued, { s with eqcr := e.advanceBatch numEnqueued },
      reads ++ (fillLoop e.halfMask cl fd numEnqueued.toNat 0 e.pi ++
        (verbLoop e.halfMask cl flags numEnqueued.toNat 0 e.pi e.piVb ++
          notify (e.advanceBatch numEnqueued)))⟩

def qbmanSwpEnqueueMultipleDirect (s : QbmanSwp) (r : Regions) (d : QbmanEqDesc)
    (fd : Nat → QbmanFd) (flags : Option (Nat → U32)) (numFrames : Int) : Outcome Int :=
  enqueueBatch qbmanCenaSwpEqcrCi (fun _ => []) s r (fun _ => d.cl) fd flags numFrames

def qbmanSwpEnqueueMultipleMemBack (s : QbmanSwp) (r : Regions) (d : QbmanEqDesc)
    (fd : Nat → QbmanFd) (flags : Option (Nat → U32)) (numFrames : Int) : Outcome Int :=
  enqueueBatch qbmanCenaSwpEqcrCiMemback ringDoorbell s r (fun _ => d.cl) fd flags numFrames

def qbmanSwpEnqueueMultipleDescDirect (s : QbmanSwp) (r : Regions) (d : Nat → QbmanEqDesc)
    (fd : Nat → QbmanFd) (numFrames : Int) : Outcome Int :=
  enqueueBatch qbmanCenaSwpEqcrCi (fun _ => []) s r (fun i => (d i).cl) fd none numFrames

def qbmanSwpEnqueueMultipleDescMemBack (s : QbmanSwp) (r : Regions) (d : Nat → QbmanEqDesc)
    (fd : Nat → QbmanFd) (numFrames : Int) : Outcome Int :=
  enqueueBatch qbmanCenaSwpEqcrCiMemback ringDoorbell s r (fun i => (d i).cl) fd none numFrames

/-! ## The entry points -/

/-- `qbman_swp_enqueue_ring_mode`. -/
def qbmanSwpEnqueueRingMode (ptrs : FnPtrs) (s : QbmanSwp) (r : Regions) (d : QbmanEqDesc)
    (fd : QbmanFd) : Outcome Int :=
  match ptrs.enqueueRingModePtr with
  | .direct => qbmanSwpEnqueueRingModeDirect s r d fd
  | .memBack => qbmanSwpEnqueueRingModeMemBack s r d fd

/-- `qbman_swp_enqueue_array_mode`. -/
def qbmanSwpEnqueueArrayMode (ptrs : FnPtrs) (s : QbmanSwp) (r : Regions) (d : QbmanEqDesc)
    (fd : QbmanFd) : Outcome Int :=
  match ptrs.enqueueArrayModePtr with
  | .direct => qbmanSwpEnqueueArrayModeDirect s r d fd
  | .memBack => qbmanSwpEnqueueArrayModeMemBack s r d fd

def qbmanSwpEnqueue (ptrs : FnPtrs) (s : QbmanSwp) (r : Regions) (d : QbmanEqDesc) (fd : QbmanFd) :
    Outcome Int :=
  if s.sys.eqcrMode = .vbArray then qbmanSwpEnqueueArrayMode ptrs s r d fd
  else qbmanSwpEnqueueRingMode ptrs s r d fd

def qbmanSwpEnqueueMultiple (ptrs : FnPtrs) (s : QbmanSwp) (r : Regions) (d : QbmanEqDesc)
    (fd : Nat → QbmanFd) (flags : Option (Nat → U32)) (numFrames : Int) : Outcome Int :=
  match ptrs.enqueueMultiplePtr with
  | .direct => qbmanSwpEnqueueMultipleDirect s r d fd flags numFrames
  | .memBack => qbmanSwpEnqueueMultipleMemBack s r d fd flags numFrames

def qbmanSwpEnqueueMultipleDesc (ptrs : FnPtrs) (s : QbmanSwp) (r : Regions)
    (d : Nat → QbmanEqDesc) (fd : Nat → QbmanFd) (numFrames : Int) : Outcome Int :=
  match ptrs.enqueueMultipleDescPtr with
  | .direct => qbmanSwpEnqueueMultipleDescDirect s r d fd numFrames
  | .memBack => qbmanSwpEnqueueMultipleDescMemBack s r d fd numFrames

/-- A call of one of the three entry points. -/
inductive EnqCall where
  | enqueue (d : QbmanEqDesc) (fd : QbmanFd)
  | multiple (d : QbmanEqDesc) (fd : Nat → QbmanFd) (flags : Option (Nat → U32)) (numFrames : Int)
  | multipleDesc (d : Nat → QbmanEqDesc) (fd : Nat → QbmanFd) (numFrames : Int)

namespace EnqCall

def run (ptrs : FnPtrs) (s : QbmanSwp) (r : Regions) : EnqCall → Outcome Int
  | enqueue d fd => qbmanSwpEnqueue ptrs s r d fd
  | multiple d fd flags n => qbmanSwpEnqueueMultiple ptrs s r d fd flags n
  | multipleDesc d fd n => qbmanSwpEnqueueMultipleDesc ptrs s r d fd n

section View

variable {α : Type*} (view : QbmanSwp → α) (hview : ∀ s eqcr, view { s with eqcr } = view s)

include hview

/-- An enqueue leaves the fields other than `eqcr` alone. -/
theorem run_view (call : EnqCall) (ptrs : FnPtrs) (s : QbmanSwp) (r : Regions) :
    view (call.run ptrs s r).swp = view s := by
  have harray : ∀ notify d fd, view (enqueueArrayMode notify s r d fd).swp = view s := by
    intro notify d fd
    simp only [enqueueArrayMode]
    split <;> rfl
  have hring : ∀ ciReg notify d fd,
      view (enqueueRingMode ciReg notify s r d fd).swp = view s := by
    intro ciReg notify d fd
    simp only [enqueueRingMode]
    split
    · exact hview s _
    · exact hview s _
  have hbatch : ∀ ciReg notify cl fd flags n,
      view (enqueueBatch ciReg notify s r cl fd flags n).swp = view s := by
    intro ciReg notify cl fd flags n
    simp only [enqueueBatch]
    split
    · exact hview s _
    · exact hview s _
  cases call with
  | enqueue d fd =>
    simp only [run, qbmanSwpEnqueue, qbmanSwpEnqueueArrayMode, qbmanSwpEnqueueRingMode]
    split
    · split
      · exact harray _ _ _
      · exact harray _ _ _
    · split
      · exact hring _ _ _ _
      · exact hring _ _ _ _
  | multiple d fd flags n =>
    simp only [run, qbmanSwpEnqueueMultiple]
    split
    · exact hbatch _ _ _ _ _ _
    · exact hbatch _ _ _ _ _ _
  | multipleDesc d fd n =>
    simp only [run, qbmanSwpEnqueueMultipleDesc]
    split
    · exact hbatch _ _ _ _ _ _
    · exact hbatch _ _ _ _ _ _

end View

/-- The descriptor words of frame `i`. -/
def cl : EnqCall → Nat → Fin 8 → U32
  | enqueue d _, _ => d.cl
  | multiple d _ _ _, _ => d.cl
  | multipleDesc d _ _, i => (d i).cl

/-- Frame `i`. -/
def fd : EnqCall → Nat → QbmanFd
  | enqueue _ fd, _ => fd
  | multiple _ fd _ _, i => fd i
  | multipleDesc _ fd _, i => fd i

def flags : EnqCall → Option (Nat → U32)
  | multiple _ _ flags _ => flags
  | _ => none

/-- The number of frames the caller offers. -/
def numFrames : EnqCall → Int
  | enqueue _ _ => 1
  | multiple _ _ _ n => n
  | multipleDesc _ _ n => n

/-- The command that the call asks for with its `i`-th frame, with the valid-bit word `vb`. -/
def command (c : EnqCall) (i : Nat) (vb : U32) : Line :=
  eqCommand (patchDca (c.cl i 0 ||| vb) (dcaByte c.flags i)) (c.cl i) (c.fd i)

/-- The number of frames that a return value reports as accepted. -/
def accepted : EnqCall → Int → Nat
  | enqueue _ _, ret => if ret = 0 then 1 else 0
  | _, ret => ret.toNat

/-- The descriptors of the call were built with the setters. -/
def Built : EnqCall → Prop
  | enqueue d _ => d.Built
  | multiple d _ _ _ => d.Built
  | multipleDesc d _ _ => ∀ i, (d i).Built

/-- The caller's side: built descriptors, a frame count that is not negative. -/
def Valid (c : EnqCall) : Prop := c.Built ∧ 0 ≤ c.numFrames

theorem Built.validBit {c : EnqCall} (h : c.Built) (i : Nat) : c.cl i 0 &&& qbValidBit = 0 := by
  cases c with
  | enqueue d fd => exact QbmanEqDesc.Built.validBit h
  | multiple d fd flags n => exact QbmanEqDesc.Built.validBit h
  | multipleDesc d fd n => exact (h i).validBit

end EnqCall

end Qbman
