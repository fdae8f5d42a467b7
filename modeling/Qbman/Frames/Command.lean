import Qbman.Dqrr.Result
import Qbman.Eqcr.Batch
import Qbman.Eqcr.Direct

/-!
# Frames in commands and in results

A call enqueues each frame with a descriptor (`EnqCall.asked`). `decodeEnqueue` reads an enqueue
command as the hardware does, and finds that descriptor and that frame in it, with the valid bit of
the slot (`EnqCall.decode_command`). A dequeue result has a frame descriptor too (`Line.HasFrame`).
-/

namespace Qbman

/-- A frame with the descriptor that it is enqueued with. -/
structure EnqFrame where
  desc : QbmanEqDesc
  fd : QbmanFd

namespace QbmanEqDesc

/-- The frame waits for its place in a sequence. -/
def orp (d : QbmanEqDesc) : Bool := d.verb.getLsbD qbEnqueueCmdOrpEnableShift

/-- The target is a queuing destination, else it is a queue. -/
def toQd (d : QbmanEqDesc) : Bool := d.verb.getLsbD qbEnqueueCmdTargetTypeShift

/-- The queues that a frame may go to: the target, or any that a queuing destination selects. -/
def MayGo (d : QbmanEqDesc) (fqid : U32) : Prop := d.toQd = false → d.tgtid = fqid

end QbmanEqDesc

/-! ## The calls -/

namespace EnqCall

/-- The descriptor of frame `i`. -/
def desc : EnqCall → Nat → QbmanEqDesc
  | enqueue d _, _ => d
  | multiple d _ flags _, i => d.withFlags flags i
  | multipleDesc d _ _, i => d i

def frame (c : EnqCall) (i : Nat) : EnqFrame := ⟨c.desc i, c.fd i⟩

/-- The first `n` frames of a call. -/
def asked (c : EnqCall) (n : Nat) : List EnqFrame := (List.range n).map c.frame

theorem command_eq (c : EnqCall) (i : Nat) (v : Bool) :
    c.command i (vbit v) = eqCommand ((c.desc i).cl 0 ||| vbit v) (c.desc i).cl (c.fd i) := by
  cases c with
  | enqueue d fd => rfl
  | multiple d fd flags n => exact eqCommand_withFlags d flags fd i v
  | multipleDesc d fd n => rfl

/-- The verb of a frame leaves room for the valid bit. -/
theorem Built.verb {c : EnqCall} (h : c.Built) (i : Nat) : (c.desc i).verb.getLsbD 7 = false := by
  have hbuilt : ∀ {d : QbmanEqDesc}, d.Built → d.verb.getLsbD 7 = false := by
    rintro d ⟨sets, rfl⟩
    exact EqDescSet.build_verb_bit sets
  cases c with
  | enqueue d fd => exact hbuilt h
  | multiple d fd flags n =>
    have hdca : ∀ e x p, (qbmanEqDescSetDca d e x p).verb = d.verb := fun e x p => by
      unfold qbmanEqDescSetDca
      split
      · split <;> rfl
      · rfl
    show (d.withFlags flags i).verb.getLsbD 7 = false
    unfold QbmanEqDesc.withFlags
    split
    · exact hbuilt h
    · split
      · rw [hdca]
        exact hbuilt h
      · exact hbuilt h
  | multipleDesc d fd n => exact hbuilt (h i)

end EnqCall

/-! ## Commands as the hardware reads them -/

/-- The halves of a word. -/
def lowHalf (w : U32) : U16 := w.setWidth 16

def highHalf (w : U32) : U16 := (w >>> 16).setWidth 16

/-- The descriptor in a command. -/
def decodeEqDesc (l : Line) : QbmanEqDesc where
  verb := getByte (l 0) 0 &&& 0x7f
  dca := getByte (l 0) 1
  seqnum := highHalf (l 0)
  orpid := lowHalf (l 1)
  reserved1 := highHalf (l 1)
  tgtid := l 2
  tag := l 3
  qdbin := lowHalf (l 4)
  qpri := getByte (l 4) 2
  reserved := lowHalf (l 5) ++ getByte (l 4) 3
  wae := getByte (l 5) 2
  rspid := getByte (l 5) 3
  rspAddr := l 7 ++ l 6

/-- The valid bit of a command, its descriptor and its frame. -/
def decodeEnqueue (l : Line) : Bool × EnqFrame :=
  ((l 0).getLsbD 7, ⟨decodeEqDesc l, fun k => l (Fin.ofNat 16 (k + 8))⟩)

/-- A valid bit behind the verb is not part of it. -/
theorem getByte_zero_or_vbit (w : U32) (v : Bool) (h : w.getLsbD 7 = false) :
    getByte (w ||| vbit v) 0 &&& 0x7f = getByte w 0 := by
  have hmask : ∀ i < 8, (0x7f : U8).getLsbD i = decide (i < 7) := by decide
  have hvb : ∀ v, ∀ i < 7, (vbit v).getLsbD i = false := by decide
  refine BitVec.eq_of_getLsbD_eq fun i hi => ?_
  rw [BitVec.getLsbD_and, hmask i hi, getByte_getLsbD, getByte_getLsbD, Nat.mul_zero, Nat.zero_add,
    BitVec.getLsbD_or, decide_eq_true hi, Bool.true_and, Bool.true_and]
  by_cases h7 : i < 7
  · rw [hvb v i h7, Bool.or_false, decide_eq_true h7, Bool.and_true]
  · obtain rfl : i = 7 := by omega
    rw [decide_eq_false h7, Bool.and_false, h]

/-- The rest of the word has no valid bit. -/
theorem getLsbD_or_vbit_of_ge (w : U32) (v : Bool) {i : Nat} (hi : 8 ≤ i) :
    (w ||| vbit v).getLsbD i = w.getLsbD i := by
  rw [BitVec.getLsbD_or, vbit_getLsbD_of_ge v hi, Bool.or_false]

/-- A descriptor is what its words say. -/
theorem decodeEqDesc_eq {d : QbmanEqDesc} {l : Line} (hverb : getByte (l 0) 0 &&& 0x7f = d.verb)
    (hzero : ∀ i, 8 ≤ i → (l 0).getLsbD i = (d.cl 0).getLsbD i)
    (hwords : ∀ k : Fin 7, l (Fin.ofNat 16 (k + 1)) = d.cl k.succ) : decodeEqDesc l = d := by
  have h1 : l 1 = d.reserved1 ++ d.orpid := hwords 0
  have h2 : l 2 = d.tgtid := hwords 1
  have h3 : l 3 = d.tag := hwords 2
  have h4 : l 4 = d.reserved.setWidth 8 ++ d.qpri ++ d.qdbin := hwords 3
  have h5 : l 5 = d.rspid ++ d.wae ++ (d.reserved >>> 8).setWidth 16 := hwords 4
  have h6 : l 6 = d.rspAddr.setWidth 32 := hwords 5
  have h7 : l 7 = (d.rspAddr >>> 32).setWidth 32 := hwords 6
  have h0 : d.cl 0 = d.seqnum ++ d.dca ++ d.verb := rfl
  rw [h0] at hzero
  obtain ⟨verb, dca, seqnum, orpid, reserved1, tgtid, tag, qdbin, qpri, reserved, wae, rspid,
    rspAddr⟩ := d
  simp only [decodeEqDesc, hverb, h1, h2, h3, h4, h5, h6, h7, QbmanEqDesc.mk.injEq, true_and]
  refine ⟨?_, ?_, ?_, ?_, ?_, ?_, ?_, ?_, ?_, ?_⟩
  all_goals
    refine BitVec.eq_of_getLsbD_eq fun i hi => ?_
    have hbit := hzero (8 + i)
    have hbit' := hzero (16 + i)
    simp only [getByte_getLsbD, lowHalf, highHalf, BitVec.getLsbD_setWidth,
      BitVec.getLsbD_ushiftRight, BitVec.getLsbD_append] at hbit hbit' ⊢
    grind

/-- The words of a command. -/
theorem eqCommand_succ (w : U32) (cl : Fin 8 → U32) (fd : QbmanFd) (k : Fin 7) :
    eqCommand w cl fd (Fin.ofNat 16 (k + 1)) = cl k.succ := by
  have hk : ((Fin.ofNat 16 (k + 1) : Fin 16) : Nat) = k + 1 := Nat.mod_eq_of_lt (by omega)
  have hne : Fin.ofNat 16 (k + 1) ≠ 0 :=
    fun he => Nat.succ_ne_zero k (hk.symm.trans (congrArg Fin.val he))
  rw [eqCommand, if_neg hne, dif_pos (by omega)]
  exact congrArg cl (Fin.ext hk)

theorem eqCommand_fd (w : U32) (cl : Fin 8 → U32) (fd : QbmanFd) (k : Fin 8) :
    eqCommand w cl fd (Fin.ofNat 16 (k + 8)) = fd k := by
  have hk : ((Fin.ofNat 16 (k + 8) : Fin 16) : Nat) = k + 8 := Nat.mod_eq_of_lt (by omega)
  have hne : Fin.ofNat 16 (k + 8) ≠ 0 :=
    fun he => Nat.succ_ne_zero _ (hk.symm.trans (congrArg Fin.val he))
  rw [eqCommand, if_neg hne, dif_neg (by omega)]
  exact congrArg fd (Fin.ext (by
    show ((Fin.ofNat 16 (k + 8) : Fin 16) : Nat) - 8 = k
    omega))

/-- The hardware reads what the caller asked for. -/
theorem EnqCall.decode_command {c : EnqCall} (h : c.Built) (i : Nat) (v : Bool) :
    decodeEnqueue (c.command i (vbit v)) = (v, c.frame i) := by
  have hcl : ((c.desc i).cl 0).getLsbD 7 = false := by
    show ((c.desc i).seqnum ++ (c.desc i).dca ++ (c.desc i).verb).getLsbD 7 = false
    rw [BitVec.getLsbD_append]
    simpa using h.verb i
  have hverb : getByte ((c.desc i).cl 0) 0 = (c.desc i).verb := by
    refine BitVec.eq_of_getLsbD_eq fun k hk => ?_
    rw [getByte_getLsbD, decide_eq_true hk, Bool.true_and, Nat.mul_zero, Nat.zero_add]
    show ((c.desc i).seqnum ++ (c.desc i).dca ++ (c.desc i).verb).getLsbD k = _
    rw [BitVec.getLsbD_append, if_pos hk]
  have hdesc : decodeEqDesc (c.command i (vbit v)) = c.desc i := by
    rw [c.command_eq]
    exact decodeEqDesc_eq ((getByte_zero_or_vbit _ v hcl).trans hverb)
      (fun k hk => getLsbD_or_vbit_of_ge _ v hk) fun k => eqCommand_succ _ _ _ k
  have hfd : (fun k : Fin 8 => c.command i (vbit v) (Fin.ofNat 16 (k + 8))) = c.fd i := by
    rw [c.command_eq]
    exact funext fun k => eqCommand_fd _ _ _ k
  rw [decodeEnqueue, EnqCall.command_validBit h, hdesc, hfd]
  rfl

/-! ## Results -/

def qbmanDqStatValidframe : U8 := 0x10

/-- The result is a frame, and has one: a dequeue may end without. -/
def Line.HasFrame (dq : Line) : Prop :=
  qbmanResultIsDQ dq = true ∧ qbmanResultDQFlags dq &&& qbmanDqStatValidframe ≠ 0

instance (dq : Line) : Decidable dq.HasFrame := inferInstanceAs (Decidable (_ ∧ _))

end Qbman
