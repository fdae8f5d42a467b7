import Qbman.Desc
import Qbman.Lib.Calls

/-!
# The last action of a descriptor

`fsl_qbman_portal.h` says of the "actions" and "targets" of an enqueue descriptor, and of the
actions of a pull descriptor, that calling one replaces the effect of any prior call. The setters
replace the target, the order restoration and the dequeue source. They do not replace three bit
fields: the command options of an enqueue (only `orp_hole` and `orp_nesn` clear them) and the two
dequeue fields of a pull (no call clears them). These fields collect what the calls set, so that
the last call decides only if it sets every bit the earlier ones did.
-/

namespace Qbman

open Calls Words

/-! ## Enqueue descriptors -/

namespace EqDescSet

/-- Calls of the descriptor "actions". -/
def isAction : EqDescSet → Bool
  | noOrp _ | orp _ _ _ _ | orpHole _ _ | orpNesn _ _ => true
  | _ => false

/-- Calls of the descriptor "targets". -/
def isTarget : EqDescSet → Bool
  | fq _ | qd _ _ _ => true
  | _ => false

/-- The actions "without any enqueue". -/
def isWithoutEnqueue : EqDescSet → Bool
  | orpHole _ _ | orpNesn _ _ => true
  | _ => false

/-- The `respond_success` of an action with an enqueue, as C tests it. -/
def respondSuccess? : EqDescSet → Option Bool
  | noOrp r => some (decide (r ≠ 0))
  | orp r _ _ _ => some (decide (r ≠ 0))
  | _ => none

/-- The command option that a call sets. -/
def option (s : EqDescSet) : U8 :=
  match s.respondSuccess? with
  | some true => enqueueResponseAlways
  | some false => enqueueRejectsToFq
  | none => 0

end EqDescSet

/-- The action part of a descriptor: ORP-enable, the two option bits, and `orpid` and `seqnum` (with
`NLIS` and `NESN`) when ORP is enabled. -/
structure EqAction where
  orpEnable : Bool
  options : U8
  order : Option (U16 × U16)
  deriving DecidableEq

/-- The target part of a descriptor: the target type, `tgtid`, and `qdbin` and `qpri` of a queuing
destination. -/
structure EqTarget where
  targetType : Bool
  tgtid : U32
  qd : Option (U16 × U8)
  deriving DecidableEq

namespace QbmanEqDesc

def orpEnable (d : QbmanEqDesc) : Bool := d.verb.getLsbD qbEnqueueCmdOrpEnableShift

def targetType (d : QbmanEqDesc) : Bool := d.verb.getLsbD qbEnqueueCmdTargetTypeShift

def options (d : QbmanEqDesc) : U8 := d.verb &&& qbEnqueueCmdEcOptionMask

def order (d : QbmanEqDesc) : Option (U16 × U16) :=
  if d.orpEnable then some (d.orpid, d.seqnum) else none

def action (d : QbmanEqDesc) : EqAction := ⟨d.orpEnable, d.options, d.order⟩

def target (d : QbmanEqDesc) : EqTarget :=
  ⟨d.targetType, d.tgtid, if d.targetType then some (d.qdbin, d.qpri) else none⟩

end QbmanEqDesc

namespace EqDescSet

theorem apply_orpEnable (d : QbmanEqDesc) (s : EqDescSet) :
    (s.apply d).orpEnable =
      match s with
      | noOrp _ => false
      | orp _ _ _ _ | orpHole _ _ | orpNesn _ _ => true
      | _ => d.orpEnable := by
  unfold QbmanEqDesc.orpEnable
  cases s <;>
    simp only [apply, qbmanEqDescSetNoOrp, qbmanEqDescSetOrp, qbmanEqDescSetOrpHole,
      qbmanEqDescSetOrpNesn, qbmanEqDescSetResponse, qbmanEqDescSetToken, qbmanEqDescSetFq,
      qbmanEqDescSetQd, qbmanEqDescSetEqdi, qbmanEqDescSetDca] <;>
    (repeat' split) <;>
    simp [enqueueResponseAlways, enqueueRejectsToFq, qbEnqueueCmdOrpEnableShift,
      qbEnqueueCmdIrqOnDispatchShift, qbEnqueueCmdTargetTypeShift, qbEnqueueCmdEcOptionMask]

theorem apply_targetType (d : QbmanEqDesc) (s : EqDescSet) :
    (s.apply d).targetType =
      match s with
      | fq _ => false
      | qd _ _ _ => true
      | _ => d.targetType := by
  unfold QbmanEqDesc.targetType
  cases s <;>
    simp only [apply, qbmanEqDescSetNoOrp, qbmanEqDescSetOrp, qbmanEqDescSetOrpHole,
      qbmanEqDescSetOrpNesn, qbmanEqDescSetResponse, qbmanEqDescSetToken, qbmanEqDescSetFq,
      qbmanEqDescSetQd, qbmanEqDescSetEqdi, qbmanEqDescSetDca] <;>
    (repeat' split) <;>
    simp [enqueueResponseAlways, enqueueRejectsToFq, qbEnqueueCmdOrpEnableShift,
      qbEnqueueCmdIrqOnDispatchShift, qbEnqueueCmdTargetTypeShift, qbEnqueueCmdEcOptionMask]

theorem option_eq_zero {s : EqDescSet} (h : s.isAction = false) : s.option = 0 := by
  cases s <;> simp_all [isAction, option, respondSuccess?]

theorem isAction_of_isWithoutEnqueue (s : EqDescSet) (h : s.isWithoutEnqueue = true) :
    s.isAction = true := by
  cases s <;> simp_all [isAction, isWithoutEnqueue]

/-- The options are set and cleared by actions only. -/
theorem apply_options_frame (d : QbmanEqDesc) {s : EqDescSet} (h : s.isAction = false) :
    (s.apply d).options = d.options := by
  unfold QbmanEqDesc.options
  cases s with
  | response p s => rfl
  | token t => rfl
  | fq f => exact and_not_and_mask _ (by decide)
  | qd q b p => exact or_and_mask _ (by decide)
  | eqdi e =>
    simp only [apply, qbmanEqDescSetEqdi]
    split
    · exact or_and_mask _ (by decide)
    · exact and_not_and_mask _ (by decide)
  | dca e i p => by_cases he : e = 0 <;> by_cases hp : p = 0 <;>
      simp [apply, qbmanEqDescSetDca, he, hp]
  | noOrp r => cases h
  | orp r o s i => cases h
  | orpHole o s => cases h
  | orpNesn o s => cases h

/-- Only the actions without an enqueue clear the options; an action with one adds its own. -/
theorem apply_options (d : QbmanEqDesc) (s : EqDescSet) :
    (s.apply d).options = if s.isWithoutEnqueue then 0 else d.options ||| s.option := by
  cases h : s.isAction with
  | false =>
    have hno : ¬ s.isWithoutEnqueue = true := fun hw => by
      rw [isAction_of_isWithoutEnqueue s hw] at h
      cases h
    rw [if_neg hno, apply_options_frame d h, option_eq_zero h]
    simp
  | true =>
    unfold QbmanEqDesc.options
    cases s with
    | noOrp r =>
      have hclear := and_not_and_mask d.verb (b := (1 : U8) <<< qbEnqueueCmdOrpEnableShift)
        (m := qbEnqueueCmdEcOptionMask) (by decide)
      simp only [apply, qbmanEqDescSetNoOrp]
      split
      · rename_i hr
        rw [or_and_mask_self _ (by decide), hclear]
        simp [isWithoutEnqueue, option, respondSuccess?, hr]
      · rename_i hr
        rw [or_and_mask_self _ (by decide), hclear]
        simp [isWithoutEnqueue, option, respondSuccess?, hr]
    | orp r o s i =>
      have hset := or_and_mask d.verb (b := (1 : U8) <<< qbEnqueueCmdOrpEnableShift)
        (m := qbEnqueueCmdEcOptionMask) (by decide)
      have hor : ∀ v : U8, (d.verb ||| (1 : U8) <<< qbEnqueueCmdOrpEnableShift ||| v) &&&
          qbEnqueueCmdEcOptionMask =
            d.verb &&& qbEnqueueCmdEcOptionMask ||| v &&& qbEnqueueCmdEcOptionMask := by
        intro v
        rw [BitVec.and_or_distrib_right, hset]
      by_cases hr : r = 0 <;> by_cases hi : i = 0
      all_goals
        simp only [apply, qbmanEqDescSetOrp, hr, hi, ne_eq, not_true_eq_false, not_false_eq_true,
          if_true, if_false, hor]
        simp [isWithoutEnqueue, option, respondSuccess?, hr]
        rfl
    | orpHole o s => exact and_not_self_mask _
    | orpNesn o s => exact and_not_self_mask _
    | response p s => cases h
    | token t => cases h
    | fq f => cases h
    | qd q b p => cases h
    | eqdi e => cases h
    | dca e i p => cases h

/-- The fields of the order restoration that no other call writes. -/
theorem apply_order_frame (d : QbmanEqDesc) {s : EqDescSet} (h : s.isAction = false) :
    (s.apply d).orpid = d.orpid ∧ (s.apply d).seqnum = d.seqnum := by
  cases s with
  | noOrp r => cases h
  | orp r o s i => cases h
  | orpHole o s => cases h
  | orpNesn o s => cases h
  | response p s => exact ⟨rfl, rfl⟩
  | token t => exact ⟨rfl, rfl⟩
  | fq f => exact ⟨rfl, rfl⟩
  | qd q b p => exact ⟨rfl, rfl⟩
  | eqdi e =>
    simp only [apply, qbmanEqDescSetEqdi]
    split <;> exact ⟨rfl, rfl⟩
  | dca e i p =>
    simp only [apply, qbmanEqDescSetDca]
    split
    · split <;> exact ⟨rfl, rfl⟩
    · exact ⟨rfl, rfl⟩

/-- Order restoration is replaced. -/
theorem order_replaces :
    Replaces apply isAction fun d : QbmanEqDesc => (d.orpEnable, d.order) where
  frame d a h := by
    have hflag : (a.apply d).orpEnable = d.orpEnable := by
      rw [apply_orpEnable]
      cases a <;> simp_all [isAction]
    obtain ⟨ho, hs⟩ := apply_order_frame d h
    simp only [QbmanEqDesc.order, hflag, ho, hs]
  replace d d' a h := by
    simp only [QbmanEqDesc.order, apply_orpEnable]
    cases a with
    | noOrp r => rfl
    | orp r o s i =>
      simp only [apply, qbmanEqDescSetOrp]
      by_cases hr : r = 0 <;> by_cases hi : i = 0 <;> simp [hr, hi]
    | orpHole o s => rfl
    | orpNesn o s => rfl
    | response p s => cases h
    | token t => cases h
    | fq f => cases h
    | qd q b p => cases h
    | eqdi e => cases h
    | dca e i p => cases h

/-- The fields of the target that no other call writes. -/
theorem apply_target_frame (d : QbmanEqDesc) {s : EqDescSet} (h : s.isTarget = false) :
    (s.apply d).tgtid = d.tgtid ∧ (s.apply d).qdbin = d.qdbin ∧ (s.apply d).qpri = d.qpri := by
  cases s with
  | fq f => cases h
  | qd q b p => cases h
  | response p s => exact ⟨rfl, rfl, rfl⟩
  | token t => exact ⟨rfl, rfl, rfl⟩
  | orpHole o s => exact ⟨rfl, rfl, rfl⟩
  | orpNesn o s => exact ⟨rfl, rfl, rfl⟩
  | noOrp r =>
    simp only [apply, qbmanEqDescSetNoOrp]
    split <;> exact ⟨rfl, rfl, rfl⟩
  | orp r o s i =>
    simp only [apply, qbmanEqDescSetOrp]
    split <;> split <;> exact ⟨rfl, rfl, rfl⟩
  | eqdi e =>
    simp only [apply, qbmanEqDescSetEqdi]
    split <;> exact ⟨rfl, rfl, rfl⟩
  | dca e i p =>
    simp only [apply, qbmanEqDescSetDca]
    split
    · split <;> exact ⟨rfl, rfl, rfl⟩
    · exact ⟨rfl, rfl, rfl⟩

/-- The target is replaced. -/
theorem target_replaces : Replaces apply isTarget QbmanEqDesc.target where
  frame d a h := by
    have hflag : (a.apply d).targetType = d.targetType := by
      rw [apply_targetType]
      cases a <;> simp_all [isTarget]
    obtain ⟨ht, hb, hp⟩ := apply_target_frame d h
    simp only [QbmanEqDesc.target, hflag, ht, hb, hp]
  replace d d' a h := by
    simp only [QbmanEqDesc.target, apply_targetType]
    cases a with
    | fq f => rfl
    | qd q b p => rfl
    | noOrp r => cases h
    | orp r o s i => cases h
    | orpHole o s => cases h
    | orpNesn o s => cases h
    | response p s => cases h
    | token t => cases h
    | eqdi e => cases h
    | dca e i p => cases h

/-- The command options are collected. -/
theorem options_collects :
    Collects apply isWithoutEnqueue (fun s => bitsOf s.option)
      fun d : QbmanEqDesc => bitsOf d.options where
  empty d a h := by
    rw [apply_options, if_pos h]
    exact bitsOf_zero
  add d a h := by
    rw [apply_options, if_neg (by simp [h]), bitsOf_or]

/-- The option of a call is covered by that of an action, if and only if both ask for the same. -/
theorem option_le_iff {s a : EqDescSet} {r : Bool} (ha : a.respondSuccess? = some r) :
    bitsOf s.option ≤ bitsOf a.option ↔ ∀ r', s.respondSuccess? = some r' → r' = r := by
  rw [bitsOf_le_iff, option, option, ha]
  cases s.respondSuccess? with
  | none => simp
  | some r' => cases r <;> cases r' <;> decide +revert

/-- The actions with an enqueue, since the last one without, have the `respond_success` of the
last action. -/
def OneResponse (sets : List EqDescSet) : Prop :=
  ∀ b, lastOf isAction sets = some b → ∀ s ∈ since isWithoutEnqueue sets,
    ∀ r, s.respondSuccess? = some r → b.respondSuccess? = some r

theorem oneResponse_iff (sets : List EqDescSet) :
    OneResponse sets ↔ ∀ b, lastOf isAction sets = some b → ∀ s ∈ since isWithoutEnqueue sets,
      bitsOf s.option ≤ bitsOf b.option := by
  refine forall_congr' fun b => imp_congr_right fun hb => forall_congr' fun s =>
    imp_congr_right fun hs => ?_
  cases hr : b.respondSuccess? with
  | some r =>
    rw [option_le_iff hr]
    simp [eq_comm]
  | none =>
    -- the last action is one without an enqueue, so that no action came since
    have hwithout : b.isWithoutEnqueue = true := by
      have haction := (lastOf_mem hb).2
      cases b <;> simp_all [isAction, isWithoutEnqueue, respondSuccess?]
    have hs' : s.isAction = false := group_of_mem_since hb hwithout hs
    have hnone : s.respondSuccess? = none := by
      cases s <;> simp_all [isAction, respondSuccess?]
    rw [option_eq_zero hs', bitsOf_zero, hnone]
    simp

/-- The last target alone decides the target part, and the last action alone the action part, if
and only if the actions agree in `respond_success`. -/
theorem eqDesc_lastOf_iff (sets : List EqDescSet) :
    ((build sets).action = (build (lastOf isAction sets).toList).action ∧
      (build sets).target = (build (lastOf isTarget sets).toList).target) ↔ OneResponse sets := by
  have horder := order_replaces.foldl qbmanEqDescClear sets
  have htarget := target_replaces.foldl qbmanEqDescClear sets
  have hoptions := options_collects.foldl_lastOf_iff
    (show bitsOf qbmanEqDescClear.options = ⊥ from bitsOf_zero)
    isAction_of_isWithoutEnqueue
    (fun a h => (congrArg bitsOf (option_eq_zero h)).trans bitsOf_zero) sets
  rw [bitsOf_inj, ← oneResponse_iff] at hoptions
  obtain ⟨hflag, hseq⟩ := Prod.mk.inj horder
  rw [← hoptions]
  simp only [QbmanEqDesc.action, EqAction.mk.injEq]
  exact ⟨fun h => h.1.2.1, fun h => ⟨⟨hflag, h, hseq⟩, htarget⟩⟩

/-- An enqueue that was to respond always, then one with rejections to a frame queue: both option
bits are set. -/
theorem eqDesc_lastOf_merged :
    ¬ ∀ sets : List EqDescSet,
      (build sets).action = (build (lastOf isAction sets).toList).action ∧
        (build sets).target = (build (lastOf isTarget sets).toList).target := by
  intro h
  have := (h [noOrp 1, noOrp 0]).1
  revert this
  decide

end EqDescSet

/-! ## Pull descriptors -/

namespace PullDescSet

/-- Calls of the descriptor "actions". -/
def isAction : PullDescSet → Bool
  | fq _ | wq _ _ | channel _ _ => true
  | _ => false

/-- The dequeue command type that a call sets. -/
def dct : PullDescSet → U8
  | fq _ => 1
  | wq _ t | channel _ t => t.val
  | _ => 0

/-- The dequeue target type that a call sets. -/
def dt : PullDescSet → U8
  | fq _ => qbPullDtFramequeue
  | wq _ _ => qbPullDtWorkqueue
  | _ => qbPullDtChannel

end PullDescSet

namespace QbmanPullDesc

/-- The dequeue-command-type field of the verb. -/
def dct (d : QbmanPullDesc) : U8 := (d.verb >>> qbVdqcrVerbDctShift) &&& 3

/-- The dequeue-target-type field of the verb. -/
def dt (d : QbmanPullDesc) : U8 := (d.verb >>> qbVdqcrVerbDtShift) &&& 3

end QbmanPullDesc

namespace PullDescSet

/-- The dequeue source is replaced. -/
theorem dqSrc_replaces : Replaces apply isAction QbmanPullDesc.dqSrc where
  frame d a h := by
    cases a with
    | storage v p st =>
      simp only [apply, qbmanPullDescSetStorage]
      split
      · rfl
      · split <;> rfl
    | numframes n => rfl
    | token t => rfl
    | fq f => cases h
    | wq w t => cases h
    | channel c t => cases h
    | rad r =>
      simp only [apply, qbmanPullDescSetRad]
      split
      · split <;> rfl
      · rfl
  replace d d' a h := by
    cases a with
    | fq f => rfl
    | wq w t => rfl
    | channel c t => rfl
    | storage v p st => cases h
    | numframes n => cases h
    | token t => cases h
    | rad r => cases h

theorem dct_eq_zero {s : PullDescSet} (h : s.isAction = false) : s.dct = 0 ∧ s.dt = 0 := by
  cases s <;> simp_all [isAction, dct, dt, qbPullDtChannel]

/-- The dequeue fields, the low four bits of the verb, are set by actions only. -/
theorem apply_verb_low_frame (d : QbmanPullDesc) {s : PullDescSet} (h : s.isAction = false) :
    (s.apply d).verb &&& 15 = d.verb &&& 15 := by
  cases s with
  | storage v p st =>
    have hrls : ∀ x : U8, (x ||| (1 : U8) <<< qbVdqcrVerbRlsShift) &&& 15 = x &&& 15 :=
      fun x => or_and_mask x (by decide)
    simp only [apply, qbmanPullDescSetStorage]
    split
    · rw [and_not_and_mask _ (by decide)]
    · split
      · rw [or_and_mask _ (by decide), hrls]
      · rw [and_not_and_mask _ (by decide), hrls]
  | numframes n => rfl
  | token t => rfl
  | rad r =>
    simp only [apply, qbmanPullDescSetRad]
    split
    · split
      · rw [or_and_mask _ (by decide)]
      · rw [and_not_and_mask _ (by decide)]
    · rfl
  | fq f => cases h
  | wq w t => cases h
  | channel c t => cases h

/-- No call clears a dequeue field; an action adds its own bits. -/
theorem apply_verb_low (d : QbmanPullDesc) (s : PullDescSet) :
    (s.apply d).verb &&& 15 = d.verb &&& 15 ||| (s.dct ||| s.dt <<< qbVdqcrVerbDtShift) := by
  cases h : s.isAction with
  | false =>
    rw [apply_verb_low_frame d h, (dct_eq_zero h).1, (dct_eq_zero h).2]
    simp
  | true =>
    cases s with
    | fq f =>
      simp only [apply, qbmanPullDescSetFq, BitVec.and_or_distrib_right, BitVec.or_assoc]
      simp [dct, dt, qbVdqcrVerbDctShift, qbVdqcrVerbDtShift, qbPullDtFramequeue]
    | wq w t =>
      simp only [apply, qbmanPullDescSetWq, BitVec.and_or_distrib_right, BitVec.or_assoc]
      cases t <;> simp [dct, dt, qbVdqcrVerbDctShift, qbVdqcrVerbDtShift, qbPullDtWorkqueue,
        QbmanPullType.val]
    | channel c t =>
      simp only [apply, qbmanPullDescSetChannel, BitVec.and_or_distrib_right, BitVec.or_assoc]
      cases t <;> simp [dct, dt, qbVdqcrVerbDctShift, qbVdqcrVerbDtShift, qbPullDtChannel,
        QbmanPullType.val]
    | storage v p st => cases h
    | numframes n => cases h
    | token t => cases h
    | rad r => cases h

/-- The two fields of an action do not overlap. -/
theorem field_dct (s : PullDescSet) : (s.dct ||| s.dt <<< qbVdqcrVerbDtShift) &&& 3 = s.dct := by
  cases s with
  | wq w t => cases t <;> simp [dct, dt, QbmanPullType.val, qbPullDtWorkqueue, qbVdqcrVerbDtShift]
  | channel c t => cases t <;> simp [dct, dt, QbmanPullType.val, qbPullDtChannel]
  | _ => simp [dct, dt, qbPullDtFramequeue, qbPullDtChannel, qbVdqcrVerbDtShift]

theorem field_dt (s : PullDescSet) :
    (s.dct ||| s.dt <<< qbVdqcrVerbDtShift) >>> qbVdqcrVerbDtShift = s.dt := by
  cases s with
  | wq w t => cases t <;> simp [dct, dt, QbmanPullType.val, qbPullDtWorkqueue, qbVdqcrVerbDtShift]
  | channel c t => cases t <;>
      simp [dct, dt, QbmanPullType.val, qbPullDtChannel, qbVdqcrVerbDtShift]
  | _ => simp [dct, dt, qbPullDtFramequeue, qbPullDtChannel, qbVdqcrVerbDtShift]

theorem apply_dct (d : QbmanPullDesc) (s : PullDescSet) : (s.apply d).dct = d.dct ||| s.dct := by
  have hlow (d : QbmanPullDesc) : d.dct = d.verb &&& 15 &&& 3 := by
    rw [BitVec.and_assoc]
    exact congrArg (· &&& 3) (BitVec.ushiftRight_zero d.verb)
  rw [hlow, hlow, apply_verb_low, BitVec.and_or_distrib_right, field_dct]

theorem apply_dt (d : QbmanPullDesc) (s : PullDescSet) : (s.apply d).dt = d.dt ||| s.dt := by
  have hlow (d : QbmanPullDesc) : d.dt = (d.verb &&& 15) >>> qbVdqcrVerbDtShift := by
    rw [BitVec.ushiftRight_and_distrib]
    rfl
  rw [hlow, hlow, apply_verb_low, BitVec.ushiftRight_or_distrib, field_dt]

/-- Nothing empties a dequeue field. -/
def isClear : PullDescSet → Bool := fun _ => false

theorem dct_collects :
    Collects apply isClear (fun s => bitsOf s.dct) fun d : QbmanPullDesc => bitsOf d.dct where
  empty d a h := by cases h
  add d a h := by rw [apply_dct, bitsOf_or]

theorem dt_collects :
    Collects apply isClear (fun s => bitsOf s.dt) fun d : QbmanPullDesc => bitsOf d.dt where
  empty d a h := by cases h
  add d a h := by rw [apply_dt, bitsOf_or]

/-- The last action sets every bit of the dequeue fields that an earlier one set. -/
def LastCovers (sets : List PullDescSet) : Prop :=
  ∀ b, lastOf isAction sets = some b → ∀ s ∈ sets, s.dct &&& b.dct = s.dct ∧ s.dt &&& b.dt = s.dt

/-- The last action alone decides the dequeue fields and the source, if and only if it sets every
bit that an earlier action set. -/
theorem pullDesc_lastOf_iff (sets : List PullDescSet) :
    ((build sets).dct = (build (lastOf isAction sets).toList).dct ∧
      (build sets).dt = (build (lastOf isAction sets).toList).dt ∧
      (build sets).dqSrc = (build (lastOf isAction sets).toList).dqSrc) ↔ LastCovers sets := by
  have hclear : ∀ a, isClear a = true → isAction a = true := fun a h => by cases h
  have hsince : since isClear sets = sets := since_eq_self fun _ _ => rfl
  have hsrc := dqSrc_replaces.foldl qbmanPullDescClear sets
  have hdct := dct_collects.foldl_lastOf_iff
    (show bitsOf qbmanPullDescClear.dct = ⊥ from bitsOf_zero) hclear
    (fun a h => (congrArg bitsOf (dct_eq_zero h).1).trans bitsOf_zero) sets
  have hdt := dt_collects.foldl_lastOf_iff
    (show bitsOf qbmanPullDescClear.dt = ⊥ from bitsOf_zero) hclear
    (fun a h => (congrArg bitsOf (dct_eq_zero h).2).trans bitsOf_zero) sets
  rw [bitsOf_inj, hsince] at hdct hdt
  simp only [bitsOf_le_iff] at hdct hdt
  constructor
  · rintro ⟨h₁, h₂, -⟩ b hb s hs
    exact ⟨hdct.mp h₁ b hb s hs, hdt.mp h₂ b hb s hs⟩
  · intro h
    exact ⟨hdct.mpr fun b hb s hs => (h b hb s hs).1,
      hdt.mpr fun b hb s hs => (h b hb s hs).2, hsrc⟩

/-- A frame queue, then a channel: the target type is still that of the frame queue. -/
theorem pullDesc_lastOf_frameQueue :
    ¬ ∀ sets : List PullDescSet,
      (build sets).dct = (build (lastOf isAction sets).toList).dct ∧
        (build sets).dt = (build (lastOf isAction sets).toList).dt ∧
        (build sets).dqSrc = (build (lastOf isAction sets).toList).dqSrc := by
  intro h
  have := (h [fq 5, channel 7 .active]).2.1
  revert this
  decide

end PullDescSet

end Qbman
