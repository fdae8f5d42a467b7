import Qbman.Eqcr.Direct
import Qbman.Grant

/-!
# The enqueue ring in array mode

In array mode a call asks `EQAR` for a slot, and the hardware takes the slots in any order. A
memory-backed portal tells the hardware of the slot with a write to one of two register arrays
(`qbman_write_eqcr_am_rt_register`). The ring is another one whose slots are granted (`GrantRing`):
`arraySys_exact` says that the commands the hardware takes are those of the calls that succeeded.
-/

namespace Qbman

theorem eqarIdx_lt (eqar : U32) : (eqarIdx eqar).toNat < 32 := by
  rw [eqarIdx, Words.toNat_and_mask _ _ (k := 5) rfl]
  exact Nat.mod_lt _ (by decide)

/-- A call: the history of its descriptor and the frame. -/
structure ArrayOp where
  sets : List EqDescSet
  fd : QbmanFd

/-- The slot that a write to `EQCR_AM_RT` or `EQCR_AM_RT2` names. -/
def eqcrTold : Access → Option Nat
  | .cinhWrite off v =>
    if v ≠ qmanRtMode then none
    else if qbmanCinhSwpEqcrAmRt ≤ off ∧ off < qbmanCinhSwpEqcrAmRt + 4 * 16 then
      some ((off - qbmanCinhSwpEqcrAmRt) / 4)
    else if qbmanCinhSwpEqcrAmRt2 ≤ off ∧ off < qbmanCinhSwpEqcrAmRt2 + 4 * 16 then
      some (16 + (off - qbmanCinhSwpEqcrAmRt2) / 4)
    else none
  | _ => none

/-- The number of slots of an implementation's enqueue ring. -/
def Impl.ringSize : Impl → Nat
  | .direct => 8
  | .memBack => 32

theorem Impl.ringSize_eq (impl : Impl) : impl.ringSize = 2 ^ impl.ringExp := by cases impl <;> rfl

def eqcrArray (impl : Impl) : GrantRing ArrayOp Line where
  size := impl.ringSize
  reg := qbmanCinhSwpEqar
  grants w := eqarSuccess w ≠ 0
  idx w := (eqarIdx w).toNat
  vb w := w.getLsbD 7
  call s r op := qbmanSwpEnqueue impl.ptrs s r (EqDescSet.build op.sets) op.fd
  asked op w := (EnqCall.enqueue (EqDescSet.build op.sets) op.fd).command 0 (eqarVb w)
  read m i := m.slots i
  bit m i := (m.slots i 0).getLsbD 7
  told := eqcrTold
  doorbell := impl = .memBack

/-! ## One call -/

/-- How an array mode function of an implementation hands over. -/
def Impl.arrayNotify : Impl → U32 → List Access
  | .direct => fun _ => []
  | .memBack => fun idx => qbmanWriteEqcrAmRtRegister (idx.setWidth 8)

theorem qbmanSwpEnqueue_array (impl : Impl) {s : QbmanSwp} (h : s.sys.eqcrMode = .vbArray)
    (r : Regions) (d : QbmanEqDesc) (fd : QbmanFd) :
    qbmanSwpEnqueue impl.ptrs s r d fd = enqueueArrayMode impl.arrayNotify s r d fd := by
  rw [qbmanSwpEnqueue, if_pos h]
  cases impl <;> rfl

theorem Impl.run_arrayNotify (impl : Impl) (i : U32) (m : Region) :
    m.run (impl.arrayNotify i) = m := by
  cases impl with
  | direct => rfl
  | memBack =>
    simp only [arrayNotify, qbmanWriteEqcrAmRtRegister]
    split
    · rfl
    · rfl

/-- The register array that has the slot is told of it. -/
theorem filterMap_eqcrTold_notify (impl : Impl) {i : U32} (h : i.toNat < 32) :
    (impl.arrayNotify i).filterMap eqcrTold = if impl = .memBack then [i.toNat] else [] := by
  cases impl with
  | direct => rfl
  | memBack =>
    have hidx : (i.setWidth 8).toNat = i.toNat := by
      rw [BitVec.toNat_setWidth]
      exact Nat.mod_eq_of_lt (by omega)
    have hlow : i.setWidth 8 < (16 : U8) ↔ i.toNat < 16 := by
      rw [BitVec.lt_def, hidx]
      rfl
    simp only [Impl.arrayNotify, qbmanWriteEqcrAmRtRegister, hlow, hidx, if_true]
    split
    · rename_i hlt
      have hin : qbmanCinhSwpEqcrAmRt ≤ qbmanCinhSwpEqcrAmRt + i.toNat * 4 ∧
          qbmanCinhSwpEqcrAmRt + i.toNat * 4 < qbmanCinhSwpEqcrAmRt + 4 * 16 := by omega
      simp [eqcrTold, hin]
    · rename_i hge
      have hout : ¬ (qbmanCinhSwpEqcrAmRt ≤ qbmanCinhSwpEqcrAmRt2 + (i.toNat - 16) * 4 ∧
          qbmanCinhSwpEqcrAmRt2 + (i.toNat - 16) * 4 < qbmanCinhSwpEqcrAmRt + 4 * 16) := by
        simp only [qbmanCinhSwpEqcrAmRt, qbmanCinhSwpEqcrAmRt2]
        omega
      have hin : qbmanCinhSwpEqcrAmRt2 ≤ qbmanCinhSwpEqcrAmRt2 + (i.toNat - 16) * 4 ∧
          qbmanCinhSwpEqcrAmRt2 + (i.toNat - 16) * 4 < qbmanCinhSwpEqcrAmRt2 + 4 * 16 := by omega
      simp only [List.filterMap_cons, eqcrTold, ne_eq, not_true_eq_false, if_false, if_neg hout,
        if_pos hin, List.filterMap_nil, List.cons.injEq, and_true]
      omega

theorem filterMap_eqcrTold_enqueueBody (p : Nat) (cl : Fin 8 → U32) (fd : QbmanFd) :
    (enqueueBody p cl fd).filterMap eqcrTold = [] := by
  refine List.filterMap_eq_nil_iff.mpr fun a ha => ?_
  simp only [enqueueBody, memcpyWords, List.mem_append, List.mem_ofFn] at ha
  rcases ha with ⟨j, rfl⟩ | ⟨j, rfl⟩
  · rfl
  · rfl

/-- The slots after a call that was granted slot `i`. -/
theorem Region.slots_arrayMode (m : Region) (impl : Impl) (i : Nat) (cl : Fin 8 → U32)
    (fd : QbmanFd) (w v : U32) (idx : U32) :
    (m.run (.cinhRead qbmanCinhSwpEqar v :: (enqueueBody (64 * i) cl fd ++
      .cenaWord (64 * i) w :: impl.arrayNotify idx))).slots =
      Function.update m.slots i (eqCommand w cl fd) := by
  rw [Region.run_cons, Region.access_cinhRead, Region.run_append, Region.run_cons,
    Impl.run_arrayNotify, Region.slots_cenaWord, Region.slots_enqueueBody, Function.update_idem,
    Function.update_self]
  congr 1
  funext j
  by_cases hj : j = 0
  · subst hj
    simp [eqCommand]
  · simp [eqCommand, hj]

theorem enqueueArrayMode_ok {notify : U32 → List Access} {s : QbmanSwp} {r : Regions}
    (d : QbmanEqDesc) (fd : QbmanFd) (h : eqarSuccess (r.cinh qbmanCinhSwpEqar) ≠ 0) :
    let eqar := r.cinh qbmanCinhSwpEqar
    let p := 64 * (eqarIdx eqar).toNat
    enqueueArrayMode notify s r d fd = ⟨0, s, .cinhRead qbmanCinhSwpEqar eqar ::
      (enqueueBody p d.cl fd ++
        .cenaWord p (d.cl 0 ||| eqarVb eqar) :: notify (eqarIdx eqar))⟩ := by
  have hlt := eqarIdx_lt (r.cinh qbmanCinhSwpEqar)
  simp only [enqueueArrayMode, if_neg h]
  rw [qbmanCenaSwpEqcr_eq (by omega)]

/-- A command has the valid bit of its grant. -/
theorem eqCommand_eqarVb (sets : List EqDescSet) (w : U32) (fd : QbmanFd) :
    (eqCommand ((EqDescSet.build sets).cl 0 ||| eqarVb w)
      (EqDescSet.build sets).cl fd 0).getLsbD 7 =
      w.getLsbD 7 := by
  have hbuilt : (EqDescSet.build sets).Built := ⟨sets, rfl⟩
  have hvb : eqarVb w = vbit (w.getLsbD 7) := and_validBit w
  show ((EqDescSet.build sets).cl 0 ||| eqarVb w).getLsbD 7 = w.getLsbD 7
  rw [hvb, getLsbD_or_vbit hbuilt.validBit]

theorem eqcrArray_spec (impl : Impl) :
    (eqcrArray impl).Spec fun s _ => s.sys.eqcrMode = .vbArray where
  rejects s r op hok := by
    show Rejects s (qbmanSwpEnqueue _ _ _ _ _) _ (decide (eqarSuccess _ ≠ 0) = false)
    rw [qbmanSwpEnqueue_array impl hok, decide_eq_false_iff_not, ne_eq, not_not]
    exact enqueueArrayMode_rejects _ _ _
  puts s r op hok hgrants _ := by
    set eqar := r.cinh qbmanCinhSwpEqar with heqar
    have hne : eqarSuccess (r.cinh qbmanCinhSwpEqar) ≠ 0 := of_decide_eq_true hgrants
    have hlt := eqarIdx_lt eqar
    have hcall : (eqcrArray impl).call s r op = _ :=
      (qbmanSwpEnqueue_array impl hok r _ _).trans (enqueueArrayMode_ok _ op.fd hne)
    have hslots : ∀ m : Region, (m.run ((eqcrArray impl).call s r op).accs).slots =
        Function.update m.slots (eqarIdx eqar).toNat ((eqcrArray impl).asked op eqar) := by
      intro m
      rw [hcall]
      exact m.slots_arrayMode impl _ _ _ _ _ _
    have hread : ∀ m : Region, (eqcrArray impl).read (m.run ((eqcrArray impl).call s r op).accs)
        (eqarIdx eqar).toNat = (eqcrArray impl).asked op eqar := by
      intro m
      show (m.run ((eqcrArray impl).call s r op).accs).slots _ = _
      rw [hslots, Function.update_self]
    have hrest : ∀ (m : Region) (j : Nat), j ≠ (eqarIdx eqar).toNat →
        (m.run ((eqcrArray impl).call s r op).accs).slots j = m.slots j := by
      intro m j hj
      rw [hslots, Function.update_of_ne hj]
    refine ⟨?_, ?_, hread, fun m => ?_, fun m j _ hj => ⟨hrest m j hj, ?_⟩, ?_⟩
    · rw [hcall]
    · rw [hcall]
    · show ((m.run ((eqcrArray impl).call s r op).accs).slots (eqarIdx eqar).toNat 0).getLsbD 7 = _
      rw [hslots, Function.update_self]
      exact eqCommand_eqarVb op.sets eqar op.fd
    · show ((m.run ((eqcrArray impl).call s r op).accs).slots j 0).getLsbD 7 = _
      rw [hrest m j hj]
      rfl
    · have hcons : ∀ (p : Nat) (w : U32) (as : List Access),
          (Access.cenaWord p w :: as).filterMap eqcrTold = as.filterMap eqcrTold := fun _ _ _ => rfl
      show ((eqcrArray impl).call s r op).accs.filterMap eqcrTold =
        if decide (impl = .memBack) = true then [(eqarIdx eqar).toNat] else []
      rw [hcall, List.filterMap_cons_none rfl, List.filterMap_append,
        filterMap_eqcrTold_enqueueBody, List.nil_append, hcons, filterMap_eqcrTold_notify impl hlt]
      cases impl <;> rfl
  told_read a ha := by
    cases a with
    | cinhRead off v => rfl
    | cenaRead off v => rfl
    | cinhWrite off v => exact ha.elim
    | cenaWord off v => exact ha.elim
    | cenaByte off v => exact ha.elim
    | cenaMemset len => exact ha.elim

/-! ## Every run -/

/-- The enqueue ring of a portal initialised in array mode. -/
def arraySys (impl : Impl) : Trans.Sys (GrantState Line) (GrantLabel ArrayOp) :=
  grantSys (eqcrArray impl) (fun s _ => s.sys.eqcrMode = .vbArray) fun s =>
    ∃ g d env a, (qbmanSwpInit g d env).ret = some (a, s.swp) ∧ d.impl = impl ∧
      d.eqcrMode = .vbArray

/-- The commands of the calls that returned 0 are those the hardware took and those in granted
slots, each as often as it was enqueued; and the hardware finds a command in exactly the granted
slots. -/
theorem arraySys_exact {impl : Impl} {s : GrantState Line} (h : (arraySys impl).Reach s) :
    s.Exact (eqcrArray impl) := by
  obtain ⟨x, -, hrel⟩ := (grantSys_simulation (eqcrArray_spec impl) _).reach h
  exact hrel.exact

/-- Slots 20 and 3 of a memory-backed portal granted, and taken in the other order. -/
theorem arraySys_exact_two :
    ∃ s, (arraySys .memBack).Reach s ∧ s.sent.map (fun l => l 8) = [6, 7] ∧
      s.taken.map (fun l => l 8) = [7, 6] ∧ s.Exact (eqcrArray .memBack) := by
  let p := ((qbmanSwpInit {} (.rev5000 .vbArray 0) (.ok 0x1000 0 0)).ret.get rfl).2
  let s₀ := GrantState.cleared Line p
  let s₁ := s₀.afterCall (eqcrArray .memBack) ⟨[.fq 1], fun _ => 6⟩ ⟨fun _ => 0, fun _ => 0x114⟩
  let s₂ := s₁.afterCall (eqcrArray .memBack) ⟨[.fq 2], fun _ => 7⟩ ⟨fun _ => 0, fun _ => 0x183⟩
  let s₃ := s₂.afterTake (eqcrArray .memBack) 3
  have hinit : (arraySys .memBack).init s₀ :=
    ⟨⟨{}, .rev5000 .vbArray 0, .ok 0x1000 0 0, 0x1000, rfl, rfl, rfl⟩, fun _ => rfl, by decide, rfl,
      rfl⟩
  have hcall₁ : (arraySys .memBack).step s₀ (.call ⟨[.fq 1], fun _ => 6⟩ _) s₁ :=
    ⟨rfl, fun _ => ⟨by decide, rfl, fun h => by cases h⟩, rfl⟩
  have hcall₂ : (arraySys .memBack).step s₁ (.call ⟨[.fq 2], fun _ => 7⟩ _) s₂ :=
    ⟨rfl, fun _ => ⟨by decide, by decide, fun h => by cases h⟩, rfl⟩
  have htake₁ : (arraySys .memBack).step s₂ (.take 3) s₃ := ⟨by decide, by decide, rfl⟩
  have htake₂ : (arraySys .memBack).step s₃ (.take 20) (s₃.afterTake (eqcrArray .memBack) 20) :=
    ⟨by decide, by decide, rfl⟩
  have hreach :=
    ((((Trans.Sys.Reach.of_init hinit).step hcall₁).step hcall₂).step htake₁).step htake₂
  exact ⟨_, hreach, by decide, by decide, arraySys_exact hreach⟩

end Qbman
