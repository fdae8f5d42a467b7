import Qbman.Dqrr

/-!
# Volatile dequeues

`qbman_swp_pull` as its atomic steps on `vdq.busy`: the decrement-and-test, then the compensating
increment of a loser (`pullRestore`) or the submission of the winner (`pullSubmit`). The two
implementations differ in the register they write and in how the hardware is told. The storage polls
(`qbman_result_has_new_result`, `qbman_check_new_result`, `qbman_check_command_complete`) take the
entry at the address `dq` and give it back; a poll that would follow a pointer that is not a portal
has no result.
-/

namespace Qbman

/-! ## `qbman_swp_pull` -/

/-- `atomic_dec_and_test` -/
def atomicDecAndTest (v : U32) : Bool × U32 := (v - 1 = 0, v - 1)

/-- `atomic_inc` -/
def atomicInc (v : U32) : U32 := v + 1

/-- The first step of a call. -/
def pullDecAndTest (s : QbmanSwp) : Bool × QbmanSwp :=
  let dec := atomicDecAndTest s.vdq.busy
  (dec.1, { s with vdq := { s.vdq with busy := dec.2 } })

/-- The second step of a loser. -/
def pullRestore (s : QbmanSwp) : QbmanSwp :=
  { s with vdq := { s.vdq with busy := atomicInc s.vdq.busy } }

/-- The register that an implementation writes a volatile dequeue command to. -/
def Impl.vdqcr : Impl → Nat
  | .direct => qbmanCenaSwpVdqcr
  | .memBack => qbmanCenaSwpVdqcrMem

/-- How an implementation hands the command over. -/
def Impl.vdqcrNotify : Impl → List Access
  | .direct => []
  | .memBack => [.cinhWrite qbmanCinhSwpVdqcrRt qmanRtMode]

/-- The submission of the winner, with the descriptor that it leaves. -/
def pullSubmit (impl : Impl) (s : QbmanSwp) (d : QbmanPullDesc) : Outcome QbmanPullDesc :=
  let d := { d with tok := (s.sys.idx + 1).setWidth 8 }
  let body : Fin 3 → U32 := fun j => d.cl j.succ
  { ret := d
    swp := { s with vdq := { s.vdq with
      storage := d.rspAddrVirt, validBit := s.vdq.validBit ^^^ qbValidBit } }
    accs := memcpyWords (impl.vdqcr + 4) body ++
      [.cenaWord impl.vdqcr (d.cl 0 ||| s.vdq.validBit)] ++ impl.vdqcrNotify }

/-- The steps of a call, one after the other: the return code and the descriptor. -/
def pullCall (impl : Impl) (s : QbmanSwp) (d : QbmanPullDesc) : Outcome (Int × QbmanPullDesc) :=
  let dec := pullDecAndTest s
  if dec.1 then
    let o := pullSubmit impl dec.2 d
    ⟨(0, o.ret), o.swp, o.accs⟩
  else ⟨(-eBUSY, d), pullRestore dec.2, []⟩

def qbmanSwpPullDirect (s : QbmanSwp) (d : QbmanPullDesc) : Outcome (Int × QbmanPullDesc) :=
  pullCall .direct s d

def qbmanSwpPullMemBack (s : QbmanSwp) (d : QbmanPullDesc) : Outcome (Int × QbmanPullDesc) :=
  pullCall .memBack s d

def qbmanSwpPull (ptrs : FnPtrs) (s : QbmanSwp) (d : QbmanPullDesc) :
    Outcome (Int × QbmanPullDesc) :=
  match ptrs.pullPtr with
  | .direct => qbmanSwpPullDirect s d
  | .memBack => qbmanSwpPullMemBack s d

theorem qbmanSwpPull_eq (ptrs : FnPtrs) (s : QbmanSwp) (d : QbmanPullDesc) :
    qbmanSwpPull ptrs s d = pullCall ptrs.pullPtr s d := by
  unfold qbmanSwpPull
  cases ptrs.pullPtr <;> rfl

theorem atomicDecAndTest_won {v : U32} : (atomicDecAndTest v).1 = true ↔ v = 1 := by
  rw [atomicDecAndTest, decide_eq_true_iff, BitVec.sub_eq_iff_eq_add]
  exact Iff.rfl

/-- A rejected call leaves the portal as it was. -/
theorem pullRestore_decAndTest (s : QbmanSwp) : pullRestore (pullDecAndTest s).2 = s := by
  unfold pullRestore pullDecAndTest atomicDecAndTest atomicInc
  simp only [BitVec.sub_add_cancel]

theorem pullCall_busy (impl : Impl) {s : QbmanSwp} (d : QbmanPullDesc) (h : s.vdq.busy ≠ 1) :
    pullCall impl s d = ⟨(-eBUSY, d), s, []⟩ := by
  have hlost : ¬ (pullDecAndTest s).1 = true := fun hw => h (atomicDecAndTest_won.mp hw)
  simp only [pullCall, if_neg hlost, pullRestore_decAndTest]

theorem pullCall_free (impl : Impl) {s : QbmanSwp} (d : QbmanPullDesc) (h : s.vdq.busy = 1) :
    (pullCall impl s d).ret = (0, { d with tok := (s.sys.idx + 1).setWidth 8 }) ∧
      (pullCall impl s d).swp = { s with vdq :=
        ⟨0, s.vdq.validBit ^^^ qbValidBit, d.rspAddrVirt⟩ } := by
  have hwon : (pullDecAndTest s).1 = true := atomicDecAndTest_won.mpr h
  simp only [pullCall, if_pos hwon]
  refine ⟨rfl, ?_⟩
  show { s with vdq := ⟨s.vdq.busy - 1, _, _⟩ } = _
  rw [h]
  rfl

/-- A call that returns 0 leaves the portal's token in the descriptor. -/
theorem qbmanSwpPull_tok {ptrs : FnPtrs} {s : QbmanSwp} {d d' : QbmanPullDesc}
    (h : (qbmanSwpPull ptrs s d).ret = (0, d')) : d'.tok = (s.sys.idx + 1).setWidth 8 := by
  rw [qbmanSwpPull_eq] at h
  by_cases hfree : s.vdq.busy = 1
  · rw [(pullCall_free ptrs.pullPtr d hfree).1] at h
    rw [← (Prod.mk.inj h).2]
  · rw [pullCall_busy ptrs.pullPtr d hfree] at h
    cases (Prod.mk.inj h).1

/-- The token of a portal with a small index. -/
theorem tok_toNat {idx : U32} {i : Int} (h : idx = BitVec.ofInt 32 i) (h0 : 0 ≤ i) (hlt : i < 64) :
    (((idx + 1).setWidth 8 : U8).toNat : Int) = i + 1 := by
  obtain ⟨n, rfl⟩ := Int.eq_ofNat_of_zero_le h0
  rw [h, BitVec.ofInt_natCast, BitVec.toNat_setWidth, BitVec.toNat_add, BitVec.toNat_ofNat]
  show (((n % 2 ^ 32 + 1) % 2 ^ 32 % 2 ^ 8 : Nat) : Int) = n + 1
  omega

/-! ## The words that the hardware takes from `VDQCR` -/

/-- The words that a list of accesses stores at an offset. -/
def wordsAt (off : Nat) (accs : List Access) : List U32 :=
  accs.filterMap fun a => match a with
    | .cenaWord o v => if o = off then some v else none
    | _ => none

theorem wordsAt_append (off : Nat) (as bs : List Access) :
    wordsAt off (as ++ bs) = wordsAt off as ++ wordsAt off bs := List.filterMap_append

/-- A submission stores the first word of its command once. -/
theorem pullSubmit_wordsAt (impl : Impl) (s : QbmanSwp) (d : QbmanPullDesc) :
    wordsAt impl.vdqcr (pullSubmit impl s d).accs =
      [(pullSubmit impl s d).ret.cl 0 ||| s.vdq.validBit] := by
  have hbody : ∀ body : Fin 3 → U32,
      wordsAt impl.vdqcr (memcpyWords (impl.vdqcr + 4) body) = [] := by
    intro body
    simp only [wordsAt, memcpyWords, List.ofFn_succ, List.ofFn_zero, List.filterMap_cons,
      List.filterMap_nil, Fin.val_zero, Fin.val_succ]
    rw [if_neg (by omega), if_neg (by omega), if_neg (by omega)]
  have hnotify : wordsAt impl.vdqcr impl.vdqcrNotify = [] := by cases impl <;> rfl
  show wordsAt impl.vdqcr (_ ++ _ ++ impl.vdqcrNotify) = _
  rw [wordsAt_append, wordsAt_append, hbody, hnotify, List.nil_append, List.append_nil]
  simp [wordsAt, pullSubmit]

/-! ## Polling user-provided storage -/

/-- An entry with its token byte replaced. -/
def setTok (l : Line) (t : U8) : Line := Function.update l 1 (setByte (l 1) 3 t)

/-- The hook of the storage polls: the entry at `dq` is the one that `vdq.storage` waits for. -/
def Vdq.hook (v : Vdq) (dq : U64) : Vdq :=
  if v.storage = dq then { v with storage := 0, busy := atomicInc v.busy } else v

/-- `qbman_result_has_new_result` of the entry `l` at `dq`. -/
def qbmanResultHasNewResult (s : QbmanSwp) (dq : U64) (l : Line) : Int × QbmanSwp × Line :=
  if dqTok l = 0 then (0, s, l)
  else (1, { s with vdq := s.vdq.hook dq }, setTok l 0)

/-- `qbman_check_new_result`. -/
def qbmanCheckNewResult (l : Line) : Int × Line :=
  if dqTok l = 0 then (0, l) else (1, setTok l 0)

/-- `qbman_check_command_complete`, with `portal_idx_map` and the portals in memory. -/
def qbmanCheckCommandComplete (portalIdxMap : Int → Option Addr) (swp : Addr → Option QbmanSwp)
    (dq : U64) (l : Line) : Option (Int × (Addr → Option QbmanSwp)) :=
  if dqTok l = 0 then some (0, swp)
  else do
    let a ← portalIdxMap ((dqTok l).toNat - 1)
    let s ← swp a
    return (1, Function.update swp a (some { s with vdq := s.vdq.hook dq }))

theorem qbmanCheckCommandComplete_some {portalIdxMap : Int → Option Addr}
    {swp : Addr → Option QbmanSwp} {dq : U64} {l : Line} {o : Int × (Addr → Option QbmanSwp)}
    (h : qbmanCheckCommandComplete portalIdxMap swp dq l = some o) :
    (dqTok l = 0 ∧ o = (0, swp)) ∨ (dqTok l ≠ 0 ∧ ∃ a s,
      portalIdxMap (((dqTok l).toNat : Int) - 1) = some a ∧ swp a = some s ∧
        o = (1, Function.update swp a (some { s with vdq := s.vdq.hook dq }))) := by
  unfold qbmanCheckCommandComplete at h
  split at h
  · rename_i h0
    exact .inl ⟨h0, (Option.some.inj h).symm⟩
  · rename_i h0
    obtain ⟨a, ha, h⟩ := Option.bind_eq_some_iff.mp h
    obtain ⟨s, hs, h⟩ := Option.bind_eq_some_iff.mp h
    exact .inr ⟨h0, a, s, ha, hs, (Option.some.inj h).symm⟩

/-- A cleared token reads as zero, and the rest of the entry is as it was. -/
theorem dqTok_setTok (l : Line) (t : U8) : dqTok (setTok l t) = t := by
  rw [dqTok, setTok, Function.update_self, getByte_setByte (by decide), if_pos rfl]

end Qbman
