import Qbman.Eqcr.Init

/-!
# Management commands

`qbman_swp_mc_submit` and `qbman_swp_mc_result`. The caller fills the command line that
`qbman_swp_mc_start` hands out; the driver replaces its verb byte and copies it to the command
register with the first word last. A direct portal polls the response register that its next valid
bit names; a memory-backed one polls one buffer for its polarity. Either flips its own valid bit
when it sees a response, and only then (`qbmanSwpMcResult_eq`).
-/

namespace Qbman

/-- `qbman_cena_write_complete`: the words of a line from the last to the first. -/
def qbmanCenaWriteComplete (off : Nat) (cmd : Line) : List Access := (memcpyWords off cmd).reverse

/-- `qbman_cena_read`: the words of a line. -/
def qbmanCenaRead (off : Nat) (m : Region) : List Access :=
  List.ofFn fun i : Fin 16 => .cenaRead (off + 4 * i) (m (off + 4 * i))

/-- `*v = cmd_verb | valid_bit` -/
def mcSetVerb (cmd : Line) (cmdVerb : U8) (validBit : U32) : Line :=
  Function.update cmd 0 (setByte (cmd 0) 0 (cmdVerb ||| validBit.setWidth 8))

def qbmanSwpMcSubmit (p : QbmanSwp) (cmd : Line) (cmdVerb : U8) : List Access :=
  if p.desc.memBacked then
    qbmanCenaWriteComplete qbmanCenaSwpCrMem (mcSetVerb cmd cmdVerb p.mr.validBit) ++
      [.cinhWrite qbmanCinhSwpCrRt qmanRtMode]
  else qbmanCenaWriteComplete qbmanCenaSwpCr (mcSetVerb cmd cmdVerb p.mc.validBit)

/-- `qbman_swp_mc_result`: the response, if there is one. -/
def qbmanSwpMcResult (p : QbmanSwp) (m : Region) : Outcome (Option Line) :=
  if p.desc.memBacked then
    let ret := m.line qbmanCenaSwpRrMem
    let reads := qbmanCenaRead qbmanCenaSwpRrMem m
    if p.mr.validBit ≠ ret 0 &&& qbValidBit then ⟨none, p, reads⟩
    else
      let verb := ret 0 &&& ~~~qbValidBit
      if verb = 0 then ⟨none, p, reads⟩
      else ⟨some ret, { p with mr := { validBit := p.mr.validBit ^^^ qbValidBit } }, reads⟩
  else
    let off := qbmanCenaSwpRr p.mc.validBit
    let ret := m.line off
    let reads := qbmanCenaRead off m
    let verb := ret 0 &&& ~~~qbValidBit
    if verb = 0 then ⟨none, p, reads⟩
    else ⟨some ret, { p with mc := { validBit := p.mc.validBit ^^^ qbValidBit } }, reads⟩

/-- A poll leaves the fields other than the valid bits alone. -/
theorem qbmanSwpMcResult_view {α : Type*} (view : QbmanSwp → α)
    (hview : ∀ p mc mr, view { p with mc, mr } = view p) (p : QbmanSwp) (m : Region) :
    view (qbmanSwpMcResult p m).swp = view p := by
  simp only [qbmanSwpMcResult]
  split
  · split
    · rfl
    · split
      · rfl
      · exact hview p p.mc _
  · split
    · rfl
    · exact hview p _ p.mr

/-! ## The two modes as one -/

/-- The register that an implementation writes its commands to. -/
def Impl.cr : Impl → Nat
  | .direct => qbmanCenaSwpCr
  | .memBack => qbmanCenaSwpCrMem

/-- Where the response to a command with valid bit `b` appears. -/
def Impl.rr : Impl → Bool → Nat
  | .direct, b => qbmanCenaSwpRr (vbit b)
  | .memBack, _ => qbmanCenaSwpRrMem

/-- The test for a response: the polarity (memory-backed), then the rest of the word. -/
def Impl.mcReady (impl : Impl) (b : Bool) (w : U32) : Bool :=
  (impl = .memBack → w.getLsbD 7 = b) ∧ w &&& ~~~qbValidBit ≠ 0

namespace QbmanSwp

/-- The valid bit of the next command. -/
def mcValidBit (impl : Impl) (p : QbmanSwp) : U32 :=
  match impl with
  | .direct => p.mc.validBit
  | .memBack => p.mr.validBit

/-- After a response. -/
def mcFlip (impl : Impl) (p : QbmanSwp) : QbmanSwp :=
  match impl with
  | .direct => { p with mc := { validBit := p.mc.validBit ^^^ qbValidBit } }
  | .memBack => { p with mr := { validBit := p.mr.validBit ^^^ qbValidBit } }

variable {impl : Impl} {p : QbmanSwp}

@[simp] theorem mcFlip_desc : (p.mcFlip impl).desc = p.desc := by cases impl <;> rfl

@[simp] theorem mcFlip_validBit :
    (p.mcFlip impl).mcValidBit impl = p.mcValidBit impl ^^^ qbValidBit := by
  cases impl <;> rfl

end QbmanSwp

variable {impl : Impl} {p : QbmanSwp} {b : Bool}

theorem qbmanSwpMcSubmit_eq (hd : p.desc.impl = impl) (hb : p.mcValidBit impl = vbit b) (cmd : Line)
    (cmdVerb : U8) : ∃ rest, (∀ m : Region, m.run rest = m) ∧
      qbmanSwpMcSubmit p cmd cmdVerb =
        qbmanCenaWriteComplete impl.cr (mcSetVerb cmd cmdVerb (vbit b)) ++ rest := by
  subst hd
  unfold qbmanSwpMcSubmit
  by_cases hm : p.desc.memBacked = true
  · rw [if_pos hm]
    rw [QbmanSwpDesc.impl_eq_memBack.mpr hm] at hb ⊢
    exact ⟨_, fun _ => rfl, by rw [← hb]; rfl⟩
  · rw [if_neg hm]
    have hi : p.desc.impl = .direct := by rw [QbmanSwpDesc.impl, if_neg hm]
    rw [hi] at hb ⊢
    exact ⟨[], fun _ => rfl, by rw [← hb, List.append_nil]; rfl⟩

theorem Impl.mcReady_direct {w : U32} :
    Impl.direct.mcReady b w = true ↔ w &&& ~~~qbValidBit ≠ 0 := by
  rw [Impl.mcReady, decide_eq_true_iff]
  exact ⟨fun h => h.2, fun h => ⟨fun h' => (nomatch h'), h⟩⟩

theorem Impl.mcReady_memBack {w : U32} :
    Impl.memBack.mcReady b w = true ↔ w.getLsbD 7 = b ∧ w &&& ~~~qbValidBit ≠ 0 := by
  rw [Impl.mcReady, decide_eq_true_iff]
  exact ⟨fun h => ⟨h.1 rfl, h.2⟩, fun h => ⟨fun _ => h.1, h.2⟩⟩

/-- A poll returns the line at the response address if it passes the test, and then flips. -/
theorem qbmanSwpMcResult_eq (hd : p.desc.impl = impl) (hb : p.mcValidBit impl = vbit b)
    (m : Region) :
    (qbmanSwpMcResult p m).ret =
        (if impl.mcReady b (m (impl.rr b)) then some (m.line (impl.rr b)) else none) ∧
      (qbmanSwpMcResult p m).swp =
        if impl.mcReady b (m (impl.rr b)) then p.mcFlip impl else p := by
  subst hd
  unfold qbmanSwpMcResult
  by_cases hm : p.desc.memBacked = true
  · rw [if_pos hm]
    rw [QbmanSwpDesc.impl_eq_memBack.mpr hm] at hb ⊢
    have hmr : p.mr.validBit = vbit b := hb
    have hline : m.line qbmanCenaSwpRrMem 0 = m (Impl.memBack.rr b) := rfl
    simp only [hline, hmr, and_validBit, Ne, vbit_inj, Impl.mcReady_memBack]
    by_cases hbit : b = (m (Impl.memBack.rr b)).getLsbD 7
    · rw [if_neg (not_not_intro hbit)]
      by_cases hverb : m (Impl.memBack.rr b) &&& ~~~qbValidBit = 0
      · rw [if_pos hverb, if_neg (fun h => h.2 hverb), if_neg (fun h => h.2 hverb)]
        exact ⟨rfl, rfl⟩
      · rw [if_neg hverb, if_pos ⟨hbit.symm, hverb⟩, if_pos ⟨hbit.symm, hverb⟩]
        exact ⟨rfl, by rw [← hmr]; rfl⟩
    · rw [if_pos hbit, if_neg (fun h => hbit h.1.symm), if_neg (fun h => hbit h.1.symm)]
      exact ⟨rfl, rfl⟩
  · rw [if_neg hm]
    have hi : p.desc.impl = .direct := by rw [QbmanSwpDesc.impl, if_neg hm]
    rw [hi] at hb ⊢
    have hmc : p.mc.validBit = vbit b := hb
    have hline : m.line (qbmanCenaSwpRr (vbit b)) 0 = m (Impl.direct.rr b) := rfl
    simp only [hmc, hline, Impl.mcReady_direct, Ne]
    by_cases hverb : m (Impl.direct.rr b) &&& ~~~qbValidBit = 0
    · rw [if_pos hverb, if_neg (not_not_intro hverb), if_neg (not_not_intro hverb)]
      exact ⟨rfl, rfl⟩
    · rw [if_neg hverb, if_pos hverb, if_pos hverb]
      exact ⟨rfl, by rw [← hmc]; rfl⟩

/-! ## Lines in memory -/

/-- A store outside the range of a `memcpy` can be made before or after it. -/
theorem run_memcpyWords_update (m : Region) (off : Nat) {n : Nat} (src : Fin n → U32) {a : Nat}
    (v : U32) (h : ∀ j < n, a ≠ off + 4 * j) :
    Region.run (Function.update m a v) (memcpyWords off src) =
      Function.update (m.run (memcpyWords off src)) a v := by
  induction n generalizing m off with
  | zero => rfl
  | succ n ih =>
    have h0 : a ≠ off := by simpa using h 0 (by omega)
    rw [memcpyWords_succ, Region.run_cons, Region.run_cons, Region.access_cenaWord,
      Region.access_cenaWord, Function.update_comm h0, ih _ _ _ fun j hj => ?_]
    have := h (j + 1) (by omega)
    omega

/-- The order of the words of a `memcpy` does not matter. -/
theorem run_reverse_memcpyWords (m : Region) (off : Nat) {n : Nat} (src : Fin n → U32) :
    m.run (memcpyWords off src).reverse = m.run (memcpyWords off src) := by
  induction n generalizing m off with
  | zero => rfl
  | succ n ih =>
    rw [memcpyWords_succ, List.reverse_cons, Region.run_append, ih, Region.run_cons, Region.run_nil,
      Region.run_cons, Region.access_cenaWord, Region.access_cenaWord, run_memcpyWords_update]
    intro j _
    omega

theorem line_memcpyWords (m : Region) (off : Nat) (l : Line) :
    (m.run (memcpyWords off l)).line off = l := by
  funext j
  exact run_memcpyWords m off l j

/-- A line that does not overlap the range is as it was. -/
theorem line_memcpyWords_of_disjoint (m : Region) (l : Line) {off off' : Nat}
    (h : off' + 64 ≤ off ∨ off + 64 ≤ off') :
    (m.run (memcpyWords off l)).line off' = m.line off' := by
  funext j
  exact run_memcpyWords_of_lt _ _ _ (by omega)

theorem run_qbmanCenaWriteComplete (m : Region) (off : Nat) (cmd : Line) :
    m.run (qbmanCenaWriteComplete off cmd) = m.run (memcpyWords off cmd) :=
  run_reverse_memcpyWords m off cmd

/-- The responses and the commands do not overlap. -/
theorem Impl.rr_cr (impl : Impl) (b : Bool) : impl.cr + 64 ≤ impl.rr b := by
  cases impl <;> cases b <;> decide

/-! ## Valid bits -/

theorem setByte_zero_bit (w : U32) (v : U8) : (setByte w 0 v).getLsbD 7 = v.getLsbD 7 :=
  setByte_getLsbD (by decide) w v 7

/-- The hardware sees the portal's valid bit. -/
theorem mcSetVerb_bit (cmd : Line) {cmdVerb : U8} (hv : cmdVerb.getLsbD 7 = false) (b : Bool) :
    (mcSetVerb cmd cmdVerb (vbit b) 0).getLsbD 7 = b := by
  have hword : mcSetVerb cmd cmdVerb (vbit b) 0 =
      setByte (cmd 0) 0 (cmdVerb ||| (vbit b).setWidth 8) :=
    Function.update_self ..
  have hbit : ((vbit b).setWidth 8 : U8).getLsbD 7 = b := by cases b <;> decide
  rw [hword, setByte_zero_bit, BitVec.getLsbD_or, hv, hbit, Bool.false_or]

/-- The verb of a response without the valid bit. -/
def mcVerb (l : Line) : U8 := getByte (l 0) 0 &&& 0x7f

theorem and_validBit_ne_zero {l : Line} (h : mcVerb l ≠ 0) : l 0 &&& ~~~qbValidBit ≠ 0 := by
  intro h0
  refine h ?_
  have hmask : mcVerb l = ((l 0 &&& ~~~qbValidBit).setWidth 8 : U8) := by
    rw [mcVerb, getByte, BitVec.setWidth_and]
    rfl
  rw [hmask, h0]
  rfl

end Qbman
