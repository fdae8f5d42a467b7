import Qbman.Dqrr
import Qbman.Eqcr.Init
import Qbman.Lib.Chan

/-!
# The dequeue response ring between the hardware and the driver

`dqrrSys` interleaves polls, the hardware producing entries and the user consuming entries that a
poll returned. The hardware fills a slot again only after a `DCAP` write for it. The ring refines
the channel of produced entries (`dqrrSys_simulation`): a poll receives the oldest one, and returns
`NULL` only when there is none. On the ring with the reset bug the valid bits mean nothing in the
first lap; there the producer index tells the driver what is in the ring.
-/

namespace Qbman

/-- The offset of the first entry of an implementation's ring. -/
def Impl.dqrrBase : Impl → Nat
  | .direct => 0x200
  | .memBack => 0x800

/-- The entries of the ring. -/
def Region.dqrr (impl : Impl) (m : Region) (i : Nat) : Line := m.line (impl.dqrrBase + 64 * i)

/-- The size of the ring with and without the reset bug. -/
def dqrrEntries (resetBug : Bool) : Nat := if resetBug then 4 else 8

/-- A portal, the memory of its ring and the hardware's side. `handles` are the addresses that
polls returned, `returned` the entries there at the time. -/
structure DqrrState where
  swp : QbmanSwp
  cena : Region
  produced : List Line
  returned : List Line
  handles : List Addr
  /-- The user has consumed this returned entry. -/
  consumed : Nat → Bool
  /-- The hardware's view: the slot has an entry that is not consumed. -/
  held : Nat → Bool

/-- The polarity of entry `n`: set in the first lap. -/
def dqrrPolarity (resetBug : Bool) (n : Nat) : Bool := Cyclic.phase (dqrrEntries resetBug) 0 true n

/-- The slot that a `DCAP` write names. -/
def dcapSlot (accs : List Access) : Option Nat :=
  accs.findSome? fun a => match a with
    | .cinhWrite off v => if off = qbmanCinhSwpDcap then some v.toNat else none
    | _ => none

namespace DqrrState

variable (impl : Impl) (resetBug : Bool) (s : DqrrState)

/-- After a poll. -/
def afterPoll (r : Regions) : DqrrState :=
  let o := qbmanSwpDqrrNext impl.ptrs s.swp r
  match o.ret with
  | none => { s with swp := o.swp }
  | some off => { s with
      swp := o.swp
      returned := s.returned ++ [s.cena.line off]
      handles := s.handles ++ [s.swp.sys.addrCena + off] }

/-- After the hardware wrote the entry `l` to its slot. -/
def afterProduce (l : Line) : DqrrState :=
  let i := s.produced.length % dqrrEntries resetBug
  { s with
    cena := s.cena.run (memcpyWords (impl.dqrrBase + 64 * i) l)
    produced := s.produced ++ [l]
    held := Function.update s.held i true }

/-- After the user consumed the `k`-th returned entry. -/
def afterConsume (k : Nat) (dq : Addr) : DqrrState :=
  { s with
    consumed := Function.update s.consumed k true
    held := match dcapSlot (qbmanSwpDqrrConsume dq) with
      | none => s.held
      | some i => Function.update s.held i false }

end DqrrState

/-- A portal with an empty ring over cleared memory. -/
def DqrrState.cleared (p : QbmanSwp) : DqrrState where
  swp := p
  cena := fun _ => 0
  produced := []
  returned := []
  handles := []
  consumed := fun _ => false
  held := fun _ => false

inductive DqrrLabel where
  | poll (r : Regions)
  | produce (l : Line)
  | consume (k : Nat)

/-- The states after `qbman_swp_init`: an empty ring, its memory anything if the reset bug is there,
else with clear valid bits. The region is mapped at a multiple of 512. -/
structure DqrrState.Init (impl : Impl) (resetBug : Bool) (s : DqrrState) : Prop where
  built : ∃ g d env a, (qbmanSwpInit g d env).ret = some (a, s.swp) ∧
    (qbmanSwpInit g d env).globals.ptrs = impl.ptrs ∧ d.impl = impl
  bug : s.swp.dqrr.resetBug = resetBug
  aligned : s.swp.sys.addrCena % 512 = 0
  produced : s.produced = []
  returned : s.returned = []
  handles : s.handles = []
  consumed : ∀ k, s.consumed k = false
  held : ∀ i, s.held i = false
  clear : resetBug = false → ∀ i < dqrrEntries resetBug, (s.cena.dqrr impl i 0).getLsbD 7 = false

/-- Polls, production and consumption in any order. A poll sees the entries in memory, and the
producer index modulo twice the ring size; the hardware fills a slot that holds no entry; the user
consumes an entry that was returned, once. -/
def dqrrSys (impl : Impl) (resetBug : Bool) : Trans.Sys DqrrState DqrrLabel where
  init := DqrrState.Init impl resetBug
  step s l t := match l with
    | .poll r => r.cena = s.cena ∧
        (r.cinh qbmanCinhSwpDqpi &&& qmanDqrrPiMask).toNat =
          s.produced.length % (2 * dqrrEntries resetBug) ∧
        t = s.afterPoll impl r
    | .produce e => s.held (s.produced.length % dqrrEntries resetBug) = false ∧
        (e 0).getLsbD 7 = dqrrPolarity resetBug s.produced.length ∧
        t = s.afterProduce impl resetBug e
    | .consume k => ∃ dq, s.handles[k]? = some dq ∧ s.consumed k = false ∧
        t = s.afterConsume k dq

/-! ## The position in the ring -/

/-- `next_idx` and `valid_bit` are those of entry `n`. -/
structure Dqrr.Pos (resetBug : Bool) (n : Nat) (q : Dqrr) : Prop where
  size : q.dqrrSize.toNat = dqrrEntries resetBug
  nextIdx : q.nextIdx.toNat = n % dqrrEntries resetBug
  validBit : q.validBit = vbit (dqrrPolarity resetBug n)

variable {impl : Impl} {resetBug : Bool} {n : Nat} {q : Dqrr}

theorem dqrrEntries_pos (resetBug : Bool) : 0 < dqrrEntries resetBug := by cases resetBug <;> decide

theorem dqrrEntries_le (resetBug : Bool) : dqrrEntries resetBug ≤ 8 := by cases resetBug <;> decide

theorem succ_mod_entries (resetBug : Bool) (n : Nat) :
    (n + 1) % dqrrEntries resetBug =
      if n % dqrrEntries resetBug + 1 = dqrrEntries resetBug then 0
      else n % dqrrEntries resetBug + 1 := by
  cases resetBug
  · show (n + 1) % 8 = if n % 8 + 1 = 8 then 0 else n % 8 + 1
    split <;> omega
  · show (n + 1) % 4 = if n % 4 + 1 = 4 then 0 else n % 4 + 1
    split <;> omega

theorem Dqrr.advance_resetBug (q : Dqrr) : q.advance.resetBug = q.resetBug := by
  unfold Dqrr.advance
  split <;> rfl

theorem Dqrr.Pos.size_toNat (h : q.Pos resetBug n) :
    (q.dqrrSize.setWidth 32).toNat = dqrrEntries resetBug := by
  have hle := dqrrEntries_le resetBug
  rw [BitVec.toNat_setWidth, h.size]
  exact Nat.mod_eq_of_lt (by omega)

theorem Dqrr.Pos.advance (h : q.Pos resetBug n) : q.advance.Pos resetBug (n + 1) := by
  have hpos := dqrrEntries_pos resetBug
  have hle := dqrrEntries_le resetBug
  have hlt := Nat.mod_lt n hpos
  have hsucc : (q.nextIdx + 1).toNat = n % dqrrEntries resetBug + 1 := by
    rw [BitVec.toNat_add, h.nextIdx]
    exact Nat.mod_eq_of_lt (by show n % dqrrEntries resetBug + 1 < 2 ^ 32; omega)
  have hwrap : q.nextIdx + 1 = q.dqrrSize.setWidth 32 ↔
      n % dqrrEntries resetBug + 1 = dqrrEntries resetBug := by
    rw [← BitVec.toNat_inj, hsucc, h.size_toNat]
  have hmod := succ_mod_entries resetBug n
  have hvb := Cyclic.phase_succ (dqrrEntries resetBug) 0 true n
  unfold Dqrr.advance
  split
  · rename_i he
    rw [if_pos (hwrap.mp he)] at hmod
    rw [if_pos hmod] at hvb
    exact ⟨h.size, hmod.symm, by rw [dqrrPolarity, hvb, vbit_not, h.validBit, dqrrPolarity]⟩
  · rename_i he
    have hne : ¬ n % dqrrEntries resetBug + 1 = dqrrEntries resetBug := fun h' => he (hwrap.mpr h')
    rw [if_neg hne] at hmod
    rw [if_neg (by omega)] at hvb
    exact ⟨h.size, hsucc.trans hmod.symm, by rw [dqrrPolarity, hvb, h.validBit, dqrrPolarity]⟩

/-- The test for the last entry of the first lap. -/
theorem Dqrr.Pos.last_iff (h : q.Pos resetBug n) (hlap : n < dqrrEntries resetBug) :
    q.nextIdx = q.dqrrSize.setWidth 32 - 1 ↔ n + 1 = dqrrEntries resetBug := by
  have hle := dqrrEntries_le resetBug
  have hpos := dqrrEntries_pos resetBug
  have hone : (1 : U32).toNat = 1 := rfl
  rw [← BitVec.toNat_inj, BitVec.toNat_sub, h.size_toNat, h.nextIdx, Nat.mod_eq_of_lt hlap, hone]
  omega

/-- The slot of entry `n`. -/
def Impl.dqrrOff (impl : Impl) (resetBug : Bool) (n : Nat) : Nat :=
  impl.dqrrBase + 64 * (n % dqrrEntries resetBug)

/-- The offset that an implementation reads the entry at. -/
theorem Dqrr.Pos.off (h : q.Pos resetBug n) :
    qbmanCenaSwpDqrr q.nextIdx = Impl.direct.dqrrOff resetBug n ∧
      qbmanCenaSwpDqrrMem q.nextIdx = Impl.memBack.dqrrOff resetBug n := by
  have hle := dqrrEntries_le resetBug
  have hlt := Nat.mod_lt n (dqrrEntries_pos resetBug)
  have hshl : (q.nextIdx <<< 6).toNat = 64 * (n % dqrrEntries resetBug) := by
    rw [BitVec.toNat_shiftLeft, h.nextIdx, Nat.shiftLeft_eq]
    omega
  constructor
  · rw [qbmanCenaSwpDqrr, BitVec.toNat_add, hshl]
    show (0x200 + _) % 2 ^ 32 = 0x200 + _
    omega
  · rw [qbmanCenaSwpDqrrMem, BitVec.toNat_add, hshl]
    show (0x800 + _) % 2 ^ 32 = 0x800 + _
    omega

/-! ## One poll -/

theorem dqVerb_validBit (l : Line) :
    (dqVerb l).setWidth 32 &&& qbValidBit = vbit ((l 0).getLsbD 7) := by
  rw [and_validBit]
  simp [dqVerb, getByte]

/-- Common to both polls: the entry is returned if its valid bit has the polarity of its turn. -/
theorem dqrrNextEntry_eq {s : QbmanSwp} (off : Nat) (m : Region) (h : s.dqrr.Pos resetBug n) :
    (dqrrNextEntry off s m).ret =
        (if (m.line off 0).getLsbD 7 = dqrrPolarity resetBug n then some off else none) ∧
      (dqrrNextEntry off s m).swp.sys = s.sys ∧
      (dqrrNextEntry off s m).swp.dqrr =
        if (m.line off 0).getLsbD 7 = dqrrPolarity resetBug n then s.dqrr.advance else s.dqrr := by
  have hiff : (dqVerb (m.line off)).setWidth 32 &&& qbValidBit ≠ s.dqrr.validBit ↔
      ¬ (m.line off 0).getLsbD 7 = dqrrPolarity resetBug n := by
    rw [dqVerb_validBit, h.validBit, Ne, vbit_inj]
  unfold dqrrNextEntry
  simp only [hiff]
  by_cases hb : (m.line off 0).getLsbD 7 = dqrrPolarity resetBug n
  · simp only [hb, not_true, if_true, if_false]
    exact ⟨trivial, trivial, trivial⟩
  · simp only [hb, not_false_eq_true, if_true, if_false]
    exact ⟨trivial, trivial, trivial⟩

/-! ## The state stores the channel of its entries -/

variable {s : DqrrState} {x : Chan Line (dqrrEntries resetBug)}

structure DqrrState.Rel (impl : Impl) (resetBug : Bool) (s : DqrrState)
    (x : Chan Line (dqrrEntries resetBug)) : Prop where
  memBack : impl = .memBack → resetBug = false
  aligned : s.swp.sys.addrCena % 512 = 0
  sent : x.sent = s.produced
  received : x.received = s.returned
  pos : s.swp.dqrr.Pos resetBug s.returned.length
  bug : s.swp.dqrr.resetBug = (resetBug && decide (s.returned.length < dqrrEntries resetBug))
  bits : ∀ i (h : i < s.produced.length), (s.produced[i] 0).getLsbD 7 = dqrrPolarity resetBug i
  stored : x.Stored 0 (s.cena.dqrr impl)
  /-- No slot looks valid for its next turn, once its first turn is over where the bug is there. -/
  stale : ∀ t, s.produced.length ≤ t → t < s.returned.length + dqrrEntries resetBug →
    (resetBug = true → dqrrEntries resetBug ≤ t) →
      (s.cena.dqrr impl (t % dqrrEntries resetBug) 0).getLsbD 7 ≠ dqrrPolarity resetBug t
  handles_length : s.handles.length = s.returned.length
  handles : ∀ k (h : k < s.handles.length),
    s.handles[k] = s.swp.sys.addrCena + impl.dqrrOff resetBug k
  held : ∀ j < s.produced.length, s.produced.length ≤ j + dqrrEntries resetBug →
    s.held (j % dqrrEntries resetBug) = !s.consumed j
  reused : ∀ j, j + dqrrEntries resetBug < s.produced.length → s.consumed j = true
  consumed : ∀ j, s.consumed j = true → j < s.returned.length

/-- The outcome of a poll: the oldest entry that was not returned, or nothing if there is none. -/
def DqrrState.Polled (impl : Impl) (resetBug : Bool) (s : DqrrState) (o : Outcome (Option Nat)) :
    Prop :=
  o.swp.sys = s.swp.sys ∧
    (s.returned.length < s.produced.length ∧
        o.ret = some (impl.dqrrOff resetBug s.returned.length) ∧
        o.swp.dqrr.Pos resetBug (s.returned.length + 1) ∧
        o.swp.dqrr.resetBug =
          (resetBug && decide (s.returned.length + 1 < dqrrEntries resetBug)) ∨
      s.returned.length = s.produced.length ∧ o.ret = none ∧ o.swp.dqrr = s.swp.dqrr)

namespace DqrrState.Rel

theorem got_eq (h : s.Rel impl resetBug x) : x.got = s.returned.length := by
  rw [← h.received, Chan.length_received]

theorem returned_le (h : s.Rel impl resetBug x) : s.returned.length ≤ s.produced.length := by
  have := x.got_le
  rwa [h.sent, h.got_eq] at this

theorem fits (h : s.Rel impl resetBug x) :
    s.produced.length ≤ s.returned.length + dqrrEntries resetBug := by
  have := x.fits
  rwa [h.sent, h.got_eq] at this

/-- The entry at a slot in the ring. -/
theorem entry (h : s.Rel impl resetBug x) (hlt : s.returned.length < s.produced.length) :
    s.cena.line (impl.dqrrOff resetBug s.returned.length) = s.produced[s.returned.length] := by
  have hslot := h.stored s.returned.length (by rw [h.sent]; exact hlt) (by rw [h.got_eq])
  rw [Nat.zero_add] at hslot
  simp only [h.sent] at hslot
  exact hslot

/-- The valid bit tells whether there is an entry that was not returned. -/
theorem valid_iff (h : s.Rel impl resetBug x)
    (hlap : resetBug = true → dqrrEntries resetBug ≤ s.returned.length ∨
      s.returned.length < s.produced.length) :
    (s.cena.line (impl.dqrrOff resetBug s.returned.length) 0).getLsbD 7 =
      dqrrPolarity resetBug s.returned.length ↔ s.returned.length < s.produced.length := by
  constructor
  · intro hbit
    by_contra hlt
    have hpos := dqrrEntries_pos resetBug
    refine h.stale s.returned.length (by omega) (by omega) (fun hb => ?_) hbit
    exact (hlap hb).resolve_right hlt
  · intro hlt
    rw [h.entry hlt]
    exact h.bits _ hlt

/-- The common part of a poll. -/
theorem entry_outcome (h : s.Rel impl resetBug x) {p : QbmanSwp}
    (hp : p.dqrr.Pos resetBug s.returned.length)
    (hlap : resetBug = true → dqrrEntries resetBug ≤ s.returned.length ∨
      s.returned.length < s.produced.length) :
    (dqrrNextEntry (impl.dqrrOff resetBug s.returned.length) p s.cena).ret =
        (if s.returned.length < s.produced.length then
          some (impl.dqrrOff resetBug s.returned.length) else none) ∧
      (dqrrNextEntry (impl.dqrrOff resetBug s.returned.length) p s.cena).swp.sys = p.sys ∧
      (dqrrNextEntry (impl.dqrrOff resetBug s.returned.length) p s.cena).swp.dqrr =
        if s.returned.length < s.produced.length then p.dqrr.advance else p.dqrr := by
  obtain ⟨hret, hsys, hdqrr⟩ := dqrrNextEntry_eq (impl.dqrrOff resetBug s.returned.length) s.cena hp
  simp only [h.valid_iff hlap] at hret hdqrr
  exact ⟨hret, hsys, hdqrr⟩

/-- With the bug, the producer index in the register is `next_idx` when there is nothing new. -/
theorem pi_eq_iff (h : s.Rel impl resetBug x) {v : U32}
    (hv : (v &&& qmanDqrrPiMask).toNat = s.produced.length % (2 * dqrrEntries resetBug))
    (hlap : s.returned.length < dqrrEntries resetBug) :
    ((v &&& qmanDqrrPiMask).setWidth 8).setWidth 32 = s.swp.dqrr.nextIdx ↔
      s.returned.length = s.produced.length := by
  have hfits := h.fits
  have hret := h.returned_le
  have hle := dqrrEntries_le resetBug
  rw [Nat.mod_eq_of_lt (by omega)] at hv
  rw [← BitVec.toNat_inj, BitVec.toNat_setWidth, BitVec.toNat_setWidth, h.pos.nextIdx, hv,
    Nat.mod_eq_of_lt hlap]
  omega

/-- The result of a poll that found an entry or not, and the ring's fields after it. -/
theorem polled_of_entry (h : s.Rel impl resetBug x) {p : QbmanSwp} (hsys : p.sys = s.swp.sys)
    (hpos : p.dqrr.Pos resetBug s.returned.length)
    (hlap : resetBug = true → dqrrEntries resetBug ≤ s.returned.length ∨
      s.returned.length < s.produced.length)
    (hbug : s.returned.length < s.produced.length →
      p.dqrr.resetBug = (resetBug && decide (s.returned.length + 1 < dqrrEntries resetBug)))
    (hnone : ¬ s.returned.length < s.produced.length → p.dqrr = s.swp.dqrr) :
    s.Polled impl resetBug
      (dqrrNextEntry (impl.dqrrOff resetBug s.returned.length) p s.cena) := by
  obtain ⟨hret, hsys', hdqrr⟩ := h.entry_outcome hpos hlap
  refine ⟨hsys'.trans hsys, ?_⟩
  by_cases hlt : s.returned.length < s.produced.length
  · rw [if_pos hlt] at hret hdqrr
    refine .inl ⟨hlt, hret, hdqrr ▸ hpos.advance, ?_⟩
    rw [hdqrr, Dqrr.advance_resetBug, hbug hlt]
  · rw [if_neg hlt] at hret hdqrr
    exact .inr ⟨Nat.le_antisymm h.returned_le (Nat.le_of_not_lt hlt), hret, hdqrr.trans (hnone hlt)⟩

/-- A poll returns the oldest entry that was not returned, or nothing if there is none. -/
theorem poll_outcome (h : s.Rel impl resetBug x) {r : Regions} (hcena : r.cena = s.cena)
    (hpi : (r.cinh qbmanCinhSwpDqpi &&& qmanDqrrPiMask).toNat =
      s.produced.length % (2 * dqrrEntries resetBug)) :
    s.Polled impl resetBug (qbmanSwpDqrrNext impl.ptrs s.swp r) := by
  have hpos := h.pos
  have hbug := h.bug
  cases impl with
  | memBack =>
    have hreset := h.memBack rfl
    show s.Polled .memBack resetBug (dqrrNextEntry (qbmanCenaSwpDqrrMem _) s.swp r.cena)
    rw [hpos.off.2, hcena]
    refine h.polled_of_entry rfl hpos (fun hb => ?_) (fun _ => ?_) fun _ => rfl
    · rw [hreset] at hb
      cases hb
    · rw [hbug, hreset]
      rfl
  | direct =>
    show s.Polled .direct resetBug (qbmanSwpDqrrNextDirect s.swp r)
    unfold qbmanSwpDqrrNextDirect
    rw [hpos.off.1, hcena]
    by_cases hwork : s.swp.dqrr.resetBug = true
    · -- The workaround is on: this is the first lap of a ring with the bug.
      obtain ⟨hreset, hlap⟩ := Bool.and_eq_true_iff.mp (hbug.symm.trans hwork)
      replace hlap := of_decide_eq_true hlap
      simp only [hwork, if_true, h.pi_eq_iff hpi hlap]
      by_cases heq : s.returned.length = s.produced.length
      · rw [if_pos heq]
        exact ⟨rfl, .inr ⟨heq, rfl, rfl⟩⟩
      · have hlt := Nat.lt_of_le_of_ne h.returned_le heq
        have hlast := hpos.last_iff hlap
        rw [if_neg heq]
        -- The workaround ends with the last entry of the lap.
        by_cases hl : s.returned.length + 1 = dqrrEntries resetBug
        · rw [if_pos (hlast.mpr hl)]
          refine h.polled_of_entry
            (p := { s.swp with dqrr := { s.swp.dqrr with resetBug := false } })
            rfl ⟨hpos.size, hpos.nextIdx, hpos.validBit⟩ (fun _ => .inr hlt) (fun _ => ?_)
            (fun hge => absurd hlt hge)
          rw [hreset]
          exact (decide_eq_false (by rw [hreset] at hl; omega)).symm
        · rw [if_neg fun he => hl (hlast.mp he)]
          refine h.polled_of_entry rfl hpos (fun _ => .inr hlt) (fun _ => ?_) (fun _ => rfl)
          rw [hwork, hreset]
          exact (decide_eq_true (by rw [hreset] at hl hlap; omega)).symm
    · -- The workaround is over, or was never needed.
      have hover : ¬ (resetBug = true ∧ s.returned.length < dqrrEntries resetBug) := by
        rintro ⟨hb, hlt⟩
        exact hwork (hbug.trans (Bool.and_eq_true_iff.mpr ⟨hb, decide_eq_true hlt⟩))
      rw [if_neg hwork]
      refine h.polled_of_entry rfl hpos (fun hb => .inl ?_) (fun _ => ?_) fun _ => rfl
      · exact Nat.le_of_not_lt fun hlt => hover ⟨hb, hlt⟩
      · rw [Bool.eq_false_of_not_eq_true hwork]
        refine (Bool.eq_false_of_not_eq_true fun hand => hover ?_).symm
        obtain ⟨hb, hlt⟩ := Bool.and_eq_true_iff.mp hand
        exact ⟨hb, Nat.lt_of_succ_lt (of_decide_eq_true hlt)⟩

end DqrrState.Rel

end Qbman
