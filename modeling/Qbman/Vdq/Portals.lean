import Qbman.Dqrr.Exact
import Qbman.Pull

/-!
# Volatile dequeues of several portals

`pullsSys` interleaves pulls on any number of live portals, the hardware that fills their storage
arrays and rings, and the polls of the users. Host memory maps the address of a storage entry to the
entry. A portal's accepted pulls are in a list with what the hardware did for each; `incs` counts
the increments that polls made to the portal's own `vdq.busy`, as they happened, so the next pull to
be released is the one at place `incs` (`Port.pending`).
-/

namespace Qbman

/-- The addresses of the storage entries of a pull, the first one first. -/
def QbmanPullDesc.entries (d : QbmanPullDesc) : List U64 :=
  if d.toStorage then
    (List.range (d.numf.toNat + 1)).map fun j => d.rspAddrVirt + BitVec.ofNat 64 (64 * j)
  else []

/-- An accepted pull, with the descriptor as the driver left it. -/
structure PullRec where
  desc : QbmanPullDesc
  /-- The hardware has written the entry at this address. -/
  filled : U64 → Bool := fun _ => false
  /-- The hardware writes no more entries. -/
  done : Bool := false
  /-- The place of the `EXPIRED` entry among those produced in the ring. -/
  expiredAt : Option Nat := none

/-- A portal with its ring, its accepted pulls and the increments of its counter. -/
structure Port where
  ring : DqrrState
  pulls : List PullRec
  incs : Nat

namespace Port

variable (P : Port)

def swp : QbmanSwp := P.ring.swp

/-- The implementation that the portal's mode asks for. -/
def impl : Impl := P.swp.desc.impl

/-- The portal came up with the reset bug. -/
def resetBug : Bool := (swpDefaults P.swp.desc).dqrr.resetBug

/-- The accepted pull that is not released yet. -/
def pending : Option PullRec := P.pulls[P.incs]?

/-- The portal object after a poll; an increment of `vdq.busy` is counted. -/
def polled (ring : DqrrState) : Port :=
  { P with ring, incs := P.incs + (ring.swp.vdq.busy - P.swp.vdq.busy).toNat }

/-- After a storage poll. -/
def withSwp (p : QbmanSwp) : Port := P.polled { P.ring with swp := p }

/-- After a poll that may have written the portal objects. -/
def reload : Option QbmanSwp → Port
  | some p => P.withSwp p
  | none => P

/-- After a call of `qbman_swp_pull`. -/
def afterPull (o : Outcome (Int × QbmanPullDesc)) : Port :=
  { P with
    ring := { P.ring with swp := o.swp }
    pulls := if o.ret.1 = 0 then P.pulls ++ [{ desc := o.ret.2 }] else P.pulls }

/-- After the hardware did something for the `k`-th pull. -/
def setPull (k : Nat) (r : PullRec) : Port := { P with pulls := P.pulls.set k r }

end Port

structure PortalsState where
  portalIdxMap : Int → Option Addr
  port : Addr → Port
  /-- The storage entries in host memory. -/
  host : U64 → Line
  /-- The portal of the last pull whose array has the entry. -/
  owner : U64 → Option Addr
  /-- `qbman_check_command_complete` has reported the first entry of a pull. -/
  reported : U64 → Bool

inductive PullsLabel where
  | pull (a : Addr) (d : QbmanPullDesc)
  | dqrrNext (a : Addr) (r : Regions)
  | produce (a : Addr) (l : Line)
  | expire (a : Addr) (k : Nat) (l : Line)
  | consume (a : Addr) (k : Nat)
  | fill (a : Addr) (k : Nat) (x : U64) (l : Line)
  | finish (a : Addr) (k : Nat)
  | hasNewResult (a : Addr) (x : U64)
  | checkCommandComplete (x : U64)
  | checkNewResult (x : U64)

namespace PortalsState

variable (live : Addr → Bool) (s : PortalsState)

/-- The portal objects in memory. -/
def swps (a : Addr) : Option QbmanSwp := if live a then some (s.port a).swp else none

def setPort (a : Addr) (P : Port) : PortalsState := { s with port := Function.update s.port a P }

/-- The storage array of a pull can be used: its first token is `0`, and no pull still writes it. -/
def Free (d : QbmanPullDesc) : Prop :=
  d.toStorage = true → dqTok (s.host d.rspAddrVirt) = 0 ∧
    ∀ b (k : Nat) r, live b = true → (s.port b).pulls[k]? = some r → r.done = false →
      ∀ x ∈ d.entries, x ∉ r.desc.entries

/-- The array has no first entry of a pull that is not released yet. -/
def Unread (d : QbmanPullDesc) : Prop :=
  ∀ b r, live b = true → (s.port b).pending = some r → r.desc.toStorage = true →
    r.desc.rspAddrVirt ∉ d.entries

def afterPull (a : Addr) (o : Outcome (Int × QbmanPullDesc)) : PortalsState :=
  let t := s.setPort a ((s.port a).afterPull o)
  if o.ret.1 = 0 then { t with
    owner := fun x => if x ∈ o.ret.2.entries then some a else s.owner x
    reported := fun x =>
      if o.ret.2.toStorage = true ∧ x = o.ret.2.rspAddrVirt then false else s.reported x }
  else t

def afterHasNewResult (a : Addr) (x : U64) : PortalsState :=
  let o := qbmanResultHasNewResult (s.port a).swp x (s.host x)
  { s.setPort a ((s.port a).withSwp o.2.1) with host := Function.update s.host x o.2.2 }

def afterCheckCommandComplete (x : U64) (o : Int × (Addr → Option QbmanSwp)) : PortalsState :=
  { s with
    port := fun a => (s.port a).reload (o.2 a)
    reported := if o.1 ≠ 0 then Function.update s.reported x true else s.reported }

def afterCheckNewResult (x : U64) : PortalsState :=
  { s with host := Function.update s.host x (qbmanCheckNewResult (s.host x)).2 }

/-- The first entry of a pull that is not released was reported. -/
def Reported (x : U64) : Prop :=
  ∀ a r, live a = true → (s.port a).pending = some r → r.desc.toStorage = true →
    r.desc.rspAddrVirt = x → s.reported x = true

end PortalsState

open PortalsState in
/-- Pulls, results and polls in any order. Each portal runs the implementation of its own mode
(`Port.impl`). `reuse`: a storage array may have the first entry of an earlier pull that is not
released yet. -/
def pullsSys (live : Addr → Bool) (reuse : Bool) : Trans.Sys PortalsState PullsLabel where
  init s := (∀ a, live a = true → (s.port a).ring.Init (s.port a).impl (s.port a).resetBug ∧
      (s.port a).pulls = [] ∧ (s.port a).incs = 0 ∧ 0 ≤ (s.port a).swp.desc.idx ∧
      (s.port a).swp.desc.idx < 64 ∧ s.portalIdxMap (s.port a).swp.desc.idx = some a) ∧
    (∀ x, s.owner x = none) ∧ ∀ x, s.reported x = false
  step s l t := match l with
    | .pull a d => live a = true ∧ d.Built ∧
        ((qbmanSwpPull (s.port a).impl.ptrs (s.port a).swp d).ret.1 = 0 →
          s.Free live d ∧ (reuse = true ∨ s.Unread live d)) ∧
        t = s.afterPull a (qbmanSwpPull (s.port a).impl.ptrs (s.port a).swp d)
    | .dqrrNext a r => live a = true ∧
        ∃ q, (dqrrSys (s.port a).impl (s.port a).resetBug).step (s.port a).ring (.poll r) q ∧
          t = s.setPort a ((s.port a).polled q)
    | .produce a l => live a = true ∧ dqFinal l = false ∧
        ∃ q, (dqrrSys (s.port a).impl (s.port a).resetBug).step (s.port a).ring (.produce l) q ∧
          t = s.setPort a { s.port a with ring := q }
    | .expire a k l => live a = true ∧ dqFinal l = true ∧
        ∃ r q, (s.port a).pulls[k]? = some r ∧ r.desc.toStorage = false ∧ r.expiredAt = none ∧
          (dqrrSys (s.port a).impl (s.port a).resetBug).step (s.port a).ring (.produce l) q ∧
          t = s.setPort a { (s.port a).setPull k { r with
            expiredAt := some (s.port a).ring.produced.length } with ring := q }
    | .consume a k => live a = true ∧
        ∃ q, (dqrrSys (s.port a).impl (s.port a).resetBug).step (s.port a).ring (.consume k) q ∧
          t = s.setPort a { s.port a with ring := q }
    | .fill a k x l => live a = true ∧
        ∃ r, (s.port a).pulls[k]? = some r ∧ r.done = false ∧ x ∈ r.desc.entries ∧
          r.filled x = false ∧ dqTok l = r.desc.tok ∧
          t = { s.setPort a ((s.port a).setPull k { r with
            filled := Function.update r.filled x true }) with host := Function.update s.host x l }
    | .finish a k => live a = true ∧
        ∃ r, (s.port a).pulls[k]? = some r ∧
          t = s.setPort a ((s.port a).setPull k { r with done := true })
    | .hasNewResult a x => live a = true ∧ x ≠ 0 ∧ s.owner x = some a ∧ t = s.afterHasNewResult a x
    | .checkCommandComplete x => x ≠ 0 ∧
        ∃ o, qbmanCheckCommandComplete s.portalIdxMap (s.swps live) x (s.host x) = some o ∧
          t = s.afterCheckCommandComplete x o
    | .checkNewResult x => x ≠ 0 ∧ s.Reported live x ∧ t = s.afterCheckNewResult x

namespace PortalsState

/-- The poll sees the first storage entry of the pull `r` of portal `a`, or its `EXPIRED` entry. -/
def Sees (s : PortalsState) (a : Addr) (r : PullRec) : PullsLabel → Prop
  | .dqrrNext b m => b = a ∧ r.desc.toStorage = false ∧
      r.expiredAt = some (s.port a).ring.returned.length ∧
      (qbmanSwpDqrrNext (s.port a).impl.ptrs (s.port a).swp m).ret ≠ none
  | .hasNewResult b x => b = a ∧ r.desc.toStorage = true ∧ x = r.desc.rspAddrVirt ∧
      r.filled x = true
  | .checkCommandComplete x =>
      r.desc.toStorage = true ∧ x = r.desc.rspAddrVirt ∧ r.filled x = true
  | _ => False

end PortalsState

end Qbman
