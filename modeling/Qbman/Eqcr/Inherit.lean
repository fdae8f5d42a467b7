import Qbman.Eqcr.Ring

/-!
# A portal inherited with commands in its ring

`qbman_swp_init` counts the free slots from the producer and the consumer index with their lowest
bits masked off. The count, and with it everything that later enqueues rely on (`FreeExact`), is
right for indices of the same parity only (`qbmanSwpInit_freeExact_iff`).
-/

namespace Qbman

/-- The ring of a portal `p` built from `env`. The hardware may consume any command in it. -/
def inheritSys (d : QbmanSwpDesc) (env : InitEnv) (p : QbmanSwp) : Trans.Sys RingState RingLabel :=
  ringSys d.impl (fun s => s.swp = p ∧ s.Fresh d env) (fun s => s.cons < s.next) (0 ≤ ·.numFrames)

/-- The free count of a portal that `qbman_swp_init` built from `env` is exact, and in every later
state of its ring the free count is exact for the consumer index read last, there are no more
commands in the ring than slots, and each of them is in its slot. -/
structure FreeExact (d : QbmanSwpDesc) (env : InitEnv) (p : QbmanSwp) : Prop where
  init : p.eqcr.available = (2 ^ d.impl.ringExp : Nat) - (p.eqcr.dist d.impl : Nat)
  run : ∀ s, (inheritSys d env p).Reach s →
    s.swp.eqcr.available = (s.seen + 2 ^ d.impl.ringExp - s.next : Nat) ∧
      s.next ≤ s.cons + 2 ^ d.impl.ringExp ∧
      ∀ i (h : i < s.accepted.length), s.taken.length ≤ i →
        s.cena.slots ((s.start + i) % 2 ^ d.impl.ringExp) = s.accepted[i]

/-- An exact free count makes everything else exact. -/
theorem freeExact_of_init {g : Globals} {d : QbmanSwpDesc} {env : InitEnv} {a : Addr} {p : QbmanSwp}
    (h : (qbmanSwpInit g d env).ret = some (a, p)) (hd : p.eqcr.dist d.impl ≤ 2 ^ d.impl.ringExp)
    (ha : p.eqcr.available = (2 ^ d.impl.ringExp : Nat) - (p.eqcr.dist d.impl : Nat)) :
    FreeExact d env p := by
  have hsim : (inheritSys d env p).Simulation (Chan.sys Line (2 ^ d.impl.ringExp))
      (fun s x => s.Rel d.impl x ∧ True) := by
    refine ringSys_simulation (fun _ => True) ?_ (fun _ hc => hc) (fun _ _ _ _ hr => hr)
      (fun _ _ _ _ _ _ _ _ => trivial) (fun _ _ _ _ _ => trivial)
    rintro s ⟨rfl, hf⟩
    obtain ⟨x, hx, hrel⟩ := hf.rel h hd ha
    exact ⟨x, hx, hrel, trivial⟩
  refine ⟨ha, fun s hs => ?_⟩
  obtain ⟨x, -, hrel, -⟩ := hsim.reach hs
  refine ⟨hrel.counts.available, ?_, fun i hi ht => hrel.intact hi ht⟩
  have hfits := hrel.counts.fits
  have hseen := hrel.seen_le
  omega

/-- The free count and all that rests on it are exact if and only if the two indices that
`qbman_swp_init` reads have the same parity. -/
theorem qbmanSwpInit_freeExact_iff {g : Globals} {d : QbmanSwpDesc} {env : InitEnv} {a : Addr}
    {p : QbmanSwp} (h : (qbmanSwpInit g d env).ret = some (a, p))
    (hd : p.eqcr.dist d.impl ≤ 2 ^ d.impl.ringExp) :
    FreeExact d env p ↔
      (env.cinh 2 qbmanCinhSwpEqcrPi).toNat % 2 = (env.cinh 3 (initCiReg d)).toNat % 2 := by
  obtain ⟨-, -, -, -, -, -, heqcr, -⟩ := qbmanSwpInit_some h
  rw [← d.impl_memBacked] at heqcr
  have hiff := eqcrInit_available_iff d.impl (env.cinh 2 qbmanCinhSwpEqcrPi)
    (env.cinh 3 (initCiReg d))
  rw [← heqcr] at hiff
  constructor
  · intro hexact
    exact hiff.mp hexact.init
  · intro hparity
    exact freeExact_of_init h hd (hiff.mpr hparity)

/-- Two commands in the ring of a direct portal: its free count is exact. -/
theorem qbmanSwpInit_freeExact_iff_two :
    ∃ p, (qbmanSwpInit {} (.rev4100 .vbRing 0) (.ok 0x1000 2 0)).ret = some (0x1000, p) ∧
      FreeExact (.rev4100 .vbRing 0) (.ok 0x1000 2 0) p :=
  ⟨_, rfl, (qbmanSwpInit_freeExact_iff (g := {}) rfl (by decide)).mpr rfl⟩

/-- One command in the ring of a direct portal: eight slots are counted as free, not seven. -/
theorem qbmanSwpInit_not_freeExact :
    ∃ p, (qbmanSwpInit {} (.rev4100 .vbRing 0) (.ok 0x1000 1 0)).ret = some (0x1000, p) ∧
      p.eqcr.dist .direct = 1 ∧ p.eqcr.available = 8 ∧
      ¬ FreeExact (.rev4100 .vbRing 0) (.ok 0x1000 1 0) p := by
  refine ⟨_, rfl, by decide, by decide, fun h => ?_⟩
  have := h.init
  revert this
  decide

end Qbman
