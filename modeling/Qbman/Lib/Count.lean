import Mathlib.Algebra.GroupWithZero.Nat
import Mathlib.Algebra.Order.BigOperators.Group.List
import Mathlib.Algebra.Order.Group.Nat
import Mathlib.Data.Fintype.BigOperators

/-!
# Counting the parties of a protocol by their phase

`Count.of p f` is the number of the parties `i` whose phase `f i` has the property `p`. The parties
are any finite type; a step moves one of them (`Count.of_update`). What a history lost is the
difference of two sums (`Count.sum_map_eq_iff`).
-/

namespace Count

variable {ι α : Type*} [Fintype ι] (p : α → Prop) [DecidablePred p]

/-- The number of parties in a phase with property `p`. -/
def of (f : ι → α) : Nat := (Finset.univ.filter fun i => p (f i)).card

theorem of_eq_sum (f : ι → α) : of p f = ∑ i, if p (f i) then 1 else 0 := Finset.card_filter _ _

variable {p}

theorem of_eq_zero {f : ι → α} (h : ∀ i, ¬ p (f i)) : of p f = 0 := by
  rw [of, Finset.card_eq_zero, Finset.filter_eq_empty_iff]
  exact fun i _ => h i

/-- A party outside the phase is not counted. -/
theorem of_lt {f : ι → α} {i : ι} (h : ¬ p (f i)) : of p f < Fintype.card ι := by
  refine Finset.card_lt_card (Finset.filter_ssubset.mpr ⟨i, Finset.mem_univ i, h⟩)

variable [DecidableEq ι]

/-- One party moves to phase `a`. -/
theorem of_update (f : ι → α) (i : ι) (a : α) :
    of p (Function.update f i a) + (if p (f i) then 1 else 0) =
      of p f + if p a then 1 else 0 := by
  have hrest : ∑ j ∈ Finset.univ.erase i, (if p (Function.update f i a j) then 1 else 0) =
      ∑ j ∈ Finset.univ.erase i, if p (f j) then 1 else 0 := by
    refine Finset.sum_congr rfl fun j hj => ?_
    rw [Function.update_of_ne (Finset.ne_of_mem_erase hj)]
  rw [of_eq_sum, of_eq_sum, ← Finset.add_sum_erase _ _ (Finset.mem_univ i), hrest,
    ← Finset.add_sum_erase _ (fun j => if p (f j) then 1 else 0) (Finset.mem_univ i),
    Function.update_self]
  omega

omit p in
/-- Two sums over the parties that differ in one term. -/
theorem sum_change {M : Type*} [AddCommMonoid M] {f g : ι → M} {i : ι}
    (h : ∀ j, j ≠ i → f j = g j) :
    ∑ j, f j + g i = ∑ j, g j + f i := by
  have hrest : ∑ j ∈ Finset.univ.erase i, f j = ∑ j ∈ Finset.univ.erase i, g j :=
    Finset.sum_congr rfl fun j hj => h j (Finset.ne_of_mem_erase hj)
  rw [← Finset.add_sum_erase _ f (Finset.mem_univ i), hrest,
    ← Finset.add_sum_erase _ g (Finset.mem_univ i), add_right_comm, add_comm (f i) (g i),
    add_right_comm]

/-! ## Sums over a history -/

/-- Where each term is at most what it should be, the sums agree only if every term does. -/
theorem sum_map_eq_iff {α : Type*} {f g : α → Nat} {l : List α} (h : ∀ a ∈ l, f a ≤ g a) :
    (l.map f).sum = (l.map g).sum ↔ ∀ a ∈ l, f a = g a := by
  induction l with
  | nil => simp
  | cons a l ih =>
    have ha : f a ≤ g a := h a (List.mem_cons_self ..)
    have hl : ∀ b ∈ l, f b ≤ g b := fun b hb => h b (List.mem_cons_of_mem _ hb)
    have hsum : (l.map f).sum ≤ (l.map g).sum := List.sum_le_sum hl
    rw [List.map_cons, List.map_cons, List.sum_cons, List.sum_cons, List.forall_mem_cons, ← ih hl]
    omega

end Count
