import Mathlib.Data.List.Basic

/-!
# Polling with a retry counter

`do { r = poll(); } while (!r && counter--);`, with whatever state the polls change. `doWhile_ret`
is what the loop returns, the first result within `counter + 1` polls. What it leaves in the counter
tells the two ways out apart: it is `-1` after giving up (`doWhile_counter_of_none`), and `0`
exactly if the last poll of all found something (`doWhile_counter_eq_zero_iff`).
-/

namespace Poll

/-- How the loop ends: the last result, the state, the counter and the number of polls. -/
structure Exit (σ α : Type*) where
  ret : Option α
  state : σ
  counter : Int
  polls : Nat

variable {σ α : Type*} (poll : Nat → σ → Option α × σ)

/-- The loop from poll `k` on. -/
def doWhile : Nat → Nat → σ → Exit σ α
  | 0, k, s =>
    match poll k s with
    | (some r, s') => ⟨some r, s', 0, k + 1⟩
    | (none, s') => ⟨none, s', -1, k + 1⟩
  | counter + 1, k, s =>
    match poll k s with
    | (some r, s') => ⟨some r, s', (counter + 1 : Nat), k + 1⟩
    | (none, s') => doWhile counter (k + 1) s'

/-- While nothing was found the state satisfies `I`, and then poll `k` finds `outcomes k`. -/
structure Shows (I : σ → Prop) (outcomes : Nat → Option α) : Prop where
  ret : ∀ k s, I s → (poll k s).1 = outcomes k
  idle : ∀ k s, I s → outcomes k = none → I (poll k s).2

variable {poll}

theorem doWhile_zero_some {k : Nat} {s : σ} {r : α} (h : (poll k s).1 = some r) :
    doWhile poll 0 k s = ⟨some r, (poll k s).2, 0, k + 1⟩ := by
  rw [doWhile]
  split <;> simp_all

theorem doWhile_zero_none {k : Nat} {s : σ} (h : (poll k s).1 = none) :
    doWhile poll 0 k s = ⟨none, (poll k s).2, -1, k + 1⟩ := by
  rw [doWhile]
  split <;> simp_all

theorem doWhile_succ_some {counter k : Nat} {s : σ} {r : α} (h : (poll k s).1 = some r) :
    doWhile poll (counter + 1) k s = ⟨some r, (poll k s).2, (counter + 1 : Nat), k + 1⟩ := by
  rw [doWhile]
  split <;> simp_all

theorem doWhile_succ_none {counter k : Nat} {s : σ} (h : (poll k s).1 = none) :
    doWhile poll (counter + 1) k s = doWhile poll counter (k + 1) (poll k s).2 := by
  rw [doWhile]
  split <;> simp_all

/-- The loop ends within `counter + 1` polls. -/
theorem doWhile_polls_le (counter k : Nat) (s : σ) :
    (doWhile poll counter k s).polls ≤ k + counter + 1 := by
  induction counter generalizing k s with
  | zero =>
    cases h : (poll k s).1 with
    | none => simp [doWhile_zero_none h]
    | some r => simp [doWhile_zero_some h]
  | succ counter ih =>
    cases h : (poll k s).1 with
    | none =>
      rw [doWhile_succ_none h]
      have := ih (k + 1) (poll k s).2
      omega
    | some r =>
      rw [doWhile_succ_some h]
      show k + 1 ≤ k + (counter + 1) + 1
      omega

variable {I : σ → Prop} {outcomes : Nat → Option α} (hshows : Shows poll I outcomes)

include hshows

/-- The first result of the polls, if there is one. -/
theorem doWhile_ret (counter k : Nat) {s : σ} (hs : I s) :
    (doWhile poll counter k s).ret = (List.range' k (counter + 1)).findSome? outcomes := by
  induction counter generalizing k s with
  | zero =>
    have hret := hshows.ret k s hs
    cases h : outcomes k with
    | none => simp [doWhile_zero_none (hret.trans h), h]
    | some r => simp [doWhile_zero_some (hret.trans h), h]
  | succ counter ih =>
    have hret := hshows.ret k s hs
    rw [List.range'_succ, List.findSome?_cons]
    cases h : outcomes k with
    | none => rw [doWhile_succ_none (hret.trans h), ih (k + 1) (hshows.idle k s hs h)]
    | some r => rw [doWhile_succ_some (hret.trans h)]

/-- A loop that gave up decremented the counter once more after its last poll. -/
theorem doWhile_counter_of_none (counter k : Nat) {s : σ} (hs : I s)
    (hnone : (doWhile poll counter k s).ret = none) : (doWhile poll counter k s).counter = -1 := by
  induction counter generalizing k s with
  | zero =>
    have hret := hshows.ret k s hs
    cases h : outcomes k with
    | none => rw [doWhile_zero_none (hret.trans h)]
    | some r => simp [doWhile_zero_some (hret.trans h)] at hnone
  | succ counter ih =>
    have hret := hshows.ret k s hs
    cases h : outcomes k with
    | none =>
      rw [doWhile_succ_none (hret.trans h)] at hnone ⊢
      exact ih (k + 1) (hshows.idle k s hs h) hnone
    | some r => simp [doWhile_succ_some (hret.trans h)] at hnone

/-- The counter is used up, and no more, if the last poll is the one that finds something. -/
theorem doWhile_counter_eq_zero_iff (counter k : Nat) {s : σ} (hs : I s) :
    (doWhile poll counter k s).counter = 0 ↔
      (∀ i < counter, outcomes (k + i) = none) ∧ (outcomes (k + counter)).isSome := by
  induction counter generalizing k s with
  | zero =>
    have hret := hshows.ret k s hs
    cases h : outcomes k with
    | none => simp [doWhile_zero_none (hret.trans h)]
    | some r => simp [doWhile_zero_some (hret.trans h)]
  | succ counter ih =>
    have hret := hshows.ret k s hs
    have hsplit : (∀ i < counter + 1, outcomes (k + i) = none) ↔
        outcomes k = none ∧ ∀ i < counter, outcomes (k + 1 + i) = none := by
      rw [Nat.forall_lt_succ_left]
      simp only [Nat.add_zero, Nat.add_assoc, Nat.add_comm 1]
    rw [hsplit]
    cases h : outcomes k with
    | none =>
      rw [doWhile_succ_none (hret.trans h), ih (k + 1) (hshows.idle k s hs h),
        show k + (counter + 1) = k + 1 + counter by omega]
      simp
    | some r =>
      rw [doWhile_succ_some (hret.trans h)]
      simp only [reduceCtorEq, false_and, iff_false]
      omega

end Poll
