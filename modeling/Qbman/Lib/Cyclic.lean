import Mathlib.Data.Nat.ModEq
import Mathlib.Logic.Function.Basic

/-!
# Counters of a ring that wrap

A ring of `N` slots is driven by counters that only grow; turn `j` uses slot `j % N`. Software and
hardware keep the counters modulo a power of two only, and tell a slot filled in this lap from one
left from the last lap by a polarity bit that flips when a counter wraps.

* `slot_inj`: the turns of one window of `N` use different slots.
* `cycDist`: the distance from one wrapped counter to another; `cycDist_counters` is that it is
  exact for two counters less than a modulus apart.
* `phase`: the polarity of a turn; it flips at every multiple of `N` (`phase_succ`), so a slot's
  polarity differs from one turn to the next (`phase_add`).
* `writeTurns`: the slots after a loop over consecutive turns. Over at most one lap each slot is
  changed at most once (`writeTurns_turn`), the others not at all (`writeTurns_other`).
-/

namespace Cyclic

/-- Two turns less than `N` apart with the same slot are the same turn. -/
theorem slot_inj {N i j : Nat} (h : i % N = j % N) (hij : i ≤ j) (hlt : j < i + N) : i = j := by
  obtain ⟨d, rfl⟩ := Nat.exists_eq_add_of_le hij
  have hd : d % N = 0 := by
    have := (Nat.ModEq.add_left_cancel' i (show i + 0 ≡ i + d [MOD N] from h)).symm
    simpa [Nat.ModEq] using this
  rw [Nat.mod_eq_of_lt (by omega)] at hd
  omega

/-- Two turns of one window of `N` turns with the same slot are the same turn. -/
theorem slot_inj_window {N a i j : Nat} (hi : a ≤ i) (hi' : i < a + N) (hj : a ≤ j)
    (hj' : j < a + N) (h : i % N = j % N) : i = j := by
  rcases Nat.le_total i j with hij | hij
  · exact slot_inj h hij (by omega)
  · exact (slot_inj h.symm hij (by omega)).symm

/-- The distance from the wrapped counter `a` up to the wrapped counter `b`, both below `M`. -/
def cycDist (M a b : Nat) : Nat := (b + M - a) % M

theorem cycDist_lt {M a b : Nat} (hM : 0 < M) : cycDist M a b < M := Nat.mod_lt _ hM

/-- The branches that compute a cyclic distance without a division. -/
theorem cycDist_eq_ite {M a b : Nat} (ha : a < M) (hb : b < M) :
    cycDist M a b = if a ≤ b then b - a else M + b - a := by
  unfold cycDist
  split
  · rw [show b + M - a = b - a + M by omega, Nat.add_mod_right, Nat.mod_eq_of_lt (by omega)]
  · rw [show b + M - a = M + b - a by omega, Nat.mod_eq_of_lt (by omega)]

/-- The wrapped distance of two counters less than `M` apart is their distance. -/
theorem cycDist_counters {M i j : Nat} (hM : 0 < M) (hij : i ≤ j) (hlt : j < i + M) :
    cycDist M (i % M) (j % M) = j - i := by
  obtain ⟨d, rfl⟩ := Nat.exists_eq_add_of_le hij
  have hd : d < M := by omega
  have hi := Nat.mod_lt i hM
  rw [cycDist_eq_ite hi (Nat.mod_lt _ hM), Nat.add_mod, Nat.mod_eq_of_lt hd]
  by_cases hw : i % M + d < M
  · rw [Nat.mod_eq_of_lt hw, if_pos (by omega)]
    omega
  · have hm : (i % M + d) % M = i % M + d - M := by
      rw [Nat.mod_eq_sub_mod (by omega), Nat.mod_eq_of_lt (by omega)]
    rw [hm, if_neg (by omega)]
    omega

@[simp] theorem cycDist_self {M a : Nat} (ha : a < M) : cycDist M a a = 0 := by
  simp [cycDist_eq_ite ha ha]

theorem cycDist_eq_zero {M a b : Nat} (ha : a < M) (hb : b < M) : cycDist M a b = 0 ↔ a = b := by
  rw [cycDist_eq_ite ha hb]
  split <;> omega

/-- The counter at a distance from another. -/
theorem add_cycDist_mod {M a b : Nat} (ha : a < M) (hb : b < M) : (a + cycDist M a b) % M = b := by
  rw [cycDist_eq_ite ha hb]
  split
  · rw [Nat.mod_eq_of_lt (by omega)]
    omega
  · rw [show a + (M + b - a) = b + M by omega, Nat.add_mod_right, Nat.mod_eq_of_lt hb]

/-- The polarity of turn `j` on a ring of `N` slots whose turn `j₀` has polarity `v`. -/
def phase (N j₀ : Nat) (v : Bool) (j : Nat) : Bool := v ^^ decide ((j / N + j₀ / N) % 2 = 1)

@[simp] theorem phase_self (N j₀ : Nat) (v : Bool) : phase N j₀ v j₀ = v := by
  have : ¬ (j₀ / N + j₀ / N) % 2 = 1 := by omega
  simp [phase, this]

private theorem flip_parity (a b : Nat) (v : Bool) :
    (v ^^ decide ((a + 1 + b) % 2 = 1)) = !(v ^^ decide ((a + b) % 2 = 1)) := by
  by_cases h : (a + b) % 2 = 1
  · have : ¬ (a + 1 + b) % 2 = 1 := by omega
    simp [h, this]
  · have : (a + 1 + b) % 2 = 1 := by omega
    simp [h, this]

/-- The polarity flips when the counter reaches a multiple of `N`, and only then. -/
theorem phase_succ (N j₀ : Nat) (v : Bool) (j : Nat) :
    phase N j₀ v (j + 1) = if (j + 1) % N = 0 then !phase N j₀ v j else phase N j₀ v j := by
  unfold phase
  split
  · rename_i h
    rw [Nat.succ_div_of_dvd (Nat.dvd_of_mod_eq_zero h)]
    exact flip_parity _ _ _
  · rename_i h
    rw [Nat.succ_div_of_not_dvd fun hd => h (Nat.mod_eq_zero_of_dvd hd)]

/-- A slot's polarity flips from one of its turns to the next. -/
theorem phase_add {N : Nat} (hN : 0 < N) (j₀ : Nat) (v : Bool) (j : Nat) :
    phase N j₀ v (j + N) = !phase N j₀ v j := by
  unfold phase
  rw [Nat.add_div_right _ hN]
  exact flip_parity _ _ _

/-- The polarity is known from the counter modulo two laps. -/
theorem phase_mod (N j₀ : Nat) (v : Bool) (j : Nat) :
    phase N j₀ v (j % (N * 2)) = phase N j₀ v j := by
  unfold phase
  rw [Nat.mod_mul_right_div_self, Nat.mod_add_mod]

/-- Masking the lowest bit off two counters changes their distance when their parities differ, and
only then. -/
theorem cycDist_half {N a b : Nat} (ha : a < 2 * N) (hb : b < 2 * N) :
    cycDist (2 * N) (2 * (a / 2)) (2 * (b / 2)) = cycDist (2 * N) a b ↔ a % 2 = b % 2 := by
  rw [cycDist_eq_ite ha hb, cycDist_eq_ite (by omega) (by omega)]
  split <;> split <;> omega

/-- The slots after `n` turns from turn `t` on, of which each changes its own slot. -/
def writeTurns {α : Type*} (N : Nat) (f : Nat → α → α) : Nat → Nat → (Nat → α) → Nat → α
  | 0, _, s => s
  | n + 1, t, s => writeTurns N f n (t + 1) (Function.update s (t % N) (f t (s (t % N))))

variable {α : Type*} {N : Nat} {f : Nat → α → α}

theorem writeTurns_other {n t : Nat} {s : Nat → α} {i : Nat} (h : ∀ j < n, i ≠ (t + j) % N) :
    writeTurns N f n t s i = s i := by
  induction n generalizing t s with
  | zero => rfl
  | succ n ih =>
    rw [writeTurns, ih fun j hj => ?_]
    · exact Function.update_of_ne (h 0 (Nat.succ_pos n)) _ _
    · rw [Nat.add_right_comm]
      exact h (j + 1) (Nat.succ_lt_succ hj)

theorem writeTurns_turn {n t : Nat} {s : Nat → α} (hn : n ≤ N) {j : Nat} (hj : j < n) :
    writeTurns N f n t s ((t + j) % N) = f (t + j) (s ((t + j) % N)) := by
  induction n generalizing t s j with
  | zero => omega
  | succ n ih =>
    rw [writeTurns]
    cases j with
    | zero =>
      rw [writeTurns_other fun j' hj' he => ?_]
      · exact Function.update_self _ _ _
      · have := slot_inj he (by omega) (by omega)
        omega
    | succ j =>
      rw [show t + (j + 1) = t + 1 + j by omega, ih (by omega) (by omega),
        Function.update_of_ne fun he => ?_]
      have := slot_inj he.symm (by omega) (by omega)
      omega

end Cyclic
