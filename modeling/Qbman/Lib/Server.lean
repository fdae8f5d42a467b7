import Mathlib.Data.List.Induction

/-!
# Sequential servers

A server has a state and answers one request after another. `Server.run` is what it does with a list
of requests: a request is answered in the state that the requests before it leave
(`Server.run_append`).
-/

namespace Rpc

structure Server (σ Req Rsp : Type*) where
  serve : σ → Req → σ × Rsp

namespace Server

variable {σ Req Rsp : Type*} (S : Server σ Req Rsp)

/-- The state after a list of requests, and the replies. -/
def run : σ → List Req → σ × List Rsp
  | s, [] => (s, [])
  | s, q :: qs =>
    let out := S.serve s q
    let rest := run out.1 qs
    (rest.1, out.2 :: rest.2)

theorem run_append (s : σ) (qs qs' : List Req) :
    S.run s (qs ++ qs') =
      ((S.run (S.run s qs).1 qs').1, (S.run s qs).2 ++ (S.run (S.run s qs).1 qs').2) := by
  induction qs generalizing s with
  | nil => rfl
  | cons q qs ih => simp [run, ih]

theorem run_concat {s t : σ} {qs : List Req} {rs : List Rsp} (h : S.run s qs = (t, rs)) (q : Req) :
    S.run s (qs ++ [q]) = ((S.serve t q).1, rs ++ [(S.serve t q).2]) := by
  rw [run_append, h]
  rfl

end Server

/-- Increasing indices without a gap are all indices up to the last one. -/
theorem eq_range_of_closed {l : List Nat} (hl : l.Pairwise (· < ·))
    (hclosed : ∀ x ∈ l, ∀ y < x, y ∈ l) : l = List.range l.length := by
  induction l using List.reverseRecOn with
  | nil => rfl
  | append_singleton l x ih =>
    obtain ⟨hsorted, -, hlt⟩ := List.pairwise_append.mp hl
    have hx : ∀ y ∈ l, y < x := fun y hy => hlt y hy x (List.mem_singleton_self x)
    have hprefix : ∀ y ∈ l, ∀ z < y, z ∈ l := fun y hy z hz => by
      have hmem := hclosed y (List.mem_append_left _ hy) z hz
      rcases List.mem_append.mp hmem with h | h
      · exact h
      · have := hx y hy
        rw [List.mem_singleton] at h
        omega
    have hrange := ih hsorted hprefix
    have hmem : ∀ y, y ∈ l ↔ y < l.length := fun y => by
      conv_lhs => rw [hrange]
      exact List.mem_range
    have hlast : x = l.length := by
      have hge : ¬ x < l.length := fun h => absurd (hx x ((hmem x).mpr h)) (Nat.lt_irrefl x)
      have hle : ¬ l.length < x := fun h => by
        have := hclosed x (List.mem_append_right _ (List.mem_singleton_self x)) l.length h
        rcases List.mem_append.mp this with h' | h'
        · exact absurd ((hmem _).mp h') (Nat.lt_irrefl _)
        · rw [List.mem_singleton] at h'
          omega
      omega
    rw [List.length_append, List.length_singleton, List.range_succ, ← hrange, ← hlast]

end Rpc
