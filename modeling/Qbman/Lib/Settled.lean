import Mathlib.Logic.Basic

/-!
# Steps that leave what is settled alone

A reader may look at a part of the state (`view`) after any step of a sequence, and takes what it
sees if it is `valid`. `Settled.Kept` is that no later step changes a view that was valid. It goes
along the recursion that built the sequence (`kept_append`), and says the same of any two points of
it (`kept_iff_splits`).
-/

namespace Settled

variable {σ α β : Type*} (step : σ → α → σ) (view : σ → β) (valid : β → Prop)

/-- From state `s` on, no step changes a valid view. -/
def Kept : σ → List α → Prop
  | _, [] => True
  | s, a :: as => (valid (view s) → view (step s a) = view s) ∧ Kept (step s a) as

variable {step view valid} {s : σ} {as bs : List α}

theorem kept_nil : Kept step view valid s [] := trivial

theorem kept_cons {a : α} : Kept step view valid s (a :: as) ↔
    (valid (view s) → view (step s a) = view s) ∧ Kept step view valid (step s a) as := Iff.rfl

theorem kept_append : Kept step view valid s (as ++ bs) ↔
    Kept step view valid s as ∧ Kept step view valid (as.foldl step s) bs := by
  induction as generalizing s with
  | nil => simp [kept_nil]
  | cons a as ih => simp only [List.cons_append, kept_cons, ih, List.foldl_cons, and_assoc]

theorem kept_singleton {a : α} : Kept step view valid s [a] ↔
    (valid (view s) → view (step s a) = view s) := by
  simp [kept_cons, kept_nil]

/-- A valid view is the same at the end. -/
theorem Kept.view_eq (h : Kept step view valid s as) (hv : valid (view s)) :
    view (as.foldl step s) = view s := by
  induction as generalizing s with
  | nil => rfl
  | cons a as ih =>
    have ha := h.1 hv
    rw [List.foldl_cons, ih h.2 (by rwa [ha]), ha]

/-- A view that is valid now is never seen otherwise, whatever is asked of it later. -/
theorem Kept.of_valid {valid' : β → Prop} (h : Kept step view valid s as) (hv : valid (view s)) :
    Kept step view valid' s as := by
  induction as generalizing s with
  | nil => exact kept_nil
  | cons a as ih =>
    have ha := h.1 hv
    exact ⟨fun _ => ha, ih h.2 (by rwa [ha])⟩

/-- Of any two points of the sequence, the later has the valid view of the earlier. -/
theorem kept_iff_splits : Kept step view valid s as ↔ ∀ pre mid post, as = pre ++ mid ++ post →
    valid (view (pre.foldl step s)) →
      view ((pre ++ mid).foldl step s) = view (pre.foldl step s) := by
  constructor
  · rintro h pre mid post rfl hv
    rw [List.append_assoc, kept_append, kept_append] at h
    rw [List.foldl_append]
    exact h.2.1.view_eq hv
  · intro h
    induction as generalizing s with
    | nil => exact kept_nil
    | cons a as ih =>
      refine ⟨h [] [a] as rfl, ih fun pre mid post hsplit => ?_⟩
      exact h (a :: pre) mid post (by rw [hsplit]; rfl)

/-- Steps that do not touch the view. -/
theorem kept_of_view (h : ∀ s, ∀ a ∈ as, view (step s a) = view s) :
    Kept step view valid s as := by
  induction as generalizing s with
  | nil => exact kept_nil
  | cons a as ih =>
    exact ⟨fun _ => h s a (List.mem_cons_self ..),
      ih fun s b hb => h s b (List.mem_cons_of_mem _ hb)⟩

/-- Steps after which the view is not valid where it was not before. -/
theorem kept_of_not_valid (h : ∀ s, ∀ a ∈ as, ¬ valid (view s) → ¬ valid (view (step s a)))
    (hs : ¬ valid (view s)) : Kept step view valid s as := by
  induction as generalizing s with
  | nil => exact kept_nil
  | cons a as ih =>
    have ha := h s a (List.mem_cons_self ..) hs
    exact ⟨fun hv => absurd hv hs, ih (fun s b hb => h s b (List.mem_cons_of_mem _ hb)) ha⟩

end Settled
