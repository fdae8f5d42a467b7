import Mathlib.Logic.Relation

/-!
# Transition systems, their invariants and their simulations

A system is a type of states, the initial states and the labelled atomic steps. A property of every
run follows from what one step keeps (`Steps.keeps`, `Inductive.reach`). A concrete system refines
an abstract one (`Simulation`) when each of its steps is a finite number of abstract steps, under a
relation of the states; then a state that a concrete run reaches is related to one that an abstract
run reaches (`Simulation.reach`).
-/

namespace Trans

/-- A labelled transition system. -/
structure Sys (σ α : Type*) where
  init : σ → Prop
  step : σ → α → σ → Prop

namespace Sys

variable {σ τ α β : Type*} (S : Sys σ α)

/-- A run from one state to another, with its labels. -/
inductive Steps : σ → List α → σ → Prop
  | nil (s : σ) : Steps s [] s
  | cons {s t u : σ} {a : α} {as : List α} (hd : S.step s a t) (tl : Steps t as u) :
      Steps s (a :: as) u

/-- `s` is the last state of a run from an initial state. -/
def Reach (s : σ) : Prop := ∃ s₀ as, S.init s₀ ∧ S.Steps s₀ as s

/-- Initially true, and kept by every step. -/
structure Inductive (I : σ → Prop) : Prop where
  init : ∀ s, S.init s → I s
  step : ∀ s a t, I s → S.step s a t → I t

variable {S}

theorem Steps.append {s t u : σ} {as bs : List α} (h₁ : S.Steps s as t) (h₂ : S.Steps t bs u) :
    S.Steps s (as ++ bs) u := by
  induction h₁ with
  | nil => exact h₂
  | cons hd _ ih => exact .cons hd (ih h₂)

/-- What each step keeps, a run keeps. -/
theorem Steps.keeps {I : σ → Prop} (hI : ∀ s a t, I s → S.step s a t → I t) {s t : σ}
    {as : List α} (h : S.Steps s as t) (hs : I s) : I t := by
  induction h with
  | nil => exact hs
  | cons hd _ ih => exact ih (hI _ _ _ hs hd)

/-- A relation to the history that each step keeps, a run keeps. -/
theorem Steps.keeps_history {I : σ → List α → Prop}
    (hI : ∀ s hist a t, I s hist → S.step s a t → I t (hist ++ [a])) {s t : σ} {as : List α}
    (h : S.Steps s as t) {hist : List α} (hs : I s hist) : I t (hist ++ as) := by
  induction h generalizing hist with
  | nil => rwa [List.append_nil]
  | @cons _ _ _ a as hd _ ih =>
    rw [show hist ++ a :: as = hist ++ [a] ++ as from List.append_cons hist a as]
    exact ih (hI _ _ _ _ hs hd)

theorem Reach.of_init {s : σ} (h : S.init s) : S.Reach s := ⟨s, [], h, .nil s⟩

theorem Reach.steps {s t : σ} {as : List α} (hs : S.Reach s) (h : S.Steps s as t) : S.Reach t := by
  obtain ⟨s₀, bs, h₀, hr⟩ := hs
  exact ⟨s₀, bs ++ as, h₀, hr.append h⟩

theorem Reach.step {s t : σ} {a : α} (hs : S.Reach s) (h : S.step s a t) : S.Reach t :=
  hs.steps (.cons h (.nil t))

/-- A state that has a list of steps to make, after the first `n` of them. -/
theorem Reach.foldl_take {β γ : Type*} (mk : β → List γ → σ) {f : β → γ → β}
    (hstep : ∀ b c cs, ∃ a, S.step (mk b (c :: cs)) a (mk (f b c) cs)) (n : Nat) {b : β}
    {cs : List γ} (h : S.Reach (mk b cs)) : S.Reach (mk ((cs.take n).foldl f b) (cs.drop n)) := by
  induction n generalizing b cs with
  | zero => exact h
  | succ n ih =>
    cases cs with
    | nil => exact h
    | cons c cs =>
      obtain ⟨a, ha⟩ := hstep b c cs
      exact ih (h.step ha)

theorem Inductive.reach {I : σ → Prop} (h : S.Inductive I) {s : σ} : S.Reach s → I s := by
  rintro ⟨s₀, as, h₀, hr⟩
  exact hr.keeps h.step (h.init s₀ h₀)

/-- The runs of `S` whose steps all meet `C`, a condition on the state before and the label. -/
def restrict (S : Sys σ α) (C : σ → α → Prop) : Sys σ α where
  init := S.init
  step s a t := S.step s a t ∧ C s a

/-- A run whose steps all meet the condition. -/
theorem Steps.restrict_of {C : σ → α → Prop} {I : σ → Prop}
    (hI : ∀ s a t, I s → S.step s a t → I t) {s u : σ} {as : List α} (h : S.Steps s as u)
    (hC : ∀ s a t, I s → S.step s a t → (∃ bs, S.Steps t bs u) → C s a) (hs : I s) :
    (S.restrict C).Steps s as u := by
  induction h with
  | nil s => exact .nil s
  | cons hd tl ih =>
    exact .cons ⟨hd, hC _ _ _ hs hd ⟨_, tl⟩⟩ (ih hC (hI _ _ _ hs hd))

/-- Each step of `S` is some steps of `A`, under the relation `R` of their states. -/
structure Simulation (S : Sys σ α) (A : Sys τ β) (R : σ → τ → Prop) : Prop where
  init : ∀ s, S.init s → ∃ x, A.init x ∧ R s x
  step : ∀ s a t x, R s x → S.step s a t → ∃ bs y, A.Steps x bs y ∧ R t y

theorem Simulation.reach {A : Sys τ β} {R : σ → τ → Prop} (h : Simulation S A R) {s : σ}
    (hs : S.Reach s) : ∃ x, A.Reach x ∧ R s x := by
  obtain ⟨s₀, as, h₀, hr⟩ := hs
  obtain ⟨x₀, hx₀, hR₀⟩ := h.init s₀ h₀
  refine hr.keeps (I := fun s => ∃ x, A.Reach x ∧ R s x) (fun s a t hI hst => ?_)
    ⟨x₀, .of_init hx₀, hR₀⟩
  obtain ⟨x, hx, hR⟩ := hI
  obtain ⟨bs, y, hy, hR'⟩ := h.step s a t x hR hst
  exact ⟨y, hx.steps hy, hR'⟩

/-- What one step simulates, a run simulates. -/
theorem Simulation.steps {A : Sys τ β} {R : σ → τ → Prop} (h : Simulation S A R) {s t : σ}
    {as : List α} (hr : S.Steps s as t) {x : τ} (hR : R s x) : ∃ bs y, A.Steps x bs y ∧ R t y := by
  induction hr generalizing x with
  | nil => exact ⟨[], x, .nil x, hR⟩
  | cons hd _ ih =>
    obtain ⟨bs, y, hy, hR'⟩ := h.step _ _ _ x hR hd
    obtain ⟨cs, z, hz, hR''⟩ := ih hR'
    exact ⟨bs ++ cs, z, hy.append hz, hR''⟩

theorem Simulation.trans {υ γ : Type*} {A : Sys τ β} {B : Sys υ γ} {R : σ → τ → Prop}
    {Q : τ → υ → Prop} (h₁ : Simulation S A R) (h₂ : Simulation A B Q) :
    Simulation S B fun s z => ∃ x, R s x ∧ Q x z where
  init s hs := by
    obtain ⟨x, hx, hR⟩ := h₁.init s hs
    obtain ⟨z, hz, hQ⟩ := h₂.init x hx
    exact ⟨z, hz, x, hR, hQ⟩
  step s a t z := by
    rintro ⟨x, hR, hQ⟩ hstep
    obtain ⟨bs, y, hy, hR'⟩ := h₁.step s a t x hR hstep
    obtain ⟨cs, w, hw, hQ'⟩ := h₂.steps hy hQ
    exact ⟨cs, w, hw, y, hR', hQ'⟩

end Sys

end Trans
