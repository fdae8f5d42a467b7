import Mathlib.Logic.Function.Basic
import Qbman.Lib.System

/-!
# Parts that share memory

A `Part` is a system whose states have a piece of memory that other parts read and write as well.
`Part.compose` runs a family of parts side by side: a step of one part leaves the others the memory
that it wrote. `Part.Compatible` is what has to be shown of each part alone: its own steps keep its
invariant and do to the memory only what every other part relies on, and its invariant is stable
under what it relies on itself. Then all invariants hold in every state of every interleaving, and
all parts see the same memory (`Compatible.reach`).
-/

namespace Trans

/-- A system over its own state and a shared memory. -/
structure Part (σ : Type*) where
  State : Type
  Label : Type
  sys : Sys State Label
  get : State → σ
  set : State → σ → State
  get_set : ∀ s m, get (set s m) = m

namespace Part

variable {σ ι : Type*} [DecidableEq ι] (P : ι → Part σ)

/-- The parts side by side. -/
def compose : Sys (∀ i, (P i).State) (Σ i, (P i).Label) where
  init s := (∀ i, (P i).sys.init (s i)) ∧ ∀ i j, (P i).get (s i) = (P j).get (s j)
  step s l t := ∃ c, (P l.1).sys.step (s l.1) l.2 c ∧
    t = Function.update (fun j => (P j).set (s j) ((P l.1).get c)) l.1 c

/-- The parts keep their invariants and leave each other what each relies on. -/
structure Compatible (I : ∀ i, (P i).State → Prop) (rely : ι → σ → σ → Prop) : Prop where
  init : ∀ i s, (P i).sys.init s → I i s
  keeps : ∀ i s l t, I i s → (P i).sys.step s l t → I i t
  leaves : ∀ i j, i ≠ j → ∀ s l t, I i s → (P i).sys.step s l t →
    rely j ((P i).get s) ((P i).get t)
  stable : ∀ i s m, I i s → rely i ((P i).get s) m → I i ((P i).set s m)

/-- The invariants of the parts, and that they see one memory. -/
structure Inv (I : ∀ i, (P i).State → Prop) (s : ∀ i, (P i).State) : Prop where
  inv : ∀ i, I i (s i)
  shared : ∀ i j, (P i).get (s i) = (P j).get (s j)

variable {P} {I : ∀ i, (P i).State → Prop} {rely : ι → σ → σ → Prop}

theorem Compatible.step (h : Compatible P I rely) {s t : ∀ i, (P i).State} {l : Σ i, (P i).Label}
    (hs : Inv P I s) (hstep : (compose P).step s l t) : Inv P I t := by
  obtain ⟨i, l⟩ := l
  obtain ⟨c, hc, rfl⟩ := hstep
  have hget : ∀ j, (P j).get (Function.update (fun j => (P j).set (s j) ((P i).get c)) i c j) =
      (P i).get c := by
    intro j
    by_cases hj : j = i
    · subst hj
      rw [Function.update_self]
    · rw [Function.update_of_ne hj, (P j).get_set]
  refine ⟨fun j => ?_, fun j k => (hget j).trans (hget k).symm⟩
  by_cases hj : j = i
  · subst hj
    rw [Function.update_self]
    exact h.keeps j _ _ _ (hs.inv j) hc
  · rw [Function.update_of_ne hj]
    refine h.stable j _ _ (hs.inv j) ?_
    rw [hs.shared j i]
    exact h.leaves i j (Ne.symm hj) _ _ _ (hs.inv i) hc

theorem Compatible.inductive (h : Compatible P I rely) : (compose P).Inductive (Inv P I) where
  init _ hs := ⟨fun i => h.init i _ (hs.1 i), hs.2⟩
  step _ _ _ hs hstep := h.step hs hstep

/-- In every state of every interleaving. -/
theorem Compatible.reach (h : Compatible P I rely) {s : ∀ i, (P i).State}
    (hs : (compose P).Reach s) : Inv P I s := h.inductive.reach hs

/-- One step of one part. -/
theorem reach_step {s : ∀ i, (P i).State} (hs : (compose P).Reach s) (i : ι) (l : (P i).Label)
    {c : (P i).State} (hc : (P i).sys.step (s i) l c) :
    (compose P).Reach (Function.update (fun j => (P j).set (s j) ((P i).get c)) i c) :=
  hs.step (a := ⟨i, l⟩) ⟨c, hc, rfl⟩

end Part

end Trans
