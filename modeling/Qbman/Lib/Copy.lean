import Mathlib.Logic.Function.Basic

/-!
# Copy loops

A copy loop is the list of its assignments `dst[i] = src[j]`, in order. The destination keeps what
is at no `i` (`run_of_ne_dst`). A loop that takes each destination from a fixed place of the source
copies along a function, in whatever order (`Copies.run_of_lt`), and the loop along its inverse
copies back (`Copies.run_run`).
-/

namespace Copy

/-- `dst[i] = src[j]` -/
structure Move where
  dst : Nat
  src : Nat
  deriving DecidableEq, Repr

variable {α : Type*} (src m : Nat → α) (cs : List Move)

def Move.apply (c : Move) : Nat → α := Function.update m c.dst (src c.src)

/-- The destination after the assignments. -/
def run : Nat → α := cs.foldl (Move.apply src) m

@[simp] theorem run_nil : run src m [] = m := rfl

@[simp] theorem run_cons (c : Move) :
    run src m (c :: cs) = run src (Function.update m c.dst (src c.src)) cs := rfl

variable {src m cs}

theorem run_of_ne_dst {i : Nat} (h : ∀ c ∈ cs, c.dst ≠ i) : run src m cs i = m i := by
  induction cs generalizing m with
  | nil => rfl
  | cons c cs ih =>
    obtain ⟨hc, hcs⟩ := List.forall_mem_cons.mp h
    rw [run_cons, ih hcs, Function.update_of_ne (Ne.symm hc)]

theorem run_of_mem_dst {f : Nat → Nat} (h : ∀ c ∈ cs, c.src = f c.dst) {i : Nat}
    (hi : ∃ c ∈ cs, c.dst = i) : run src m cs i = src (f i) := by
  induction cs generalizing m with
  | nil =>
    obtain ⟨c, hc, -⟩ := hi
    cases hc
  | cons c cs ih =>
    obtain ⟨hc, hcs⟩ := List.forall_mem_cons.mp h
    rw [run_cons]
    by_cases hlater : ∃ c ∈ cs, c.dst = i
    · exact ih hcs hlater
    · -- No later assignment is to `i`, so this one is.
      obtain ⟨c', hc', rfl⟩ := hi
      obtain rfl | hmem := List.mem_cons.mp hc'
      · rw [run_of_ne_dst fun c hc heq => hlater ⟨c, hc, heq⟩, Function.update_self, hc]
      · exact absurd ⟨c', hmem, rfl⟩ hlater

/-- The loop sets the destinations below `n` and no others, each from the source at `f` of it. -/
structure Copies (cs : List Move) (n : Nat) (f : Nat → Nat) : Prop where
  dst_lt : ∀ c ∈ cs, c.dst < n
  src_eq : ∀ c ∈ cs, c.src = f c.dst
  covers : ∀ i < n, ∃ c ∈ cs, c.dst = i

namespace Copies

variable {n : Nat} {f : Nat → Nat}

theorem run_of_lt (h : Copies cs n f) {i : Nat} (hi : i < n) : run src m cs i = src (f i) :=
  run_of_mem_dst h.src_eq (h.covers i hi)

theorem run_of_ge (h : Copies cs n f) {i : Nat} (hi : n ≤ i) : run src m cs i = m i :=
  run_of_ne_dst fun c hc heq => Nat.not_lt.mpr hi (heq ▸ h.dst_lt c hc)

theorem src_lt (h : Copies cs n f) (hf : ∀ i < n, f i < n) {c : Move} (hc : c ∈ cs) :
    c.src < n := by
  rw [h.src_eq c hc]
  exact hf _ (h.dst_lt c hc)

theorem congr {cs' : List Move} (h : Copies cs n f) (hmem : ∀ c, c ∈ cs' ↔ c ∈ cs) :
    Copies cs' n f where
  dst_lt c hc := h.dst_lt c ((hmem c).mp hc)
  src_eq c hc := h.src_eq c ((hmem c).mp hc)
  covers i hi := by
    obtain ⟨c, hc, heq⟩ := h.covers i hi
    exact ⟨c, (hmem c).mpr hc, heq⟩

/-- Copying along `f` and then along a right inverse of `f`. -/
theorem run_run {cs' : List Move} {g : Nat → Nat} {m' : Nat → α} (h : Copies cs n f)
    (h' : Copies cs' n g) (hg : ∀ i < n, g i < n) (hinv : ∀ i < n, f (g i) = i) {i : Nat}
    (hi : i < n) : run (run src m cs) m' cs' i = src i := by
  rw [h'.run_of_lt hi, h.run_of_lt (hg i hi), hinv i hi]

end Copies

end Copy
