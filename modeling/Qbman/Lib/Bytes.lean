import Mathlib.Logic.Function.Basic

/-!
# Little-endian values in byte-addressed memory

Loads and stores of values of a number of bytes, and records of `Field`s at fixed offsets. A load at
a stored field gives the value back (`load_store`); what no field covers is as it was
(`storeFields_of_uncovered`), and what one covers does not depend on the rest (`storeFields_congr`).
-/

namespace Bytes

abbrev Mem := Nat → BitVec 8

variable {m : Mem} {w n a b x : Nat}

/-- The value of the `n` bytes at `a`. -/
def load (w : Nat) (m : Mem) (a : Nat) : Nat → BitVec w
  | 0 => 0
  | n + 1 => (m a).setWidth w ||| load w m (a + 1) n <<< 8

/-- The memory after a store of the `n` low bytes of a value at `a`. -/
def store (m : Mem) (a n : Nat) (v : BitVec w) : Mem := fun x =>
  if a ≤ x ∧ x < a + n then v.extractLsb' (8 * (x - a)) 8 else m x

theorem store_of_mem {v : BitVec w} (h : a ≤ x) (h' : x < a + n) :
    store m a n v x = v.extractLsb' (8 * (x - a)) 8 := if_pos ⟨h, h'⟩

theorem store_of_not_mem {v : BitVec w} (h : x < a ∨ a + n ≤ x) : store m a n v x = m x :=
  if_neg (by omega)

/-- Bit `i` of a load is in byte `i / 8`. -/
theorem load_getLsbD (m : Mem) (a n i : Nat) :
    (load w m a n).getLsbD i = (decide (i < w ∧ i < 8 * n) && (m (a + i / 8)).getLsbD (i % 8)) := by
  induction n generalizing a i with
  | zero => simp [load]
  | succ n ih =>
    by_cases hw : i < w
    · by_cases h8 : i < 8
      · have hdiv : i / 8 = 0 := by omega
        have hmod : i % 8 = i := by omega
        simp [load, hw, h8, hdiv, hmod]
        omega
      · have hlow : (m a).getLsbD i = false := BitVec.getLsbD_of_ge _ _ (by omega)
        have hdiv : a + 1 + (i - 8) / 8 = a + i / 8 := by omega
        have hmod : (i - 8) % 8 = i % 8 := by omega
        have hlt : (i - 8 < w ∧ i - 8 < 8 * n) ↔ (i < w ∧ i < 8 * (n + 1)) := by omega
        simp only [load, BitVec.getLsbD_or, BitVec.getLsbD_setWidth, hw, decide_true, Bool.true_and,
          hlow, Bool.false_or, BitVec.getLsbD_shiftLeft, h8, decide_false, Bool.not_false, ih, hdiv,
          hmod, hlt]
    · simp [hw, BitVec.getLsbD_of_ge _ i (Nat.le_of_not_lt hw)]

/-- A load depends on its bytes only. -/
theorem load_congr {m' : Mem} {b : Nat} (h : ∀ k < n, m (a + k) = m' (b + k)) :
    load w m a n = load w m' b n := by
  refine BitVec.eq_of_getLsbD_eq fun i _ => ?_
  rw [load_getLsbD, load_getLsbD]
  by_cases hi : i < 8 * n
  · rw [h (i / 8) (by omega)]
  · simp [hi]

theorem load_store (m : Mem) (a : Nat) {k : Nat} (v : BitVec k) (h : k ≤ 8 * n) :
    load w (store m a n v) a n = v.setWidth w := by
  refine BitVec.eq_of_getLsbD_eq fun i hi => ?_
  rw [load_getLsbD, BitVec.getLsbD_setWidth, decide_eq_true hi, Bool.true_and]
  by_cases hlt : i < 8 * n
  · have hbit : 8 * (a + i / 8 - a) + i % 8 = i := by omega
    have hmod : i % 8 < 8 := by omega
    rw [store_of_mem (by omega) (by omega), BitVec.getLsbD_extractLsb', hbit,
      decide_eq_true hmod, decide_eq_true (And.intro hi hlt), Bool.true_and, Bool.true_and]
  · rw [BitVec.getLsbD_of_ge v i (by omega), decide_eq_false (by omega), Bool.false_and]

/-- Storing zero where there is zero. -/
theorem store_zero (h : ∀ x, a ≤ x → x < a + n → m x = 0) : store m a n (0 : BitVec w) = m := by
  funext x
  by_cases hx : a ≤ x ∧ x < a + n
  · rw [store_of_mem hx.1 hx.2, h x hx.1 hx.2]
    exact BitVec.eq_of_getLsbD_eq fun i _ => by simp
  · exact if_neg hx

theorem load_store_of_disjoint {k : Nat} (v : BitVec k) {b l : Nat} (h : b + l ≤ a ∨ a + n ≤ b) :
    load w (store m a n v) b l = load w m b l :=
  load_congr fun _ _ => store_of_not_mem (by omega)

/-! ## Records -/

/-- A value at an offset of a record. -/
structure Field where
  off : Nat
  len : Nat
  val : BitVec (8 * len)

/-- The field has the byte at offset `k`. -/
def Field.Covers (f : Field) (k : Nat) : Prop := f.off ≤ k ∧ k < f.off + f.len

instance (f : Field) (k : Nat) : Decidable (f.Covers k) :=
  inferInstanceAs (Decidable (f.off ≤ k ∧ k < f.off + f.len))

/-- The memory after the fields of a record at `base` were stored in order. -/
def storeFields (base : Nat) (fs : List Field) (m : Mem) : Mem :=
  fs.foldl (fun m f => store m (base + f.off) f.len f.val) m

@[simp] theorem storeFields_nil (base : Nat) : storeFields base [] m = m := rfl

@[simp] theorem storeFields_cons (base : Nat) (f : Field) (fs : List Field) :
    storeFields base (f :: fs) m = storeFields base fs (store m (base + f.off) f.len f.val) := rfl

/-- What no field covers is as it was. -/
theorem storeFields_of_uncovered {base k : Nat} {fs : List Field} (h : ∀ f ∈ fs, ¬ f.Covers k) :
    storeFields base fs m (base + k) = m (base + k) := by
  induction fs generalizing m with
  | nil => rfl
  | cons f fs ih =>
    have hf : ¬ f.Covers k := h f (List.mem_cons_self ..)
    rw [storeFields_cons, ih fun g hg => h g (List.mem_cons_of_mem _ hg), store_of_not_mem]
    unfold Field.Covers at hf
    omega

/-- A byte after the stores depends on what was there only if no field covers it, and on the base
not at all. -/
theorem storeFields_congr {m' : Mem} {base base' k : Nat} (fs : List Field)
    (h : (∀ f ∈ fs, ¬ f.Covers k) → m (base + k) = m' (base' + k)) :
    storeFields base fs m (base + k) = storeFields base' fs m' (base' + k) := by
  induction fs generalizing m m' with
  | nil => exact h fun f hf => (List.not_mem_nil hf).elim
  | cons f fs ih =>
    rw [storeFields_cons, storeFields_cons]
    refine ih fun hfs => ?_
    by_cases hf : f.Covers k
    · obtain ⟨hle, hlt⟩ := hf
      rw [store_of_mem (by omega) (by omega), store_of_mem (by omega) (by omega)]
      congr 2
      omega
    · have hm := h fun g hg => by
        rcases List.mem_cons.mp hg with rfl | hg
        · exact hf
        · exact hfs g hg
      unfold Field.Covers at hf
      rw [store_of_not_mem (by omega), store_of_not_mem (by omega), hm]

/-- Two ranges of a record do not overlap. -/
def Field.Apart (f : Field) (off len : Nat) : Prop := f.off + f.len ≤ off ∨ off + len ≤ f.off

theorem load_storeFields_of_apart {base off len : Nat} {fs : List Field}
    (h : ∀ f ∈ fs, f.Apart off len) :
    load w (storeFields base fs m) (base + off) len = load w m (base + off) len := by
  refine load_congr fun k hk => ?_
  rw [Nat.add_assoc]
  refine storeFields_of_uncovered fun f hf => ?_
  have hapart := h f hf
  unfold Field.Apart at hapart
  unfold Field.Covers
  omega

/-- A field that no later one overlaps is read back. -/
theorem load_field {base : Nat} (f : Field) (pre post : List Field)
    (h : ∀ g ∈ post, g.Apart f.off f.len) :
    load w (storeFields base (pre ++ f :: post) m) (base + f.off) f.len = f.val.setWidth w := by
  unfold storeFields
  rw [List.foldl_append, List.foldl_cons]
  exact (load_storeFields_of_apart h).trans (load_store _ _ _ (Nat.le_refl _))

end Bytes
