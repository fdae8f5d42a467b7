import Mathlib.Data.List.Perm.Basic
import Qbman.Lib.System

/-!
# Slots that are granted one at a time

`Slots α n` is what a ring is for whose consumer hands out its `n` slots in any order: a message is
put into a free slot and taken from it once. That the messages put so far are those taken and those
in the slots is a field (`perm`), so no `Slots` loses or repeats a message.

`Slots.Holds` is the memory behind it: what can be read at a slot, and whether the consumer finds
the slot ready. A write to one free slot puts (`Holds.put`), and a slot that is no longer ready was
taken (`Holds.take`).
-/

/-- The messages in the slots, those put and those taken. -/
structure Slots (α : Type*) (n : Nat) where
  slot : Nat → Option α
  sent : List α
  taken : List α
  perm : sent.Perm (taken ++ (List.range n).filterMap slot)

namespace Slots

variable {α : Type*} {n : Nat}

theorem filterMap_update_of_notMem (f : Nat → Option α) {i : Nat} (o : Option α) {l : List Nat}
    (hi : i ∉ l) : l.filterMap (Function.update f i o) = l.filterMap f := by
  refine List.filterMap_congr fun j hj => ?_
  have hne : j ≠ i := by
    rintro rfl
    exact hi hj
  exact Function.update_of_ne hne _ _

/-- One more message in a list of slots. -/
theorem filterMap_update_some {f : Nat → Option α} {i : Nat} (hfree : f i = none) (x : α)
    {l : List Nat} (hl : l.Nodup) (hi : i ∈ l) :
    (l.filterMap (Function.update f i (some x))).Perm (x :: l.filterMap f) := by
  induction l with
  | nil => cases hi
  | cons j l ih =>
    obtain ⟨hj, hl⟩ := List.nodup_cons.mp hl
    by_cases hji : j = i
    · subst hji
      rw [List.filterMap_cons_some (Function.update_self ..), List.filterMap_cons_none hfree,
        filterMap_update_of_notMem f _ hj]
    · have hmem : i ∈ l := (List.mem_cons.mp hi).resolve_left (Ne.symm hji)
      have hstep := ih hl hmem
      have hsame : Function.update f i (some x) j = f j := Function.update_of_ne hji _ _
      cases hf : f j with
      | none =>
        rw [List.filterMap_cons_none (hsame.trans hf), List.filterMap_cons_none hf]
        exact hstep
      | some y =>
        rw [List.filterMap_cons_some (hsame.trans hf), List.filterMap_cons_some hf]
        exact (hstep.cons y).trans (List.Perm.swap x y _)

theorem put_perm (c : Slots α n) {i : Nat} (x : α) (hi : i < n) (hfree : c.slot i = none) :
    (c.sent ++ [x]).Perm
      (c.taken ++ (List.range n).filterMap (Function.update c.slot i (some x))) := by
  have hnew := filterMap_update_some hfree x List.nodup_range (List.mem_range.mpr hi)
  calc (c.sent ++ [x]).Perm (x :: c.sent) := List.perm_append_singleton x c.sent
    _ |>.Perm (x :: (c.taken ++ (List.range n).filterMap c.slot)) := c.perm.cons x
    _ |>.Perm (c.taken ++ x :: (List.range n).filterMap c.slot) := List.perm_middle.symm
    _ |>.Perm (c.taken ++ (List.range n).filterMap (Function.update c.slot i (some x))) :=
      hnew.symm.append_left c.taken

theorem take_perm (c : Slots α n) {i : Nat} {x : α} (hi : i < n) (hx : c.slot i = some x) :
    c.sent.Perm
      (c.taken ++ [x] ++ (List.range n).filterMap (Function.update c.slot i none)) := by
  have hself : Function.update (Function.update c.slot i none) i (some x) = c.slot := by
    rw [Function.update_idem, ← hx, Function.update_eq_self]
  have hold := filterMap_update_some (Function.update_self i none c.slot) x List.nodup_range
    (List.mem_range.mpr hi)
  rw [hself] at hold
  rw [List.append_assoc, List.singleton_append]
  exact c.perm.trans (hold.append_left c.taken)

/-- Put a message into a free slot. -/
def put (c : Slots α n) (i : Nat) (x : α) (h : i < n ∧ c.slot i = none) : Slots α n :=
  ⟨Function.update c.slot i (some x), c.sent ++ [x], c.taken, c.put_perm x h.1 h.2⟩

/-- Take the message in a slot. -/
def take (c : Slots α n) (i : Nat) (x : α) (h : i < n ∧ c.slot i = some x) : Slots α n :=
  ⟨Function.update c.slot i none, c.sent, c.taken ++ [x], c.take_perm h.1 h.2⟩

/-- Empty slots. -/
def empty (α : Type*) (n : Nat) : Slots α n where
  slot := fun _ => none
  sent := []
  taken := []
  perm := by simp

/-- The slots as a system. -/
def sys (α : Type*) (n : Nat) : Trans.Sys (Slots α n) ((Nat × α) ⊕ Nat) where
  init c := c = empty α n
  step c l c' := match l with
    | .inl (i, x) => ∃ h, c' = c.put i x h
    | .inr i => ∃ x h, c' = c.take i x h

/-! ## The memory of the slots -/

/-- The messages in the slots can be read there, and a slot is ready if it has one. -/
structure Holds (c : Slots α n) (read : Nat → α) (ready : Nat → Prop) : Prop where
  read : ∀ i < n, ∀ x, c.slot i = some x → read i = x
  ready : ∀ i < n, ready i ↔ c.slot i ≠ none

variable {c : Slots α n} {read read' : Nat → α} {ready ready' : Nat → Prop} {i : Nat} {x : α}

namespace Holds

theorem put (h : c.Holds read ready) (hi : i < n ∧ c.slot i = none) (hread : read' i = x)
    (hready : ready' i) (hrest : ∀ j < n, j ≠ i → read' j = read j ∧ (ready' j ↔ ready j)) :
    (c.put i x hi).Holds read' ready' where
  read j hj y hy := by
    replace hy : Function.update c.slot i (some x) j = some y := hy
    by_cases hji : j = i
    · subst hji
      rw [Function.update_self] at hy
      rw [hread, Option.some.inj hy]
    · rw [Function.update_of_ne hji] at hy
      rw [(hrest j hj hji).1]
      exact h.read j hj y hy
  ready j hj := by
    show ready' j ↔ Function.update c.slot i (some x) j ≠ none
    by_cases hji : j = i
    · subst hji
      simp [hready]
    · rw [(hrest j hj hji).2, h.ready j hj, Function.update_of_ne hji]

theorem take (h : c.Holds read ready) (hi : i < n ∧ c.slot i = some x) (hready : ¬ ready' i)
    (hrest : ∀ j < n, j ≠ i → read' j = read j ∧ (ready' j ↔ ready j)) :
    (c.take i x hi).Holds read' ready' where
  read j hj y hy := by
    replace hy : Function.update c.slot i none j = some y := hy
    by_cases hji : j = i
    · subst hji
      rw [Function.update_self] at hy
      cases hy
    · rw [Function.update_of_ne hji] at hy
      rw [(hrest j hj hji).1]
      exact h.read j hj y hy
  ready j hj := by
    show ready' j ↔ Function.update c.slot i none j ≠ none
    by_cases hji : j = i
    · subst hji
      simp [hready]
    · rw [(hrest j hj hji).2, h.ready j hj, Function.update_of_ne hji]

/-- The message that a ready slot has. -/
theorem slot_eq (h : c.Holds read ready) (hi : i < n) (hready : ready i) :
    c.slot i = some (read i) := by
  obtain ⟨x, hx⟩ := Option.ne_none_iff_exists'.mp ((h.ready i hi).mp hready)
  rw [h.read i hi x hx, hx]

/-- What was put is what was taken and what can be read at the slots that are ready. -/
theorem sent_perm [DecidablePred ready] (h : c.Holds read ready) :
    c.sent.Perm (c.taken ++ ((List.range n).filter (ready ·)).map read) := by
  have hslots : (List.range n).filterMap c.slot =
      ((List.range n).filter (ready ·)).map read := by
    rw [← List.filterMap_eq_map, List.filterMap_filter]
    refine List.filterMap_congr fun i hi => ?_
    have hlt := List.mem_range.mp hi
    by_cases hr : ready i
    · simp [hr, h.slot_eq hlt hr]
    · have hnone : c.slot i = none := not_not.mp fun hne => hr ((h.ready i hlt).mpr hne)
      simp [hr, hnone]
  rw [← hslots]
  exact c.perm

end Holds

theorem holds_empty (h : ∀ i < n, ¬ ready i) : (empty α n).Holds read ready where
  read i _ x hx := by cases hx
  ready i hi := by simp [h i hi, empty]

end Slots
