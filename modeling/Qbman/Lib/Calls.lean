import Mathlib.Data.List.DropRight
import Mathlib.Order.BoundedOrder.Lattice
import Mathlib.Order.Lattice

/-!
# What a history of calls leaves in a field

A record is built by a list of calls, `l.foldl apply d`. The calls of a group may *replace* a field:
then the last of them decides (`Replaces.foldl`). Or a call may only *add* to a field, and some
calls empty it: then the field is the join of what was added since it was emptied
(`Collects.foldl_le_iff`), and one call alone decides only if it covers the others
(`Collects.foldl_eq_iff`).
-/

namespace Calls

variable {D A V : Type*} {apply : D → A → D} {group empties : A → Bool}

/-- The last call of a group. -/
def lastOf (group : A → Bool) (l : List A) : Option A := (l.filter group).getLast?

@[simp] theorem lastOf_nil : lastOf group [] = none := rfl

theorem lastOf_concat (l : List A) (a : A) :
    lastOf group (l ++ [a]) = if group a then some a else lastOf group l := by
  unfold lastOf
  cases h : group a <;> simp [List.filter_append, h]

theorem lastOf_mem {l : List A} {a : A} (h : lastOf group l = some a) : a ∈ l ∧ group a = true :=
  List.mem_filter.mp (List.mem_of_getLast? h)

/-- A call of a longer history is the new one or one of the others. -/
theorem getElem?_concat {l : List A} {a b : A} {n : Nat} (h : (l ++ [a])[n]? = some b) :
    l[n]? = some b ∨ n = l.length ∧ a = b := by
  rw [List.getElem?_append] at h
  split at h
  · exact .inl h
  · rw [List.getElem?_singleton] at h
    split at h
    · exact .inr ⟨by omega, Option.some.inj h⟩
    · cases h

/-- Every call is as `P` says, given the calls before it. -/
def Each (P : List A → A → Prop) (l : List A) : Prop := ∀ n a, l[n]? = some a → P (l.take n) a

theorem each_nil {P : List A → A → Prop} : Each P [] := by
  intro n a h
  cases h

theorem Each.concat {P : List A → A → Prop} {l : List A} (h : Each P l) {a : A} (ha : P l a) :
    Each P (l ++ [a]) := by
  intro n b hb
  obtain hb | ⟨rfl, rfl⟩ := getElem?_concat hb
  · have hn : n < l.length := (List.getElem?_eq_some_iff.mp hb).1
    rw [List.take_append_of_le_length (Nat.le_of_lt hn)]
    exact h n b hb
  · rwa [List.take_left]

/-- The last call that was active when it was made, which depends on the calls before it. -/
def lastWhen (active : List A → A → Bool) (l : List A) : Option A := go l.reverse
where
  go : List A → Option A
  | [] => none
  | a :: before => if active before.reverse a then some a else go before

@[simp] theorem lastWhen_nil {active : List A → A → Bool} : lastWhen active [] = none := rfl

theorem lastWhen_concat {active : List A → A → Bool} (l : List A) (a : A) :
    lastWhen active (l ++ [a]) = if active l a then some a else lastWhen active l := by
  simp [lastWhen, lastWhen.go]

/-! ## Replacing -/

/-- The calls of the group determine the field, and the others leave it alone. -/
structure Replaces (apply : D → A → D) (group : A → Bool) (view : D → V) : Prop where
  frame : ∀ d a, group a = false → view (apply d a) = view d
  replace : ∀ d d' a, group a = true → view (apply d a) = view (apply d' a)

/-- The field is what the last call of the group alone makes it. -/
theorem Replaces.foldl {view : D → V} (h : Replaces apply group view) (d : D) (l : List A) :
    view (l.foldl apply d) = view ((lastOf group l).toList.foldl apply d) := by
  induction l using List.reverseRecOn with
  | nil => rfl
  | append_singleton l a ih =>
    rw [List.foldl_append, List.foldl_cons, List.foldl_nil, lastOf_concat]
    cases ha : group a with
    | false =>
      rw [h.frame _ _ ha, ih]
      simp
    | true => exact h.replace _ _ _ ha

/-- A field that each call of the group sets has the value of the last of them. -/
theorem foldl_eq_lastOf (view : D → V) {val : A → V}
    (h : ∀ d a, view (apply d a) = if group a then val a else view d) (d : D) (l : List A) :
    view (l.foldl apply d) = ((lastOf group l).map val).getD (view d) := by
  induction l using List.reverseRecOn with
  | nil => rfl
  | append_singleton l a ih =>
    rw [List.foldl_append, List.foldl_cons, List.foldl_nil, lastOf_concat, h, ih]
    split <;> rfl

/-- The calls that are active when they are made determine the field, and the others leave it
alone. -/
structure ReplacesWhen (apply : D → A → D) (d₀ : D) (active : List A → A → Bool) (view : D → V)
    (val : A → V) : Prop where
  frame : ∀ l a, active l a = false → view (apply (l.foldl apply d₀) a) = view (l.foldl apply d₀)
  replace : ∀ l a, active l a = true → view (apply (l.foldl apply d₀) a) = val a

/-- The field is what the last active call makes it. -/
theorem ReplacesWhen.foldl {d₀ : D} {active : List A → A → Bool} {view : D → V} {val : A → V}
    (h : ReplacesWhen apply d₀ active view val) (l : List A) :
    view (l.foldl apply d₀) = ((lastWhen active l).map val).getD (view d₀) := by
  induction l using List.reverseRecOn with
  | nil => rfl
  | append_singleton l a ih =>
    rw [List.foldl_append, List.foldl_cons, List.foldl_nil, lastWhen_concat]
    cases ha : active l a with
    | false =>
      rw [h.frame _ _ ha, ih]
      simp
    | true =>
      rw [h.replace _ _ ha]
      simp

/-! ## Adding -/

/-- The calls since the field was last emptied. -/
def since (empties : A → Bool) (l : List A) : List A := l.rtakeWhile fun a => !empties a

@[simp] theorem since_nil : since empties [] = [] := rfl

theorem since_concat (l : List A) (a : A) :
    since empties (l ++ [a]) = if empties a then [] else since empties l ++ [a] := by
  unfold since
  rw [List.rtakeWhile_concat]
  cases empties a <;> simp

/-- Nothing empties the field. -/
theorem since_eq_self {l : List A} (h : ∀ a ∈ l, empties a = false) : since empties l = l :=
  List.rtakeWhile_eq_self_iff.mpr fun a ha => by simp [h a ha]

/-- The last call of a group, if it does not empty the field, is one of the calls since then,
provided that the emptying calls belong to the group. -/
theorem lastOf_mem_since (hg : ∀ a, empties a = true → group a = true) {l : List A} {a : A}
    (h : lastOf group l = some a) (ha : empties a = false) : a ∈ since empties l := by
  induction l using List.reverseRecOn with
  | nil => simp at h
  | append_singleton l b ih =>
    rw [lastOf_concat] at h
    rw [since_concat]
    cases hb : empties b with
    | true =>
      rw [if_pos (hg b hb)] at h
      obtain rfl : b = a := by simpa using h
      rw [hb] at ha
      cases ha
    | false =>
      rw [if_neg (by simp)]
      cases hgb : group b with
      | true =>
        obtain rfl : b = a := by simpa [hgb] using h
        simp
      | false =>
        have := ih (by simpa [hgb] using h)
        simp [this]

/-- Since a call of the group emptied the field as the last of the group, no call was of the
group. -/
theorem group_of_mem_since {l : List A} {a b : A} (h : lastOf group l = some a)
    (ha : empties a = true) (hb : b ∈ since empties l) : group b = false := by
  induction l using List.reverseRecOn with
  | nil => simp at h
  | append_singleton l c ih =>
    rw [lastOf_concat] at h
    rw [since_concat] at hb
    cases hc : group c with
    | true =>
      obtain rfl : c = a := by simpa [hc] using h
      simp [ha] at hb
    | false =>
      rw [hc, if_neg (by simp)] at h
      split at hb
      · simp at hb
      · rcases List.mem_append.mp hb with hb | hb
        · exact ih h hb
        · obtain rfl : b = c := by simpa using hb
          exact hc

section Collects

variable {α : Type*} [SemilatticeSup α] [OrderBot α]

/-- Some calls empty the field, and every other call adds to it. -/
structure Collects (apply : D → A → D) (empties : A → Bool) (adds : A → α) (view : D → α) :
    Prop where
  empty : ∀ d a, empties a = true → view (apply d a) = ⊥
  add : ∀ d a, empties a = false → view (apply d a) = view d ⊔ adds a

variable {adds : A → α} {view : D → α}

/-- The field is the least upper bound of what was added since it was emptied. -/
theorem Collects.foldl_le_iff (h : Collects apply empties adds view) {d : D} (hd : view d = ⊥)
    (l : List A) (x : α) :
    view (l.foldl apply d) ≤ x ↔ ∀ a ∈ since empties l, adds a ≤ x := by
  induction l using List.reverseRecOn with
  | nil => simp [hd]
  | append_singleton l a ih =>
    rw [List.foldl_append, List.foldl_cons, List.foldl_nil, since_concat]
    cases ha : empties a with
    | true => simp [h.empty _ _ ha]
    | false =>
      rw [h.add _ _ ha, sup_le_iff, ih, if_neg (by simp)]
      simp only [List.mem_append, List.mem_singleton]
      constructor
      · rintro ⟨hl, hx⟩ b (hb | rfl)
        · exact hl b hb
        · exact hx
      · intro hl
        exact ⟨fun b hb => hl b (.inl hb), hl a (.inr rfl)⟩

/-- The field is what one of these calls adds, if and only if that call covers the others. -/
theorem Collects.foldl_eq_iff (h : Collects apply empties adds view) {d : D} (hd : view d = ⊥)
    {l : List A} {a : A} (ha : a ∈ since empties l) :
    view (l.foldl apply d) = adds a ↔ ∀ b ∈ since empties l, adds b ≤ adds a := by
  rw [← h.foldl_le_iff hd]
  constructor
  · intro heq
    rw [heq]
  · intro hle
    exact le_antisymm hle ((h.foldl_le_iff hd l _).mp le_rfl a ha)

theorem Collects.foldl_eq_bot (h : Collects apply empties adds view) {d : D} (hd : view d = ⊥)
    {l : List A} (hl : ∀ a ∈ since empties l, adds a = ⊥) : view (l.foldl apply d) = ⊥ := by
  rw [← le_bot_iff, h.foldl_le_iff hd]
  exact fun a ha => (hl a ha).le

/-- The last call of a group decides alone, if and only if it covers what the calls before it added
since the field was emptied. The calls outside the group neither empty the field nor add to it. -/
theorem Collects.foldl_lastOf_iff (h : Collects apply empties adds view) {d : D} (hd : view d = ⊥)
    (hempties : ∀ a, empties a = true → group a = true)
    (hadds : ∀ a, group a = false → adds a = ⊥) (l : List A) :
    view (l.foldl apply d) = view ((lastOf group l).toList.foldl apply d) ↔
      ∀ b, lastOf group l = some b → ∀ a ∈ since empties l, adds a ≤ adds b := by
  cases hl : lastOf group l with
  | none =>
    have hbot : view (l.foldl apply d) = ⊥ := by
      refine h.foldl_eq_bot hd fun a ha => hadds a ?_
      have hmem : a ∈ l := (List.rtakeWhile_suffix _ l).subset ha
      have hnil : l.filter group = [] := List.getLast?_eq_none_iff.mp hl
      simpa using List.filter_eq_nil_iff.mp hnil a hmem
    simp [hbot, hd]
  | some b =>
    simp only [Option.toList_some, List.foldl_cons, List.foldl_nil, Option.some.injEq,
      forall_eq']
    cases hb : empties b with
    | true =>
      have hbot : ∀ a ∈ since empties l, adds a = ⊥ := fun a ha =>
        hadds a (group_of_mem_since hl hb ha)
      rw [h.foldl_eq_bot hd hbot, h.empty d b hb, eq_self, true_iff]
      intro a ha
      rw [hbot a ha]
      exact bot_le
    | false =>
      rw [h.add d b hb, hd, bot_sup_eq _]
      exact h.foldl_eq_iff hd (lastOf_mem_since hempties hl hb)

end Collects

end Calls
