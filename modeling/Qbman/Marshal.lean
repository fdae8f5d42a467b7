import Qbman.Lib.Copy
import Qbman.Sys

/-!
# 64-bit lists in words

A 64-bit value is two words in host memory, the most significant one first on a big-endian host, and
two words with the least significant one first in a command or a response. Both loops copy each word
from the place that the other order gives it (`hostPos`), which is its own inverse, so each loop
undoes the other (`u64Le32_marshals`).
-/

namespace Qbman

/-! ## The order of the words -/

/-- Where host memory has the word that is `i`-th when the least significant words come first. -/
def hostPos (bigEndian : Bool) (i : Nat) : Nat :=
  if bigEndian then if i % 2 = 0 then i + 1 else i - 1 else i

theorem hostPos_lt {bigEndian : Bool} {i n : Nat} (h : i < 2 * n) :
    hostPos bigEndian i < 2 * n := by
  unfold hostPos
  grind

theorem hostPos_hostPos (bigEndian : Bool) (i : Nat) :
    hostPos bigEndian (hostPos bigEndian i) = i := by
  unfold hostPos
  grind

theorem hostPos_add_two (bigEndian : Bool) (i : Nat) :
    hostPos bigEndian (i + 2) = hostPos bigEndian i + 2 := by
  unfold hostPos
  grind

/-- The words of host memory are the same words on either host, at their places. -/
theorem hostWords_hostPos (bigEndian : Bool) (s : Nat → U64) (i : Nat) :
    hostWords bigEndian s (hostPos bigEndian i) = hostWords false s i := by
  cases bigEndian with
  | false => rfl
  | true =>
    rcases Nat.mod_two_eq_zero_or_one i with hi | hi
    · have hmod : (i + 1) % 2 ≠ 0 := by omega
      have hdiv : (i + 1) / 2 = i / 2 := by omega
      simp [hostPos, hostWords, hi, hmod, hdiv]
    · have hmod : (i - 1) % 2 = 0 := by omega
      have hdiv : (i - 1) / 2 = i / 2 := by omega
      simp [hostPos, hostWords, hi, hmod, hdiv]

theorem hostWords_low (s : Nat → U64) (i : Nat) :
    hostWords false s (2 * i) = (s i).setWidth 32 := by
  simp [hostWords]

theorem hostWords_high (s : Nat → U64) (i : Nat) :
    hostWords false s (2 * i + 1) = (s i >>> 32).setWidth 32 := by
  have hdiv : (2 * i + 1) / 2 = i := by omega
  simp [hostWords, hdiv]

/-- The value of the `i`-th pair of words of host memory. -/
def hostValue (bigEndian : Bool) (w : Nat → U32) (i : Nat) : U64 :=
  if bigEndian then w (2 * i) ++ w (2 * i + 1) else w (2 * i + 1) ++ w (2 * i)

theorem hostValue_eq (bigEndian : Bool) (w : Nat → U32) (i : Nat) :
    hostValue bigEndian w i =
      w (hostPos bigEndian (2 * i + 1)) ++ w (hostPos bigEndian (2 * i)) := by
  cases bigEndian with
  | false => rfl
  | true => simp [hostValue, hostPos]

theorem high_append_low (x : U64) :
    (x >>> 32).setWidth 32 ++ x.setWidth 32 = x := by
  refine BitVec.eq_of_getLsbD_eq fun j hj => ?_
  rw [BitVec.getLsbD_append]
  split
  · rename_i h
    simp [h]
  · rename_i h
    have hlt : j - 32 < 32 := by omega
    have hadd : 32 + (j - 32) = j := by omega
    simp [hlt, hadd]

theorem hostValue_hostWords (bigEndian : Bool) (s : Nat → U64) (i : Nat) :
    hostValue bigEndian (hostWords bigEndian s) i = s i := by
  rw [hostValue_eq, hostWords_hostPos, hostWords_hostPos, hostWords_high, hostWords_low,
    high_append_low]

/-! ## The loops -/

/-- The assignments of `u64_to_le32_copy(d, s, cnt)`, with `dd` and `ss` the positions of its two
word pointers. -/
def u64ToLe32CopyMoves (bigEndian : Bool) : Nat → Nat → Nat → List Copy.Move
  | 0, _, _ => []
  | cnt + 1, dd, ss =>
    (if bigEndian then [⟨dd, ss + 1⟩, ⟨dd + 1, ss⟩] else [⟨dd, ss⟩, ⟨dd + 1, ss + 1⟩]) ++
      u64ToLe32CopyMoves bigEndian cnt (dd + 2) (ss + 2)

/-- The assignments of `u64_from_le32_copy(d, s, cnt)`, with `dd` and `ss` the positions of its two
word pointers. -/
def u64FromLe32Copy (bigEndian : Bool) : Nat → Nat → Nat → List Copy.Move
  | 0, _, _ => []
  | cnt + 1, dd, ss =>
    (if bigEndian then [⟨dd + 1, ss⟩, ⟨dd, ss + 1⟩] else [⟨dd, ss⟩, ⟨dd + 1, ss + 1⟩]) ++
      u64FromLe32Copy bigEndian cnt (dd + 2) (ss + 2)

theorem map_range_two_mul_succ {β : Type*} (f : Nat → β) (n : Nat) :
    (List.range (2 * (n + 1))).map f = f 0 :: f 1 :: (List.range (2 * n)).map fun i =>
      f (i + 2) := by
  rw [Nat.mul_succ, List.range_succ_eq_map, List.range_succ_eq_map]
  simp

/-- The destination pointer steps through consecutive words. -/
theorem u64ToLe32CopyMoves_eq (bigEndian : Bool) (cnt dd ss : Nat) :
    u64ToLe32CopyMoves bigEndian cnt dd ss =
      (List.range (2 * cnt)).map fun i => ⟨dd + i, ss + hostPos bigEndian i⟩ := by
  induction cnt generalizing dd ss with
  | zero => rfl
  | succ cnt ih =>
    have hadd : ∀ a b, a + 2 + b = a + (b + 2) := fun a b => by omega
    rw [u64ToLe32CopyMoves, ih, map_range_two_mul_succ]
    simp only [hadd, hostPos_add_two]
    cases bigEndian <;> rfl

theorem u64ToLe32Copy_eq (bigEndian : Bool) (cnt : Nat) (ss : Nat → U32) :
    u64ToLe32Copy bigEndian cnt ss = (List.range (2 * cnt)).map fun i =>
      ss (hostPos bigEndian i) := by
  induction cnt generalizing ss with
  | zero => rfl
  | succ cnt ih =>
    rw [u64ToLe32Copy, ih, map_range_two_mul_succ]
    simp only [hostPos_add_two]
    cases bigEndian <;> rfl

/-- The other loop makes the same assignments, on a big-endian host in another order. -/
theorem mem_u64FromLe32Copy_iff {bigEndian : Bool} {cnt dd ss : Nat} {c : Copy.Move} :
    c ∈ u64FromLe32Copy bigEndian cnt dd ss ↔ c ∈ u64ToLe32CopyMoves bigEndian cnt dd ss := by
  induction cnt generalizing dd ss with
  | zero => rfl
  | succ cnt ih =>
    rw [u64FromLe32Copy, u64ToLe32CopyMoves, List.mem_append, List.mem_append, ih]
    cases bigEndian with
    | false => rfl
    | true => simp [or_comm]

theorem u64ToLe32CopyMoves_copies (bigEndian : Bool) (cnt : Nat) :
    Copy.Copies (u64ToLe32CopyMoves bigEndian cnt 0 0) (2 * cnt) (hostPos bigEndian) := by
  rw [u64ToLe32CopyMoves_eq]
  refine ⟨fun c hc => ?_, fun c hc => ?_, fun i hi => ?_⟩
  · obtain ⟨i, hi, rfl⟩ := List.mem_map.mp hc
    simpa using hi
  · obtain ⟨i, hi, rfl⟩ := List.mem_map.mp hc
    simp
  · exact ⟨_, List.mem_map_of_mem (List.mem_range.mpr hi), Nat.zero_add i⟩

theorem u64FromLe32Copy_copies (bigEndian : Bool) (cnt : Nat) :
    Copy.Copies (u64FromLe32Copy bigEndian cnt 0 0) (2 * cnt) (hostPos bigEndian) :=
  (u64ToLe32CopyMoves_copies bigEndian cnt).congr fun _ => mem_u64FromLe32Copy_iff

/-! ## Marshalling -/

/-- The memory at `d` after `u64_to_le32_copy(d, s, cnt)`, both as words. -/
def u64ToLe32 (bigEndian : Bool) (cnt : Nat) (s d : Nat → U32) : Nat → U32 :=
  Copy.run s d (u64ToLe32CopyMoves bigEndian cnt 0 0)

/-- The memory at `d` after `u64_from_le32_copy(d, s, cnt)`, both as words. -/
def u64FromLe32 (bigEndian : Bool) (cnt : Nat) (s d : Nat → U32) : Nat → U32 :=
  Copy.run s d (u64FromLe32Copy bigEndian cnt 0 0)

theorem u64ToLe32_of_lt {bigEndian : Bool} {cnt i : Nat} (s d : Nat → U32) (hi : i < 2 * cnt) :
    u64ToLe32 bigEndian cnt s d i = s (hostPos bigEndian i) :=
  (u64ToLe32CopyMoves_copies bigEndian cnt).run_of_lt hi

/-- The words that a release stores are those that the loop leaves. -/
theorem u64ToLe32Copy_eq_map (bigEndian : Bool) (cnt : Nat) (s d : Nat → U32) :
    u64ToLe32Copy bigEndian cnt s = (List.range (2 * cnt)).map (u64ToLe32 bigEndian cnt s d) := by
  rw [u64ToLe32Copy_eq]
  refine List.map_congr_left fun i hi => ?_
  rw [u64ToLe32_of_lt s d (List.mem_range.mp hi)]

/-- A loop reads and writes words below `2 * cnt` only, and leaves the others as they were. -/
structure LoopInBounds (cs : List Copy.Move) (cnt : Nat) : Prop where
  dst : ∀ c ∈ cs, c.dst < 2 * cnt
  src : ∀ c ∈ cs, c.src < 2 * cnt
  frame : ∀ (s d : Nat → U32) (i : Nat), 2 * cnt ≤ i → Copy.run s d cs i = d i

theorem LoopInBounds.of_copies {bigEndian : Bool} {cs : List Copy.Move} {cnt : Nat}
    (h : Copy.Copies cs (2 * cnt) (hostPos bigEndian)) : LoopInBounds cs cnt where
  dst := h.dst_lt
  src _ hc := h.src_lt (fun _ hi => hostPos_lt hi) hc
  frame _ _ _ hi := h.run_of_ge hi

/-- What the loops do with `cnt` values. -/
structure Le32Marshals (bigEndian : Bool) (cnt : Nat) : Prop where
  /-- Each word of the image is written once, in order. -/
  stores : (u64ToLe32CopyMoves bigEndian cnt 0 0).map Copy.Move.dst = List.range (2 * cnt)
  /-- `u64ToLe32Copy` lists these words. -/
  list : ∀ s d : Nat → U32,
    u64ToLe32Copy bigEndian cnt s = (List.range (2 * cnt)).map (u64ToLe32 bigEndian cnt s d)
  words : ∀ (vals : Nat → U64) (d : Nat → U32), ∀ i < cnt,
    u64ToLe32 bigEndian cnt (hostWords bigEndian vals) d (2 * i) = (vals i).setWidth 32 ∧
      u64ToLe32 bigEndian cnt (hostWords bigEndian vals) d (2 * i + 1) =
        (vals i >>> 32).setWidth 32
  values : ∀ (vals : Nat → U64) (d d' : Nat → U32), ∀ i < cnt,
    hostValue bigEndian (u64FromLe32 bigEndian cnt
      (u64ToLe32 bigEndian cnt (hostWords bigEndian vals) d) d') i = vals i
  image : ∀ (w d d' : Nat → U32), ∀ i < 2 * cnt,
    u64ToLe32 bigEndian cnt (u64FromLe32 bigEndian cnt w d) d' i = w i
  to_bounds : LoopInBounds (u64ToLe32CopyMoves bigEndian cnt 0 0) cnt
  from_bounds : LoopInBounds (u64FromLe32Copy bigEndian cnt 0 0) cnt

theorem u64FromLe32_u64ToLe32 {bigEndian : Bool} {cnt i : Nat} (s d d' : Nat → U32)
    (hi : i < 2 * cnt) :
    u64FromLe32 bigEndian cnt (u64ToLe32 bigEndian cnt s d) d' i = s i :=
  (u64ToLe32CopyMoves_copies bigEndian cnt).run_run (u64FromLe32Copy_copies bigEndian cnt)
    (fun _ h => hostPos_lt h) (fun i _ => hostPos_hostPos bigEndian i) hi

theorem u64ToLe32_u64FromLe32 {bigEndian : Bool} {cnt i : Nat} (w d d' : Nat → U32)
    (hi : i < 2 * cnt) :
    u64ToLe32 bigEndian cnt (u64FromLe32 bigEndian cnt w d) d' i = w i :=
  (u64FromLe32Copy_copies bigEndian cnt).run_run (u64ToLe32CopyMoves_copies bigEndian cnt)
    (fun _ h => hostPos_lt h) (fun i _ => hostPos_hostPos bigEndian i) hi

/-- On either host the loops write the words of the values with the least significant word first,
undo each other and stay within their count. -/
theorem u64Le32_marshals (bigEndian : Bool) (cnt : Nat) : Le32Marshals bigEndian cnt where
  stores := by
    rw [u64ToLe32CopyMoves_eq, List.map_map]
    simp [Function.comp_def]
  list := u64ToLe32Copy_eq_map bigEndian cnt
  words vals d i hi := by
    rw [u64ToLe32_of_lt _ d (by omega), u64ToLe32_of_lt _ d (by omega), hostWords_hostPos,
      hostWords_hostPos]
    exact ⟨hostWords_low vals i, hostWords_high vals i⟩
  values vals d d' i hi := by
    rw [hostValue_eq, u64FromLe32_u64ToLe32 _ d d' (hostPos_lt (by omega)),
      u64FromLe32_u64ToLe32 _ d d' (hostPos_lt (by omega)), ← hostValue_eq, hostValue_hostWords]
  image w d d' _ hi := u64ToLe32_u64FromLe32 w d d' hi
  to_bounds := .of_copies (u64ToLe32CopyMoves_copies bigEndian cnt)
  from_bounds := .of_copies (u64FromLe32Copy_copies bigEndian cnt)

end Qbman
