import Qbman.Lib.Bytes

/-!
# Bit fields

A word of a record holds `Field`s, each at its own bits. `pack` puts their values into a word and
keeps the other bits; fields that do not overlap are read back (`holds_pack`) by a mask and a shift
(`Holds.and_mask_shift`). `packMembers` does so in every `Member` of a record in memory
(`holds_packMembers`).
-/

namespace BitField

variable {w : Nat}

/-- A value for the `width` bits from `lo` on. -/
structure Field where
  lo : Nat
  width : Nat
  val : BitVec width

/-- The field has bit `i`. -/
def Field.Covers (f : Field) (i : Nat) : Prop := f.lo ≤ i ∧ i < f.lo + f.width

instance (f : Field) (i : Nat) : Decidable (f.Covers i) :=
  inferInstanceAs (Decidable (f.lo ≤ i ∧ i < f.lo + f.width))

/-- The two fields have no bit in common. -/
def Field.Apart (f g : Field) : Prop := f.lo + f.width ≤ g.lo ∨ g.lo + g.width ≤ f.lo

/-- `width` set bits from `lo` on. -/
def mask (w lo width : Nat) : BitVec w := (BitVec.allOnes width).setWidth w <<< lo

/-- The word with a field replaced. -/
def put (x : BitVec w) (f : Field) : BitVec w :=
  x &&& ~~~mask w f.lo f.width ||| f.val.setWidth w <<< f.lo

/-- The word with fields replaced. -/
def pack (fs : List Field) (x : BitVec w) : BitVec w := fs.foldl put x

@[simp] theorem pack_cons (f : Field) (fs : List Field) (x : BitVec w) :
    pack (f :: fs) x = pack fs (put x f) := rfl

theorem getLsbD_mask {lo width i : Nat} (hi : i < w) :
    (mask w lo width).getLsbD i = decide (lo ≤ i ∧ i < lo + width) := by
  rw [mask, BitVec.getLsbD_shiftLeft, BitVec.getLsbD_setWidth, BitVec.getLsbD_allOnes]
  grind

theorem getLsbD_put (x : BitVec w) (f : Field) {i : Nat} (hi : i < w) :
    (put x f).getLsbD i = if f.Covers i then f.val.getLsbD (i - f.lo) else x.getLsbD i := by
  rw [put, BitVec.getLsbD_or, BitVec.getLsbD_and, BitVec.getLsbD_not, getLsbD_mask hi,
    BitVec.getLsbD_shiftLeft, BitVec.getLsbD_setWidth]
  by_cases h : f.Covers i
  · have hrange : f.lo ≤ i ∧ i < f.lo + f.width := h
    have hlow : ¬ i < f.lo := by omega
    have hlt : i - f.lo < w := by omega
    rw [if_pos h]
    simp [hrange, hi, hlow, hlt]
  · have hrange : ¬ (f.lo ≤ i ∧ i < f.lo + f.width) := h
    rw [if_neg h, decide_eq_false hrange]
    by_cases hlow : i < f.lo
    · simp [hi, hlow]
    · rw [BitVec.getLsbD_of_ge f.val _ (by omega)]
      simp [hi]

/-- A bit that no field has is as it was. -/
theorem getLsbD_pack_of_uncovered {fs : List Field} {x : BitVec w} {i : Nat} (hi : i < w)
    (h : ∀ f ∈ fs, ¬ f.Covers i) : (pack fs x).getLsbD i = x.getLsbD i := by
  induction fs generalizing x with
  | nil => rfl
  | cons f fs ih =>
    obtain ⟨hf, hfs⟩ := List.forall_mem_cons.mp h
    rw [pack_cons, ih hfs, getLsbD_put _ _ hi, if_neg hf]

theorem getLsbD_pack {fs : List Field} {x : BitVec w} {f : Field} {i : Nat} (hi : i < w)
    (h : fs.Pairwise Field.Apart) (hf : f ∈ fs) (hcov : f.Covers i) :
    (pack fs x).getLsbD i = f.val.getLsbD (i - f.lo) := by
  induction fs generalizing x with
  | nil => cases hf
  | cons g fs ih =>
    obtain ⟨hg, hfs⟩ := List.pairwise_cons.mp h
    rcases List.mem_cons.mp hf with rfl | hf
    · have hlater : ∀ g ∈ fs, ¬ g.Covers i := by
        intro g hmem hcov'
        have := hg g hmem
        unfold Field.Apart at this
        unfold Field.Covers at hcov hcov'
        omega
      rw [pack_cons, getLsbD_pack_of_uncovered hi hlater, getLsbD_put _ _ hi, if_pos hcov]
    · exact ih hfs hf

/-- The word has the values of the fields. -/
def Holds (fs : List Field) (x : BitVec w) : Prop :=
  ∀ f ∈ fs, f.lo + f.width ≤ w ∧ x.extractLsb' f.lo f.width = f.val

/-- Fields that do not overlap are read back. -/
theorem holds_pack {fs : List Field} (x : BitVec w) (h : fs.Pairwise Field.Apart)
    (hw : ∀ f ∈ fs, f.lo + f.width ≤ w) : Holds fs (pack fs x) := by
  intro f hf
  refine ⟨hw f hf, BitVec.eq_of_getLsbD_eq fun i hi => ?_⟩
  have hle := hw f hf
  have hcov : f.Covers (f.lo + i) := ⟨by omega, by omega⟩
  rw [BitVec.getLsbD_extractLsb', decide_eq_true hi, Bool.true_and,
    getLsbD_pack (by omega) h hf hcov, Nat.add_sub_cancel_left]

/-- Reading a field by a mask and a shift. -/
theorem and_mask_shift (x : BitVec w) (lo width : Nat) :
    (x &&& mask w lo width) >>> lo = (x.extractLsb' lo width).setWidth w := by
  refine BitVec.eq_of_getLsbD_eq fun i hi => ?_
  rw [BitVec.getLsbD_ushiftRight, BitVec.getLsbD_and, BitVec.getLsbD_setWidth,
    BitVec.getLsbD_extractLsb', decide_eq_true hi, Bool.true_and]
  by_cases hw : lo + i < w
  · rw [getLsbD_mask hw]
    grind
  · rw [BitVec.getLsbD_of_ge x _ (by omega)]
    simp

namespace Holds

variable {fs : List Field} {x : BitVec w} {f : Field}

theorem and_mask_shift (h : Holds fs x) (hf : f ∈ fs) :
    (x &&& mask w f.lo f.width) >>> f.lo = f.val.setWidth w := by
  rw [BitField.and_mask_shift, (h f hf).2]

theorem toNat_and_mask_shift (h : Holds fs x) (hf : f ∈ fs) :
    ((x &&& mask w f.lo f.width) >>> f.lo).toNat = f.val.toNat := by
  have hle : f.width ≤ w := by
    have := (h f hf).1
    omega
  have hlt : f.val.toNat < 2 ^ w :=
    Nat.lt_of_lt_of_le f.val.isLt (Nat.pow_le_pow_right (by decide) hle)
  rw [h.and_mask_shift hf, BitVec.toNat_setWidth, Nat.mod_eq_of_lt hlt]

/-- A field that is the whole word. -/
theorem eq_of_whole {v : BitVec w} (h : Holds fs x) (hf : ⟨0, w, v⟩ ∈ fs) : x = v := by
  have hval := (h _ hf).2
  exact BitVec.extractLsb'_eq_self.symm.trans hval

end Holds

/-! ## Records -/

/-- `len` bytes of a record from `off` on, and the fields in them. -/
structure Member where
  off : Nat
  len : Nat
  fields : List Field

/-- A member that is one value. -/
def Member.whole (off len : Nat) (v : BitVec (8 * len)) : Member := ⟨off, len, [⟨0, 8 * len, v⟩]⟩

/-- The bytes of a member in memory, with its fields replaced. -/
def Member.store (p : Member) (base : Nat) (m : Bytes.Mem) : Bytes.Field :=
  ⟨p.off, p.len, pack p.fields (Bytes.load (8 * p.len) m (base + p.off) p.len)⟩

/-- The memory with the fields of a record at `base` replaced. -/
def packMembers (base : Nat) (ps : List Member) (m : Bytes.Mem) : Bytes.Mem :=
  Bytes.storeFields base (ps.map fun p => p.store base m) m

/-- No member overlaps another one, no field overlaps another one of its member, and all lie within
the record. -/
structure Laid (size : Nat) (ps : List Member) : Prop where
  apart : ps.Pairwise fun p q => p.off + p.len ≤ q.off ∨ q.off + q.len ≤ p.off
  within : ∀ p ∈ ps, p.off + p.len ≤ size
  fields : ∀ p ∈ ps, p.fields.Pairwise Field.Apart
  fieldsWithin : ∀ p ∈ ps, ∀ f ∈ p.fields, f.lo + f.width ≤ 8 * p.len

variable {size base : Nat} {ps : List Member} {p : Member}

theorem load_packMembers (h : Laid size ps) (hp : p ∈ ps) (m : Bytes.Mem) :
    Bytes.load (8 * p.len) (packMembers base ps m) (base + p.off) p.len =
      pack p.fields (Bytes.load (8 * p.len) m (base + p.off) p.len) := by
  obtain ⟨pre, post, rfl⟩ := List.append_of_mem hp
  have hpost := (List.pairwise_cons.mp (List.pairwise_append.mp h.apart).2.1).1
  rw [packMembers, List.map_append, List.map_cons]
  refine (Bytes.load_field (p.store base m) _ _ fun g hg => ?_).trans (BitVec.setWidth_eq _)
  obtain ⟨q, hq, rfl⟩ := List.mem_map.mp hg
  exact (hpost q hq).symm

/-- The fields of a record are read back from its members, whatever was in memory. -/
theorem holds_packMembers (h : Laid size ps) (hp : p ∈ ps) (m : Bytes.Mem) :
    Holds p.fields (Bytes.load (8 * p.len) (packMembers base ps m) (base + p.off) p.len) := by
  rw [load_packMembers h hp]
  exact holds_pack _ (h.fields p hp) (h.fieldsWithin p hp)

end BitField
