import Qbman.Desc
import Qbman.Lib.Calls
import Qbman.Lib.Words

/-!
# The flags of a pull descriptor

`RAD` and `WAE` of the verb say how results are delivered to a storage array, and mean something
only with `RLS`. `qbman_pull_desc_set_rad` looks at `RLS` before it sets `RAD`. A
`qbman_pull_desc_set_storage` with `NULL` clears `RLS` only: `WAE` and `RAD` stay as the calls
before it left them (`build_flags_iff`).
-/

namespace Qbman

open Calls

namespace QbmanPullDesc

def wae (d : QbmanPullDesc) : Bool := d.verb.getLsbD qbVdqcrVerbWaeShift

def rad (d : QbmanPullDesc) : Bool := d.verb.getLsbD qbVdqcrVerbRadShift

end QbmanPullDesc

namespace PullDescSet

def isStorage : PullDescSet → Bool
  | storage _ _ _ => true
  | _ => false

/-- A call of `qbman_pull_desc_set_storage` that is not with `NULL`. -/
def stores : PullDescSet → Bool
  | storage v _ _ => v ≠ 0
  | _ => false

/-- The last `qbman_pull_desc_set_storage` call was not with `NULL`. -/
def stored (sets : List PullDescSet) : Bool :=
  match lastOf isStorage sets with
  | some s => s.stores
  | none => false

/-- A `qbman_pull_desc_set_rad` call on a descriptor that has a storage. -/
def radActive (sets : List PullDescSet) : PullDescSet → Bool
  | rad _ => stored sets
  | _ => false

/-- What a call says about stashing and rescheduling. -/
def stash : PullDescSet → Bool
  | storage _ _ st => st ≠ 0
  | _ => false

def reschedules : PullDescSet → Bool
  | rad r => r ≠ 0
  | _ => false

/-- The dequeue fields lie below the flags. -/
theorem getLsbD_or_low (x : U8) {c : U8} (hc : c.toNat < 16) {i : Nat} (h4 : 4 ≤ i) :
    (x ||| c).getLsbD i = x.getLsbD i := by
  have hpow : 2 ^ 4 ≤ 2 ^ i := Nat.pow_le_pow_right (by decide) h4
  have hlow : c.getLsbD i = false := Nat.testBit_lt_two_pow (Nat.lt_of_lt_of_le hc hpow)
  rw [BitVec.getLsbD_or, hlow, Bool.or_false]

/-- A flag of the verb after a call. -/
theorem apply_flag (d : QbmanPullDesc) (s : PullDescSet) {i : Nat} (h4 : 4 ≤ i) (h8 : i < 8) :
    (s.apply d).verb.getLsbD i =
      match s with
      | storage v _ st =>
        if v = 0 then decide (qbVdqcrVerbRlsShift ≠ i) && d.verb.getLsbD i
        else if qbVdqcrVerbWaeShift = i then decide (st ≠ 0)
        else decide (qbVdqcrVerbRlsShift = i) || d.verb.getLsbD i
      | rad r =>
        if d.toStorage && decide (qbVdqcrVerbRadShift = i) then decide (r ≠ 0)
        else d.verb.getLsbD i
      | _ => d.verb.getLsbD i := by
  cases s with
  | storage v p st =>
    by_cases hv : v = 0
    · simp only [apply, qbmanPullDescSetStorage, if_pos hv, Words.getLsbD_clear_flag _ _ h8]
      grind
    · by_cases hst : st = 0
      · simp only [apply, qbmanPullDescSetStorage, if_neg hv, hst, ne_eq, not_true_eq_false,
          if_false, Words.getLsbD_clear_flag _ _ h8, Words.getLsbD_set_flag _ _ h8]
        grind
      · simp only [apply, qbmanPullDescSetStorage, if_neg hv, hst, ne_eq, not_false_eq_true,
          if_true, Words.getLsbD_set_flag _ _ h8]
        grind
  | numframes n => rfl
  | token t => rfl
  | fq f =>
    simp only [apply, qbmanPullDescSetFq]
    rw [getLsbD_or_low _ (by decide) h4, getLsbD_or_low _ (by decide) h4]
  | wq w t =>
    simp only [apply, qbmanPullDescSetWq]
    rw [getLsbD_or_low _ (by decide) h4, getLsbD_or_low _ (by cases t <;> decide) h4]
  | channel c t =>
    simp only [apply, qbmanPullDescSetChannel]
    rw [getLsbD_or_low _ (by decide) h4, getLsbD_or_low _ (by cases t <;> decide) h4]
  | rad r =>
    have htest : d.verb &&& (1 : U8) <<< qbVdqcrVerbRlsShift ≠ 0 ↔ d.toStorage = true :=
      Words.and_one_shl_ne_zero_iff d.verb (by decide)
    simp only [apply, qbmanPullDescSetRad, htest]
    by_cases hsto : d.toStorage = true
    · by_cases hr : r = 0
      · simp only [hsto, hr, ne_eq, not_true_eq_false, if_false, if_true,
          Words.getLsbD_clear_flag _ _ h8]
        grind
      · simp only [hsto, hr, ne_eq, not_false_eq_true, if_true, Words.getLsbD_set_flag _ _ h8]
        grind
    · simp [hsto]

/-! ## Which call decides a field -/

theorem apply_toStorage (d : QbmanPullDesc) (s : PullDescSet) :
    (s.apply d).toStorage = if s.isStorage then s.stores else d.toStorage := by
  have hflag : (s.apply d).toStorage = _ := apply_flag d s (i := 4) (by decide) (by decide)
  have hd : d.verb[4] = d.toStorage := rfl
  rw [hflag]
  cases s <;> simp [isStorage, stores, qbVdqcrVerbRlsShift, qbVdqcrVerbWaeShift,
    qbVdqcrVerbRadShift, hd]

theorem apply_wae (d : QbmanPullDesc) (s : PullDescSet) :
    (s.apply d).wae = if s.stores then s.stash else d.wae := by
  have hflag : (s.apply d).wae = _ := apply_flag d s (i := 5) (by decide) (by decide)
  have hd : d.verb[5] = d.wae := rfl
  rw [hflag]
  cases s <;> simp [stash, stores, qbVdqcrVerbRlsShift, qbVdqcrVerbWaeShift,
    qbVdqcrVerbRadShift, hd]

theorem apply_rad (d : QbmanPullDesc) (s : PullDescSet) :
    (s.apply d).rad =
      match s with
      | rad r => if d.toStorage then decide (r ≠ 0) else d.rad
      | _ => d.rad := by
  have hflag : (s.apply d).rad = _ := apply_flag d s (i := 6) (by decide) (by decide)
  have hd : d.verb[6] = d.rad := rfl
  rw [hflag]
  cases s <;> simp [qbVdqcrVerbRlsShift, qbVdqcrVerbWaeShift, qbVdqcrVerbRadShift, hd]

/-- The addresses after a call. -/
theorem apply_rspAddrs (d : QbmanPullDesc) (s : PullDescSet) :
    (s.apply d).rspAddrVirt = (match s with | storage v _ _ => v | _ => d.rspAddrVirt) ∧
      (s.apply d).rspAddr =
        match s with
        | storage v p _ => if v = 0 then d.rspAddr else p
        | _ => d.rspAddr := by
  cases s with
  | storage v p st =>
    simp only [apply, qbmanPullDescSetStorage]
    grind
  | rad r =>
    simp only [apply, qbmanPullDescSetRad]
    grind
  | _ => exact ⟨rfl, rfl⟩

theorem build_toStorage (sets : List PullDescSet) : (build sets).toStorage = stored sets := by
  rw [build, foldl_eq_lastOf QbmanPullDesc.toStorage apply_toStorage, stored]
  cases lastOf isStorage sets <;> rfl

theorem rad_replacesWhen :
    ReplacesWhen (fun d s => apply d s) qbmanPullDescClear radActive QbmanPullDesc.rad
      reschedules where
  frame l s h := by
    have hsto := build_toStorage l
    rw [build] at hsto
    rw [apply_rad]
    cases s <;> simp_all [radActive]
  replace l s h := by
    have hsto := build_toStorage l
    rw [build] at hsto
    rw [apply_rad]
    cases s <;> simp_all [radActive, reschedules]

/-- A field that the last `qbman_pull_desc_set_storage` call sets, if it is not with `NULL`. -/
theorem build_of_last_stores {sets : List PullDescSet} {v p : U64} {st : Int}
    (h : lastOf isStorage sets = some (storage v p st)) (hv : v ≠ 0) :
    (build sets).rspAddrVirt = v ∧ (build sets).rspAddr = p ∧
      (build sets).wae = decide (st ≠ 0) := by
  induction sets using List.reverseRecOn with
  | nil => cases h
  | append_singleton sets s ih =>
    rw [lastOf_concat] at h
    have hbuild : build (sets ++ [s]) = s.apply (build sets) := by simp [build]
    rw [hbuild, (apply_rspAddrs _ s).1, (apply_rspAddrs _ s).2, apply_wae]
    cases s with
    | storage v' p' st' =>
      obtain ⟨rfl, rfl, rfl⟩ : v' = v ∧ p' = p ∧ st' = st := by simpa [isStorage] using h
      have hstores : (storage v' p' st').stores = true := decide_eq_true hv
      exact ⟨rfl, if_neg hv, if_pos hstores⟩
    | _ => exact ih h

theorem build_wae (sets : List PullDescSet) :
    (build sets).wae = ((lastOf stores sets).map stash).getD false :=
  foldl_eq_lastOf QbmanPullDesc.wae apply_wae qbmanPullDescClear sets

theorem build_rad (sets : List PullDescSet) :
    (build sets).rad = ((lastWhen radActive sets).map reschedules).getD false :=
  rad_replacesWhen.foldl sets

/-! ## Consistency -/

/-- `RAD` and `WAE` are set with `RLS` only; `RLS` is set if the last `qbman_pull_desc_set_storage`
call had a storage, and then the addresses and `WAE` are those of that call. -/
structure FlagsConsistent (sets : List PullDescSet) : Prop where
  rad : (build sets).rad = true → (build sets).toStorage = true
  wae : (build sets).wae = true → (build sets).toStorage = true
  rls : (build sets).toStorage = true ↔
    ∃ v p st, lastOf isStorage sets = some (storage v p st) ∧ v ≠ 0
  last : ∀ v p st, lastOf isStorage sets = some (storage v p st) → v ≠ 0 →
    (build sets).rspAddrVirt = v ∧ (build sets).rspAddr = p ∧ (build sets).wae = decide (st ≠ 0)

/-- Where no storage is left, the last storage before was not to be stashed, and the last
`qbman_pull_desc_set_rad` that found a storage did not ask to reschedule. -/
def FlagsWithdrawn (sets : List PullDescSet) : Prop :=
  stored sets = false →
    (∀ s, lastOf stores sets = some s → s.stash = false) ∧
      ∀ s, lastWhen radActive sets = some s → s.reschedules = false

theorem stored_iff (sets : List PullDescSet) : stored sets = true ↔
    ∃ v p st, lastOf isStorage sets = some (storage v p st) ∧ v ≠ 0 := by
  unfold stored
  cases h : lastOf isStorage sets with
  | none => simp
  | some s =>
    have hs : s.isStorage = true := (lastOf_mem h).2
    cases s <;> simp_all [isStorage, stores]

theorem getD_map_eq_false_iff {α : Type*} (o : Option α) (f : α → Bool) :
    (o.map f).getD false = false ↔ ∀ a, o = some a → f a = false := by
  cases o <;> simp

/-- A clearing of the storage clears the other flags only if they were not set. -/
theorem build_flags_iff (sets : List PullDescSet) : FlagsConsistent sets ↔ FlagsWithdrawn sets := by
  rw [FlagsWithdrawn, ← getD_map_eq_false_iff, ← getD_map_eq_false_iff, ← build_wae, ← build_rad,
    ← build_toStorage]
  constructor
  · intro h hsto
    have hwae := mt h.wae
    have hrad := mt h.rad
    simp_all
  · intro h
    refine ⟨fun hrad => ?_, fun hwae => ?_, ?_, fun v p st => build_of_last_stores⟩
    · by_contra hsto
      simp_all
    · by_contra hsto
      simp_all
    · rw [build_toStorage]
      exact stored_iff sets

/-- A stashed storage that is taken back leaves `WAE` without `RLS`. -/
theorem build_flags_not_consistent :
    ¬ FlagsConsistent [storage 0x1000 0x2000 1, storage 0 0 0] :=
  fun h => absurd (h.wae (by decide)) (by decide)

end PullDescSet

end Qbman
