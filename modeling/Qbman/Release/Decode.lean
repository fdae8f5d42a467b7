import Qbman.Lib.Calls
import Qbman.Lib.Words
import Qbman.Release.Bounds

/-!
# What a release command says

The first word of a release joins the descriptor, the valid bit of `RAR` and the number of buffers
with `|||`. The setters leave the bits of the other two clear, so the entry decodes to what was
asked for, in both implementations (`qbmanSwpRelease_decodes`).
-/

namespace Qbman

open Calls

/-! ## The descriptor -/

inductive ReleaseDescSet where
  | bpid (bpid : U16)
  | rcdi (enable : Int)
  deriving DecidableEq, Repr

namespace ReleaseDescSet

def apply (d : QbmanReleaseDesc) : ReleaseDescSet → QbmanReleaseDesc
  | bpid v => qbmanReleaseDescSetBpid d v
  | rcdi e => qbmanReleaseDescSetRcdi d e

/-- The descriptor that a history of setter calls builds from the cleared one. -/
def build (sets : List ReleaseDescSet) : QbmanReleaseDesc := sets.foldl apply qbmanReleaseDescClear

def isBpid : ReleaseDescSet → Bool
  | bpid _ => true
  | rcdi _ => false

def isRcdi : ReleaseDescSet → Bool
  | bpid _ => false
  | rcdi _ => true

/-- What a call asks for. -/
def pool : ReleaseDescSet → U16
  | bpid v => v
  | rcdi _ => 0

def enables : ReleaseDescSet → Bool
  | bpid _ => false
  | rcdi e => e ≠ 0

theorem build_concat (sets : List ReleaseDescSet) (s : ReleaseDescSet) :
    build (sets ++ [s]) = s.apply (build sets) := by
  simp [build]

theorem apply_bpid (d : QbmanReleaseDesc) (s : ReleaseDescSet) :
    (s.apply d).bpid = if s.isBpid then s.pool else d.bpid := by
  cases s with
  | bpid v => rfl
  | rcdi e =>
    simp only [apply, qbmanReleaseDescSetRcdi]
    split <;> rfl

theorem build_bpid (sets : List ReleaseDescSet) :
    (build sets).bpid = ((lastOf isBpid sets).map pool).getD 0 :=
  foldl_eq_lastOf QbmanReleaseDesc.bpid apply_bpid qbmanReleaseDescClear sets

theorem apply_verb_getLsbD (d : QbmanReleaseDesc) (s : ReleaseDescSet) {i : Nat} (hi : i < 8) :
    (s.apply d).verb.getLsbD i =
      if s.isRcdi && decide (qbBrRcdiShift = i) then s.enables else d.verb.getLsbD i := by
  cases s with
  | bpid v => rfl
  | rcdi e =>
    by_cases he : e = 0
    · simp only [apply, qbmanReleaseDescSetRcdi, he, ne_eq, not_true_eq_false, if_false,
        Words.getLsbD_clear_flag _ _ hi]
      grind [isRcdi, enables]
    · simp only [apply, qbmanReleaseDescSetRcdi, he, ne_eq, not_false_eq_true, if_true,
        Words.getLsbD_set_flag _ _ hi]
      grind [isRcdi, enables]

theorem build_rcdi (sets : List ReleaseDescSet) :
    (build sets).verb.getLsbD qbBrRcdiShift = ((lastOf isRcdi sets).map enables).getD false := by
  refine foldl_eq_lastOf (fun d => d.verb.getLsbD qbBrRcdiShift) (fun d s => ?_)
    qbmanReleaseDescClear sets
  rw [apply_verb_getLsbD d s (by decide), decide_eq_true rfl, Bool.and_true]

/-- The setters leave the bits other than `RCDI` as `qbman_release_desc_clear` made them. -/
theorem build_verb_getLsbD (sets : List ReleaseDescSet) {i : Nat} (hi : i < 8)
    (hrcdi : qbBrRcdiShift ≠ i) :
    (build sets).verb.getLsbD i = decide (qbBrRcValidShift = i) := by
  induction sets using List.reverseRecOn with
  | nil => exact Words.getLsbD_one_shl qbBrRcValidShift hi
  | append_singleton sets s ih =>
    rw [build_concat, apply_verb_getLsbD _ s hi, decide_eq_false hrcdi, Bool.and_false]
    exact ih

end ReleaseDescSet

/-! ## The first word -/

theorem cl0_getLsbD_verb (d : QbmanReleaseDesc) {i : Nat} (hi : i < 8) :
    d.cl0.getLsbD i = d.verb.getLsbD i := by
  rw [QbmanReleaseDesc.cl0, BitVec.getLsbD_append, if_pos hi]

theorem cl0_getLsbD_bpid (d : QbmanReleaseDesc) (i : Nat) :
    d.cl0.getLsbD (16 + i) = d.bpid.getLsbD i := by
  rw [QbmanReleaseDesc.cl0, BitVec.getLsbD_append, if_neg (by omega), BitVec.getLsbD_append,
    if_neg (by omega)]
  congr 1
  omega

theorem rarVb_getLsbD (rar : U32) {i : Nat} (hi : i < 32) :
    (rarVb rar).getLsbD i = (decide (7 = i) && rar.getLsbD 7) := by
  have hmask : (0x80 : U32) = (1 : U32) <<< 7 := rfl
  rw [rarVb, hmask, BitVec.getLsbD_and, Words.getLsbD_one_shl 7 hi, Bool.and_comm]
  by_cases h : 7 = i
  · subst h
    rfl
  · simp [h]

/-- The first word, above the number of buffers. -/
theorem releaseWord_getLsbD (d : QbmanReleaseDesc) (rar : U32) {n : U32} (hn : n.toNat ≤ 7)
    {i : Nat} (h3 : 3 ≤ i) (hi : i < 32) :
    (d.cl0 ||| rarVb rar ||| n).getLsbD i =
      (d.cl0.getLsbD i || (decide (7 = i) && rar.getLsbD 7)) := by
  have hpow : 2 ^ 3 ≤ 2 ^ i := Nat.pow_le_pow_right (by decide) h3
  have hnum : n.getLsbD i = false := Nat.testBit_lt_two_pow (by omega)
  rw [BitVec.getLsbD_or, BitVec.getLsbD_or, hnum, Bool.or_false, rarVb_getLsbD rar hi]

/-- The number of buffers in the first word. -/
theorem releaseWord_setWidth (sets : List ReleaseDescSet) (rar n : U32) :
    ((ReleaseDescSet.build sets).cl0 ||| rarVb rar ||| n).setWidth 3 = n.setWidth 3 := by
  refine BitVec.eq_of_getLsbD_eq fun i hi => ?_
  have hverb := ReleaseDescSet.build_verb_getLsbD sets (i := i) (by omega)
    (by simp only [qbBrRcdiShift]; omega)
  rw [decide_eq_false (by simp only [qbBrRcValidShift]; omega)] at hverb
  have hvb : 7 ≠ i := by omega
  rw [BitVec.getLsbD_setWidth, BitVec.getLsbD_setWidth, BitVec.getLsbD_or, BitVec.getLsbD_or,
    cl0_getLsbD_verb _ (by omega), hverb, rarVb_getLsbD rar (by omega), decide_eq_false hvb,
    Bool.false_and, Bool.false_or, Bool.false_or]

/-! ## The words in the entry -/

theorem u64ToLe32Copy_getElem? {cnt i : Nat} {ss : Nat → U32} (hi : i < 2 * cnt) :
    (u64ToLe32Copy false cnt ss)[i]? = some (ss i) := by
  rw [u64ToLe32Copy_eq, List.getElem?_map, List.getElem?_range hi]
  rfl

theorem storeWords_eq_memcpyWords (off : Nat) (ws : List U32) :
    storeWords off ws = memcpyWords off ws.get := by
  induction ws generalizing off with
  | nil => rfl
  | cons w ws ih =>
    rw [memcpyWords_succ, storeWords, ih]
    rfl

theorem run_storeWords_of_ne (m : Region) {off a : Nat} {ws : List U32}
    (h : a < off ∨ off + 4 * ws.length ≤ a) : m.run (storeWords off ws) a = m a := by
  rw [storeWords_eq_memcpyWords]
  refine run_memcpyWords_of_lt m off ws.get fun j hj => ?_
  omega

theorem run_storeWords (m : Region) (off : Nat) {ws : List U32} {i : Nat} {w : U32}
    (h : ws[i]? = some w) : m.run (storeWords off ws) (off + 4 * i) = w := by
  obtain ⟨hi, rfl⟩ := List.getElem?_eq_some_iff.mp h
  rw [storeWords_eq_memcpyWords]
  exact run_memcpyWords m off ws.get ⟨i, hi⟩

theorem Impl.run_rcrNotify (impl : Impl) (idx : U32) (m : Region) :
    m.run (impl.rcrNotify idx) = m := by
  cases impl <;> rfl

/-! ## Decoding -/

/-- What a release command says. -/
structure ReleaseCmd where
  bpid : U16
  rcdi : Bool
  num : Nat
  vb : Bool
  rcValid : Bool
  buffers : List U64
  deriving DecidableEq, Repr

/-- What the calls asked for, with the valid bit of `RAR`. -/
def releaseAsked (sets : List ReleaseDescSet) (rar : U32) (buffers : Nat → U64) (n : U32) :
    ReleaseCmd where
  bpid := ((lastOf ReleaseDescSet.isBpid sets).map ReleaseDescSet.pool).getD 0
  rcdi := ((lastOf ReleaseDescSet.isRcdi sets).map ReleaseDescSet.enables).getD false
  num := n.toNat
  vb := rar.getLsbD 7
  rcValid := true
  buffers := (List.range n.toNat).map buffers

/-- The command in the words of an entry. -/
def decodeRelease (w : Nat → U32) : ReleaseCmd where
  bpid := (w 0).extractLsb' 16 16
  rcdi := (w 0).getLsbD qbBrRcdiShift
  num := ((w 0).setWidth 3).toNat
  vb := (w 0).getLsbD 7
  rcValid := (w 0).getLsbD qbBrRcValidShift
  buffers := (List.range ((w 0).setWidth 3).toNat).map fun i => w (2 * i + 3) ++ w (2 * i + 2)

/-- A word of the entry at `off`. -/
def Region.word (m : Region) (off i : Nat) : U32 := m (off + 4 * i)

/-- The word that an access stores, with its place relative to `base`. -/
def Access.wordFrom (base : Nat) : Access → Option (Int × U32)
  | .cenaWord off w => some (off - base, w)
  | _ => none

/-- The call succeeds and changes the entry of index `RAR & 7` only, which decodes to `cmd`. -/
structure ReleaseDecodes (impl : Impl) (rar : U32) (o : Outcome Int) (cmd : ReleaseCmd) : Prop where
  ret : o.ret = 0
  stores : ∀ a ∈ o.accs, ∀ off, a.storeOff? = some off →
    impl.rcr (rar &&& 0x7) ≤ off ∧ off < impl.rcr (rar &&& 0x7) + 64
  frame : ∀ (m : Region) (a : Nat),
    a < impl.rcr (rar &&& 0x7) ∨ impl.rcr (rar &&& 0x7) + 64 ≤ a → m.run o.accs a = m a
  decode : ∀ m : Region, decodeRelease ((m.run o.accs).word (impl.rcr (rar &&& 0x7))) = cmd

/-- A first word of a release and the two words of each buffer. -/
theorem decodeRelease_eq (sets : List ReleaseDescSet) (rar : U32) (buffers : Nat → U64) {n : U32}
    (hn : n.toNat ≤ 7) {w : Nat → U32}
    (h0 : w 0 = (ReleaseDescSet.build sets).cl0 ||| rarVb rar ||| n)
    (hw : ∀ i < 2 * n.toNat, w (i + 2) = hostWords false buffers i) :
    decodeRelease w = releaseAsked sets rar buffers n := by
  have hbit : ∀ i, 3 ≤ i → i < 8 → (w 0).getLsbD i =
      ((ReleaseDescSet.build sets).verb.getLsbD i || (decide (7 = i) && rar.getLsbD 7)) := by
    intro i h3 h8
    rw [h0, releaseWord_getLsbD _ rar hn h3 (by omega), cl0_getLsbD_verb _ h8]
  have hnum : ((w 0).setWidth 3).toNat = n.toNat := by
    rw [h0, releaseWord_setWidth, BitVec.toNat_setWidth, Nat.mod_eq_of_lt (by omega)]
  have hbpid : (w 0).extractLsb' 16 16 = (ReleaseDescSet.build sets).bpid := by
    refine BitVec.eq_of_getLsbD_eq fun i hi => ?_
    have hvb : 7 ≠ 16 + i := by omega
    rw [BitVec.getLsbD_extractLsb', decide_eq_true hi, Bool.true_and, h0,
      releaseWord_getLsbD _ rar hn (by omega) (by omega), cl0_getLsbD_bpid, decide_eq_false hvb,
      Bool.false_and, Bool.or_false]
  have hrcdi : (w 0).getLsbD qbBrRcdiShift =
      (ReleaseDescSet.build sets).verb.getLsbD qbBrRcdiShift := by
    rw [hbit _ (by decide) (by decide)]
    simp [qbBrRcdiShift]
  have hvb : (w 0).getLsbD 7 = rar.getLsbD 7 := by
    rw [hbit 7 (by decide) (by decide),
      ReleaseDescSet.build_verb_getLsbD sets (by decide) (by decide)]
    simp [qbBrRcValidShift]
  have hvalid : (w 0).getLsbD qbBrRcValidShift = true := by
    rw [hbit _ (by decide) (by decide),
      ReleaseDescSet.build_verb_getLsbD sets (by decide) (by decide)]
    simp
  have hbuffers : (List.range n.toNat).map (fun i => w (2 * i + 3) ++ w (2 * i + 2)) =
      (List.range n.toNat).map buffers := by
    refine List.map_congr_left fun i hi => ?_
    have hlt := List.mem_range.mp hi
    rw [hw (2 * i + 1) (by omega), hw (2 * i) (by omega)]
    exact hostValue_hostWords false buffers i
  rw [decodeRelease, releaseAsked, hnum, hbpid, hrcdi, hvb, hvalid, hbuffers,
    ReleaseDescSet.build_bpid, ReleaseDescSet.build_rcdi]

section Release

variable {impl : Impl} {s : QbmanSwp} {r : Regions} {n : U32}
variable (d : QbmanReleaseDesc) (buffers : Nat → U64)

/-- The region after a release: the buffers, then the first word. -/
theorem run_releaseCall (hrar : rarSuccess (r.cinh qbmanCinhSwpRar) = true) (m : Region) :
    let rar := r.cinh qbmanCinhSwpRar
    let e := impl.rcr (rarIdx rar)
    m.run (releaseCall impl.rcr impl.rcrNotify s r d buffers n).accs =
      Function.update
        (m.run (storeWords (e + 8) (u64ToLe32Copy false n.toNat (hostWords false buffers)))) e
        (d.cl0 ||| rarVb rar ||| n) := by
  rw [releaseCall_ok _ _ _ hrar]
  simp only [Region.run_cons, Region.run_append, Region.access_cinhRead, Region.access_cenaWord,
    Impl.run_rcrNotify]

theorem run_releaseCall_of_ne (hrar : rarSuccess (r.cinh qbmanCinhSwpRar) = true)
    (hn : n.toNat ≤ 7) (m : Region) {a : Nat}
    (ha : a < impl.rcr (rarIdx (r.cinh qbmanCinhSwpRar)) ∨
      impl.rcr (rarIdx (r.cinh qbmanCinhSwpRar)) + 64 ≤ a) :
    m.run (releaseCall impl.rcr impl.rcrNotify s r d buffers n).accs a = m a := by
  have hlen := length_u64ToLe32Copy false n.toNat (hostWords false buffers)
  rw [run_releaseCall _ _ hrar, Function.update_of_ne (by omega), run_storeWords_of_ne _ (by omega)]

/-- The words of the buffers in the entry. -/
theorem run_releaseCall_word (hrar : rarSuccess (r.cinh qbmanCinhSwpRar) = true) (m : Region)
    {i : Nat} (hi : i < 2 * n.toNat) :
    (m.run (releaseCall impl.rcr impl.rcrNotify s r d buffers n).accs).word
      (impl.rcr (rarIdx (r.cinh qbmanCinhSwpRar))) (i + 2) = hostWords false buffers i := by
  have hoff : ∀ e, e + 4 * (i + 2) = e + 8 + 4 * i := fun e => by omega
  rw [Region.word, run_releaseCall _ _ hrar, Function.update_of_ne (by omega), hoff]
  exact run_storeWords m _ (u64ToLe32Copy_getElem? hi)

end Release

/-- The words of a list do not depend on where it is stored. -/
theorem filterMap_storeWords (base base' k : Nat) (ws : List U32) :
    (storeWords (base + k) ws).filterMap (Access.wordFrom base) =
      (storeWords (base' + k) ws).filterMap (Access.wordFrom base') := by
  induction ws generalizing k with
  | nil => rfl
  | cons w ws ih =>
    have hk : ∀ b : Nat, ((b + k : Nat) : Int) - b = k := fun b => by omega
    simp only [storeWords, List.filterMap_cons, Access.wordFrom, hk, Nat.add_assoc]
    rw [ih (k + 4)]

theorem Impl.filterMap_rcrNotify (impl : Impl) (idx : U32) (base : Nat) :
    (impl.rcrNotify idx).filterMap (Access.wordFrom base) = [] := by
  cases impl <;> rfl

/-- One release with up to seven buffers. -/
theorem qbmanSwpRelease_decodes_one (ptrs : FnPtrs) (sets : List ReleaseDescSet) (s : QbmanSwp)
    {r : Regions} (buffers : Nat → U64) {n : U32} (hn : n.toNat ≤ 7)
    (hrar : rarSuccess (r.cinh qbmanCinhSwpRar) = true) :
    ReleaseDecodes ptrs.releasePtr (r.cinh qbmanCinhSwpRar)
      (qbmanSwpRelease ptrs s r (ReleaseDescSet.build sets) buffers n)
      (releaseAsked sets (r.cinh qbmanCinhSwpRar) buffers n) := by
  have hbounds :=
    (releaseInBounds_iff ptrs s r (ReleaseDescSet.build sets) buffers n).mpr fun _ => hn
  have himpl := qbmanSwpRelease_impl ptrs s r (ReleaseDescSet.build sets) buffers n
  refine ⟨?_, hbounds.stores, fun m a ha => ?_, fun m => ?_⟩
  · rw [himpl, releaseCall_ok _ _ _ hrar]
  · rw [himpl]
    exact run_releaseCall_of_ne _ _ hrar hn m ha
  · rw [himpl]
    refine decodeRelease_eq sets _ buffers hn ?_ fun i hi => run_releaseCall_word _ _ hrar m hi
    rw [Region.word, run_releaseCall _ _ hrar]
    exact Function.update_self ..

/-- The implementations store the same words at the same places of their entries. -/
theorem qbmanSwpRelease_words (ptrs ptrs' : FnPtrs) (s : QbmanSwp) {r : Regions}
    (d : QbmanReleaseDesc) (buffers : Nat → U64) (n : U32)
    (hrar : rarSuccess (r.cinh qbmanCinhSwpRar) = true) :
    let idx := rarIdx (r.cinh qbmanCinhSwpRar)
    (qbmanSwpRelease ptrs s r d buffers n).accs.filterMap
        (Access.wordFrom (ptrs.releasePtr.rcr idx)) =
      (qbmanSwpRelease ptrs' s r d buffers n).accs.filterMap
        (Access.wordFrom (ptrs'.releasePtr.rcr idx)) := by
  intro idx
  rw [qbmanSwpRelease_impl, qbmanSwpRelease_impl, releaseCall_ok _ _ _ hrar,
    releaseCall_ok _ _ _ hrar]
  simp only [idx, List.filterMap_cons, List.filterMap_append, Impl.filterMap_rcrNotify,
    Access.wordFrom, Int.sub_self]
  rw [filterMap_storeWords _ (ptrs'.releasePtr.rcr _)]

/-- A release of one to seven buffers leaves a command in the entry of `RAR` that says what the
setters and the caller asked for, in the same words in both implementations. -/
theorem qbmanSwpRelease_decodes (sets : List ReleaseDescSet) (s : QbmanSwp) (r : Regions)
    (buffers : Nat → U64) (n : U32) (hn : n.toNat ≤ 7)
    (hrar : rarSuccess (r.cinh qbmanCinhSwpRar) = true) :
    let rar := r.cinh qbmanCinhSwpRar
    let out := fun ptrs => qbmanSwpRelease ptrs s r (ReleaseDescSet.build sets) buffers n
    (∀ ptrs, ReleaseDecodes ptrs.releasePtr rar (out ptrs) (releaseAsked sets rar buffers n)) ∧
      ∀ ptrs ptrs', (out ptrs).accs.filterMap (Access.wordFrom (ptrs.releasePtr.rcr (rarIdx rar))) =
        (out ptrs').accs.filterMap (Access.wordFrom (ptrs'.releasePtr.rcr (rarIdx rar))) :=
  ⟨fun ptrs => qbmanSwpRelease_decodes_one ptrs sets s buffers hn hrar,
    fun ptrs ptrs' => qbmanSwpRelease_words ptrs ptrs' s _ buffers n hrar⟩

/-- Two buffers to the pool 7, through both implementations. -/
theorem qbmanSwpRelease_decodes_pair :
    let r : Regions := ⟨fun _ => 0, fun _ => 0x183⟩
    let sets := [.rcdi 1, .bpid 7]
    let buffers : Nat → U64 := fun i => if i = 0 then 0x123456789a else 0xbcdef01234
    let asked : ReleaseCmd := ⟨7, true, 2, true, true, [0x123456789a, 0xbcdef01234]⟩
    ReleaseDecodes .direct 0x183
        (qbmanSwpRelease {} (swpRev4100 0 0x1000) r (ReleaseDescSet.build sets) buffers 2) asked ∧
      ReleaseDecodes .memBack 0x183
        (qbmanSwpRelease .memBack (swpRev4100 0 0x1000) r (ReleaseDescSet.build sets) buffers 2)
        asked := by
  intro r sets buffers asked
  have h := qbmanSwpRelease_decodes sets (swpRev4100 0 0x1000) r buffers 2 (by decide) (by decide)
  have hasked : releaseAsked sets (r.cinh qbmanCinhSwpRar) buffers 2 = asked := by decide
  simp only [hasked] at h
  exact ⟨h.1 {}, h.1 .memBack⟩

end Qbman
