import Qbman.Lib.Calls
import Qbman.Lib.Words
import Qbman.Push

/-!
# The enabled channels

The cached command `sdq` holds the enabled channels in its low 16 bits after any calls of
`qbman_swp_push_set`, and the fields that `qbman_swp_init` chose above them. The register `SDQCR`
was last written with `sdq`, or with 0 if no channel is enabled (`pushRun_sdqcr`).
`qbman_swp_push_get` tests its channel with `|` and says that every channel is enabled
(`pushGet_readsBack_iff`).
-/

namespace Qbman

/-- A call of `qbman_swp_push_set`. -/
structure PushCall where
  channelIdx : U8
  enable : Int
  deriving DecidableEq

namespace PushCall

/-- The call is for channel `i`. -/
def isFor (i : Nat) (c : PushCall) : Bool := c.channelIdx.toNat == i

def apply (s : QbmanSwp) (c : PushCall) : QbmanSwp := (qbmanSwpPushSet s c.channelIdx c.enable).swp

/-- The portal and the accesses so far, after one more call. -/
def step (r : QbmanSwp × List Access) (c : PushCall) : QbmanSwp × List Access :=
  let out := qbmanSwpPushSet r.1 c.channelIdx c.enable
  (out.swp, r.2 ++ out.accs)

/-- The last call for channel `i` enabled it. -/
def enabled (calls : List PushCall) (i : Nat) : Bool :=
  match Calls.lastOf (isFor i) calls with
  | some c => c.enable ≠ 0
  | none => false

end PushCall

/-- `qbman_swp_push_set` calls, after the accesses `accs`. -/
def pushRun (s : QbmanSwp) (accs : List Access) (calls : List PushCall) : QbmanSwp × List Access :=
  calls.foldl PushCall.step (s, accs)

theorem pushRun_concat (s : QbmanSwp) (accs : List Access) (calls : List PushCall) (c : PushCall) :
    pushRun s accs (calls ++ [c]) = PushCall.step (pushRun s accs calls) c := by
  simp [pushRun]

theorem pushRun_swp (s : QbmanSwp) (accs : List Access) (calls : List PushCall) :
    (pushRun s accs calls).1 = calls.foldl PushCall.apply s := by
  induction calls using List.reverseRecOn with
  | nil => rfl
  | append_singleton calls c ih =>
    rw [pushRun_concat, List.foldl_append, ← ih]
    rfl

/-! ## The bits of the command -/

/-- A call sets or clears the bit of its channel. -/
theorem qbmanSwpPushSet_getLsbD (s : QbmanSwp) (c : PushCall) {i : Nat} (hi : i < 32) :
    (PushCall.apply s c).sdq.getLsbD i =
      if c.isFor i then decide (c.enable ≠ 0) else s.sdq.getLsbD i := by
  unfold PushCall.apply PushCall.isFor qbmanSwpPushSet
  by_cases he : c.enable = 0
  · simp only [he, ne_eq, not_true_eq_false, if_false, Words.getLsbD_clear_flag _ _ hi]
    grind
  · simp only [he, ne_eq, not_false_eq_true, if_true, Words.getLsbD_set_flag _ _ hi]
    grind

/-- A bit of the command is what the last call for it says, or as it was. -/
theorem pushRun_getLsbD (s : QbmanSwp) (accs : List Access) (calls : List PushCall) {i : Nat}
    (hi : i < 32) : (pushRun s accs calls).1.sdq.getLsbD i =
      match Calls.lastOf (PushCall.isFor i) calls with
      | some c => decide (c.enable ≠ 0)
      | none => s.sdq.getLsbD i := by
  rw [pushRun_swp, Calls.foldl_eq_lastOf (fun s : QbmanSwp => s.sdq.getLsbD i)
    fun s c => qbmanSwpPushSet_getLsbD s c hi]
  cases Calls.lastOf (PushCall.isFor i) calls <;> rfl

/-- The calls of the users: there are sixteen channels. -/
def PushCall.Valid (calls : List PushCall) : Prop := ∀ c ∈ calls, c.channelIdx ≤ 15

theorem lastOf_isFor_eq_none {calls : List PushCall} (h : PushCall.Valid calls) {i : Nat}
    (hi : 16 ≤ i) : Calls.lastOf (PushCall.isFor i) calls = none := by
  by_contra hne
  obtain ⟨c, hc⟩ := Option.ne_none_iff_exists'.mp hne
  obtain ⟨hmem, hfor⟩ := Calls.lastOf_mem hc
  have hle : c.channelIdx.toNat ≤ 15 := h c hmem
  have heq : c.channelIdx.toNat = i := by simpa [PushCall.isFor] using hfor
  omega

/-- The dequeue command type, frame count and token of a static dequeue command. -/
structure SdqcrFields where
  dct : U32
  fc : U32
  tok : U32
  deriving DecidableEq, Repr

def sdqcrFields (sdq : U32) : SdqcrFields where
  dct := sdq >>> qbSdqcrDctShift &&& 0x3
  fc := sdq >>> qbSdqcrFcShift &&& 0x1
  tok := sdq >>> qbSdqcrTokShift &&& 0xff

/-- What `qbman_swp_init` chooses. -/
def SdqcrFields.chosen : SdqcrFields :=
  { dct := qbmanSdqcrDctPrioIcs, fc := qbmanSdqcrFcUpTo3, tok := qmanSdqcrToken }

theorem ushiftRight_congr {x y : U32} (h : ∀ i, 16 ≤ i → i < 32 → x.getLsbD i = y.getLsbD i)
    {n : Nat} (hn : 16 ≤ n) : x >>> n = y >>> n := by
  refine BitVec.eq_of_getLsbD_eq fun i _ => ?_
  rw [BitVec.getLsbD_ushiftRight, BitVec.getLsbD_ushiftRight]
  by_cases hlt : n + i < 32
  · exact h (n + i) (by omega) hlt
  · rw [BitVec.getLsbD_of_ge _ _ (by omega), BitVec.getLsbD_of_ge _ _ (by omega)]

theorem sdqcrFields_congr {x y : U32} (h : ∀ i, 16 ≤ i → i < 32 → x.getLsbD i = y.getLsbD i) :
    sdqcrFields x = sdqcrFields y := by
  have hshift : ∀ n, 16 ≤ n → x >>> n = y >>> n := fun n hn => ushiftRight_congr h hn
  simp only [sdqcrFields, hshift _ (show 16 ≤ qbSdqcrDctShift by decide),
    hshift _ (show 16 ≤ qbSdqcrFcShift by decide), hshift _ (show 16 ≤ qbSdqcrTokShift by decide)]

/-- The calls leave the fields above the channels alone. -/
theorem pushRun_sdqcrFields (s : QbmanSwp) (accs : List Access) {calls : List PushCall}
    (h : PushCall.Valid calls) :
    sdqcrFields (pushRun s accs calls).1.sdq = sdqcrFields s.sdq := by
  refine sdqcrFields_congr fun i hi hi' => ?_
  rw [pushRun_getLsbD s accs calls hi', lastOf_isFor_eq_none h hi]

theorem sdqSrc_eq (sdq : U32) : sdqSrc sdq = sdq.setWidth 16 := by
  refine BitVec.eq_of_toNat_eq ?_
  rw [sdqSrc, BitVec.toNat_setWidth, Words.toNat_and_mask (k := 16) _ _ rfl,
    BitVec.toNat_ushiftRight, BitVec.toNat_setWidth, Nat.mod_mod]
  rfl

/-- There is no source channel if the low bits are all clear. -/
theorem sdqSrc_eq_zero_iff {sdq : U32} : sdqSrc sdq = 0 ↔ ∀ i < 16, sdq.getLsbD i = false := by
  rw [sdqSrc_eq]
  constructor
  · intro h i hi
    have hbit := congrArg (BitVec.getLsbD · i) h
    simpa [BitVec.getLsbD_setWidth, hi] using hbit
  · intro h
    refine BitVec.eq_of_getLsbD_eq fun i hi => ?_
    rw [BitVec.getLsbD_setWidth, h i hi, Bool.and_false]
    simp

/-! ## The register -/

/-- What the access writes to the register at `off`. -/
def Access.written (off : Nat) : Access → Option U32
  | .cinhWrite off' v => if off' = off then some v else none
  | _ => none

/-- The value last written to the register at `off`. -/
def lastWritten (off : Nat) (accs : List Access) : Option U32 :=
  (accs.filterMap (Access.written off)).getLast?

theorem lastWritten_concat (off : Nat) (accs : List Access) (v : U32) :
    lastWritten off (accs ++ [.cinhWrite off v]) = some v := by
  simp [lastWritten, Access.written, List.filterMap_append]

theorem swpDefaults_sdq (d : QbmanSwpDesc) : (swpDefaults d).sdq = 0x21bb0000 := by
  show qbmanSdqcrDctPrioIcs <<< qbSdqcrDctShift ||| qbmanSdqcrFcUpTo3 <<< qbSdqcrFcShift |||
    qmanSdqcrToken <<< qbSdqcrTokShift = _
  decide

/-- What `qbman_swp_init` leaves in the cached command and in the register. -/
theorem qbmanSwpInit_sdqcr {g : Globals} {d : QbmanSwpDesc} {env : InitEnv} {a : Addr}
    {p : QbmanSwp} (h : (qbmanSwpInit g d env).ret = some (a, p)) :
    p.sdq = (swpDefaults d).sdq ∧
      lastWritten qbmanCinhSwpSdqcr (qbmanSwpInit g d env).accs = some 0 := by
  unfold qbmanSwpInit at h ⊢
  cases hm : env.mallocSwp with
  | none => simp [hm] at h
  | some a' =>
    simp only [hm] at h ⊢
    split at h
    · cases h
    · rename_i hr
      rw [if_neg hr]
      split at h
      · cases h
      · rename_i hd
        rw [if_neg hd]
        simp only [Option.some.injEq, Prod.mk.injEq] at h
        obtain ⟨rfl, rfl⟩ := h
        refine ⟨rfl, ?_⟩
        rw [lastWritten, List.filterMap_append, List.getLast?_append]
        rfl

/-- The register holds the cached command, or 0 if it has no channel. -/
theorem pushRun_lastWritten {g : Globals} {d : QbmanSwpDesc} {env : InitEnv} {a : Addr}
    {p : QbmanSwp} (h : (qbmanSwpInit g d env).ret = some (a, p)) (calls : List PushCall) :
    lastWritten qbmanCinhSwpSdqcr (pushRun p (qbmanSwpInit g d env).accs calls).2 =
      some (if sdqSrc (pushRun p (qbmanSwpInit g d env).accs calls).1.sdq ≠ 0 then
        (pushRun p (qbmanSwpInit g d env).accs calls).1.sdq else 0) := by
  obtain ⟨hsdq, hlast⟩ := qbmanSwpInit_sdqcr h
  induction calls using List.reverseRecOn with
  | nil =>
    have hsrc : sdqSrc p.sdq = 0 := by
      rw [hsdq, swpDefaults_sdq]
      decide
    simp [pushRun, hsrc, hlast]
  | append_singleton calls c ih =>
    rw [pushRun_concat]
    exact lastWritten_concat _ _ _

/-- After the calls the low bits are the enabled channels. -/
theorem pushRun_enabled {g : Globals} {d : QbmanSwpDesc} {env : InitEnv} {a : Addr}
    {p : QbmanSwp} (h : (qbmanSwpInit g d env).ret = some (a, p)) (accs : List Access)
    (calls : List PushCall) {i : Nat} (hi : i < 16) :
    (pushRun p accs calls).1.sdq.getLsbD i = PushCall.enabled calls i := by
  have hclear : p.sdq.getLsbD i = false := by
    rw [(qbmanSwpInit_sdqcr h).1, swpDefaults_sdq]
    exact sdqSrc_eq_zero_iff.mp (by decide) i hi
  rw [pushRun_getLsbD p accs calls (by omega), PushCall.enabled]
  cases Calls.lastOf (PushCall.isFor i) calls with
  | none => exact hclear
  | some c => rfl

/-- The register and the cached command after `calls`. -/
structure SdqcrMatches (calls : List PushCall) (r : QbmanSwp × List Access) : Prop where
  none : (∀ i < 16, PushCall.enabled calls i = false) →
    lastWritten qbmanCinhSwpSdqcr r.2 = some 0
  some : (∃ i < 16, PushCall.enabled calls i = true) →
    ∃ w, lastWritten qbmanCinhSwpSdqcr r.2 = some w ∧
      (∀ i < 16, w.getLsbD i = PushCall.enabled calls i) ∧ sdqcrFields w = .chosen
  cached : sdqcrFields r.1.sdq = .chosen

/-- The register always matches the enabled channels. -/
theorem pushRun_sdqcr {g : Globals} {d : QbmanSwpDesc} {env : InitEnv} {a : Addr} {p : QbmanSwp}
    (h : (qbmanSwpInit g d env).ret = some (a, p)) {calls : List PushCall}
    (hcalls : PushCall.Valid calls) :
    SdqcrMatches calls (pushRun p (qbmanSwpInit g d env).accs calls) := by
  have hlast := pushRun_lastWritten h calls
  have hbits := fun i (hi : i < 16) => pushRun_enabled h (qbmanSwpInit g d env).accs calls hi
  have hcached : sdqcrFields (pushRun p (qbmanSwpInit g d env).accs calls).1.sdq = .chosen := by
    rw [pushRun_sdqcrFields p _ hcalls, (qbmanSwpInit_sdqcr h).1, swpDefaults_sdq]
    decide
  refine ⟨fun hnone => ?_, fun ⟨i, hi, hen⟩ => ?_, hcached⟩
  · have hsrc := sdqSrc_eq_zero_iff.mpr fun i hi => (hbits i hi).trans (hnone i hi)
    rw [hlast, if_neg (not_not_intro hsrc)]
  · have hsrc : sdqSrc (pushRun p (qbmanSwpInit g d env).accs calls).1.sdq ≠ 0 := by
      intro hzero
      have hclear := sdqSrc_eq_zero_iff.mp hzero i hi
      rw [hbits i hi, hen] at hclear
      cases hclear
    rw [if_pos hsrc] at hlast
    exact ⟨_, hlast, hbits, hcached⟩

/-- Channel 3 enabled and disabled, then channel 5 enabled. -/
theorem pushRun_sdqcr_rev4100 :
    let calls : List PushCall := [⟨3, 1⟩, ⟨3, 0⟩, ⟨5, 1⟩]
    let r := qbmanSwpInit {} (.rev4100 .vbRing 0) (.ok 0x1000 0 0)
    SdqcrMatches calls (pushRun (swpRev4100 0 0x1000) r.accs calls) := by
  intro calls r
  refine pushRun_sdqcr (a := 0x1000) rfl ?_
  simp [PushCall.Valid, calls]

/-! ## Reading a channel back -/

/-- A call of `qbman_swp_push_get`. -/
def pushGet (s : QbmanSwp) (channelIdx : U8) : Outcome U32 :=
  { ret := qbmanSwpPushGet s channelIdx, swp := s, accs := [] }

/-- After `calls`, the getter tells whether the channel is enabled, and leaves the portal alone. -/
structure ReadsBack (s : QbmanSwp) (calls : List PushCall) (channelIdx : U8) : Prop where
  enabled : (pushGet (calls.foldl PushCall.apply s) channelIdx).ret ≠ 0 ↔
    PushCall.enabled calls channelIdx.toNat = true
  frame : (pushGet (calls.foldl PushCall.apply s) channelIdx).swp = calls.foldl PushCall.apply s

/-- The getter finds the bit of its channel in `src | (1 << channel_idx)` whatever `src` is. -/
theorem qbmanSwpPushGet_ne_zero (s : QbmanSwp) {channelIdx : U8} (h : channelIdx ≤ 15) :
    qbmanSwpPushGet s channelIdx ≠ 0 := by
  intro hzero
  have hlt : channelIdx.toNat < 32 := Nat.lt_of_le_of_lt (BitVec.le_def.mp h) (by decide)
  have hbit : (qbmanSwpPushGet s channelIdx).getLsbD channelIdx.toNat = true := by
    rw [qbmanSwpPushGet, Words.getLsbD_set_flag _ _ hlt, decide_eq_true rfl, Bool.true_or]
  rw [hzero] at hbit
  simp at hbit

/-- What the getter says is right for the enabled channels only. -/
theorem pushGet_readsBack_iff (s : QbmanSwp) (calls : List PushCall) {channelIdx : U8}
    (h : channelIdx ≤ 15) :
    ReadsBack s calls channelIdx ↔ PushCall.enabled calls channelIdx.toNat = true := by
  have hne := qbmanSwpPushGet_ne_zero (calls.foldl PushCall.apply s) h
  exact ⟨fun hread => hread.enabled.mp hne, fun hen => ⟨iff_of_true hne hen, rfl⟩⟩

theorem pushGet_readsBack_enabled :
    ReadsBack (swpRev4100 0 0x1000) [⟨3, 1⟩] 3 ↔ PushCall.enabled [⟨3, 1⟩] 3 = true :=
  pushGet_readsBack_iff (swpRev4100 0 0x1000) [⟨3, 1⟩] (show (3 : U8) ≤ 15 by decide)

/-- No channel of a new portal is enabled, and the getter says that channel 0 is. -/
theorem pushGet_not_readsBack :
    ¬ ReadsBack (swpRev4100 0 0x1000) [] 0 := by
  intro h
  have hne : qbmanSwpPushGet (swpRev4100 0 0x1000) 0 ≠ 0 :=
    qbmanSwpPushGet_ne_zero (swpRev4100 0 0x1000) (by decide)
  exact absurd (h.enabled.mp hne) (by decide)

end Qbman
