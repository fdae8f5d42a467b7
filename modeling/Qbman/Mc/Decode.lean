import Qbman.Mc.Command

/-!
# What the hardware can read from a management command

`McApi.decode` recovers the call from the bytes of a submitted command: the verb tells the
functions apart, the write-enable and control bytes those of the channel configuration, and the
command type the statistics. One pair stays apart only in the API: `qbman_cgr_reject_statistics`
does not store its command type, so that its command is that of `qbman_cq_dequeue_statistics`
(`McApi.Confused`).
-/

namespace Qbman

namespace McApi

/-- The arguments are in the range of the field they name; a flag is 0 or 1. -/
def InRange : McApi → Prop
  | acquire _ n => n ≠ 0 ∧ n ≤ 7
  | fqSchedule f | fqForce f | fqXon f | fqXoff f | fqQuery f | fqQueryState f => f.toNat < 2 ^ 24
  | bpQuery i | cgrQuery i | cgrWredQuery i => i.toNat < 2 ^ 16
  | cgrRejectStatistics i c | ccgrRejectStatistics i c | cqDequeueStatistics i c =>
    i.toNat < 2 ^ 16 ∧ (c = 0 ∨ c = 1)
  | cdanSetContext _ _ | cdanEnable _ | cdanDisable _ | cdanSetContextEnable _ _ | wqchanQuery _ =>
    True

/-- The channel configuration with a write-enable mask and a control byte. -/
def decodeCdan (b : Bytes.Mem) : Option McApi :=
  let ch := Bytes.load 16 b 2 2
  let ctx := Bytes.load 64 b 8 8
  let we := Bytes.load 8 b 4 1
  let ctrl := Bytes.load 8 b 5 1
  if we = codeCdanWeCtx then some (cdanSetContext ch ctx)
  else if we = codeCdanWeEn ||| codeCdanWeCtx then some (cdanSetContextEnable ch ctx)
  else if ctrl = 1 then some (cdanEnable ch)
  else some (cdanDisable ch)

/-- The statistics with a command type. -/
def decodeStatistics (b : Bytes.Mem) (clear : Int) : Option McApi :=
  let id := Bytes.load 32 b 2 2
  if Bytes.load 8 b 5 1 = 1 then some (ccgrRejectStatistics id clear)
  else some (cqDequeueStatistics id clear)

/-- The call that the bytes of a command name. -/
def decode (b : Bytes.Mem) : Option McApi :=
  let verb := b 0 &&& 0x7f
  if verb = qbmanMcAcquire then some (acquire (Bytes.load 16 b 2 2) (Bytes.load 32 b 4 1))
  else if verb = qbmanWqchanConfigure then decodeCdan b
  else if verb = qbmanFqSchedule then some (fqSchedule (Bytes.load 32 b 4 4))
  else if verb = qbmanFqForce then some (fqForce (Bytes.load 32 b 4 4))
  else if verb = qbmanFqXon then some (fqXon (Bytes.load 32 b 4 4))
  else if verb = qbmanFqXoff then some (fqXoff (Bytes.load 32 b 4 4))
  else if verb = qbmanBpQuery then some (bpQuery (Bytes.load 32 b 2 2))
  else if verb = qbmanFqQuery then some (fqQuery (Bytes.load 32 b 4 4))
  else if verb = qbmanFqQueryNp then some (fqQueryState (Bytes.load 32 b 4 4))
  else if verb = qbmanCgrQuery then some (cgrQuery (Bytes.load 32 b 2 2))
  else if verb = qbmanWredQuery then some (cgrWredQuery (Bytes.load 32 b 2 2))
  else if verb = qbmanWqQuery then some (wqchanQuery (Bytes.load 16 b 2 2))
  else if verb = qbmanCgrStatQuery then decodeStatistics b 0
  else if verb = qbmanCgrStatQueryClr then decodeStatistics b 1
  else none

/-- The call is read from the verb without the valid bit and from the bytes after it. -/
theorem decode_congr {b b' : Bytes.Mem} (h0 : b 0 &&& 0x7f = b' 0 &&& 0x7f)
    (h : ∀ k, 0 < k → k < 64 → b k = b' k) : decode b = decode b' := by
  have hload : ∀ w a n, 0 < a → a + n ≤ 64 → Bytes.load w b a n = Bytes.load w b' a n := by
    intro w a n ha hn
    exact Bytes.load_congr fun k hk => h _ (by omega) (by omega)
  unfold decode decodeCdan decodeStatistics
  simp only [h0, hload _ 2 2 (by decide) (by decide), hload _ 4 1 (by decide) (by decide),
    hload _ 5 1 (by decide) (by decide), hload _ 4 4 (by decide) (by decide),
    hload _ 8 8 (by decide) (by decide)]

/-- What the hardware is asked for: the statistics of a congestion group pass for those of a class
queue. -/
def asked : McApi → McApi
  | cgrRejectStatistics c cl => cqDequeueStatistics c cl
  | a => a

/-- The bytes of an all-zero command after the stores of a request. -/
def bytes (r : McRequest) (v : Bool) : Bytes.Mem :=
  Bytes.store (Bytes.storeFields 0 r.fields fun _ => 0) 0 1 (r.verb ||| (vbit v).setWidth 8)

theorem verb_bytes {r : McRequest} {c : U8} (hr : r.verb = c) (hc : c &&& 0x7f = c) (v : Bool) :
    bytes r v 0 &&& 0x7f = c := by
  have hvb : ((vbit v).setWidth 8 : U8) &&& 0x7f = 0 := by cases v <;> decide
  unfold bytes
  rw [Bytes.store_of_mem (by omega) (by omega), Nat.sub_zero, Nat.mul_zero,
    BitVec.extractLsb'_eq_self, BitVec.and_or_distrib_right, hr, hc, hvb]
  simp

theorem load_bytes (r : McRequest) (v : Bool) (w : Nat) {a : Nat} (ha : 0 < a) (n : Nat) :
    Bytes.load w (bytes r v) a n = Bytes.load w (Bytes.storeFields 0 r.fields fun _ => 0) a n :=
  Bytes.load_store_of_disjoint _ (by omega)

/-- A field of the request that no later one overlaps is read back. -/
theorem load_bytes_field {r : McRequest} (v : Bool) (w : Nat) (f : Bytes.Field)
    (pre post : List Bytes.Field) (hr : r.fields = pre ++ f :: post) (hf : 0 < f.off)
    (h : ∀ g ∈ post, g.Apart f.off f.len) :
    Bytes.load w (bytes r v) f.off f.len = f.val.setWidth w := by
  have hfield : Bytes.load w (Bytes.storeFields 0 (pre ++ f :: post) fun _ => 0) (0 + f.off) f.len =
      f.val.setWidth w := Bytes.load_field f pre post h
  rw [Nat.zero_add, ← hr] at hfield
  rw [load_bytes r v w hf, hfield]

/-! ## Reading the fields -/

section Fields

variable (v : Bool)

theorem setWidth_of_lt {i : U32} (h : i.toNat < 2 ^ 16) : (i.setWidth 16).setWidth 32 = i := by
  rw [← BitVec.toNat_inj, BitVec.toNat_setWidth, BitVec.toNat_setWidth, Nat.mod_eq_of_lt h,
    Nat.mod_eq_of_lt i.isLt]

theorem load_idQuery (verb : U8) (id : U16) :
    Bytes.load 16 (bytes (idQueryRequest verb id) v) 2 2 = id :=
  (load_bytes_field v 16 ⟨2, 2, id⟩ [] [] rfl (by simp) (by simp)).trans (BitVec.setWidth_eq id)

theorem load_idQuery_wide (verb : U8) {id : U32} (hid : id.toNat < 2 ^ 16) :
    Bytes.load 32 (bytes (idQueryRequest verb (id.setWidth 16)) v) 2 2 = id :=
  (load_bytes_field v 32 ⟨2, 2, id.setWidth 16⟩ [] [] rfl (by simp) (by simp)).trans
    (setWidth_of_lt hid)

theorem load_fqQuery (verb : U8) (fqid : U32) :
    Bytes.load 32 (bytes (fqQueryRequest verb fqid) v) 4 4 = fqid :=
  (load_bytes_field v 32 ⟨4, 4, fqid⟩ [] [] rfl (by simp) (by simp)).trans
    (BitVec.setWidth_eq fqid)

theorem load_altFqState {fqid : U32} (hf : fqid.toNat < 2 ^ 24) (verb : U8) :
    Bytes.load 32 (bytes (qbmanSwpAltFqStateRequest fqid verb) v) 4 4 = fqid := by
  have hmask : fqid &&& altFqFqidMask = fqid := by
    rw [← BitVec.toNat_inj, Words.toNat_and_mask fqid altFqFqidMask (k := 24) (by decide),
      Nat.mod_eq_of_lt hf]
  have hreq : qbmanSwpAltFqStateRequest fqid verb = fqQueryRequest verb fqid := by
    unfold qbmanSwpAltFqStateRequest fqQueryRequest
    rw [hmask]
  rw [hreq, load_fqQuery]

theorem load_acquire (bpid : U16) {num : U32} (hnum : num ≤ 7) {r : McRequest}
    (hr : r.fields = [⟨2, 2, bpid⟩, ⟨4, 1, num.setWidth 8⟩]) :
    Bytes.load 16 (bytes r v) 2 2 = bpid ∧ Bytes.load 32 (bytes r v) 4 1 = num := by
  have hsmall : (num.setWidth 8).setWidth 32 = num := by
    have : num.toNat ≤ 7 := hnum
    rw [← BitVec.toNat_inj, BitVec.toNat_setWidth, BitVec.toNat_setWidth,
      Nat.mod_eq_of_lt (by omega : num.toNat < 2 ^ 8), Nat.mod_eq_of_lt num.isLt]
  have hbpid := load_bytes_field v 16 ⟨2, 2, bpid⟩ [] [⟨4, 1, num.setWidth 8⟩] hr (by simp)
    (by simp [Bytes.Field.Apart])
  have hlast := load_bytes_field v 32 ⟨4, 1, num.setWidth 8⟩ [⟨2, 2, bpid⟩] [] hr (by simp)
    (by simp)
  exact ⟨hbpid.trans (BitVec.setWidth_eq bpid), hlast.trans hsmall⟩

/-- The four fields of a channel configuration. -/
theorem load_cdan (ch : U16) (we en : U8) (ctx : U64) :
    let b := bytes (qbmanSwpCDANSetRequest ch we en ctx) v
    Bytes.load 16 b 2 2 = ch ∧ Bytes.load 8 b 4 1 = we ∧
      Bytes.load 8 b 5 1 = (if en ≠ 0 then 1 else 0) ∧ Bytes.load 64 b 8 8 = ctx := by
  let fch : Bytes.Field := ⟨2, 2, ch⟩
  let fwe : Bytes.Field := ⟨4, 1, we⟩
  let fen : Bytes.Field := ⟨5, 1, if en ≠ 0 then 1 else 0⟩
  let fctx : Bytes.Field := ⟨8, 8, ctx⟩
  refine ⟨?_, ?_, ?_, ?_⟩
  · exact (load_bytes_field v 16 fch [] [fwe, fen, fctx] rfl (by simp [fch])
      (by simp [Bytes.Field.Apart, fch, fwe, fen, fctx])).trans (BitVec.setWidth_eq ch)
  · exact (load_bytes_field v 8 fwe [fch] [fen, fctx] rfl (by simp [fwe])
      (by simp [Bytes.Field.Apart, fwe, fen, fctx])).trans (BitVec.setWidth_eq we)
  · exact (load_bytes_field v 8 fen [fch, fwe] [fctx] rfl (by simp [fen])
      (by simp [Bytes.Field.Apart, fen, fctx])).trans (BitVec.setWidth_eq _)
  · exact (load_bytes_field v 64 fctx [fch, fwe, fen] [] rfl (by simp [fctx])
      (by simp)).trans (BitVec.setWidth_eq ctx)

/-- The id and the command type of a statistics query. -/
theorem load_statistics {cgid : U32} (hid : cgid.toNat < 2 ^ 16) (clear : Int) (ct : U32) :
    let b := bytes (qbmanCgrStatisticsQueryRequest cgid clear ct) v
    Bytes.load 32 b 2 2 = cgid ∧
      Bytes.load 8 b 5 1 = if ct < 2 then ct.setWidth 8 else 0 := by
  let fid : Bytes.Field := ⟨2, 2, cgid.setWidth 16⟩
  let fct : Bytes.Field := ⟨5, 1, ct.setWidth 8⟩
  by_cases hct : ct < 2
  · have hr : (qbmanCgrStatisticsQueryRequest cgid clear ct).fields = [fid, fct] := by
      unfold qbmanCgrStatisticsQueryRequest
      rw [if_pos hct]
    rw [if_pos hct]
    refine ⟨?_, ?_⟩
    · exact (load_bytes_field v 32 fid [] [fct] hr (by simp [fid])
        (by simp [Bytes.Field.Apart, fid, fct])).trans (setWidth_of_lt hid)
    · exact (load_bytes_field v 8 fct [fid] [] hr (by simp [fct]) (by simp)).trans
        (BitVec.setWidth_eq _)
  · have hr : (qbmanCgrStatisticsQueryRequest cgid clear ct).fields = [fid] := by
      unfold qbmanCgrStatisticsQueryRequest
      rw [if_neg hct]
    rw [if_neg hct]
    refine ⟨?_, ?_⟩
    · exact (load_bytes_field v 32 fid [] [] hr (by simp [fid]) (by simp)).trans
        (setWidth_of_lt hid)
    · -- no field covers the command type, which is the zero that was handed out
      have hzero : Bytes.load 8 (Bytes.storeFields 0 [fid] fun _ => 0) (0 + 5) 1 =
          Bytes.load 8 (fun _ => 0) (0 + 5) 1 :=
        Bytes.load_storeFields_of_apart (by simp [Bytes.Field.Apart, fid])
      rw [load_bytes _ _ _ (by decide), hr]
      exact hzero

/-- The write-enable mask and the control byte tell the channel configurations apart. -/
theorem decode_cdan (ch : U16) (we en : U8) (ctx : U64) :
    decode (bytes (qbmanSwpCDANSetRequest ch we en ctx) v) = some (
      if we = codeCdanWeCtx then cdanSetContext ch ctx
      else if we = codeCdanWeEn ||| codeCdanWeCtx then cdanSetContextEnable ch ctx
      else if en ≠ 0 then cdanEnable ch else cdanDisable ch) := by
  obtain ⟨hch, hwe, hen, hctx⟩ := load_cdan v ch we en ctx
  rw [decode, verb_bytes (c := qbmanWqchanConfigure) rfl (by decide) v]
  show decodeCdan _ = _
  rw [decodeCdan, hch, hwe, hen, hctx]
  grind

/-- The verb tells whether a statistics query clears, the command type whose statistics it reads. -/
theorem decode_statistics {cgid : U32} (hid : cgid.toNat < 2 ^ 16) {clear : Int}
    (hclear : clear = 0 ∨ clear = 1) (ct : U32) :
    decode (bytes (qbmanCgrStatisticsQueryRequest cgid clear ct) v) = some (
      if (if ct < 2 then ct.setWidth 8 else 0 : U8) = 1 then ccgrRejectStatistics cgid clear
      else cqDequeueStatistics cgid clear) := by
  have hstat : decode (bytes (qbmanCgrStatisticsQueryRequest cgid clear ct) v) =
      decodeStatistics (bytes (qbmanCgrStatisticsQueryRequest cgid clear ct) v) clear := by
    obtain rfl | rfl := hclear
    · rw [decode, verb_bytes (c := qbmanCgrStatQuery) rfl (by decide) v]
      rfl
    · rw [decode, verb_bytes (c := qbmanCgrStatQueryClr) rfl (by decide) v]
      rfl
  obtain ⟨hcgid, hct⟩ := load_statistics v hid clear ct
  rw [hstat, decodeStatistics, hcgid, hct]
  generalize (if ct < 2 then ct.setWidth 8 else 0 : U8) = ct'
  split <;> rfl

end Fields

/-- The command of an API call tells the call, up to what is `asked`. -/
theorem decode_bytes {a : McApi} {r : McRequest} (hr : a.request = some r) (ha : a.InRange)
    (v : Bool) : decode (bytes r v) = some a.asked := by
  have hverb (c : U8) (hr : r.verb = c) (hc : c &&& 0x7f = c) : bytes r v 0 &&& 0x7f = c :=
    verb_bytes hr hc v
  unfold decode
  cases a with
  | acquire b n =>
    have hn : ¬ (n = 0 ∨ n > 7) := by
      rintro (h | h)
      · exact ha.1 h
      · exact absurd ha.2 (BitVec.not_le.mpr h)
    simp only [request, qbmanSwpAcquireRequest, if_neg hn, Option.some.injEq] at hr
    obtain ⟨hb, hnum⟩ := load_acquire v b ha.2 (r := r) (by rw [← hr])
    rw [hverb qbmanMcAcquire (by rw [← hr]) (by decide), hb, hnum, ← hr]
    rfl
  | fqSchedule f =>
    obtain rfl := Option.some.inj hr
    rw [hverb qbmanFqSchedule rfl (by decide), load_altFqState v ha]
    rfl
  | fqForce f =>
    obtain rfl := Option.some.inj hr
    rw [hverb qbmanFqForce rfl (by decide), load_altFqState v ha]
    rfl
  | fqXon f =>
    obtain rfl := Option.some.inj hr
    rw [hverb qbmanFqXon rfl (by decide), load_altFqState v ha]
    rfl
  | fqXoff f =>
    obtain rfl := Option.some.inj hr
    rw [hverb qbmanFqXoff rfl (by decide), load_altFqState v ha]
    rfl
  | cdanSetContext ch ctx =>
    obtain rfl := Option.some.inj hr
    exact decode_cdan v ch codeCdanWeCtx 0 ctx
  | cdanEnable ch =>
    obtain rfl := Option.some.inj hr
    exact decode_cdan v ch codeCdanWeEn 1 0
  | cdanDisable ch =>
    obtain rfl := Option.some.inj hr
    exact decode_cdan v ch codeCdanWeEn 0 0
  | cdanSetContextEnable ch ctx =>
    obtain rfl := Option.some.inj hr
    exact decode_cdan v ch (codeCdanWeEn ||| codeCdanWeCtx) 1 ctx
  | bpQuery i =>
    obtain rfl := Option.some.inj hr
    rw [hverb qbmanBpQuery rfl (by decide), qbmanBpQueryRequest,
      load_idQuery_wide v _ ha]
    rfl
  | fqQuery f =>
    obtain rfl := Option.some.inj hr
    rw [hverb qbmanFqQuery rfl (by decide), qbmanFqQueryRequest, load_fqQuery]
    rfl
  | fqQueryState f =>
    obtain rfl := Option.some.inj hr
    rw [hverb qbmanFqQueryNp rfl (by decide), qbmanFqQueryStateRequest, load_fqQuery]
    rfl
  | cgrQuery i =>
    obtain rfl := Option.some.inj hr
    rw [hverb qbmanCgrQuery rfl (by decide), qbmanCgrQueryRequest,
      load_idQuery_wide v _ ha]
    rfl
  | cgrWredQuery i =>
    obtain rfl := Option.some.inj hr
    rw [hverb qbmanWredQuery rfl (by decide), qbmanCgrWredQueryRequest,
      load_idQuery_wide v _ ha]
    rfl
  | wqchanQuery ch =>
    obtain rfl := Option.some.inj hr
    rw [hverb qbmanWqQuery rfl (by decide), qbmanWqchanQueryRequest, load_idQuery]
    rfl
  | cgrRejectStatistics i c =>
    obtain rfl := Option.some.inj hr
    exact decode_statistics v ha.1 ha.2 0xff
  | ccgrRejectStatistics i c =>
    obtain rfl := Option.some.inj hr
    exact decode_statistics v ha.1 ha.2 1
  | cqDequeueStatistics i c =>
    obtain rfl := Option.some.inj hr
    exact decode_statistics v ha.1 ha.2 0

/-! ## Commands as lines -/

/-- A line without its valid bit. -/
def withoutValid (l : Line) : Line := Function.update l 0 (l 0 &&& ~~~qbValidBit)

theorem getByte_withoutValid (w : U32) (j : Nat) :
    getByte (w &&& ~~~qbValidBit) j = if j = 0 then getByte w j &&& 0x7f else getByte w j := by
  have hbit (n : Nat) : (~~~qbValidBit).getLsbD n = (decide (n < 32) && decide (n ≠ 7)) := by
    rw [show qbValidBit = BitVec.twoPow 32 7 by decide, BitVec.getLsbD_not, BitVec.getLsbD_twoPow]
    by_cases h : n = 7 <;> simp [h, eq_comm]
  have hmask (n : Nat) (hn : n < 8) : (0x7f : U8).getLsbD n = decide (n ≠ 7) := by
    decide +revert
  refine BitVec.eq_of_getLsbD_eq fun i hi => ?_
  rw [getByte_getLsbD, BitVec.getLsbD_and, hbit]
  by_cases hj : j = 0
  · subst hj
    have h32 : i < 32 := by omega
    rw [if_pos rfl, BitVec.getLsbD_and, getByte_getLsbD, hmask i hi]
    simp [hi, h32]
  · have h7 : 8 * j + i ≠ 7 := by omega
    rw [if_neg hj, getByte_getLsbD]
    by_cases h32 : 8 * j + i < 32
    · simp [h7, h32]
    · simp [BitVec.getLsbD_of_ge w _ (Nat.le_of_not_lt h32)]

theorem byteOf_withoutValid (l : Line) {k : Nat} (hk : k < 64) :
    byteOf (withoutValid l) k = if k = 0 then byteOf l k &&& 0x7f else byteOf l k := by
  unfold byteOf withoutValid
  by_cases h : Fin.ofNat 16 (k / 4) = 0
  · have hword : k / 4 = 0 := by
      have := congrArg Fin.val h
      rwa [Fin.val_ofNat, Nat.mod_eq_of_lt (by omega)] at this
    have hmod : k % 4 = k := by omega
    rw [h, Function.update_self, getByte_withoutValid, hmod]
  · have hne : k ≠ 0 := by
      rintro rfl
      exact h rfl
    rw [Function.update_of_ne h, if_neg hne]

/-- The bytes of a command that was handed out all-zero. -/
theorem byteOf_image (r : McRequest) (v : Bool) {k : Nat} (hk : k < 64) :
    byteOf (r.image (fun _ => 0) v) k = bytes r v k := by
  have hzero : byteOf (fun _ => 0) = fun _ => 0 := by
    funext k
    simp [byteOf, getByte]
  rw [McRequest.image_eq_lineAt, byteOf_lineAt _ _ hk, hzero, Nat.zero_add]
  rfl

/-- Commands that agree but for the valid bit name the same call. -/
theorem decode_eq_of_image {r r' : McRequest} {v v' : Bool}
    (h : withoutValid (r.image (fun _ => 0) v) = withoutValid (r'.image (fun _ => 0) v')) :
    decode (bytes r v) = decode (bytes r' v') := by
  have hbyte (k : Nat) (hk : k < 64) := congrFun (congrArg byteOf h) k
  refine decode_congr ?_ fun k hpos hk => ?_
  · have h0 := hbyte 0 (by decide)
    rwa [byteOf_withoutValid _ (by decide), byteOf_withoutValid _ (by decide), if_pos rfl,
      if_pos rfl, byteOf_image _ _ (by decide), byteOf_image _ _ (by decide)] at h0
  · have hkne : k ≠ 0 := by omega
    have hk' := hbyte k hk
    rwa [byteOf_withoutValid _ hk, byteOf_withoutValid _ hk, if_neg hkne, if_neg hkne,
      byteOf_image _ _ hk, byteOf_image _ _ hk] at hk'

/-- The statistics of a congestion group, and those of a class queue with the same id. -/
def Confused (a a' : McApi) : Prop :=
  ∃ c cl, (a = cgrRejectStatistics c cl ∧ a' = cqDequeueStatistics c cl) ∨
    (a = cqDequeueStatistics c cl ∧ a' = cgrRejectStatistics c cl)

theorem asked_eq_self {a : McApi} (h : ∀ c cl, a ≠ cgrRejectStatistics c cl) : a.asked = a := by
  cases a with
  | cgrRejectStatistics c cl => exact absurd rfl (h c cl)
  | _ => rfl

theorem asked_eq {a a' : McApi} (h : a.asked = a'.asked) : a = a' ∨ Confused a a' := by
  by_cases ha : ∃ c cl, a = cgrRejectStatistics c cl
  · obtain ⟨c, cl, rfl⟩ := ha
    by_cases ha' : ∃ c cl, a' = cgrRejectStatistics c cl
    · obtain ⟨c', cl', rfl⟩ := ha'
      have hargs : cqDequeueStatistics c cl = cqDequeueStatistics c' cl' := h
      simp_all
    · rw [asked_eq_self fun c cl h => ha' ⟨c, cl, h⟩] at h
      exact .inr ⟨c, cl, .inl ⟨rfl, h.symm⟩⟩
  · rw [asked_eq_self fun c cl h => ha ⟨c, cl, h⟩] at h
    by_cases ha' : ∃ c cl, a' = cgrRejectStatistics c cl
    · obtain ⟨c', cl', rfl⟩ := ha'
      exact .inr ⟨c', cl', .inr ⟨h, rfl⟩⟩
    · rw [asked_eq_self fun c cl h => ha' ⟨c, cl, h⟩] at h
      exact .inl h

/-- The command type of a class queue is the zero that was handed out. -/
theorem image_confused (c : U32) (cl : Int) (v : Bool) :
    (qbmanCgrStatisticsQueryRequest c cl 0xff).image (fun _ => 0) v =
      (qbmanCgrStatisticsQueryRequest c cl 0).image (fun _ => 0) v := by
  let m : Bytes.Mem := Bytes.store (fun _ => 0) 2 2 (c.setWidth 16)
  have hct : Bytes.store m 5 1 (0 : U8) = m :=
    Bytes.store_zero fun x hx _ => Bytes.store_of_not_mem (by omega)
  have hfields : Bytes.storeFields 0 (qbmanCgrStatisticsQueryRequest c cl 0).fields
      (fun _ => 0) = m :=
    hct
  refine line_ext fun k hk => ?_
  rw [byteOf_image _ _ hk, byteOf_image _ _ hk]
  unfold bytes
  rw [hfields]
  rfl

end McApi

/-- A command tells its call, unless the call is one of a pair of statistics queries. -/
theorem McApi.image_injective_iff {a b : McApi} {r r' : McRequest} (hr : a.request = some r)
    (hr' : b.request = some r') (ha : a.InRange) (hb : b.InRange) :
    ((∃ v v', withoutValid (r.image (fun _ => 0) v) = withoutValid (r'.image (fun _ => 0) v')) →
      a = b) ↔ ¬ a.Confused b := by
  constructor
  · rintro h ⟨c, cl, ⟨rfl, rfl⟩ | ⟨rfl, rfl⟩⟩
    · obtain rfl := Option.some.inj hr
      obtain rfl := Option.some.inj hr'
      cases h ⟨true, true, congrArg withoutValid (image_confused c cl true)⟩
    · obtain rfl := Option.some.inj hr
      obtain rfl := Option.some.inj hr'
      cases h ⟨true, true, congrArg withoutValid (image_confused c cl true).symm⟩
  · rintro h ⟨v, v', heq⟩
    have hdecode := decode_eq_of_image heq
    rw [decode_bytes hr ha v, decode_bytes hr' hb v', Option.some.injEq] at hdecode
    exact (asked_eq hdecode).resolve_right h

/-- Two frame queue queries. -/
theorem McApi.image_injective_iff_fqQuery :
    ((∃ v v', withoutValid ((qbmanFqQueryRequest 5).image (fun _ => 0) v) =
        withoutValid ((qbmanFqQueryStateRequest 5).image (fun _ => 0) v')) →
      McApi.fqQuery 5 = .fqQueryState 5) ↔ ¬ (McApi.fqQuery 5).Confused (.fqQueryState 5) :=
  McApi.image_injective_iff (a := .fqQuery 5) (b := .fqQueryState 5) rfl rfl
    (show (5 : U32).toNat < 2 ^ 24 by decide) (show (5 : U32).toNat < 2 ^ 24 by decide)

/-- The two statistics of group 7: one command. -/
theorem McApi.image_not_injective :
    ¬ ∀ (a a' : McApi) (r r' : McRequest), a.request = some r → a'.request = some r' → a.InRange →
      a'.InRange →
      (∃ v v', withoutValid (r.image (fun _ => 0) v) = withoutValid (r'.image (fun _ => 0) v')) →
      a = a' := by
  intro h
  have heq := h (.cgrRejectStatistics 7 0) (.cqDequeueStatistics 7 0) _ _ rfl rfl
    ⟨by decide, .inl rfl⟩ ⟨by decide, .inl rfl⟩
    ⟨true, true, congrArg withoutValid (image_confused 7 0 true)⟩
  cases heq

end Qbman
