import Qbman.Acquire
import Qbman.Release

/-!
# The bounds of the buffer arrays

The release functions assert their number of buffers with `QBMAN_BUG_ON` only, which is empty in the
default build: the words of eight buffers and more go past the 64 bytes of the ring entry.
`qbman_swp_acquire` checks the number it is given, and asserts the number it gets
(`bufferArrays_inBounds_iff`).
-/

namespace Qbman

/-! ## The words of a release -/

theorem mem_storeWords {a : Access} {off : Nat} {ws : List U32} :
    a ∈ storeWords off ws ↔ ∃ i w, ws[i]? = some w ∧ a = .cenaWord (off + 4 * i) w := by
  induction ws generalizing off with
  | nil => simp [storeWords]
  | cons w ws ih =>
    rw [storeWords, List.mem_cons, ih]
    constructor
    · rintro (rfl | ⟨i, v, hv, rfl⟩)
      · exact ⟨0, w, rfl, rfl⟩
      · exact ⟨i + 1, v, hv, by rw [Nat.mul_add, ← Nat.add_assoc, Nat.add_right_comm]⟩
    · rintro ⟨i, v, hv, rfl⟩
      cases i with
      | zero => exact .inl (by simp_all)
      | succ i => exact .inr ⟨i, v, hv, by rw [Nat.mul_add, ← Nat.add_assoc, Nat.add_right_comm]⟩

theorem getElem_mem_storeWords (off : Nat) {ws : List U32} {i : Nat} (h : i < ws.length) :
    .cenaWord (off + 4 * i) ws[i] ∈ storeWords off ws :=
  mem_storeWords.mpr ⟨i, _, List.getElem?_eq_getElem h, rfl⟩

theorem length_u64ToLe32Copy (bigEndian : Bool) (cnt : Nat) (ss : Nat → U32) :
    (u64ToLe32Copy bigEndian cnt ss).length = 2 * cnt := by
  rw [u64ToLe32Copy_eq, List.length_map, List.length_range]

/-- The loop reads `cnt` values. -/
theorem u64ToLe32Copy_congr {bigEndian : Bool} {cnt : Nat} {ss ss' : Nat → U32}
    (h : ∀ i < 2 * cnt, ss i = ss' i) :
    u64ToLe32Copy bigEndian cnt ss = u64ToLe32Copy bigEndian cnt ss' := by
  rw [u64ToLe32Copy_eq, u64ToLe32Copy_eq]
  exact List.map_congr_left fun i hi => h _ (hostPos_lt (List.mem_range.mp hi))

theorem hostWords_congr {bigEndian : Bool} {n : Nat} {buffers buffers' : Nat → U64}
    (h : ∀ i < n, buffers i = buffers' i) :
    ∀ i < 2 * n, hostWords bigEndian buffers i = hostWords bigEndian buffers' i := by
  intro i hi
  rw [hostWords, hostWords, h (i / 2) (by omega)]

/-- A release that fails only reads; it stores in the entry that `RAR` granted only, and what it
does depends on the first `n` buffers only. -/
structure ReleaseInBounds (ptrs : FnPtrs) (s : QbmanSwp) (r : Regions) (d : QbmanReleaseDesc)
    (buffers : Nat → U64) (n : U32) : Prop where
  error : (qbmanSwpRelease ptrs s r d buffers n).ret < 0 →
    (qbmanSwpRelease ptrs s r d buffers n).accs =
      [.cinhRead qbmanCinhSwpRar (r.cinh qbmanCinhSwpRar)]
  stores : ∀ a ∈ (qbmanSwpRelease ptrs s r d buffers n).accs, ∀ off, a.storeOff? = some off →
    ptrs.releasePtr.rcr (rarIdx (r.cinh qbmanCinhSwpRar)) ≤ off ∧
      off < ptrs.releasePtr.rcr (rarIdx (r.cinh qbmanCinhSwpRar)) + 64
  reads : ∀ buffers', (∀ i < n.toNat, buffers i = buffers' i) →
    qbmanSwpRelease ptrs s r d buffers n = qbmanSwpRelease ptrs s r d buffers' n

section

variable {rcr : U32 → Nat} {notify : U32 → List Access} {s : QbmanSwp} {r : Regions}
variable (d : QbmanReleaseDesc) (buffers : Nat → U64) (n : U32)

theorem releaseCall_busy (h : rarSuccess (r.cinh qbmanCinhSwpRar) = false) :
    releaseCall rcr notify s r d buffers n =
      ⟨-eBUSY, s, [.cinhRead qbmanCinhSwpRar (r.cinh qbmanCinhSwpRar)]⟩ := by
  simp [releaseCall, h]

theorem releaseCall_ok (h : rarSuccess (r.cinh qbmanCinhSwpRar) = true) :
    let rar := r.cinh qbmanCinhSwpRar
    releaseCall rcr notify s r d buffers n =
      ⟨0, s, .cinhRead qbmanCinhSwpRar rar ::
        (storeWords (rcr (rarIdx rar) + 8)
          (u64ToLe32Copy false n.toNat (hostWords false buffers)) ++
          .cenaWord (rcr (rarIdx rar)) (d.cl0 ||| rarVb rar ||| n) :: notify (rarIdx rar))⟩ := by
  simp [releaseCall, h]

end

theorem Impl.rcrNotify_storeOff {impl : Impl} {idx : U32} {a : Access}
    (h : a ∈ impl.rcrNotify idx) : a.storeOff? = none := by
  cases impl with
  | direct => cases h
  | memBack =>
    obtain rfl := List.mem_singleton.mp h
    rfl

/-- Where the words of a release with `n` buffers go. -/
theorem releaseInBounds_iff (ptrs : FnPtrs) (s : QbmanSwp) (r : Regions) (d : QbmanReleaseDesc)
    (buffers : Nat → U64) (n : U32) : ReleaseInBounds ptrs s r d buffers n ↔
      (rarSuccess (r.cinh qbmanCinhSwpRar) = true → n.toNat ≤ 7) := by
  cases hrar : rarSuccess (r.cinh qbmanCinhSwpRar) with
  | false =>
    have hbusy := fun buffers => (qbmanSwpRelease_impl ptrs s r d buffers n).trans
      (releaseCall_busy d buffers n hrar)
    refine iff_of_true ⟨fun _ => ?_, fun a ha off hoff => ?_, fun buffers' _ => ?_⟩ nofun
    · rw [hbusy]
    · rw [hbusy] at ha
      obtain rfl := List.mem_singleton.mp ha
      cases hoff
    · rw [hbusy, hbusy]
  | true =>
    have hok := fun buffers => (qbmanSwpRelease_impl ptrs s r d buffers n).trans
      (releaseCall_ok d buffers n hrar)
    have hlen := length_u64ToLe32Copy false n.toNat (hostWords false buffers)
    constructor
    · intro h _
      by_contra hn
      have hlast : 2 * n.toNat - 1 <
          (u64ToLe32Copy false n.toNat (hostWords false buffers)).length := by omega
      have hmem := getElem_mem_storeWords
        (ptrs.releasePtr.rcr (rarIdx (r.cinh qbmanCinhSwpRar)) + 8)
        hlast
      have hstore := h.stores _ (by rw [hok]; exact .tail _ (List.mem_append_left _ hmem)) _ rfl
      omega
    · intro hn
      refine ⟨fun hret => ?_, fun a ha off hoff => ?_, fun buffers' hsame => ?_⟩
      · rw [hok] at hret
        exact absurd hret (Int.lt_irrefl 0)
      · rw [hok] at ha
        rcases List.mem_cons.mp ha with rfl | ha
        · cases hoff
        · rcases List.mem_append.mp ha with ha | ha
          · obtain ⟨i, w, hw, rfl⟩ := mem_storeWords.mp ha
            have hi := (List.getElem?_eq_some_iff.mp hw).1
            have := hn rfl
            obtain rfl := Option.some.inj hoff
            omega
          · rcases List.mem_cons.mp ha with rfl | ha
            · obtain rfl := Option.some.inj hoff
              omega
            · rw [Impl.rcrNotify_storeOff ha] at hoff
              cases hoff
      · rw [hok, hok, u64ToLe32Copy_congr (hostWords_congr hsame)]

/-- The arrays stay in bounds for up to seven released buffers and for a response that grants no
more buffers than were asked for. -/
theorem bufferArrays_inBounds_iff (ptrs : FnPtrs) (s : QbmanSwp) (r : Regions)
    (d : QbmanReleaseDesc)
    (released : Nat → U64) (n : U32) (start : Line) (polls : Nat → Region) (after : Nat → U32)
    (bpid : U16) (buffers : Nat → U32) (numBuffers : U32) :
    (ReleaseInBounds ptrs s r d released n ↔
        (rarSuccess (r.cinh qbmanCinhSwpRar) = true → n.toNat ≤ 7)) ∧
      (AcquireInBounds buffers numBuffers
          (qbmanSwpAcquire s start polls after bpid buffers numBuffers) ↔
        ∀ l, AcquireGrants s polls numBuffers l → acquireNum l ≤ numBuffers.toNat) :=
  ⟨releaseInBounds_iff ptrs s r d released n,
    acquireInBounds_iff s start polls after bpid buffers numBuffers⟩

/-- Eight buffers are stored over the next entry, and a response may grant two buffers to a caller
who asked for one. -/
theorem bufferArrays_not_inBounds :
    ¬ ReleaseInBounds {} (swpRev4100 0 0x1000) ⟨fun _ => 0, fun _ => 0x180⟩ qbmanReleaseDescClear
        (fun _ => 0) 8 ∧
      ¬ AcquireInBounds (fun _ => 0) 1
        (qbmanSwpAcquire (swpRev4100 0 0x1000) (fun _ => 0) (fun _ _ => 0xf002) (fun _ => 0) 0
          (fun _ => 0) 1) := by
  constructor
  · rw [releaseInBounds_iff]
    exact fun h => absurd (h (by decide)) (by decide)
  · rw [acquireInBounds_iff]
    intro h
    let r := (mcOutcome (swpRev4100 0 0x1000) (fun _ _ => 0xf002) 0).get (by decide)
    have hr : mcResponse (swpRev4100 0 0x1000) (fun _ _ => 0xf002) = some r :=
      mcResponse_of_first (Option.some_get _).symm
    exact absurd (h r ⟨by decide, hr, by decide⟩) (by decide)

end Qbman
