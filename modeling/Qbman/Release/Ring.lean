import Qbman.Eqcr.Enqueued
import Qbman.Grant
import Qbman.Release.Decode

/-!
# The release ring between the driver and the hardware

`rcrSys` interleaves `qbman_swp_release` calls with the hardware granting and taking entries of the
release ring, in any order. An entry is read as what its words say (`decodeRelease`), so that
`rcrSys_exact` is about buffers and pools: what calls reported as released is what the hardware took
and what still stands in granted entries.
-/

namespace Qbman

/-- The offset of the first entry of an implementation's release ring. -/
def Impl.rcrBase : Impl → Nat
  | .direct => 0x400
  | .memBack => 0x1400

theorem Impl.rcr_eq (impl : Impl) {i : U32} (h : i.toNat < 8) :
    impl.rcr i = impl.rcrBase + 64 * i.toNat := by
  have hshl : (i <<< 6).toNat = 64 * i.toNat := by
    rw [BitVec.toNat_shiftLeft, Nat.shiftLeft_eq]
    omega
  cases impl with
  | direct =>
    show (0x400 + i <<< 6).toNat = 0x400 + _
    rw [BitVec.toNat_add, hshl]
    show (0x400 + _) % 2 ^ 32 = _
    omega
  | memBack =>
    show (0x1400 + i <<< 6).toNat = 0x1400 + _
    rw [BitVec.toNat_add, hshl]
    show (0x1400 + _) % 2 ^ 32 = _
    omega

theorem rarIdx_lt (rar : U32) : (rarIdx rar).toNat < 8 := by
  rw [rarIdx, Words.toNat_and_mask _ _ (k := 3) rfl]
  exact Nat.mod_lt _ (by decide)

/-- The words of an entry are all that decoding it reads. -/
theorem decodeRelease_congr {w w' : Nat → U32} (h : ∀ i < 16, w i = w' i) :
    decodeRelease w = decodeRelease w' := by
  have hnum : ((w 0).setWidth 3).toNat < 8 := BitVec.isLt _
  have hbuffers : (List.range ((w 0).setWidth 3).toNat).map
      (fun i => w (2 * i + 3) ++ w (2 * i + 2)) =
      (List.range ((w 0).setWidth 3).toNat).map fun i => w' (2 * i + 3) ++ w' (2 * i + 2) := by
    refine List.map_congr_left fun i hi => ?_
    have := List.mem_range.mp hi
    rw [h _ (by omega), h _ (by omega)]
  rw [decodeRelease, decodeRelease, hbuffers, h 0 (by decide)]

/-! ## The ring -/

/-- A call: the history of its descriptor, the buffers and their number. -/
structure ReleaseOp where
  sets : List ReleaseDescSet
  buffers : Nat → U64
  n : U32

/-- The entry that a write to `RCR_AM_RT` names. -/
def rcrTold : Access → Option Nat
  | .cinhWrite off v =>
    if qbmanCinhSwpRcrAmRt ≤ off ∧ off < qbmanCinhSwpRcrAmRt + 4 * 8 ∧ v = qmanRtMode then
      some ((off - qbmanCinhSwpRcrAmRt) / 4)
    else none
  | _ => none

def rcrRing (impl : Impl) : GrantRing ReleaseOp ReleaseCmd where
  size := 8
  reg := qbmanCinhSwpRar
  grants := rarSuccess
  idx w := (rarIdx w).toNat
  vb w := w.getLsbD 7
  call s r op := qbmanSwpRelease impl.ptrs s r (ReleaseDescSet.build op.sets) op.buffers op.n
  asked op w := releaseAsked op.sets w op.buffers op.n
  read m i := decodeRelease (m.word (impl.rcrBase + 64 * i))
  bit m i := (decodeRelease (m.word (impl.rcrBase + 64 * i))).vb
  told := rcrTold
  doorbell := impl = .memBack

/-- At most seven buffers. -/
def ReleaseOp.Valid (op : ReleaseOp) : Prop := op.n.toNat ≤ 7

theorem filterMap_rcrTold_storeWords (off : Nat) (ws : List U32) :
    (storeWords off ws).filterMap rcrTold = [] := by
  refine List.filterMap_eq_nil_iff.mpr fun a ha => ?_
  obtain ⟨i, w, -, rfl⟩ := mem_storeWords.mp ha
  rfl

/-- A release tells the hardware of its entry in memory-backed mode. -/
theorem filterMap_rcrTold_notify (impl : Impl) {i : U32} (h : i.toNat < 8) :
    (impl.rcrNotify i).filterMap rcrTold = if impl = .memBack then [i.toNat] else [] := by
  cases impl with
  | direct => rfl
  | memBack =>
    have hin : qbmanCinhSwpRcrAmRt ≤ qbmanCinhSwpRcrAmRt + i.toNat * 4 ∧
        qbmanCinhSwpRcrAmRt + i.toNat * 4 < qbmanCinhSwpRcrAmRt + 4 * 8 ∧
          qmanRtMode = qmanRtMode := ⟨by omega, by omega, rfl⟩
    simp [Impl.rcrNotify, rcrTold, hin]

theorem rcrRing_spec (impl : Impl) : (rcrRing impl).Spec fun _ op => op.Valid where
  rejects s r op _ := by
    show Rejects s (qbmanSwpRelease _ _ _ _ _ _) _ _
    rw [qbmanSwpRelease_impl]
    exact releaseCall_rejects _ _ _ _ _
  puts s r op hok hgrants _ := by
    have hdec := qbmanSwpRelease_decodes_one impl.ptrs op.sets s op.buffers hok hgrants
    have hptr : impl.ptrs.releasePtr = impl := by cases impl <;> rfl
    rw [hptr] at hdec
    set rar := r.cinh qbmanCinhSwpRar
    have hlt := rarIdx_lt rar
    have hoff : impl.rcr (rar &&& 0x7) = impl.rcrBase + 64 * (rarIdx rar).toNat := impl.rcr_eq hlt
    have hdecode : ∀ m : Region, (rcrRing impl).read
        (m.run (qbmanSwpRelease impl.ptrs s r (ReleaseDescSet.build op.sets) op.buffers op.n).accs)
          (rarIdx rar).toNat = releaseAsked op.sets rar op.buffers op.n := by
      intro m
      have := hdec.decode m
      rwa [hoff] at this
    have hrest : ∀ (m : Region), ∀ j < 8, j ≠ (rarIdx rar).toNat → (rcrRing impl).read
        (m.run (qbmanSwpRelease impl.ptrs s r (ReleaseDescSet.build op.sets) op.buffers op.n).accs)
          j = (rcrRing impl).read m j := by
      intro m j _ hne
      refine decodeRelease_congr fun i hi => ?_
      refine hdec.frame m _ ?_
      rw [hoff]
      omega
    refine ⟨hdec.ret, ?_, hdecode, fun m => congrArg ReleaseCmd.vb (hdecode m),
      fun m j hj hne => ⟨hrest m j hj hne, congrArg ReleaseCmd.vb (hrest m j hj hne)⟩, ?_⟩
    · show (qbmanSwpRelease impl.ptrs s r _ _ _).swp = s
      rw [qbmanSwpRelease_impl, releaseCall_swp]
    · show (qbmanSwpRelease impl.ptrs s r _ _ _).accs.filterMap rcrTold = _
      rw [qbmanSwpRelease_impl, releaseCall_ok _ _ _ hgrants, hptr]
      simp only [List.filterMap_cons, List.filterMap_append, filterMap_rcrTold_storeWords, rcrTold,
        List.nil_append]
      rw [filterMap_rcrTold_notify impl hlt]
      cases impl <;> rfl
  told_read a ha := by
    cases a with
    | cinhRead off v => rfl
    | cenaRead off v => rfl
    | cinhWrite off v => exact ha.elim
    | cenaWord off v => exact ha.elim
    | cenaByte off v => exact ha.elim
    | cenaMemset len => exact ha.elim

/-- The release ring of an initialised portal. -/
def rcrSys (impl : Impl) : Trans.Sys (GrantState ReleaseCmd) (GrantLabel ReleaseOp) :=
  grantSys (rcrRing impl) (fun _ op => op.Valid) fun s =>
    ∃ g d env a, (qbmanSwpInit g d env).ret = some (a, s.swp) ∧ d.impl = impl

/-- The releases that calls reported as done are those the hardware took and those in granted
entries, each once; and the hardware finds a release in exactly the granted entries. -/
theorem rcrSys_exact {impl : Impl} {s : GrantState ReleaseCmd} (h : (rcrSys impl).Reach s) :
    s.Exact (rcrRing impl) := by
  obtain ⟨x, -, hrel⟩ := (grantSys_simulation (rcrRing_spec impl) _).reach h
  exact hrel.exact

/-- Two buffers released to entry 3 of a direct portal and taken. -/
theorem rcrSys_exact_one :
    ∃ s, (rcrSys .direct).Reach s ∧ s.taken.map ReleaseCmd.buffers = [[8, 9]] ∧
      s.Exact (rcrRing .direct) := by
  let op : ReleaseOp := ⟨[.bpid 5], fun i => if i = 0 then 8 else 9, 2⟩
  let r : Regions := ⟨fun _ => 0, fun _ => 0x183⟩
  let s₀ := GrantState.cleared ReleaseCmd (swpRev4100 0 0x1000)
  let s₁ := s₀.afterCall (rcrRing .direct) op r
  have hinit : (rcrSys .direct).init s₀ := by
    exact ⟨⟨{}, .rev4100 .vbRing 0, .ok 0x1000 0 0, 0x1000, rfl, rfl⟩, fun _ => rfl, by decide, rfl,
      rfl⟩
  have hcall : (rcrSys .direct).step s₀ (.call op r) s₁ :=
    ⟨Nat.le_of_lt_succ (by decide), fun _ => ⟨by decide, rfl, fun _ => by decide⟩, rfl⟩
  have htake : (rcrSys .direct).step s₁ (.take 3) (s₁.afterTake (rcrRing .direct) 3) :=
    ⟨by decide, by decide, rfl⟩
  have hreach := ((Trans.Sys.Reach.of_init hinit).step hcall).step htake
  exact ⟨_, hreach, by decide, rcrSys_exact hreach⟩

end Qbman
