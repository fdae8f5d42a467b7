import Qbman.Dqrr.Ring
import Qbman.Reject

/-!
# The index of a ring entry

`qbman_get_dqrr_idx` takes the index from bits 6 to 8 of an entry's address, which are those of its
offset in a portal region aligned to 4 KB. `qbman_get_dqrr_from_idx` reads the entry at the offset
of the direct ring, also on a memory-backed portal, and returns its copy in the shadow, whose
address has the alignment that `malloc` gave it (`dqrrIdx_roundTrip_iff`).
-/

namespace Qbman

/-- The pointer that `qbman_get_dqrr_from_idx` returns, and what it points to. -/
structure DqrrFromIdx where
  ptr : Addr
  entry : Line
  accs : List Access

/-- `qbman_get_dqrr_from_idx`: `qbman_cena_read` copies the line to the shadow. -/
def qbmanGetDqrrFromIdx (s : QbmanSwp) (idx : U8) (m : Region) : DqrrFromIdx :=
  let off := qbmanCenaSwpDqrr (idx.setWidth 32)
  { ptr := s.sys.cena + off, entry := m.line off, accs := qbmanCenaRead off m }

/-! ## The position of every portal -/

section Frame

variable {s : QbmanSwp} {r : Regions}

/-- A portal of some version, after some entries. -/
def QbmanSwp.DqrrPos (s : QbmanSwp) : Prop := ∃ resetBug n, s.dqrr.Pos resetBug n

theorem dqrrNextEntry_pos (off : Nat) (h : s.DqrrPos) (m : Region) :
    (dqrrNextEntry off s m).swp.DqrrPos := by
  obtain ⟨resetBug, n, hpos⟩ := h
  simp only [dqrrNextEntry]
  split
  · exact ⟨resetBug, n, hpos⟩
  · exact ⟨resetBug, n + 1, hpos.advance⟩

theorem qbmanSwpDqrrNext_pos (ptrs : FnPtrs) (h : s.DqrrPos) (r : Regions) :
    (qbmanSwpDqrrNext ptrs s r).swp.DqrrPos := by
  unfold qbmanSwpDqrrNext
  split
  · simp only [qbmanSwpDqrrNextDirect]
    split
    · split
      · exact h
      · -- The repaired workaround flag is not part of the position.
        refine dqrrNextEntry_pos _ ?_ _
        obtain ⟨resetBug, n, hpos⟩ := h
        split
        · exact ⟨resetBug, n, ⟨hpos.size, hpos.nextIdx, hpos.validBit⟩⟩
        · exact ⟨resetBug, n, hpos⟩
    · exact dqrrNextEntry_pos _ h _
  · exact dqrrNextEntry_pos _ h _

theorem PortalOp.after_dqrrPos (ptrs : FnPtrs) (h : s.DqrrPos) (op : PortalOp) :
    (op.after ptrs r s).DqrrPos := by
  have hframe : ∀ t : QbmanSwp, t.dqrr = s.dqrr → t.DqrrPos := by
    intro t ht
    rw [QbmanSwp.DqrrPos, ht]
    exact h
  cases op with
  | dataPath op =>
    cases op with
    | enqueue c => exact hframe _ (c.run_view QbmanSwp.dqrr (fun _ _ => rfl) ptrs s r)
    | pull d =>
      refine hframe _ ?_
      simp only [after, DataPathOp.call, qbmanSwpPull_eq, Outcome.map, pullCall]
      split <;> rfl
    | dqrrNext => exact qbmanSwpDqrrNext_pos ptrs h r
    | release d buffers n =>
      refine hframe _ ?_
      simp only [after, DataPathOp.call, qbmanSwpRelease_impl, Outcome.map, releaseCall_swp]
  | pullDecAndTest => exact hframe _ rfl
  | pullRestore => exact hframe _ rfl
  | pullSubmit impl d => exact hframe _ rfl
  | mcResult => exact hframe _ (qbmanSwpMcResult_view QbmanSwp.dqrr (fun _ _ _ => rfl) s r.cena)
  | hasNewResult dq l =>
    refine hframe _ ?_
    simp only [after, qbmanResultHasNewResult]
    split <;> rfl
  | commandComplete dq => exact hframe _ rfl
  | pushSet channelIdx enable => exact hframe _ rfl

end Frame

theorem swpDefaults_dqrrPos (d : QbmanSwpDesc) :
    ∃ resetBug, (swpDefaults d).dqrr.Pos resetBug 0 := by
  simp only [swpDefaults]
  split
  · exact ⟨true, rfl, rfl, rfl⟩
  · exact ⟨false, rfl, rfl, rfl⟩

theorem portalSys_dqrrPos : portalSys.Inductive QbmanSwp.DqrrPos where
  init s := by
    rintro ⟨g, d, env, a, hinit⟩
    obtain ⟨-, -, -, -, -, hdqrr, -⟩ := qbmanSwpInit_some hinit
    obtain ⟨resetBug, hpos⟩ := swpDefaults_dqrrPos d
    exact ⟨resetBug, 0, by rwa [hdqrr]⟩
  step s op t h := by
    rintro rfl
    exact op.2.2.after_dqrrPos op.1 h

/-! ## The entry of a poll -/

theorem dqrrNextEntry_ret {off off' : Nat} {s : QbmanSwp} {m : Region}
    (h : (dqrrNextEntry off s m).ret = some off') : off' = off := by
  simp only [dqrrNextEntry] at h
  grind

/-- A poll returns the entry of `next_idx` in the ring of its implementation. -/
theorem qbmanSwpDqrrNext_ret {ptrs : FnPtrs} {s : QbmanSwp} {r : Regions} {off : Nat}
    (h : (qbmanSwpDqrrNext ptrs s r).ret = some off) :
    off = match ptrs.dqrrNextPtr with
      | .direct => qbmanCenaSwpDqrr s.dqrr.nextIdx
      | .memBack => qbmanCenaSwpDqrrMem s.dqrr.nextIdx := by
  unfold qbmanSwpDqrrNext at h
  cases hptr : ptrs.dqrrNextPtr with
  | direct =>
    rw [hptr] at h
    simp only [qbmanSwpDqrrNextDirect] at h
    split at h
    · split at h
      · cases h
      · exact dqrrNextEntry_ret h
    · exact dqrrNextEntry_ret h
  | memBack =>
    rw [hptr] at h
    exact dqrrNextEntry_ret h

/-! ## The round trip -/

/-- From the entry at `off` to its index and back: the same bytes, the same index, and the same slot
for each way to consume it. -/
structure DqrrRoundTrip (s : QbmanSwp) (m : Region) (off : Nat) : Prop where
  bytes : (qbmanGetDqrrFromIdx s (qbmanGetDqrrIdx (s.sys.addrCena + off)) m).entry = m.line off
  idx : qbmanGetDqrrIdx (qbmanGetDqrrFromIdx s (qbmanGetDqrrIdx (s.sys.addrCena + off)) m).ptr =
    qbmanGetDqrrIdx (s.sys.addrCena + off)
  consume : qbmanSwpDqrrConsume
      (qbmanGetDqrrFromIdx s (qbmanGetDqrrIdx (s.sys.addrCena + off)) m).ptr =
    qbmanSwpDqrrConsume (s.sys.addrCena + off)
  idxConsume : qbmanSwpDqrrIdxConsume (qbmanGetDqrrIdx (s.sys.addrCena + off)) =
    qbmanSwpDqrrConsume (s.sys.addrCena + off)

theorem qbmanGetDqrrIdx_toNat (p : Addr) : (qbmanGetDqrrIdx p).toNat = p % 512 / 64 := by
  rw [qbmanGetDqrrIdx, qbmanIdxFromDqrr_eq, BitVec.toNat_ofNat]
  omega

theorem qbmanSwpDqrrConsume_congr {p q : Addr} (h : qbmanGetDqrrIdx p = qbmanGetDqrrIdx q) :
    qbmanSwpDqrrConsume p = qbmanSwpDqrrConsume q := by
  rw [← qbmanSwpDqrrIdxConsume_getIdx, ← qbmanSwpDqrrIdxConsume_getIdx, h]

/-- The address of an entry of either ring has its index, in a region that is aligned. -/
theorem idx_of_dqrrOff {base : Nat} (hbase : base % 4096 = 0) (impl : Impl) (resetBug : Bool)
    (n : Nat) : (base + impl.dqrrOff resetBug n) % 512 / 64 = n % dqrrEntries resetBug := by
  have hle := dqrrEntries_le resetBug
  have hlt := Nat.mod_lt n (dqrrEntries_pos resetBug)
  cases impl
  · show (base + (0x200 + 64 * (n % dqrrEntries resetBug))) % 512 / 64 = _
    omega
  · show (base + (0x800 + 64 * (n % dqrrEntries resetBug))) % 512 / 64 = _
    omega

/-- The address of the shadow copy has it if the shadow begins in the first line of 512 bytes. -/
theorem idx_of_shadow (cena : Nat) {i : Nat} (hi : i < 8) :
    (cena + (0x200 + 64 * i)) % 512 / 64 = i ↔ cena % 512 < 64 := by
  omega

/-- What the way back computes for the entry that a poll returned. -/
theorem Dqrr.Pos.fromIdx {s : QbmanSwp} {resetBug : Bool} {n : Nat} (h : s.dqrr.Pos resetBug n)
    {t : QbmanSwp} {p : Addr} (hp : (qbmanGetDqrrIdx p).toNat = n % dqrrEntries resetBug)
    (m : Region) :
    (qbmanGetDqrrFromIdx t (qbmanGetDqrrIdx p) m).entry =
        m.line (qbmanCenaSwpDqrr s.dqrr.nextIdx) ∧
      (qbmanGetDqrrFromIdx t (qbmanGetDqrrIdx p) m).ptr =
        t.sys.cena + Impl.direct.dqrrOff resetBug n := by
  have hidx : (qbmanGetDqrrIdx p).setWidth 32 = s.dqrr.nextIdx := by
    refine BitVec.eq_of_toNat_eq ?_
    rw [BitVec.toNat_setWidth, hp, h.nextIdx]
    have hle := dqrrEntries_le resetBug
    have hlt := Nat.mod_lt n (dqrrEntries_pos resetBug)
    exact Nat.mod_eq_of_lt (by omega)
  refine ⟨?_, ?_⟩
  · simp only [qbmanGetDqrrFromIdx, hidx]
  · simp only [qbmanGetDqrrFromIdx, hidx, h.off.1]

/-- The round trip closes if the shadow begins in the first line of 512 bytes, and on a
memory-backed portal the line of the direct ring holds what the entry holds. -/
theorem dqrrIdx_roundTrip_iff {s : QbmanSwp} (h : portalSys.Reach s)
    (hbase : s.sys.addrCena % 4096 = 0) (ptrs : FnPtrs) (r : Regions) {off : Nat}
    (hoff : (qbmanSwpDqrrNext ptrs s r).ret = some off) :
    DqrrRoundTrip (qbmanSwpDqrrNext ptrs s r).swp r.cena off ↔
      s.sys.cena % 512 < 64 ∧ (ptrs.dqrrNextPtr = .memBack →
        r.cena.line (qbmanCenaSwpDqrr s.dqrr.nextIdx) = r.cena.line off) := by
  obtain ⟨resetBug, n, hpos⟩ := portalSys_dqrrPos.reach h
  have hlt : n % dqrrEntries resetBug < 8 :=
    Nat.lt_of_lt_of_le (Nat.mod_lt n (dqrrEntries_pos resetBug)) (dqrrEntries_le resetBug)
  have hslot : off = ptrs.dqrrNextPtr.dqrrOff resetBug n := by
    rw [qbmanSwpDqrrNext_ret hoff]
    cases ptrs.dqrrNextPtr with
    | direct => exact hpos.off.1
    | memBack => exact hpos.off.2
  have hidx : (qbmanGetDqrrIdx (s.sys.addrCena + off)).toNat = n % dqrrEntries resetBug := by
    rw [qbmanGetDqrrIdx_toNat, hslot]
    exact idx_of_dqrrOff hbase _ resetBug n
  have hdirect : ptrs.dqrrNextPtr = .direct →
      r.cena.line (qbmanCenaSwpDqrr s.dqrr.nextIdx) = r.cena.line off := by
    intro hptr
    rw [hslot, hptr, hpos.off.1]
  have hsys := qbmanSwpDqrrNext_view QbmanSwp.sys (fun _ _ _ => rfl) ptrs s r
  obtain ⟨hentry, hptr⟩ := hpos.fromIdx (t := (qbmanSwpDqrrNext ptrs s r).swp) hidx r.cena
  have hback : qbmanGetDqrrIdx (s.sys.cena + Impl.direct.dqrrOff resetBug n) =
      qbmanGetDqrrIdx (s.sys.addrCena + off) ↔ s.sys.cena % 512 < 64 := by
    rw [← BitVec.toNat_inj, hidx, qbmanGetDqrrIdx_toNat]
    exact idx_of_shadow s.sys.cena hlt
  rw [hsys] at hptr
  constructor
  · intro htrip
    have hbytes := htrip.bytes
    have hsame := htrip.idx
    rw [hsys, hentry] at hbytes
    rw [hsys, hptr] at hsame
    exact ⟨hback.mp hsame, fun _ => hbytes⟩
  · rintro ⟨hcena, hmem⟩
    have hsame := hback.mpr hcena
    refine ⟨?_, ?_, ?_, ?_⟩
    · rw [hsys, hentry]
      cases hp : ptrs.dqrrNextPtr with
      | direct => exact hdirect hp
      | memBack => exact hmem hp
    · rw [hsys, hptr]
      exact hsame
    · rw [hsys, hptr]
      exact qbmanSwpDqrrConsume_congr hsame
    · exact qbmanSwpDqrrIdxConsume_getIdx _

/-- A direct portal with its shadow at `0x2000` and one entry in the ring. -/
theorem dqrrIdx_roundTrip_rev4100 :
    let r : Regions := ⟨fun a => if a = 0x200 then 0x80 else 0, fun _ => 0⟩
    (qbmanSwpDqrrNext {} (swpRev4100 0 0x1000) r).ret = some 0x200 ∧
      DqrrRoundTrip (qbmanSwpDqrrNext {} (swpRev4100 0 0x1000) r).swp r.cena 0x200 := by
  intro r
  have hreach : portalSys.Reach (swpRev4100 0 0x1000) :=
    .of_init ⟨{}, .rev4100 .vbRing 0, .ok 0x1000 0 0, 0x1000, rfl⟩
  have hret : (qbmanSwpDqrrNext {} (swpRev4100 0 0x1000) r).ret = some 0x200 := by decide
  exact ⟨hret, (dqrrIdx_roundTrip_iff hreach (by decide) {} r hret).mpr ⟨by decide, nofun⟩⟩

/-- With the shadow at `0x2050` the copy of entry 0 has the index 1. -/
theorem dqrrIdx_not_roundTrip :
    ∃ s r off, portalSys.Reach s ∧ s.sys.addrCena % 4096 = 0 ∧ s.sys.cena % 16 = 0 ∧
      (qbmanSwpDqrrNext {} s r).ret = some off ∧
      ¬ DqrrRoundTrip (qbmanSwpDqrrNext {} s r).swp r.cena off := by
  let env : InitEnv := { InitEnv.ok 0x1000 0 0 with mallocCena := some 0x2050 }
  let s := ((qbmanSwpInit {} (.rev4100 .vbRing 0) env).ret.get (by decide)).2
  let r : Regions := ⟨fun a => if a = 0x200 then 0x80 else 0, fun _ => 0⟩
  have hreach : portalSys.Reach s :=
    .of_init ⟨{}, .rev4100 .vbRing 0, env, _, (Option.some_get _).symm⟩
  refine ⟨s, r, 0x200, hreach, by decide, by decide, by decide, fun h => ?_⟩
  exact absurd h.idx (by decide)

end Qbman
