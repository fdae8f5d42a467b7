import Qbman.Eqcr.Direct
import Qbman.Lib.Settled

/-!
# Publishing a command last

In direct mode the hardware takes a slot as soon as its valid bit has the polarity of the slot's
next turn, so the word with the valid bit has to be the last store of a command. It is for single
frames and for `qbman_swp_enqueue_multiple_desc`; `qbman_swp_enqueue_multiple` patches the `dca`
byte of a frame after that word. A call publishes last exactly if no patch changes a byte
(`publishSys_publishedLast_iff`).
-/

namespace Qbman

variable {k N j₀ T K c lo n : Nat} {v₀ : Bool} {half pi : U32} {m : Region} {as bs : List Access}

/-! ## Slots that are left alone -/

/-- To a hardware that looks at turn `lo`, no store changes a slot that looks valid for its next
turn. -/
def SlotsKept (N j₀ : Nat) (v₀ : Bool) (lo : Nat) (m : Region) (accs : List Access) : Prop :=
  ∀ t, lo ≤ t → t < lo + N →
    Settled.Kept Region.access (fun m => m.slots (t % N))
      (fun l => (l 0).getLsbD 7 = Cyclic.phase N j₀ v₀ t) m accs

theorem slotsKept_append : SlotsKept N j₀ v₀ lo m (as ++ bs) ↔
    SlotsKept N j₀ v₀ lo m as ∧ SlotsKept N j₀ v₀ lo (m.run as) bs := by
  simp only [SlotsKept, Settled.kept_append, imp_and, forall_and]
  rfl

/-- A store in one slot leaves the others. -/
theorem Access.StoresIn.slots_eq {a : Access} {σ i : Nat} (h : a.StoresIn (64 * σ)) (hi : i ≠ σ)
    (m : Region) : (m.access a).slots i = m.slots i := by
  obtain ⟨off, hoff, hle, hlt⟩ := h
  funext j
  cases a with
  | cenaWord off' v =>
    obtain rfl := Option.some.inj hoff
    exact Function.update_of_ne (by omega) _ _
  | cenaByte off' v =>
    obtain rfl := Option.some.inj hoff
    exact Function.update_of_ne (by omega) _ _
  | cinhRead | cinhWrite | cenaRead | cenaMemset => cases hoff

/-- The body of a command leaves the first words of all slots. -/
theorem slots_zero_of_mem_enqueueBody {σ : Nat} {cl : Fin 8 → U32} {fd : QbmanFd} {a : Access}
    (ha : a ∈ enqueueBody (64 * σ) cl fd) (m : Region) (i : Nat) :
    (m.access a).slots i 0 = m.slots i 0 := by
  simp only [enqueueBody, memcpyWords, List.mem_append, List.mem_ofFn] at ha
  rcases ha with ⟨j, rfl⟩ | ⟨j, rfl⟩
  · refine Function.update_of_ne ?_ _ _
    simp only [Fin.val_zero]
    omega
  · refine Function.update_of_ne ?_ _ _
    simp only [Fin.val_zero]
    omega

section Loops

variable (hk : k ≤ 5) (hhalf : half.toNat = 2 ^ k - 1)
include hk hhalf

/-- The bodies of a batch go to slots that do not look valid, and leave them so. -/
theorem slotsKept_fillLoop (cl : Nat → Fin 8 → U32) (fd : Nat → QbmanFd) (i : Nat)
    (hpi : pi.toNat % 2 ^ k = T % 2 ^ k) (hn : T + n ≤ lo + 2 ^ k)
    (hstale : Stale (2 ^ k) j₀ v₀ T lo m) :
    SlotsKept (2 ^ k) j₀ v₀ lo m (fillLoop half cl fd n i pi) := by
  intro t ht ht'
  by_cases hold : t < T
  · refine Settled.kept_of_view fun m a ha => ?_
    obtain ⟨j, hj, hs⟩ := storesIn_fillLoop ha
    rw [eqcrSlotAt_turn hk hhalf hpi] at hs
    refine hs.slots_eq (fun he => ?_) m
    have := Cyclic.slot_inj_window (a := lo) (by omega) ht' (by omega) (by omega) he
    omega
  · refine Settled.kept_of_not_valid (fun m a ha hne => ?_) (hstale t (by omega) ht')
    obtain ⟨j, -, hb⟩ := mem_fillLoop ha
    rw [eqcrSlotAt_turn hk hhalf hpi] at hb
    rwa [slots_zero_of_mem_enqueueBody hb]

end Loops

/-! ## The patch of the `dca` byte -/

/-- The patch of a first word `w`, if there is one, leaves its `dca` byte as it is. -/
def DcaKept (w : U32) (dca : Option U8) : Prop := ∀ b, dca = some b → getByte w 1 = b

theorem getByte_or_vbit (w : U32) (v : Bool) : getByte (w ||| vbit v) 1 = getByte w 1 := by
  have hzero : (vbit v >>> (8 * 1)).setWidth 8 = 0#8 := by cases v <;> decide
  rw [getByte, BitVec.ushiftRight_or_distrib, BitVec.setWidth_or, hzero, BitVec.or_zero]
  rfl

/-- The word with the valid bit goes to a slot that does not look valid. -/
theorem slotsKept_verb (w : U32) (hlo : lo ≤ T) (hT : T < lo + N)
    (hstale : Stale N j₀ v₀ T lo m) :
    SlotsKept N j₀ v₀ lo m [.cenaWord (64 * (T % N)) w] := by
  intro t ht ht'
  refine Settled.kept_singleton.mpr fun hvalid => ?_
  have hne : t ≠ T := fun he => hstale t (by omega) ht' hvalid
  have hslot : t % N ≠ T % N := fun he =>
    hne (Cyclic.slot_inj_window (a := lo) ht ht' hlo hT he)
  show (m.access _).slots (t % N) = m.slots (t % N)
  rw [Region.slots_cenaWord, Function.update_of_ne hslot]

/-- The patch changes a slot that looks valid, unless it changes no byte. -/
theorem slotsKept_dca_iff {w : U32} (dca : Option U8) (hlo : lo ≤ T) (hT : T < lo + N)
    (hword : m.slots (T % N) 0 = w ||| vbit (Cyclic.phase N j₀ v₀ T)) (hw : w &&& qbValidBit = 0) :
    SlotsKept N j₀ v₀ lo m (dca.toList.map (.cenaByte (64 * (T % N) + 1))) ↔ DcaKept w dca := by
  cases dca with
  | none => exact iff_of_true (fun _ _ _ => Settled.kept_nil) nofun
  | some b =>
    have hslots : ∀ i, (m.access (.cenaByte (64 * (T % N) + 1) b)).slots i = m.slots i ↔
        i = T % N → getByte w 1 = b := by
      intro i
      rw [Region.slots_cenaByte]
      by_cases hi : i = T % N
      · subst hi
        rw [Function.update_self, Function.update_eq_self_iff, setByte_eq_iff (by decide), hword,
          getByte_or_vbit]
        simp
      · rw [Function.update_of_ne hi]
        simp [hi]
    have hkept : DcaKept w (some b) ↔ getByte w 1 = b :=
      ⟨fun h => h b rfl, fun h _ hb => h.trans (Option.some.inj hb)⟩
    rw [hkept]
    simp only [SlotsKept, Option.toList_some, List.map_cons, List.map_nil, Settled.kept_singleton,
      hslots]
    constructor
    · intro h
      refine h T hlo hT ?_ rfl
      rw [hword, getLsbD_or_vbit hw]
    · exact fun h _ _ _ _ _ => h

section Loops

variable (hk : k ≤ 5) (hhalf : half.toNat = 2 ^ k - 1)
include hk hhalf

/-- The loop over the verbs leaves slots alone once they look valid, exactly if the patches do. -/
theorem slotsKept_verbLoop_iff {cl : Nat → Fin 8 → U32} (hcl : ∀ i, cl i 0 &&& qbValidBit = 0)
    (flags : Option (Nat → U32)) {i : Nat} (hpi : pi.toNat % 2 ^ k = T % 2 ^ k) (hlo : lo ≤ T)
    (hn : T + n ≤ lo + 2 ^ k) (hstale : Stale (2 ^ k) j₀ v₀ T lo m) :
    SlotsKept (2 ^ k) j₀ v₀ lo m
        (verbLoop half cl flags n i pi (vbit (Cyclic.phase (2 ^ k) j₀ v₀ T))) ↔
      ∀ j < n, DcaKept (cl (i + j) 0) (dcaByte flags (i + j)) := by
  induction n generalizing m i pi T with
  | zero => exact iff_of_true (fun _ _ _ => Settled.kept_nil) fun j hj =>
      absurd hj (Nat.not_lt_zero j)
  | succ n ih =>
    rw [verbLoop, eqcrSlot_turn hk hhalf hpi, flipAtWrap_phase hk hhalf hpi]
    set w := cl i 0 ||| vbit (Cyclic.phase (2 ^ k) j₀ v₀ T)
    set m₁ := m.access (.cenaWord (64 * (T % 2 ^ k)) w)
    set patch := (dcaByte flags i).toList.map (Access.cenaByte (64 * (T % 2 ^ k) + 1))
    have hm₁ : m₁.slots = Function.update m.slots (T % 2 ^ k)
        (Function.update (m.slots (T % 2 ^ k)) 0 w) := Region.slots_cenaWord _ _ _
    have hother : ∀ i', i' ≠ T % 2 ^ k → (m₁.run patch).slots i' = m.slots i' := by
      intro i' hi
      rw [← Function.update_of_ne hi (Function.update (m.slots (T % 2 ^ k)) 0 w) m.slots, ← hm₁]
      simp only [patch]
      cases dcaByte flags i with
      | none => rfl
      | some b =>
        show (m₁.access (.cenaByte _ b)).slots i' = _
        rw [Region.slots_cenaByte, Function.update_of_ne hi]
    have hstale' : Stale (2 ^ k) j₀ v₀ (T + 1) lo (m₁.run patch) := by
      intro t ht ht'
      rw [hother _ fun he => ?_]
      · exact hstale t (by omega) ht'
      · have := Cyclic.slot_inj_window (a := lo) (by omega) ht' hlo (by omega) he
        omega
    have hrest := ih (m := m₁.run patch) (i := i + 1) (turn_succ hk hpi) (by omega)
      (by omega) hstale'
    have hverb := slotsKept_verb w hlo (by omega) hstale
    have hpatch : SlotsKept (2 ^ k) j₀ v₀ lo m₁ patch ↔ DcaKept (cl i 0) (dcaByte flags i) := by
      refine slotsKept_dca_iff _ hlo (by omega) ?_ (hcl i)
      rw [hm₁, Function.update_self, Function.update_self]
    rw [← List.singleton_append, slotsKept_append, slotsKept_append, iff_true_intro hverb, true_and,
      Nat.forall_lt_succ_left]
    refine and_congr hpatch (hrest.trans (forall₂_congr fun j _ => ?_))
    rw [Nat.add_right_comm, Nat.add_assoc]

end Loops

/-! ## The counters -/

/-- The counters of a ring that count at most its free slots as free. -/
structure Eqcr.Within (k j₀ : Nat) (v₀ : Bool) (T K : Nat) (e : Eqcr) : Prop where
  small : k ≤ 5
  ring : e.piRingSize.toNat = 2 ^ k
  mask : e.piCiMask.toNat = 2 ^ (k + 1) - 1
  pi : e.pi.toNat = T % 2 ^ (k + 1)
  ci : e.ci.toNat = K % 2 ^ (k + 1)
  vb : e.piVb = vbit (Cyclic.phase (2 ^ k) j₀ v₀ T)
  nonneg : 0 ≤ e.available
  available : T + e.available ≤ (K + 2 ^ k : Nat)
  le : K ≤ T

namespace Eqcr.Within

variable {e : Eqcr}

theorem refill (h : e.Within k j₀ v₀ T K) {v : U32} (hv : v.toNat % 2 ^ (k + 1) = c % 2 ^ (k + 1))
    (hK : K ≤ c) (hT : c ≤ T) :
    (e.refill v).Within k j₀ v₀ T (if e.available = 0 then c else K) := by
  by_cases h0 : e.available = 0
  · have hfull := h.available
    obtain ⟨hci, hdist⟩ := refill_of_zero h.small h.ring h.mask h.ci h0 hv hK (by omega)
    rw [if_pos h0]
    refine ⟨h.small, ?_, ?_, ?_, hci, ?_, by omega, by omega, hT⟩
    all_goals rw [refill_frame]
    · exact h.ring
    · exact h.mask
    · exact h.pi
    · exact h.vb
  · rw [refill_of_ne h0, if_neg h0]
    exact h

theorem advanceBatch (h : e.Within k j₀ v₀ T K) (hn : (n : Int) ≤ e.available) :
    (e.advanceBatch n).Within k j₀ v₀ (T + n) K := by
  have hlt : 2 ^ k ≤ 32 := Nat.pow_le_pow_right (n := 2) (by decide) h.small
  have havail := h.available
  have hle := h.le
  refine ⟨h.small, h.ring, h.mask, advanceBatch_pi h.small h.mask h.pi (by omega), h.ci,
    advanceBatch_piVb h.small h.mask h.pi h.vb n, ?_, ?_, by omega⟩
  · simp only [Eqcr.advanceBatch]
    omega
  · simp only [Eqcr.advanceBatch]
    omega

end Eqcr.Within

/-! ## The ring -/

/-- What is known of a direct ring: no slot too many is counted as free, and the slots behind the
producer do not look valid. -/
structure RingState.Guarded (s : RingState) : Prop where
  mode : s.swp.sys.eqcrMode = .vbRing
  counts : s.swp.eqcr.Within 3 s.refTurn s.refVb s.next s.seen
  seen_le : s.seen ≤ s.cons
  cons_le : s.cons ≤ s.next
  hwVb : s.hwVb = s.polarity .direct s.cons
  stale : Stale 8 s.refTurn s.refVb s.next s.cons s.cena

namespace RingState.Guarded

variable {s : RingState}

/-- What a call does, on the refilled counters. -/
theorem run (h : s.Guarded) {call : EnqCall} {r : Regions} (hn : 0 ≤ call.numFrames)
    (hc : s.seen ≤ c) (hc' : c ≤ s.cons)
    (hv : (r.cena Impl.direct.ciReg).toNat % 2 ^ (Impl.direct.ringExp + 1) =
      c % 2 ^ (Impl.direct.ringExp + 1)) :
    let e := s.swp.eqcr.refill (r.cena Impl.direct.ciReg)
    let o := call.run Impl.direct.ptrs s.swp r
    e.Within 3 s.refTurn s.refVb s.next (if s.swp.eqcr.available = 0 then c else s.seen) ∧
      ∃ n : Nat, (n : Int) = min call.numFrames e.available ∧ call.accepted o.ret = n ∧
        o.swp = { s.swp with eqcr := if e.available = 0 then e else e.advanceBatch n } ∧
        o.accs = s.swp.eqcr.refillReads Impl.direct.ciReg (r.cena Impl.direct.ciReg) ++
          batchStores e call.cl call.fd call.flags n := by
  have he := h.counts.refill hv hc (Nat.le_trans hc' h.cons_le)
  obtain ⟨hacc, hswp, haccs⟩ := call.run_batch .direct h.mode he.mask he.nonneg hn
  obtain ⟨n, hmin, hret, hswp', haccs'⟩ := enqueueBatch_cases Impl.direct.notify call.cl call.fd
    call.flags he.nonneg hn
  refine ⟨he, n, hmin, ?_, hswp.trans hswp', ?_⟩
  · rw [hacc, hret, Int.toNat_natCast]
  · rw [haccs, haccs']
    simp only [Impl.notify, ite_self, List.append_nil]

theorem call (h : s.Guarded) {call : EnqCall} {r : Regions} (hn : 0 ≤ call.numFrames)
    (hc : s.seen ≤ c) (hc' : c ≤ s.cons)
    (hv : (r.cena Impl.direct.ciReg).toNat % 2 ^ (Impl.direct.ringExp + 1) =
      c % 2 ^ (Impl.direct.ringExp + 1)) : (s.afterCall .direct call r c).Guarded := by
  obtain ⟨he, n, hmin, hacc, hswp, haccs⟩ := h.run hn hc hc' hv
  have hnext := RingState.next_afterCall .direct s call r c
  rw [hacc] at hnext
  have hcons := h.cons_le
  have hroom := he.available
  have hswp' : (s.afterCall .direct call r c).swp = _ := hswp
  have hcena : (s.afterCall .direct call r c).cena = s.cena.run _ := congrArg s.cena.run haccs
  refine ⟨?_, ?_, ?_, ?_, h.hwVb, fun t ht ht' => ?_⟩
  · rw [hswp']
    exact h.mode
  · rw [hswp', hnext]
    show Eqcr.Within 3 s.refTurn s.refVb (s.next + n)
      (if s.swp.eqcr.available = 0 then c else s.seen) (if _ then _ else _)
    by_cases hzero : (s.swp.eqcr.refill (r.cena Impl.direct.ciReg)).available = 0
    · obtain rfl : n = 0 := by omega
      rw [if_pos hzero]
      exact he
    · rw [if_neg hzero]
      exact he.advanceBatch (by omega)
  · show (if s.swp.eqcr.available = 0 then c else s.seen) ≤ s.cons
    split
    · exact hc'
    · exact h.seen_le
  · rw [hnext]
    exact Nat.le_add_right_of_le hcons
  · -- The slots behind the new commands are as they were.
    rw [hnext] at ht
    have ht₈ : t < s.cons + 8 := ht'
    have hother : ∀ j < n, t % 8 ≠ (s.next + j) % 8 := by
      intro j hj he
      have := Cyclic.slot_inj_window (a := s.cons) (N := 8) (by omega) ht₈ (by omega) (by omega) he
      omega
    rw [hcena, Region.run_append, Eqcr.run_refillReads, batchStores, Region.run_append, he.vb,
      Region.slots_loops_other he.small (Eqcr.halfMask_toNat he.mask) call.cl call.fd call.flags _
        (mod_slot he.pi) hother]
    exact h.stale t (by omega) ht₈

theorem take (h : s.Guarded) (hr : s.directReady) : (s.afterTake .direct).Guarded := by
  have hready : (s.cena.slots (s.cons % 8) 0).getLsbD 7 = s.polarity .direct s.cons :=
    h.hwVb ▸ (show (s.cena.slots (s.cons % 8) 0).getLsbD 7 = s.hwVb from hr)
  have hlt : s.cons < s.next := by
    by_contra hge
    exact h.stale s.cons (by omega) (by omega) hready
  refine ⟨h.mode, h.counts, Nat.le_succ_of_le h.seen_le, hlt, ?_, h.stale.take (by decide) hready⟩
  show (if (s.cons + 1) % 8 = 0 then !s.hwVb else s.hwVb) =
    Cyclic.phase 8 s.refTurn s.refVb (s.cons + 1)
  rw [Cyclic.phase_succ, h.hwVb]
  rfl

end RingState.Guarded

/-- Between any two points of a call with the accesses `accs`, a slot that looks valid for its next
turn is the same. -/
def RingState.PublishedLast (s : RingState) (accs : List Access) : Prop :=
  ∀ pre mid post, accs = pre ++ mid ++ post → ∀ t, s.cons ≤ t → t < s.cons + 8 →
    ((s.cena.run pre).slots (t % 8) 0).getLsbD 7 = s.polarity .direct t →
      (s.cena.run (pre ++ mid)).slots (t % 8) = (s.cena.run pre).slots (t % 8)

theorem RingState.publishedLast_iff (s : RingState) (accs : List Access) :
    s.PublishedLast accs ↔ SlotsKept 8 s.refTurn s.refVb s.cons s.cena accs := by
  simp only [SlotsKept, Settled.kept_iff_splits]
  constructor
  · exact fun h t ht ht' pre mid post hsplit => h pre mid post hsplit t ht ht'
  · exact fun h pre mid post hsplit t ht ht' => h t ht ht' pre mid post hsplit

theorem slots_zero_fillLoop (hk : k ≤ 5) (hhalf : half.toNat = 2 ^ k - 1)
    (cl : Nat → Fin 8 → U32) (fd : Nat → QbmanFd) (m : Region) (n i : Nat)
    (hpi : pi.toNat % 2 ^ k = T % 2 ^ k) (σ : Nat) :
    (m.run (fillLoop half cl fd n i pi)).slots σ 0 = m.slots σ 0 := by
  induction n generalizing m i pi T with
  | zero => rfl
  | succ n ih =>
    rw [fillLoop, Region.run_append, ih _ _ (turn_succ hk hpi), eqcrSlot_turn hk hhalf hpi,
      Region.slots_enqueueBody]
    by_cases hσ : σ = T % 2 ^ k
    · subst hσ
      rw [Function.update_self]
      rfl
    · rw [Function.update_of_ne hσ]

/-- A call publishes last exactly if the patches of the frames it accepts change no byte. -/
theorem RingState.Guarded.publishedLast_iff {s : RingState} (h : s.Guarded) {call : EnqCall}
    {r : Regions} (hok : call.Valid) (hc : s.seen ≤ c) (hc' : c ≤ s.cons)
    (hv : (r.cena Impl.direct.ciReg).toNat % 2 ^ (Impl.direct.ringExp + 1) =
      c % 2 ^ (Impl.direct.ringExp + 1)) :
    s.PublishedLast (call.run Impl.direct.ptrs s.swp r).accs ↔
      ∀ i : Nat, (i : Int) < call.numFrames →
        (i : Int) < (s.swp.eqcr.refill (r.cena Impl.direct.ciReg)).available →
          DcaKept (call.cl i 0) (dcaByte call.flags i) := by
  obtain ⟨he, n, hmin, -, -, haccs⟩ := h.run hok.2 hc hc' hv
  have hhalf := Eqcr.halfMask_toNat he.mask
  have hpi := mod_slot he.pi
  have hcons := h.cons_le
  have hroom : s.next + n ≤ s.cons + 2 ^ 3 := by
    have hseen : (if s.swp.eqcr.available = 0 then c else s.seen) ≤ s.cons := by
      split
      · exact hc'
      · exact h.seen_le
    have := he.available
    omega
  have hreads : SlotsKept 8 s.refTurn s.refVb s.cons s.cena
      (s.swp.eqcr.refillReads Impl.direct.ciReg (r.cena Impl.direct.ciReg)) := by
    refine fun t _ _ => Settled.kept_of_view fun m a ha => ?_
    obtain ⟨off, v, rfl⟩ := Eqcr.mem_refillReads ha
    rfl
  have hfill := slotsKept_fillLoop he.small hhalf call.cl call.fd 0 hpi hroom h.stale
  have hverb := slotsKept_verbLoop_iff (i := 0) he.small hhalf hok.1.validBit call.flags hpi hcons
    hroom (m := s.cena.run (fillLoop (s.swp.eqcr.refill (r.cena Impl.direct.ciReg)).halfMask call.cl
      call.fd n 0 (s.swp.eqcr.refill (r.cena Impl.direct.ciReg)).pi)) fun t ht ht' => by
        rw [slots_zero_fillLoop he.small hhalf call.cl call.fd _ n 0 hpi]
        exact h.stale t ht ht'
  rw [s.publishedLast_iff, haccs, batchStores, slotsKept_append, slotsKept_append,
    Eqcr.run_refillReads, he.vb]
  refine (and_iff_right hreads).trans ((and_iff_right hfill).trans (hverb.trans ?_))
  simp only [Nat.zero_add]
  constructor
  · intro hall i hi hi'
    exact hall i (by omega)
  · intro hall i hi
    exact hall i (by omega) (by omega)

/-! ## Runs -/

/-- The states after `qbman_swp_init` in which no slot too many is counted as free, since the
producer index that was read is even or the consumer index odd (`eqcrInit_room_iff`), and no slot
behind the inherited commands looks valid. -/
structure RingState.PublishInit (s : RingState) : Prop where
  built : ∃ g d env a, (qbmanSwpInit g d env).ret = some (a, s.swp) ∧
    (qbmanSwpInit g d env).globals.ptrs = Impl.direct.ptrs ∧ d.impl = .direct ∧ s.Fresh d env ∧
    ((env.cinh 2 qbmanCinhSwpEqcrPi).toNat % 2 = 0 ∨ (env.cinh 3 (initCiReg d)).toNat % 2 = 1)
  dist : s.swp.eqcr.dist .direct ≤ 8
  hwVb : s.hwVb = s.polarity .direct s.cons
  stale : Stale 8 s.refTurn s.refVb s.next s.cons s.cena

/-- The ring of a direct portal, inherited with commands in it or not. -/
def publishSys : Trans.Sys RingState RingLabel :=
  ringSys .direct RingState.PublishInit RingState.directReady EnqCall.Valid

section FreeCount

variable {x y : U32}

/-- The free count that `qbman_swp_init` computes, with the distance that it is computed from. -/
theorem eqcrInit_distances (hd : (eqcrInit false x y).dist .direct ≤ 8) :
    ∃ used : Nat, (eqcrInit false x y).available = 8 - (used : Int) ∧ used ≤ 8 ∧
      (used < (eqcrInit false x y).dist .direct ↔ x.toNat % 2 = 1 ∧ y.toNat % 2 = 0) := by
  have havail := eqcrInit_available .direct x y
  have hpi := eqcrInit_pi .direct x y
  have hci := eqcrInit_ci .direct x y
  simp only [Impl.memBacked, Impl.ringExp] at havail hpi hci
  have hx := Nat.mod_lt x.toNat (Nat.two_pow_pos 4)
  have hy := Nat.mod_lt y.toNat (Nat.two_pow_pos 4)
  rw [Eqcr.dist, Cyclic.cycDist_eq_ite (by simp only [Impl.ringExp]; omega)
    (by simp only [Impl.ringExp]; omega)] at hd ⊢
  refine ⟨_, havail, ?_⟩
  rw [Cyclic.cycDist_eq_ite (by omega) (by omega)]
  simp only [Impl.ringExp] at hd ⊢
  split at hd <;> split <;> omega

theorem eqcrInit_nonneg (hd : (eqcrInit false x y).dist .direct ≤ 8) :
    0 ≤ (eqcrInit false x y).available := by
  obtain ⟨used, havail, hle, -⟩ := eqcrInit_distances hd
  omega

/-- No slot too many is counted as free exactly if the producer index that was read is even or the
consumer index odd. -/
theorem eqcrInit_room_iff (hd : (eqcrInit false x y).dist .direct ≤ 8) :
    (eqcrInit false x y).available ≤ (8 - (eqcrInit false x y).dist .direct : Nat) ↔
      x.toNat % 2 = 0 ∨ y.toNat % 2 = 1 := by
  obtain ⟨used, havail, -, hparity⟩ := eqcrInit_distances hd
  rw [havail]
  omega

end FreeCount

theorem RingState.PublishInit.guarded {s : RingState} (h : s.PublishInit) : s.Guarded := by
  obtain ⟨g, d, env, a, hp, -, himpl, hf, hparity⟩ := h.built
  obtain ⟨-, -, -, -, -, -, heqcr, hmode, -⟩ := qbmanSwpInit_some hp
  rw [← d.impl_memBacked, himpl] at heqcr
  have hdist := h.dist
  have hroom : s.swp.eqcr.available ≤ (8 - s.swp.eqcr.dist .direct : Nat) := by
    rw [heqcr] at hdist ⊢
    exact (eqcrInit_room_iff hdist).mpr hparity
  have hlen : s.accepted.length = s.swp.eqcr.dist .direct := himpl ▸ hf.accepted
  refine ⟨hmode.trans hf.mode, ?_, ?_, ?_, h.hwVb, h.stale⟩
  · rw [RingState.next, hlen, hf.seen, hf.start, hf.refTurn, hf.refVb]
    rw [heqcr] at hdist hroom ⊢
    exact ⟨by decide, eqcrInit_ring .direct _ _, eqcrInit_mask .direct _ _,
      (eqcrInit_turn .direct _ _).symm, eqcrInit_ci_mod .direct _ _, eqcrInit_vb .direct _ _,
      eqcrInit_nonneg hdist, by omega, by omega⟩
  · rw [hf.seen, hf.cons]
  · rw [hf.cons, RingState.next]
    exact Nat.le_add_right _ _

theorem publishSys_inductive : publishSys.Inductive RingState.Guarded where
  init _ h := h.guarded
  step s l t h hstep := by
    cases l with
    | call call r c =>
      obtain ⟨hok, hc, hc', hv, rfl⟩ := hstep
      exact h.call hok.2 hc hc' hv
    | take =>
      obtain ⟨hr, rfl⟩ := hstep
      exact h.take hr

/-- An empty ring over cleared memory, whose first turn has polarity one. -/
theorem publishSys_reach_cleared : ∃ p : QbmanSwp, p.eqcr.ci = 0 ∧ p.eqcr.available = 8 ∧
    publishSys.Reach (RingState.cleared p) := by
  let p := ((qbmanSwpInit {} (.rev4100 .vbRing 0) (.ok 0x1000 0x80 0)).ret.get rfl).2
  have hnext : (RingState.cleared p).next = 0 := by decide
  refine ⟨p, by decide, by decide, .of_init
    ⟨⟨{}, .rev4100 .vbRing 0, .ok 0x1000 0x80 0, 0x1000, rfl, rfl, rfl,
      ⟨rfl, rfl, rfl, by decide, rfl, rfl, by decide, rfl, fun i hi => ?_⟩, .inl (by decide)⟩,
      by decide, by decide, fun t _ ht => ?_⟩⟩
  · cases hi
  · have hdiv : t / 8 = 0 := Nat.div_eq_of_lt ht
    have hturn : (RingState.cleared p).refTurn = 0 := by decide
    have hvb : (RingState.cleared p).refVb = true := by decide
    rw [hturn, hvb]
    simp [Cyclic.phase, hdiv, RingState.cleared, Region.slots, Region.line]

/-- A call on such a ring. -/
theorem publishSys_step_cleared {p : QbmanSwp} (hci : p.eqcr.ci = 0) {call : EnqCall}
    (hok : call.Valid) :
    publishSys.step (RingState.cleared p) (.call call ⟨fun _ => 0, fun _ => 0⟩ 0)
      ((RingState.cleared p).afterCall .direct call ⟨fun _ => 0, fun _ => 0⟩ 0) := by
  have hseen : (RingState.cleared p).seen = 0 := congrArg BitVec.toNat hci
  exact ⟨hok, hseen.le, Nat.zero_le _, rfl, rfl⟩

/-- A call in any reachable state publishes last exactly if, for each frame that is offered and has
a free slot, the patch of the `dca` byte changes nothing. -/
theorem publishSys_publishedLast_iff {s t : RingState} (h : publishSys.Reach s) {call : EnqCall}
    {r : Regions} {c : Nat} (hstep : publishSys.step s (.call call r c) t) :
    s.PublishedLast (call.run Impl.direct.ptrs s.swp r).accs ↔
      ∀ i : Nat, (i : Int) < call.numFrames →
        (i : Int) < (s.swp.eqcr.refill (r.cena Impl.direct.ciReg)).available →
          DcaKept (call.cl i 0) (dcaByte call.flags i) := by
  obtain ⟨hok, hc, hc', hv, -⟩ := hstep
  exact (publishSys_inductive.reach h).publishedLast_iff hok hc hc' hv

/-- Two frames without the flag. -/
theorem publishSys_publishedLast_iff_two : ∃ s t call r, publishSys.Reach s ∧
    publishSys.step s (.call call r 0) t ∧ call.numFrames = 2 ∧
      s.PublishedLast (call.run Impl.direct.ptrs s.swp r).accs := by
  obtain ⟨p, hci, -, hreach⟩ := publishSys_reach_cleared
  let call : EnqCall := .multiple {} (fun i _ => BitVec.ofNat 32 i) (some fun _ => 3) 2
  have hok : call.Valid := ⟨⟨[], rfl⟩, (show (0 : Int) ≤ 2 by decide)⟩
  have hstep := publishSys_step_cleared hci hok
  refine ⟨_, _, call, _, hreach, hstep, rfl, (publishSys_publishedLast_iff hreach hstep).mpr ?_⟩
  intro i _ _ b hb
  have hnone : dcaByte (some fun _ => 3) i = none :=
    if_neg (show ¬ (3 : U32) &&& qbmanEnqueueFlagDca ≠ 0 by decide)
  cases hnone.symm.trans hb

/-- A frame with the flag: the valid slot changes once more. -/
theorem publishSys_not_publishedLast : ∃ s t call r, publishSys.Reach s ∧
    publishSys.step s (.call call r 0) t ∧
      ¬ s.PublishedLast (call.run Impl.direct.ptrs s.swp r).accs := by
  obtain ⟨p, hci, havail, hreach⟩ := publishSys_reach_cleared
  let call : EnqCall := .multiple {} (fun _ _ => 7) (some fun _ => qbmanEnqueueFlagDca ||| 3) 1
  have hok : call.Valid := ⟨⟨[], rfl⟩, Int.one_nonneg⟩
  have hstep := publishSys_step_cleared hci hok
  refine ⟨_, _, call, _, hreach, hstep, ?_⟩
  obtain ⟨-, hc, hc', hv, -⟩ := hstep
  rw [(publishSys_inductive.reach hreach).publishedLast_iff hok hc hc' hv]
  intro h
  have hfree : (p.eqcr.refill 0).available = 8 := by
    rw [Eqcr.refill_of_ne (by rw [havail]; decide), havail]
  have hkept := h 0 Int.one_pos (by
    show (0 : Int) < (p.eqcr.refill 0).available
    rw [hfree]
    decide)
  exact absurd (hkept 0x83 (by decide)) (by decide)

end Qbman
