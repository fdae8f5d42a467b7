import Qbman.Eqcr.Array
import Qbman.Eqcr.MemBack
import Qbman.Mc.Pairing
import Qbman.Push.Channels
import Qbman.Release.Ring
import Qbman.Vdq.Port

/-!
# What each interface of a portal owns

A portal has five interfaces in one: enqueues, dequeues (with the volatile dequeue command),
releases, management commands and push dequeues. Every offset of the cache-enabled region belongs to
one of them at most (`Impl.owner`), every register that the driver writes to one (`regOwner`), and
every field of the portal object that changes to one (`PortalPart.Same`). A call of one interface
stores to nothing that another owns.
-/

namespace Qbman

/-- An interface of a portal. -/
inductive PortalPart where
  | eqcr
  | dqrr
  | rcr
  | mc
  | sdqcr
  deriving DecidableEq

/-- The interface that an offset of the cache-enabled region belongs to. -/
def Impl.owner : Impl → Nat → Option PortalPart
  | .direct, off =>
    if off < 0x200 then some .eqcr
    else if off < 0x400 then some .dqrr
    else if off < 0x600 then some .rcr
    else if off < 0x780 then some .mc
    else if off < 0x7c0 then some .dqrr
    else none
  | .memBack, off =>
    if off < 0x800 then some .eqcr
    else if off < 0xa00 then some .dqrr
    else if off < 0x1400 then none
    else if off < 0x1600 then some .rcr
    else if off < 0x1780 then some .mc
    else if off < 0x17c0 then some .dqrr
    else none

/-- The interface that a register belongs to. -/
def regOwner (off : Nat) : Option PortalPart :=
  if off = qbmanCinhSwpEqcrPi then some .eqcr
  else if qbmanCinhSwpEqcrAmRt ≤ off ∧ off < qbmanCinhSwpEqcrAmRt + 4 * 16 then some .eqcr
  else if qbmanCinhSwpEqcrAmRt2 ≤ off ∧ off < qbmanCinhSwpEqcrAmRt2 + 4 * 16 then some .eqcr
  else if off = qbmanCinhSwpDcap ∨ off = qbmanCinhSwpVdqcrRt then some .dqrr
  else if qbmanCinhSwpRcrAmRt ≤ off ∧ off < qbmanCinhSwpRcrAmRt + 4 * 8 then some .rcr
  else if off = qbmanCinhSwpCrRt then some .mc
  else if off = qbmanCinhSwpSdqcr then some .sdqcr
  else none

/-- The fields of the portal object that an interface uses and changes are the same. -/
def PortalPart.Same (p q : QbmanSwp) : PortalPart → Prop
  | eqcr => q.eqcr = p.eqcr
  | dqrr => q.dqrr = p.dqrr ∧ q.vdq = p.vdq
  | rcr => True
  | mc => q.mc = p.mc ∧ q.mr = p.mr
  | sdqcr => q.sdq = p.sdq

variable {impl : Impl} {i j : PortalPart}

/-- The access stores or writes only what the interface owns. -/
def Access.OwnedBy (impl : Impl) (i : PortalPart) : Access → Prop
  | .cinhRead _ _ => True
  | .cenaRead _ _ => True
  | .cinhWrite off _ => regOwner off = some i
  | .cenaWord off _ => impl.owner off = some i
  | .cenaByte off _ => impl.owner (off - off % 4) = some i
  | .cenaMemset _ => False

/-- Accesses leave what their interface does not own as it was. -/
theorem Region.run_of_owned {accs : List Access} (h : ∀ a ∈ accs, a.OwnedBy impl i) (m : Region)
    {off : Nat} (hoff : impl.owner off ≠ some i) : m.run accs off = m off := by
  induction accs generalizing m with
  | nil => rfl
  | cons a accs ih =>
    obtain ⟨ha, haccs⟩ := List.forall_mem_cons.mp h
    have hne : ∀ off', impl.owner off' = some i → off ≠ off' := by
      rintro off' ho rfl
      exact hoff ho
    rw [Region.run_cons, ih haccs]
    cases a with
    | cinhRead off' v => rfl
    | cenaRead off' v => rfl
    | cinhWrite off' v => rfl
    | cenaWord off' v => exact Function.update_of_ne (hne off' ha) _ _
    | cenaByte off' v => exact Function.update_of_ne (hne _ ha) _ _
    | cenaMemset len => exact ha.elim

/-! ## The places of the interfaces -/

theorem owner_eqcr {off : Nat} (h : off < 64 * 2 ^ impl.ringExp) : impl.owner off = some .eqcr := by
  cases impl with
  | direct => exact if_pos h
  | memBack => exact if_pos h

theorem owner_dqrr {off : Nat} (h : impl.dqrrBase ≤ off) (h' : off < impl.dqrrBase + 64 * 8) :
    impl.owner off = some .dqrr := by
  cases impl <;> simp only [Impl.dqrrBase, Impl.owner] at * <;> grind

theorem owner_vdqcr {off : Nat} (h : impl.vdqcr ≤ off) (h' : off < impl.vdqcr + 64) :
    impl.owner off = some .dqrr := by
  cases impl <;> simp only [Impl.vdqcr, qbmanCenaSwpVdqcr, qbmanCenaSwpVdqcrMem,
    Impl.owner] at * <;>
    grind

theorem owner_rcr {off : Nat} (h : impl.rcrBase ≤ off) (h' : off < impl.rcrBase + 64 * 8) :
    impl.owner off = some .rcr := by
  cases impl <;> simp only [Impl.rcrBase, Impl.owner] at * <;> grind

theorem owner_cr {off : Nat} (h : impl.cr ≤ off) (h' : off < impl.cr + 64) :
    impl.owner off = some .mc := by
  cases impl <;> simp only [Impl.cr, qbmanCenaSwpCr, qbmanCenaSwpCrMem, Impl.owner] at * <;> grind

theorem owner_rr (b : Bool) {off : Nat} (h : impl.rr b ≤ off) (h' : off < impl.rr b + 64) :
    impl.owner off = some .mc := by
  have hrr : impl.rr b = match impl with
      | .direct => if b then 0x740 else 0x700
      | .memBack => 0x1680 := by
    cases impl <;> cases b <;> rfl
  rw [hrr] at h h'
  cases impl <;> cases b <;> simp only [Impl.owner] at * <;> grind

/-! ## The accesses of the interfaces -/

/-- The words of a `memcpy`. -/
theorem owned_memcpyWords {off n : Nat} (src : Fin n → U32)
    (h : ∀ k < n, impl.owner (off + 4 * k) = some i) :
    ∀ a ∈ memcpyWords off src, a.OwnedBy impl i := by
  intro a ha
  obtain ⟨k, rfl⟩ := List.mem_ofFn.mp ha
  exact h k k.isLt

theorem owned_of_storesIn {n : Nat} {a : Access} (hn : n < 2 ^ impl.ringExp)
    (h : a.StoresIn (64 * n)) : a.OwnedBy impl .eqcr := by
  obtain ⟨off, hoff, hle, hlt⟩ := h
  have hbound : 64 * n + 64 ≤ 64 * 2 ^ impl.ringExp := by omega
  cases a with
  | cinhRead off' v => trivial
  | cenaRead off' v => trivial
  | cinhWrite off' v => cases hoff
  | cenaMemset len => cases hoff
  | cenaWord off' v =>
    obtain rfl := Option.some.inj hoff
    exact owner_eqcr (by omega)
  | cenaByte off' v =>
    obtain rfl := Option.some.inj hoff
    exact owner_eqcr (Nat.lt_of_le_of_lt (Nat.sub_le _ _) (by omega))

/-- A call through the enqueue ring. -/
theorem owned_enqueued {k j₀ T K n : Nat} {v₀ : Bool} {cmd : Nat → U32 → Line} {s p : QbmanSwp}
    {accs : List Access} (h : Enqueued k j₀ v₀ T K impl.notify cmd s n p accs)
    (hk : k = impl.ringExp) : ∀ a ∈ accs, a.OwnedBy impl .eqcr := by
  subst hk
  obtain ⟨pre, hpre, haccs⟩ := h.accs_eq
  have hpre' : ∀ a ∈ pre, a.OwnedBy impl .eqcr := by
    intro a ha
    rcases hpre a ha with ⟨off, v, rfl⟩ | ⟨j, -, hs⟩
    · trivial
    · exact owned_of_storesIn (Nat.mod_lt _ (Nat.two_pow_pos _)) hs
  rcases haccs with rfl | ⟨-, rfl⟩
  · intro a ha
    rcases List.mem_append.mp ha with ha | ha
    · exact hpre' a ha
    · cases impl with
      | direct => cases ha
      | memBack =>
        obtain rfl := List.mem_singleton.mp ha
        rfl
  · exact hpre'

theorem owned_arrayNotify {idx : U32} (h : idx.toNat < 32) :
    ∀ a ∈ impl.arrayNotify idx, a.OwnedBy impl .eqcr := by
  intro a ha
  cases impl with
  | direct => cases ha
  | memBack =>
    have hidx : (idx.setWidth 8).toNat = idx.toNat := by
      rw [BitVec.toNat_setWidth]
      exact Nat.mod_eq_of_lt (by omega)
    simp only [Impl.arrayNotify, qbmanWriteEqcrAmRtRegister] at ha
    split at ha
    · rename_i hlow
      have hlt : (idx.setWidth 8).toNat < 16 := hlow
      obtain rfl := List.mem_singleton.mp ha
      simp only [Access.OwnedBy, regOwner, qbmanCinhSwpEqcrPi, qbmanCinhSwpEqcrAmRt]
      grind
    · obtain rfl := List.mem_singleton.mp ha
      simp only [Access.OwnedBy, regOwner, qbmanCinhSwpEqcrPi, qbmanCinhSwpEqcrAmRt,
        qbmanCinhSwpEqcrAmRt2]
      grind

/-- A call in array mode that was granted a slot of the ring, or none. -/
theorem owned_enqueueArrayMode {s : QbmanSwp} {r : Regions} (d : QbmanEqDesc) (fd : QbmanFd)
    (h : eqarSuccess (r.cinh qbmanCinhSwpEqar) ≠ 0 →
      (eqarIdx (r.cinh qbmanCinhSwpEqar)).toNat < 2 ^ impl.ringExp) :
    ∀ a ∈ (enqueueArrayMode impl.arrayNotify s r d fd).accs, a.OwnedBy impl .eqcr := by
  by_cases hok : eqarSuccess (r.cinh qbmanCinhSwpEqar) = 0
  · simp only [enqueueArrayMode, if_pos hok]
    intro a ha
    obtain rfl := List.mem_singleton.mp ha
    trivial
  · have hlt := h hok
    have hbound : 64 * (eqarIdx (r.cinh qbmanCinhSwpEqar)).toNat + 64 ≤ 64 * 2 ^ impl.ringExp := by
      omega
    rw [enqueueArrayMode_ok d fd hok]
    intro a ha
    rcases List.mem_cons.mp ha with rfl | ha
    · trivial
    rcases List.mem_append.mp ha with ha | ha
    · exact owned_of_storesIn hlt (storesIn_enqueueBody ha)
    rcases List.mem_cons.mp ha with rfl | ha
    · exact owner_eqcr (by omega)
    · exact owned_arrayNotify (eqarIdx_lt _) a ha

theorem owned_rcrNotify {idx : U32} (h : idx.toNat < 8) :
    ∀ a ∈ impl.rcrNotify idx, a.OwnedBy impl .rcr := by
  intro a ha
  cases impl with
  | direct => cases ha
  | memBack =>
    obtain rfl := List.mem_singleton.mp ha
    simp only [Access.OwnedBy, regOwner, qbmanCinhSwpEqcrPi, qbmanCinhSwpEqcrAmRt,
      qbmanCinhSwpEqcrAmRt2, qbmanCinhSwpRcrAmRt, qbmanCinhSwpDcap, qbmanCinhSwpVdqcrRt]
    grind

/-- A release of at most seven buffers. -/
theorem owned_release {s : QbmanSwp} {r : Regions} (d : QbmanReleaseDesc) (buffers : Nat → U64)
    {n : U32} (hn : n.toNat ≤ 7) :
    ∀ a ∈ (qbmanSwpRelease impl.ptrs s r d buffers n).accs, a.OwnedBy impl .rcr := by
  have hptr : impl.ptrs.releasePtr = impl := by cases impl <;> rfl
  rw [qbmanSwpRelease_impl, hptr]
  cases hok : rarSuccess (r.cinh qbmanCinhSwpRar) with
  | false =>
    simp only [releaseCall, hok, Bool.not_false, if_true]
    intro a ha
    obtain rfl := List.mem_singleton.mp ha
    trivial
  | true =>
    have hlt := rarIdx_lt (r.cinh qbmanCinhSwpRar)
    have hlen := length_u64ToLe32Copy false n.toNat (hostWords false buffers)
    rw [releaseCall_ok _ _ _ hok, impl.rcr_eq hlt]
    intro a ha
    rcases List.mem_cons.mp ha with rfl | ha
    · trivial
    rcases List.mem_append.mp ha with ha | ha
    · rw [storeWords_eq_memcpyWords] at ha
      refine owned_memcpyWords _ (fun k hk => ?_) a ha
      exact owner_rcr (by omega) (by omega)
    rcases List.mem_cons.mp ha with rfl | ha
    · exact owner_rcr (by omega) (by omega)
    · exact owned_rcrNotify hlt a ha

/-- A volatile dequeue command. -/
theorem owned_pullCall (s : QbmanSwp) (d : QbmanPullDesc) :
    ∀ a ∈ (pullCall impl s d).accs, a.OwnedBy impl .dqrr := by
  simp only [pullCall]
  split
  · intro a ha
    rcases List.mem_append.mp ha with ha | ha
    · rcases List.mem_append.mp ha with ha | ha
      · exact owned_memcpyWords _ (fun k hk => owner_vdqcr (by omega) (by omega)) a ha
      · obtain rfl := List.mem_singleton.mp ha
        exact owner_vdqcr (Nat.le_refl _) (by omega)
    · cases impl with
      | direct => cases ha
      | memBack =>
        obtain rfl := List.mem_singleton.mp ha
        rfl
  · exact List.forall_mem_nil _

/-- A poll of the dequeue ring reads. -/
theorem owned_dqrrNext (s : QbmanSwp) (r : Regions) :
    ∀ a ∈ (qbmanSwpDqrrNext impl.ptrs s r).accs, a.OwnedBy impl i := by
  have hentry : ∀ off (p : QbmanSwp), ∀ a ∈ (dqrrNextEntry off p r.cena).accs,
      a.OwnedBy impl i := by
    intro off p a ha
    simp only [dqrrNextEntry] at ha
    split at ha
    · obtain rfl := List.mem_singleton.mp ha
      trivial
    · obtain rfl := List.mem_singleton.mp ha
      trivial
  intro a ha
  cases impl with
  | memBack => exact hentry _ _ a ha
  | direct =>
    replace ha : a ∈ (qbmanSwpDqrrNextDirect s r).accs := ha
    simp only [qbmanSwpDqrrNextDirect] at ha
    split at ha
    · split at ha
      · obtain rfl := List.mem_singleton.mp ha
        trivial
      · rcases List.mem_append.mp ha with ha | ha
        · obtain rfl := List.mem_singleton.mp ha
          trivial
        · exact hentry _ _ a ha
    · exact hentry _ _ a ha

/-- A management command. -/
theorem owned_mcSubmit {p : QbmanSwp} (hd : p.desc.impl = impl) (cmd : Line) (cmdVerb : U8) :
    ∀ a ∈ qbmanSwpMcSubmit p cmd cmdVerb, a.OwnedBy impl .mc := by
  have hwords : ∀ l : Line, ∀ a ∈ qbmanCenaWriteComplete impl.cr l, a.OwnedBy impl .mc := by
    intro l a ha
    exact owned_memcpyWords l (fun k hk => owner_cr (by omega) (by omega)) a
      (List.mem_reverse.mp ha)
  subst hd
  simp only [qbmanSwpMcSubmit, QbmanSwpDesc.impl] at hwords ⊢
  split
  · rename_i hm
    rw [if_pos hm] at hwords
    intro a ha
    rcases List.mem_append.mp ha with ha | ha
    · exact hwords _ a ha
    · obtain rfl := List.mem_singleton.mp ha
      rfl
  · rename_i hm
    rw [if_neg hm] at hwords
    exact hwords _

theorem owned_mcResult (p : QbmanSwp) (m : Region) :
    ∀ a ∈ (qbmanSwpMcResult p m).accs, a.OwnedBy impl i := by
  have hread : ∀ off, ∀ a ∈ qbmanCenaRead off m, a.OwnedBy impl i := by
    intro off a ha
    obtain ⟨k, rfl⟩ := List.mem_ofFn.mp ha
    trivial
  simp only [qbmanSwpMcResult]
  split
  · split
    · exact hread _
    · split
      · exact hread _
      · exact hread _
  · split
    · exact hread _
    · exact hread _

/-! ## What an interface relies on -/

/-- The portal object and the cache-enabled region. -/
structure PortalMem where
  swp : QbmanSwp
  cena : Region

/-- What belongs to the interface, and the configuration of the portal, is as it was. -/
structure PortalPart.Kept (impl : Impl) (i : PortalPart) (a b : PortalMem) : Prop where
  desc : b.swp.desc = a.swp.desc
  sys : b.swp.sys = a.swp.sys
  same : i.Same a.swp b.swp
  cena : ∀ off, impl.owner off = some i → b.cena off = a.cena off

theorem PortalPart.Same.refl (i : PortalPart) (p : QbmanSwp) : i.Same p p := by
  cases i with
  | rcr => trivial
  | eqcr => rfl
  | sdqcr => rfl
  | dqrr => exact ⟨rfl, rfl⟩
  | mc => exact ⟨rfl, rfl⟩

theorem PortalPart.Kept.refl (a : PortalMem) : i.Kept impl a a :=
  ⟨rfl, rfl, .refl i _, fun _ _ => rfl⟩

/-- Accesses of one interface keep what belongs to another. -/
theorem PortalPart.Kept.of_owned {accs : List Access} (hij : i ≠ j)
    (h : ∀ a ∈ accs, a.OwnedBy impl i) {p q : QbmanSwp} (hdesc : q.desc = p.desc)
    (hsys : q.sys = p.sys) (hsame : j.Same p q) (m : Region) :
    j.Kept impl ⟨p, m⟩ ⟨q, m.run accs⟩ := by
  refine ⟨hdesc, hsys, hsame, fun off hoff => Region.run_of_owned h m ?_⟩
  rw [hoff]
  exact fun he => hij (Option.some.inj he).symm

end Qbman
