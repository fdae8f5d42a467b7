import Qbman.Lib.Exclusive
import Qbman.Vdq.Busy

/-!
# The atomic operations under the mutual exclusion of volatile dequeues

`atomic_dec_and_test` and `atomic_inc` are loops of a load-exclusive and a store-exclusive
(`Exclusive.Client.sys`). Any number of threads run `qbman_swp_pull` and the polls. The winner of a
pull stores `vdq.storage` before it writes the command; a poll of the storage reads the token of its
entry, compares the entry with `vdq.storage`, clears it and increments `vdq.busy`, each in a step of
its own. Any entry may show a token at any time.

No entry is used by two threads at once: two polls of one entry could both find it in `vdq.storage`
before either clears it, and count one completion twice; and a poll of an entry that was just passed
to a pull could count it before the command is written. The ring is polled by one thread at a time.
Then the runs are those of `vdqSys`: a poll passes the test only for a pull that nobody has
completed (`BusyState.Abs.clear`), and while a poll is between its stores no caller is accepted
(`BusyState.Abs.not_won`).
-/

namespace Qbman

/-- The `add` in the loops of `atomic_add` and `atomic_add_return`. -/
def atomicAdd (i w0 : U32) : U32 := w0 + i

/-- The `sub` in the loops of `atomic_sub` and `atomic_sub_return`. -/
def atomicSub (i w0 : U32) : U32 := w0 - i

theorem atomicInc_eq (v : U32) : atomicInc v = atomicAdd 1 v := rfl

theorem atomicDecAndTest_eq (v : U32) :
    atomicDecAndTest v = (decide (atomicSub 1 v = 0), atomicSub 1 v) := rfl

def VdqState.withStorage {ι : Type} (s : VdqState ι) (a : U64) : VdqState ι :=
  { s with swp := { s.swp with vdq := { s.swp.vdq with storage := a } } }

/-- What a thread is doing with an entry of its storage: a poll has read the token and will compare
the entry with `vdq.storage`, or has found it there; or the winner of a pull has stored it there. -/
inductive EntryUse where
  | test (dq : U64)
  | clear (dq : U64)
  | stored (dq : U64)

def EntryUse.entry : EntryUse → U64
  | .test dq => dq
  | .clear dq => dq
  | .stored dq => dq

/-- A portal and its callers. `claim` are the polls that have still to increment the counter. The
hardware is `executing` a pull to the ring, and `expired` last results there were not polled. -/
structure BusyState (ι : Type) where
  core : VdqState ι
  claim : ι → Option VdqHook
  use : ι → Option EntryUse
  executing : Bool
  expired : Nat

/-- The atomic operations on `vdq.busy`. -/
inductive BusyOp (ι : Type) where
  | decAndTest (i : ι) (d : QbmanPullDesc)
  | restore (i : ι)
  | complete (i : ι) (h : VdqHook)

/-- The steps besides the atomic operations: those of a winner, of a poll of the storage that found
a token in `dq`, of the hardware, and of a poll of the ring. -/
inductive BusyLabel (ι : Type) where
  | store (i : ι)
  | submit (i : ι)
  | token (i : ι) (dq : U64)
  | test (i : ι)
  | clear (i : ι)
  | expire
  | take (i : ι)

/-- The thread that takes the step. -/
def BusyLabel.actor {ι : Type} : BusyLabel ι → Option ι
  | .store i => some i
  | .submit i => some i
  | .token i _ => some i
  | .test i => some i
  | .clear i => some i
  | .expire => none
  | .take i => some i

namespace BusyOp

variable {ι : Type}

def thread : BusyOp ι → ι
  | decAndTest i _ => i
  | restore i => i
  | complete i _ => i

def arith : BusyOp ι → U32 → U32
  | decAndTest _ _ => atomicSub 1
  | restore _ => atomicAdd 1
  | complete _ _ => atomicAdd 1

end BusyOp

namespace BusyState

variable {ι : Type} (s : BusyState ι)

def Ready : BusyOp ι → Prop
  | .decAndTest i d => s.core.phase i = .idle ∧ s.claim i = none ∧ s.use i = none ∧ d.Built
  | .restore i => s.core.phase i = .lost
  | .complete i h => s.claim i = some h

/-- The thread is between calls. -/
def Free (i : ι) : Prop := s.core.phase i = .idle ∧ s.claim i = none ∧ s.use i = none

/-- No thread polls the entry, or is submitting a pull that it was passed to. -/
def Unused (dq : U64) : Prop := ∀ i u, s.use i = some u → u.entry ≠ dq

/-- The pulls to the ring that were submitted and not polled. -/
def ring : Nat := (if s.executing then 1 else 0) + s.expired

variable [DecidableEq ι]

/-- What the thread of an operation has done once it has stored `v`. -/
def finish : BusyOp ι → U32 → BusyState ι
  | .decAndTest i d, v =>
    { s with core := { s.core with
      swp := { s.core.swp with vdq := { s.core.swp.vdq with busy := v } }
      phase := Function.update s.core.phase i (if v = 0 then .won d else .lost) } }
  | .restore i, v =>
    { s with core := { s.core with
      swp := { s.core.swp with vdq := { s.core.swp.vdq with busy := v } }
      phase := Function.update s.core.phase i .idle } }
  | .complete i _, v =>
    { s with
      core := { s.core with
        swp := { s.core.swp with vdq := { s.core.swp.vdq with busy := v } }
        completed := s.core.completed + 1 }
      claim := Function.update s.claim i none }

/-- `s->vdq.storage = (void *)d->pull.rsp_addr_virt;` -/
def afterStore (i : ι) (d : QbmanPullDesc) : BusyState ι :=
  { s with
    core := s.core.withStorage d.rspAddrVirt
    use := Function.update s.use i (some (.stored d.rspAddrVirt)) }

/-- The command is written, and the hardware starts to execute it. -/
def afterSubmit (impl : Impl) (i : ι) (d : QbmanPullDesc) : BusyState ι :=
  { s with
    core := s.core.afterSubmit impl i d
    use := Function.update s.use i none
    executing := !d.toStorage }

/-- `if (s->vdq.storage == dq)` -/
def afterTest (i : ι) (dq : U64) : BusyState ι :=
  let next : Option EntryUse := if s.core.swp.vdq.storage = dq then some (.clear dq) else none
  { s with use := Function.update s.use i next }

/-- `s->vdq.storage = NULL;` -/
def afterClear (i : ι) : BusyState ι :=
  { s with
    core := s.core.withStorage 0
    use := Function.update s.use i none
    claim := Function.update s.claim i (some .storage) }

/-- `qbman_swp_dqrr_next` up to its hook. -/
def afterTake (i : ι) : BusyState ι :=
  { s with expired := s.expired - 1, claim := Function.update s.claim i (some .dqrr) }

/-- The completions that are being reported. -/
def claims [Fintype ι] (s : BusyState ι) : Nat := Count.of (fun c => c ≠ none) s.claim

end BusyState

/-- No thread uses an entry while another one does, and the ring is polled in one step. -/
def BusyLabel.Step {ι : Type} [DecidableEq ι] (impl : Impl) (s : BusyState ι) (l : BusyLabel ι)
    (t : BusyState ι) : Prop :=
  match l with
  | .store i => ∃ d, s.core.phase i = .won d ∧ s.use i = none ∧ s.Unused d.rspAddrVirt ∧
      t = s.afterStore i d
  | .submit i => ∃ d, s.core.phase i = .won d ∧ s.use i = some (.stored d.rspAddrVirt) ∧
      t = s.afterSubmit impl i d
  | .token i dq => s.Free i ∧ dq ≠ 0 ∧ s.Unused dq ∧
      t = { s with use := Function.update s.use i (some (.test dq)) }
  | .test i => ∃ dq, s.use i = some (.test dq) ∧ t = s.afterTest i dq
  | .clear i => ∃ dq, s.use i = some (.clear dq) ∧ t = s.afterClear i
  | .expire => s.executing = true ∧ t = { s with executing := false, expired := s.expired + 1 }
  | .take i => s.Free i ∧ s.expired ≠ 0 ∧ t = s.afterTake i

namespace BusyState

variable {ι : Type} {s t : BusyState ι}

/-- What another thread is ready for does not depend on thread `i`. -/
theorem Ready.frame {o : BusyOp ι} {i : ι} (h : s.Ready o) (ho : o.thread ≠ i)
    (hphase : ∀ j, j ≠ i → t.core.phase j = s.core.phase j)
    (hclaim : ∀ j, j ≠ i → t.claim j = s.claim j) (huse : ∀ j, j ≠ i → t.use j = s.use j) :
    t.Ready o := by
  cases o with
  | decAndTest j d =>
    obtain ⟨hj, hc, hu, hd⟩ := h
    exact ⟨(hphase j ho).trans hj, (hclaim j ho).trans hc, (huse j ho).trans hu, hd⟩
  | restore j => exact (hphase j ho).trans h
  | complete j k => exact (hclaim j ho).trans h

variable [DecidableEq ι]

theorem Ready.finish {o o' : BusyOp ι} (h : s.Ready o') (v : U32) (hne : o'.thread ≠ o.thread) :
    (s.finish o v).Ready o' := by
  cases o with
  | decAndTest i d =>
    exact h.frame hne (fun j hj => Function.update_of_ne hj _ _) (fun _ _ => rfl) fun _ _ => rfl
  | restore i =>
    exact h.frame hne (fun j hj => Function.update_of_ne hj _ _) (fun _ _ => rfl) fun _ _ => rfl
  | complete i k =>
    exact h.frame hne (fun _ _ => rfl) (fun j hj => Function.update_of_ne hj _ _) fun _ _ => rfl

/-- The other steps leave the counter and the lists alone, and each thread to itself. -/
theorem step_frame {impl : Impl} {l : BusyLabel ι} (h : l.Step impl s t) {j : ι}
    (hj : l.actor ≠ some j) :
    t.core.phase j = s.core.phase j ∧ t.claim j = s.claim j ∧ t.use j = s.use j := by
  have hne : ∀ i, l.actor = some i → j ≠ i := fun i hi heq => hj (heq ▸ hi)
  cases l with
  | store i =>
    obtain ⟨d, -, -, -, rfl⟩ := h
    exact ⟨rfl, rfl, Function.update_of_ne (hne i rfl) _ _⟩
  | submit i =>
    obtain ⟨d, -, -, rfl⟩ := h
    exact ⟨Function.update_of_ne (hne i rfl) _ _, rfl, Function.update_of_ne (hne i rfl) _ _⟩
  | token i dq =>
    obtain ⟨-, -, -, rfl⟩ := h
    exact ⟨rfl, rfl, Function.update_of_ne (hne i rfl) _ _⟩
  | test i =>
    obtain ⟨dq, -, rfl⟩ := h
    exact ⟨rfl, rfl, Function.update_of_ne (hne i rfl) _ _⟩
  | clear i =>
    obtain ⟨dq, -, rfl⟩ := h
    exact ⟨rfl, Function.update_of_ne (hne i rfl) _ _, Function.update_of_ne (hne i rfl) _ _⟩
  | expire =>
    obtain ⟨-, rfl⟩ := h
    exact ⟨rfl, rfl, rfl⟩
  | take i =>
    obtain ⟨-, -, rfl⟩ := h
    exact ⟨rfl, Function.update_of_ne (hne i rfl) _ _, rfl⟩

/-- Besides a submission, they change at most `vdq.storage`. -/
theorem step_core {impl : Impl} {l : BusyLabel ι} (h : l.Step impl s t) :
    (∃ i d, l = .submit i ∧ s.core.phase i = .won d ∧ t = s.afterSubmit impl i d) ∨
      ∃ a, t.core = s.core.withStorage a := by
  cases l with
  | store i =>
    obtain ⟨d, -, -, -, rfl⟩ := h
    exact .inr ⟨_, rfl⟩
  | submit i =>
    obtain ⟨d, hi, -, rfl⟩ := h
    exact .inl ⟨i, d, rfl, hi, rfl⟩
  | token i dq =>
    obtain ⟨-, -, -, rfl⟩ := h
    exact .inr ⟨_, rfl⟩
  | test i =>
    obtain ⟨dq, -, rfl⟩ := h
    exact .inr ⟨_, rfl⟩
  | clear i =>
    obtain ⟨dq, -, rfl⟩ := h
    exact .inr ⟨_, rfl⟩
  | expire =>
    obtain ⟨-, rfl⟩ := h
    exact .inr ⟨_, rfl⟩
  | take i =>
    obtain ⟨-, -, rfl⟩ := h
    exact .inr ⟨_, rfl⟩

theorem step_busy {impl : Impl} {l : BusyLabel ι} (h : l.Step impl s t) :
    t.core.swp.vdq.busy = s.core.swp.vdq.busy := by
  rcases step_core h with ⟨i, d, -, -, rfl⟩ | ⟨a, hcore⟩
  · rfl
  · rw [hcore]
    rfl

theorem Ready.step {impl : Impl} {l : BusyLabel ι} {o : BusyOp ι} (hready : s.Ready o)
    (h : l.Step impl s t) (hne : l.actor ≠ some o.thread) : t.Ready o := by
  obtain ⟨hphase, hclaim, huse⟩ := step_frame h hne
  cases o with
  | decAndTest j d =>
    obtain ⟨hj, hc, hu, hd⟩ := hready
    exact ⟨hphase.trans hj, hclaim.trans hc, huse.trans hu, hd⟩
  | restore j => exact hphase.trans hready
  | complete j k => exact hclaim.trans hready

end BusyState

/-- The threads of a portal, as clients of `vdq.busy`. -/
def busyClient (impl : Impl) (ι : Type) [DecidableEq ι] :
    Exclusive.Client (BusyState ι) ι (BusyOp ι) U32 (BusyLabel ι) where
  init s := (vdqSys impl ι).init s.core ∧ (∀ i, s.claim i = none) ∧ (∀ i, s.use i = none) ∧
    s.executing = false ∧ s.expired = 0
  word s := s.core.swp.vdq.busy
  thread := BusyOp.thread
  ready := BusyState.Ready
  arith := BusyOp.arith
  finish s o v := s.finish o v
  other s l t := l.Step impl s t
  actor := BusyLabel.actor
  word_finish s o v := by cases o <;> rfl
  word_other _ _ _ h := BusyState.step_busy h
  ready_finish s o v o' _ h hne := h.finish v hne
  ready_other _ _ _ _ h hready hne := hready.step h hne

/-- Pulls and polls of one portal, one instruction of an atomic operation at a time. -/
def busySys (impl : Impl) (ι : Type) [DecidableEq ι] :
    Trans.Sys (Exclusive.State (BusyState ι) ι (BusyOp ι) U32)
      (Exclusive.Label ι (BusyOp ι) (BusyLabel ι)) :=
  (busyClient impl ι).sys

variable {ι : Type}

namespace BusyState

/-- What a thread that uses an entry relies on. -/
def Relies (s : BusyState ι) (i : ι) : EntryUse → Prop
  | .test dq => dq ≠ 0 ∧ s.core.phase i = .idle ∧ s.claim i = none
  | .clear dq => s.core.swp.vdq.storage = dq ∧ dq ≠ 0 ∧ s.core.phase i = .idle ∧ s.claim i = none
  | .stored dq => s.core.swp.vdq.storage = dq ∧ ∃ d, s.core.phase i = .won d

/-- No two threads use one entry. -/
structure Uses (s : BusyState ι) : Prop where
  relies : ∀ i u, s.use i = some u → s.Relies i u
  apart : ∀ i j u v, s.use i = some u → s.use j = some v → u.entry = v.entry → i = j

section Uses

variable {s t : BusyState ι}

theorem Relies.frame {i : ι} {u : EntryUse} (h : s.Relies i u)
    (hstorage : t.core.swp.vdq.storage = s.core.swp.vdq.storage)
    (hphase : t.core.phase i = s.core.phase i) (hclaim : t.claim i = s.claim i) : t.Relies i u := by
  cases u with
  | test dq => exact ⟨h.1, hphase.trans h.2.1, hclaim.trans h.2.2⟩
  | clear dq => exact ⟨hstorage.trans h.1, h.2.1, hphase.trans h.2.2.1, hclaim.trans h.2.2.2⟩
  | stored dq =>
    obtain ⟨hdq, d, hd⟩ := h
    exact ⟨hstorage.trans hdq, d, hphase.trans hd⟩

namespace Uses

/-- A thread that uses no entry takes a step that leaves `vdq.storage` alone. -/
theorem frame (h : s.Uses) {i : ι} (hi : s.use i = none) (huse : t.use = s.use)
    (hstorage : t.core.swp.vdq.storage = s.core.swp.vdq.storage)
    (hphase : ∀ j, j ≠ i → t.core.phase j = s.core.phase j)
    (hclaim : ∀ j, j ≠ i → t.claim j = s.claim j) : t.Uses := by
  refine ⟨fun j u hj => ?_, fun j k u v hj hk => ?_⟩
  · rw [huse] at hj
    have hji : j ≠ i := by
      rintro rfl
      rw [hi] at hj
      cases hj
    exact (h.relies j u hj).frame hstorage (hphase j hji) (hclaim j hji)
  · rw [huse] at hj hk
    exact h.apart j k u v hj hk

/-- While a poll has found its entry in `vdq.storage`, no winner has just stored one there. -/
theorem not_stored (h : s.Uses) {i : ι} {dq : U64} (hi : s.use i = some (.clear dq)) (j : ι)
    (dq' : U64) : s.use j ≠ some (.stored dq') := by
  intro hj
  have hsame : dq = dq' := (h.relies i _ hi).1.symm.trans (h.relies j _ hj).1
  obtain rfl := h.apart i j _ _ hi hj hsame
  rw [hi] at hj
  cases hj

theorem none_of_lost (h : s.Uses) {i : ι} (hi : s.core.phase i = .lost) : s.use i = none := by
  cases hu : s.use i with
  | none => rfl
  | some u =>
    have hrelies := h.relies i u hu
    cases u with
    | test dq => cases hi.symm.trans hrelies.2.1
    | clear dq => cases hi.symm.trans hrelies.2.2.1
    | stored dq =>
      obtain ⟨d, hd⟩ := hrelies.2
      cases hi.symm.trans hd

theorem none_of_claim (h : s.Uses) {i : ι} {k : VdqHook} (hi : s.claim i = some k)
    (hidle : s.core.phase i = .idle) : s.use i = none := by
  cases hu : s.use i with
  | none => rfl
  | some u =>
    have hrelies := h.relies i u hu
    cases u with
    | test dq => cases hi.symm.trans hrelies.2.2
    | clear dq => cases hi.symm.trans hrelies.2.2.2
    | stored dq =>
      obtain ⟨d, hd⟩ := hrelies.2
      cases hidle.symm.trans hd

variable [DecidableEq ι]

/-- Thread `i` uses an entry that no other thread uses, or none. -/
theorem set (h : s.Uses) {i : ι} {w : Option EntryUse} (huse : t.use = Function.update s.use i w)
    (hrest : ∀ j u, j ≠ i → s.use j = some u → t.Relies j u)
    (hself : ∀ u, w = some u → t.Relies i u ∧
      ∀ j v, j ≠ i → s.use j = some v → v.entry ≠ u.entry) : t.Uses := by
  have hcases : ∀ {j u}, t.use j = some u → (j = i ∧ w = some u) ∨ (j ≠ i ∧ s.use j = some u) :=
    fun {j u} hj => by
      rw [huse] at hj
      by_cases hji : j = i
      · rw [hji, Function.update_self] at hj
        exact .inl ⟨hji, hj⟩
      · rw [Function.update_of_ne hji] at hj
        exact .inr ⟨hji, hj⟩
  refine ⟨fun j u hj => ?_, fun j k u v hj hk he => ?_⟩
  · rcases hcases hj with ⟨rfl, hw⟩ | ⟨hji, hj⟩
    · exact (hself u hw).1
    · exact hrest j u hji hj
  · rcases hcases hj with ⟨rfl, hw⟩ | ⟨hji, hj⟩
    · rcases hcases hk with ⟨hki, -⟩ | ⟨hki, hk⟩
      · exact hki.symm
      · exact absurd he.symm ((hself u hw).2 k v hki hk)
    · rcases hcases hk with ⟨rfl, hw⟩ | ⟨hki, hk⟩
      · exact absurd he ((hself v hw).2 j u hji hj)
      · exact h.apart j k u v hj hk he

omit [DecidableEq ι] in
/-- A poll does not change who has stored an entry. -/
theorem not_stored_of {i : ι} (hold : ∀ j, j ≠ i → t.use j = s.use j)
    (hi : ∀ dq, s.use i ≠ some (.stored dq)) (ht : ∀ j dq, t.use j ≠ some (.stored dq)) (j : ι)
    (dq : U64) : s.use j ≠ some (.stored dq) := by
  by_cases hji : j = i
  · rw [hji]
    exact hi dq
  · rw [← hold j hji]
    exact ht j dq

end Uses

end Uses

variable [Fintype ι]

/-- `s` is `x`, except that `vdq.storage` may have been cleared by a poll between its stores, or set
by the winner of a pull. An entry in it is waited for by a poll. -/
structure Abs (s : BusyState ι) (x : VdqState ι) : Prop where
  inv : x.Inv
  eq : x = s.core.withStorage x.swp.vdq.storage
  storage : (∀ i, s.claim i ≠ some .storage) → (∀ i dq, s.use i ≠ some (.stored dq)) →
    x.swp.vdq.storage = s.core.swp.vdq.storage
  cleared : ∀ i, s.claim i = some .storage → s.core.swp.vdq.storage = 0
  idle : ∀ i, s.claim i ≠ none → s.core.phase i = .idle
  uses : s.Uses
  claims_le : s.core.completed + s.claims + s.ring ≤ s.core.submitted.length
  awaited : s.core.swp.vdq.storage ≠ 0 → (∀ i dq, s.use i ≠ some (.stored dq)) →
    s.core.completed + s.claims + s.ring < s.core.submitted.length

namespace Abs

variable {s t : BusyState ι} {x : VdqState ι} {impl : Impl}

theorem phase (h : s.Abs x) : x.phase = s.core.phase := by
  rw [h.eq]
  rfl

theorem submitted (h : s.Abs x) : x.submitted = s.core.submitted := by
  rw [h.eq]
  rfl

theorem completed (h : s.Abs x) : x.completed = s.core.completed := by
  rw [h.eq]
  rfl

theorem outstanding (h : s.Abs x) : x.outstanding = s.core.outstanding := by
  rw [VdqState.outstanding, VdqState.accepted, h.phase, h.submitted, h.completed]
  rfl

theorem accepted_of_won {x : VdqState ι} {i : ι} {d : QbmanPullDesc} (hi : x.phase i = .won d) :
    x.submitted.length < x.accepted := by
  have hpos : 0 < Count.of (fun ph => PullPhase.isWon ph = true) x.phase := by
    refine Finset.card_pos.mpr ⟨i, Finset.mem_filter.mpr ⟨Finset.mem_univ i, ?_⟩⟩
    rw [hi]
    rfl
  rw [VdqState.accepted]
  omega

/-- While a caller is between its acceptance and its submission, nothing is left to complete. -/
theorem none_of_won (h : s.Abs x) {i : ι} {d : QbmanPullDesc} (hi : s.core.phase i = .won d) :
    s.core.completed = s.core.submitted.length ∧ s.claims = 0 ∧ s.ring = 0 := by
  have hacc := accepted_of_won (x := x) (by rw [h.phase]; exact hi)
  have hone := h.inv.outstanding_le
  have hle := h.claims_le
  rw [VdqState.outstanding, h.completed] at hone
  rw [h.submitted] at hacc
  omega

theorem one_won (h : s.Abs x) {i j : ι} {d d' : QbmanPullDesc} (hi : s.core.phase i = .won d)
    (hji : j ≠ i) : s.core.phase j ≠ .won d' := by
  intro hj
  have hcount : 1 < Count.of (fun ph => PullPhase.isWon ph = true) x.phase := by
    refine Finset.one_lt_card.mpr ⟨j, Finset.mem_filter.mpr ⟨Finset.mem_univ j, ?_⟩, i,
      Finset.mem_filter.mpr ⟨Finset.mem_univ i, ?_⟩, hji⟩
    · rw [h.phase, hj]
      rfl
    · rw [h.phase, hi]
      rfl
  have hone := h.inv.outstanding_le
  have hle := h.inv.completed_le
  rw [VdqState.outstanding, VdqState.accepted] at hone
  omega

theorem claims_pos {i : ι} (hi : s.claim i ≠ none) : 0 < s.claims :=
  Finset.card_pos.mpr ⟨i, Finset.mem_filter.mpr ⟨Finset.mem_univ i, hi⟩⟩

/-- While a poll reports a completion, no caller is between its acceptance and its submission. -/
theorem not_won (h : s.Abs x) {i j : ι} {d : QbmanPullDesc} (hi : s.claim i ≠ none) :
    s.core.phase j ≠ .won d := by
  intro hj
  have := h.none_of_won hj
  have := claims_pos hi
  omega

/-- While a poll has found its entry in `vdq.storage`, a pull is waiting for it. -/
theorem clear (h : s.Abs x) {i : ι} {dq : U64} (hi : s.use i = some (.clear dq)) :
    s.core.completed + s.claims + s.ring < s.core.submitted.length := by
  obtain ⟨hstorage, hdq, -⟩ := h.uses.relies i _ hi
  exact h.awaited (hstorage ▸ hdq) (h.uses.not_stored hi)

variable [DecidableEq ι]

theorem claims_update {i : ι} {c : Option VdqHook} (ht : t.claim = Function.update s.claim i c) :
    t.claims + (if s.claim i ≠ none then 1 else 0) = s.claims + if c ≠ none then 1 else 0 := by
  rw [claims, ht]
  exact Count.of_update (p := fun c => c ≠ none) s.claim i c

/-- A poll that was between calls has found a completion to report. -/
theorem claims_add {i : ι} {k : VdqHook} (ht : t.claim = Function.update s.claim i (some k))
    (hi : s.claim i = none) : t.claims = s.claims + 1 := by
  have hclaims := claims_update ht
  simpa [hi] using hclaims

/-- Thread `i`, which reports no completion or becomes idle, moves to phase `ph`. -/
theorem idle_update (h : s.Abs x) {i : ι} {ph : PullPhase}
    (hi : s.claim i = none ∨ ph = .idle) (j : ι)
    (hj : s.claim j ≠ none) : Function.update s.core.phase i ph j = .idle := by
  by_cases hji : j = i
  · subst hji
    rw [Function.update_self]
    exact hi.resolve_left hj
  · rw [Function.update_of_ne hji]
    exact h.idle j hj

/-! ### The atomic operations -/

theorem decAndTest (h : s.Abs x) (hcard : Fintype.card ι < 2 ^ 32) {i : ι} {d : QbmanPullDesc}
    (hi : s.core.phase i = .idle) (hc : s.claim i = none) (hu : s.use i = none) (hd : d.Built) :
    (s.finish (.decAndTest i d) (atomicSub 1 s.core.swp.vdq.busy)).Abs (x.afterDecAndTest i d) where
  inv := h.inv.decAndTest hcard (h.phase ▸ hi) hd
  eq := by
    have hwon : (if (pullDecAndTest x.swp).1 then PullPhase.won d else .lost) =
        if atomicSub 1 s.core.swp.vdq.busy = 0 then .won d else .lost := by
      rw [h.eq, pullDecAndTest, atomicDecAndTest_eq]
      exact if_congr decide_eq_true_iff rfl rfl
    rw [VdqState.afterDecAndTest, hwon, h.eq]
    rfl
  storage := h.storage
  cleared := h.cleared
  idle := h.idle_update (.inl hc)
  uses := h.uses.frame hu rfl rfl (fun j hj => Function.update_of_ne hj _ _) fun _ _ => rfl
  claims_le := h.claims_le
  awaited := h.awaited

theorem restore (h : s.Abs x) {i : ι} (hi : s.core.phase i = .lost) :
    (s.finish (.restore i) (atomicAdd 1 s.core.swp.vdq.busy)).Abs (x.afterRestore i) where
  inv := h.inv.restore (h.phase ▸ hi)
  eq := by
    rw [h.eq]
    rfl
  storage := h.storage
  cleared := h.cleared
  idle := h.idle_update (.inr rfl)
  uses := h.uses.frame (h.uses.none_of_lost hi) rfl rfl (fun j hj => Function.update_of_ne hj _ _)
    fun _ _ => rfl
  claims_le := h.claims_le
  awaited := h.awaited

theorem complete (h : s.Abs x) {i : ι} {k : VdqHook} (hi : s.claim i = some k) :
    x.completed < x.submitted.length ∧
      (s.finish (.complete i k) (atomicAdd 1 s.core.swp.vdq.busy)).Abs (x.afterComplete k) := by
  let t := s.finish (.complete i k) (atomicAdd 1 s.core.swp.vdq.busy)
  have hclaims : t.claims + 1 = s.claims := by
    have := claims_update (s := s) (t := t) (i := i) (c := none) rfl
    simpa [hi] using this
  have hle := h.claims_le
  have hlt : x.completed < x.submitted.length := by
    rw [h.completed, h.submitted]
    omega
  have hclaim : ∀ {j c}, t.claim j = some c → j ≠ i ∧ s.claim j = some c := fun {j c} hj => by
    have hji : j ≠ i := by
      rintro rfl
      rw [show t.claim j = none from Function.update_self ..] at hj
      cases hj
    exact ⟨hji, (Function.update_of_ne hji _ _).symm.trans hj⟩
  have hnone := h.uses.none_of_claim hi (h.idle i (by rw [hi]; exact Option.some_ne_none k))
  have huses : t.Uses := h.uses.frame hnone rfl rfl (fun _ _ => rfl)
    fun j hj => Function.update_of_ne hj _ _
  refine ⟨hlt, h.inv.complete k hlt, ?_, fun hclaims₀ huse => ?_, fun j hj => ?_, fun j hj => ?_,
    huses, ?_, fun hstorage huse => ?_⟩
  · rw [h.eq]
    cases k with
    | dqrr => rfl
    | storage =>
      simp [VdqState.afterComplete, VdqState.withStorage, Vdq.complete, Vdq.hook, finish,
        atomicInc_eq]
  · cases k with
    | dqrr =>
      refine h.storage (fun j hj => hclaims₀ j ((Function.update_of_ne ?_ _ _).trans hj)) huse
      rintro rfl
      rw [hi] at hj
      cases hj
    | storage =>
      have hzero : (x.afterComplete .storage).swp.vdq.storage = 0 := by
        simp [VdqState.afterComplete, Vdq.complete, Vdq.hook]
      exact hzero.trans (h.cleared i hi).symm
  · exact h.cleared j (hclaim hj).2
  · obtain ⟨c, hc⟩ := Option.ne_none_iff_exists'.mp hj
    exact h.idle j (by rw [(hclaim hc).2]; exact Option.some_ne_none c)
  · show s.core.completed + 1 + t.claims + s.ring ≤ s.core.submitted.length
    omega
  · have := h.awaited hstorage huse
    show s.core.completed + 1 + t.claims + s.ring < s.core.submitted.length
    omega

/-! ### The other steps -/

/-- The winner stores the address of its entry. -/
theorem store (h : s.Abs x) {i : ι} {d : QbmanPullDesc} (hi : s.core.phase i = .won d)
    (hunused : s.Unused d.rspAddrVirt) : (s.afterStore i d).Abs x := by
  have hwon := h.none_of_won hi
  have hself : (s.afterStore i d).use i = some (.stored d.rspAddrVirt) := Function.update_self ..
  have huses : (s.afterStore i d).Uses := by
    refine h.uses.set rfl (fun j u hji hj => ?_) fun u hu => ?_
    · have hrelies := h.uses.relies j u hj
      cases u with
      | test dq => exact hrelies
      | clear dq =>
        have := h.clear hj
        omega
      | stored dq =>
        -- Two callers are not accepted at once.
        obtain ⟨d', hd'⟩ := hrelies.2
        exact absurd hd' (h.one_won hi hji)
    · obtain rfl := Option.some.inj hu
      exact ⟨⟨rfl, d, hi⟩, fun j v _ hj => hunused j v hj⟩
  refine ⟨h.inv, h.eq.trans rfl, fun _ hnone => absurd hself (hnone i _), fun j hj => ?_,
    fun j hj => h.idle j hj, huses, h.claims_le, fun _ hnone => absurd hself (hnone i _)⟩
  have hclaim : s.claim j ≠ none := by
    rw [show s.claim j = _ from hj]
    exact Option.some_ne_none _
  exact absurd hi (h.not_won hclaim)

/-- It writes the command. -/
theorem submit (h : s.Abs x) {i : ι} {d : QbmanPullDesc} (hi : s.core.phase i = .won d)
    (hu : s.use i = some (.stored d.rspAddrVirt)) :
    (s.afterSubmit impl i d).Abs (x.afterSubmit impl i d) := by
  have hwon := h.none_of_won hi
  have hlen : (s.core.afterSubmit impl i d).submitted.length = s.core.submitted.length + 1 := by
    rw [VdqState.afterSubmit, pullSubmit_wordsAt, List.length_append, List.length_singleton]
  have hring : (s.afterSubmit impl i d).ring = if d.rspAddrVirt = 0 then 1 else 0 := by
    have hwf := (h.inv.built i d (h.phase ▸ hi)).wf.storage
    have hring₀ : s.ring = 0 := hwon.2.2
    unfold ring at hring₀ ⊢
    by_cases hzero : d.rspAddrVirt = 0
    · have hto : d.toStorage = false := Bool.eq_false_iff.mpr fun hto => hwf.mp hto hzero
      simp only [afterSubmit, hto, hzero]
      simp
      omega
    · simp only [afterSubmit, hwf.mpr hzero, hzero]
      simp
      omega
  have huses : (s.afterSubmit impl i d).Uses := by
    refine h.uses.set rfl (fun j u hji hj => ?_) fun u hu' => by cases hu'
    have hrelies := h.uses.relies j u hj
    cases u with
    | test dq => exact ⟨hrelies.1, (Function.update_of_ne hji _ _).trans hrelies.2.1, hrelies.2.2⟩
    | clear dq => exact absurd hu (h.uses.not_stored hj i _)
    | stored dq =>
      obtain ⟨d', hd'⟩ := hrelies.2
      exact absurd hd' (h.one_won hi hji)
  refine ⟨h.inv.submit impl (h.phase ▸ hi), ?_, fun _ _ => rfl, fun j hj => ?_,
    h.idle_update (.inr rfl), huses, ?_, fun hne _ => ?_⟩
  · rw [h.eq]
    rfl
  · have hclaim : s.claim j ≠ none := by
      rw [show s.claim j = _ from hj]
      exact Option.some_ne_none _
    exact absurd hi (h.not_won hclaim)
  · show s.core.completed + s.claims + (s.afterSubmit impl i d).ring ≤
      (s.core.afterSubmit impl i d).submitted.length
    rw [hring]
    split <;> omega
  · have hne' : d.rspAddrVirt ≠ 0 := hne
    show s.core.completed + s.claims + (s.afterSubmit impl i d).ring <
      (s.core.afterSubmit impl i d).submitted.length
    rw [hring, if_neg hne']
    omega

/-- A poll of the storage goes on, with no effect on the portal. -/
theorem setUse (h : s.Abs x) {i : ι} {w : Option EntryUse}
    (hi : ∀ dq, s.use i ≠ some (.stored dq))
    (hw : ∀ u, w = some u → s.Relies i u ∧ ∀ j v, j ≠ i → s.use j = some v → v.entry ≠ u.entry) :
    Abs { s with use := Function.update s.use i w } x := by
  have hold : ∀ j, j ≠ i → Function.update s.use i w j = s.use j :=
    fun j hj => Function.update_of_ne hj _ _
  have huses := h.uses.set (t := { s with use := Function.update s.use i w }) rfl
    (fun j u _ hj => (h.uses.relies j u hj).frame rfl rfl rfl)
    fun u hu => ⟨(hw u hu).1.frame rfl rfl rfl, (hw u hu).2⟩
  exact ⟨h.inv, h.eq, fun hc hnone => h.storage hc (Uses.not_stored_of hold hi hnone), h.cleared,
    h.idle, huses, h.claims_le, fun hne hnone => h.awaited hne (Uses.not_stored_of hold hi hnone)⟩

/-- It reads a token. -/
theorem token (h : s.Abs x) {i : ι} {dq : U64} (hfree : s.Free i) (hdq : dq ≠ 0)
    (hunused : s.Unused dq) :
    Abs { s with use := Function.update s.use i (some (.test dq)) } x := by
  obtain ⟨hidle, hnone, hu⟩ := hfree
  refine h.setUse (fun dq' => by rw [hu]; exact (Option.some_ne_none _).symm) fun u hw => ?_
  obtain rfl := Option.some.inj hw
  exact ⟨⟨hdq, hidle, hnone⟩, fun j v _ hj => hunused j v hj⟩

/-- It compares its entry with `vdq.storage`. -/
theorem test (h : s.Abs x) {i : ι} {dq : U64} (hu : s.use i = some (.test dq)) :
    (s.afterTest i dq).Abs x := by
  obtain ⟨hdq, hidle, hnone⟩ := h.uses.relies i _ hu
  refine h.setUse (fun dq' hj => by rw [hu] at hj; cases hj) fun u hw => ?_
  split at hw
  · rename_i hsame
    obtain rfl := Option.some.inj hw
    exact ⟨⟨hsame, hdq, hidle, hnone⟩, fun j v hji hj he => hji (h.uses.apart j i v _ hj hu he)⟩
  · cases hw

/-- It clears `vdq.storage`. -/
theorem clearStorage (h : s.Abs x) {i : ι} {dq : U64} (hu : s.use i = some (.clear dq)) :
    (s.afterClear i).Abs x := by
  obtain ⟨hstorage, hdq, hidle, hnone⟩ := h.uses.relies i _ hu
  have hclaims : (s.afterClear i).claims = s.claims + 1 := claims_add rfl hnone
  have hlt := h.clear hu
  have hself : (s.afterClear i).claim i = some .storage := Function.update_self ..
  have huses : (s.afterClear i).Uses := by
    refine h.uses.set rfl (fun j u hji hj => ?_) fun u hu' => by cases hu'
    have hrelies := h.uses.relies j u hj
    cases u with
    | test dq' => exact ⟨hrelies.1, hrelies.2.1, (Function.update_of_ne hji _ _).trans hrelies.2.2⟩
    | clear dq' =>
      exact absurd (h.uses.apart j i _ _ hj hu (hrelies.1.symm.trans hstorage)) hji
    | stored dq' => exact absurd hj (h.uses.not_stored hu j dq')
  refine ⟨h.inv, h.eq.trans rfl, fun hc => absurd hself (hc i), fun _ _ => rfl,
    fun j hj => ?_, huses, ?_, fun hne => absurd rfl hne⟩
  · by_cases hji : j = i
    · exact hji ▸ hidle
    · rw [show (s.afterClear i).claim j = s.claim j from Function.update_of_ne hji _ _] at hj
      exact h.idle j hj
  · show s.core.completed + (s.afterClear i).claims + s.ring ≤ s.core.submitted.length
    omega

omit [DecidableEq ι] in
/-- The hardware ends a pull to the ring. -/
theorem expire (h : s.Abs x) (hexec : s.executing = true) :
    Abs { s with executing := false, expired := s.expired + 1 } x := by
  have hring : ring { s with executing := false, expired := s.expired + 1 } = s.ring := by
    simp only [ring, hexec]
    simp
    omega
  refine ⟨h.inv, h.eq, h.storage, h.cleared, h.idle,
    ⟨fun j u hj => (h.uses.relies j u hj).frame rfl rfl rfl, h.uses.apart⟩, ?_, ?_⟩
  · rw [hring]
    exact h.claims_le
  · rw [hring]
    exact h.awaited

/-- A poll of the ring returns the last result of a pull. -/
theorem take (h : s.Abs x) {i : ι} (hfree : s.Free i) (hexpired : s.expired ≠ 0) :
    (s.afterTake i).Abs x := by
  obtain ⟨hidle, hnone, hu⟩ := hfree
  have hclaims : (s.afterTake i).claims = s.claims + 1 := claims_add rfl hnone
  have hring : (s.afterTake i).ring + 1 = s.ring := by
    show (if s.executing then 1 else 0) + (s.expired - 1) + 1 =
      (if s.executing then 1 else 0) + s.expired
    omega
  have hclaim : ∀ {j k}, (s.afterTake i).claim j = some k → k ≠ .dqrr → s.claim j = some k :=
    fun {j k} hj hk => by
      by_cases hji : j = i
      · rw [hji, show (s.afterTake i).claim i = some .dqrr from Function.update_self ..] at hj
        exact absurd (Option.some.inj hj).symm hk
      · exact (Function.update_of_ne hji _ _).symm.trans hj
  have hle := h.claims_le
  refine ⟨h.inv, h.eq, fun hc => h.storage fun j hj => ?_, fun j hj => ?_, fun j hj => ?_,
    h.uses.frame hu rfl rfl (fun _ _ => rfl) fun j hj => Function.update_of_ne hj _ _, ?_,
    fun hne huse => ?_⟩
  · refine hc j ((Function.update_of_ne ?_ _ _).trans hj)
    rintro rfl
    rw [hnone] at hj
    cases hj
  · exact h.cleared j (hclaim hj fun hk => by cases hk)
  · by_cases hji : j = i
    · exact hji ▸ hidle
    · rw [show (s.afterTake i).claim j = s.claim j from Function.update_of_ne hji _ _] at hj
      exact h.idle j hj
  · show s.core.completed + (s.afterTake i).claims + (s.afterTake i).ring ≤ s.core.submitted.length
    omega
  · have := h.awaited hne huse
    show s.core.completed + (s.afterTake i).claims + (s.afterTake i).ring < s.core.submitted.length
    omega

end Abs

end BusyState

variable [Fintype ι] [DecidableEq ι]

theorem busyClient_simulation (impl : Impl) (hcard : Fintype.card ι < 2 ^ 32) :
    Trans.Sys.Simulation (busyClient impl ι).atomicSys (vdqSys impl ι) BusyState.Abs where
  init s := by
    rintro ⟨hinit, hclaim, huse, hexec, hexpired⟩
    have hclaims : s.claims = 0 := Count.of_eq_zero fun i => by rw [hclaim]; exact not_not.mpr rfl
    have hring : s.ring = 0 := by
      rw [BusyState.ring, hexec, hexpired]
      rfl
    have hinv := (vdqSys_inductive impl hcard).init s.core hinit
    have hnone : ∀ i u, s.use i ≠ some u := fun i u hi => by cases (huse i).symm.trans hi
    have huses : s.Uses :=
      ⟨fun i u hi => absurd hi (hnone i u), fun i _ u _ hi => absurd hi (hnone i u)⟩
    have hstorage : s.core.swp.vdq.storage = 0 := by
      obtain ⟨⟨g, d, env, a, hp⟩, -⟩ := hinit
      obtain ⟨-, -, -, -, hvdq, -⟩ := qbmanSwpInit_some hp
      rw [hvdq]
      rfl
    refine ⟨s.core, hinit, hinv, rfl, fun _ _ => rfl, fun i hi => ?_,
      fun i hi => absurd (hclaim i) hi, huses, ?_, fun hne => absurd hstorage hne⟩
    · cases (hclaim i).symm.trans hi
    · rw [hclaims, hring]
      exact hinv.completed_le
  step s l t x h hstep := by
    rcases l with o | l
    · obtain ⟨hready, rfl⟩ := hstep
      cases o with
      | decAndTest i d =>
        obtain ⟨hi, hc, hu, hd⟩ := hready
        exact ⟨[.decAndTest i d], _, .cons ⟨h.phase ▸ hi, hd, rfl⟩ (.nil _),
          h.decAndTest hcard hi hc hu hd⟩
      | restore i =>
        exact ⟨[.restore i], _, .cons ⟨h.phase ▸ hready, rfl⟩ (.nil _), h.restore hready⟩
      | complete i k =>
        obtain ⟨hlt, habs⟩ := h.complete hready
        exact ⟨[.complete k], _, .cons ⟨hlt, rfl⟩ (.nil _), habs⟩
    · cases l with
      | store i =>
        obtain ⟨d, hi, -, hunused, rfl⟩ := hstep
        exact ⟨[], x, .nil x, h.store hi hunused⟩
      | submit i =>
        obtain ⟨d, hi, hu, rfl⟩ := hstep
        exact ⟨[.submit i], _, .cons ⟨d, h.phase ▸ hi, rfl⟩ (.nil _), h.submit hi hu⟩
      | token i dq =>
        obtain ⟨hfree, hdq, hunused, rfl⟩ := hstep
        exact ⟨[], x, .nil x, h.token hfree hdq hunused⟩
      | test i =>
        obtain ⟨dq, hu, rfl⟩ := hstep
        exact ⟨[], x, .nil x, h.test hu⟩
      | clear i =>
        obtain ⟨dq, hu, rfl⟩ := hstep
        exact ⟨[], x, .nil x, h.clearStorage hu⟩
      | expire =>
        obtain ⟨hexec, rfl⟩ := hstep
        exact ⟨[], x, .nil x, h.expire hexec⟩
      | take i =>
        obtain ⟨hfree, hexpired, rfl⟩ := hstep
        exact ⟨[], x, .nil x, h.take hfree hexpired⟩

theorem busySys_simulation (impl : Impl) (hcard : Fintype.card ι < 2 ^ 32) :
    Trans.Sys.Simulation (busySys impl ι) (vdqSys impl ι) fun s x =>
      ∃ c, (s.Inv (busyClient impl ι) ∧ c = s.client) ∧ c.Abs x :=
  (busyClient impl ι).simulation.trans (busyClient_simulation impl hcard)

theorem busySys_reach {impl : Impl} (hcard : Fintype.card ι < 2 ^ 32)
    {s : Exclusive.State (BusyState ι) ι (BusyOp ι) U32} (h : (busySys impl ι).Reach s) :
    s.Inv (busyClient impl ι) ∧ ∃ x, s.client.Abs x := by
  obtain ⟨x, -, c, ⟨hinv, rfl⟩, habs⟩ := (busySys_simulation impl hcard).reach h
  exact ⟨hinv, x, habs⟩

/-- A pull to the entry at `0x100`. -/
def racePull : QbmanPullDesc := PullDescSet.build [.storage 0x100 0x100 0]

/-- Two threads pull. Thread 0 stores first, submits and polls its result, while the store of thread
1 fails. -/
def busyRace : List (Exclusive.Label (Fin 2) (BusyOp (Fin 2)) (BusyLabel (Fin 2))) :=
  [.start (.decAndTest 0 racePull), .start (.decAndTest 1 {}), .instr 0 true, .instr 1 true,
    .instr 0 true, .instr 1 true, .instr 0 true, .instr 1 true, .instr 0 true, .other (.store 0),
    .other (.submit 0), .other (.token 0 0x100), .other (.test 0), .other (.clear 0),
    .start (.complete 0 .storage), .instr 0 true, .instr 0 true, .instr 0 true]

theorem busyRace_steps : ∃ s t, (busySys .direct (Fin 2)).init s ∧
    (busySys .direct (Fin 2)).Steps s busyRace t ∧ t.client.core.submitted.length = 1 ∧
      t.client.core.completed = 1 ∧ t.running 1 = some (.decAndTest 1 {}) := by
  let C := busyClient .direct (Fin 2)
  let pull : BusyOp (Fin 2) := .decAndTest 0 racePull
  let lose : BusyOp (Fin 2) := .decAndTest 1 {}
  let done : BusyOp (Fin 2) := .complete 0 .storage
  let s : Exclusive.State (BusyState (Fin 2)) (Fin 2) (BusyOp (Fin 2)) U32 :=
    ⟨⟨VdqState.fresh (swpRev4100 0 0x1000), fun _ => none, fun _ => none, false, 0⟩, fun _ => none,
      fun _ => false⟩
  have hinit : (busySys .direct (Fin 2)).init s :=
    ⟨⟨⟨⟨{}, .rev4100 .vbRing 0, .ok 0x1000 0 0, 0x1000, rfl⟩, fun _ => rfl, rfl, rfl⟩,
      fun _ => rfl, fun _ => rfl, rfl, rfl⟩, fun _ => rfl⟩
  let s₁ := (((((((s.setLoop 0 (some (pull, .load))).setLoop 1 (some (lose, .load))
    ).exec C 0 pull true .load).exec C 1 lose true .load).exec C 0 pull true (.arith 1)
    ).exec C 1 lose true (.arith 1)).exec C 0 pull true (.store 0)).exec C 1 lose true (.store 0)
  let s₂ := s₁.exec C 0 pull true (.branch 0 false)
  let submitted := (s₂.client.afterStore 0 racePull).afterSubmit .direct 0 racePull
  let read : BusyState (Fin 2) :=
    { submitted with use := Function.update submitted.use 0 (some (.test 0x100)) }
  let s₃ := { s₂ with client := (read.afterTest 0 0x100).afterClear 0 }
  let s₄ := (((s₃.setLoop 0 (some (done, .load))).exec C 0 done true .load
    ).exec C 0 done true (.arith 0)).exec C 0 done true (.store 1)
  have h₁ : (busySys .direct (Fin 2)).Steps s (busyRace.take 9) s₂ := by
    refine .cons ⟨rfl, ⟨rfl, rfl, rfl, _, rfl⟩, rfl⟩ (.cons ⟨rfl, ⟨rfl, rfl, rfl, [], rfl⟩, rfl⟩ ?_)
    refine .cons ⟨_, .load, rfl, rfl⟩ (.cons ⟨_, .load, rfl, rfl⟩ ?_)
    refine .cons ⟨_, .arith 1, rfl, rfl⟩ (.cons ⟨_, .arith 1, rfl, rfl⟩ ?_)
    refine .cons ⟨_, .store 0, rfl, rfl⟩ (.cons ⟨_, .store 0, rfl, rfl⟩ ?_)
    exact .cons ⟨_, .branch 0 false, rfl, rfl⟩ (.nil _)
  have hactor : ∀ i, some (0 : Fin 2) = some i → s₂.loop i = none := by
    intro i hi
    obtain rfl := Option.some.inj hi
    rfl
  have hnone : submitted.use = fun _ => none :=
    (Function.update_idem ..).trans (Function.update_eq_self 0 s.client.use)
  have h₂ : (busySys .direct (Fin 2)).Steps s₂ ((busyRace.drop 9).take 5) s₃ := by
    refine .cons ⟨hactor, _, ⟨racePull, rfl, rfl, fun i u hi => ?_, rfl⟩, rfl⟩ ?_
    · cases hi
    refine .cons ⟨hactor, _, ⟨racePull, rfl, rfl, rfl⟩, rfl⟩ ?_
    refine .cons ⟨hactor, read, ⟨⟨rfl, rfl, rfl⟩, by decide, fun i u hi => ?_, rfl⟩, rfl⟩ ?_
    · cases (congrFun hnone i).symm.trans hi
    refine .cons ⟨hactor, _, ⟨0x100, rfl, rfl⟩, rfl⟩ ?_
    exact .cons ⟨hactor, _, ⟨0x100, rfl, rfl⟩, rfl⟩ (.nil _)
  have h₃ : (busySys .direct (Fin 2)).Steps s₃ (busyRace.drop 14) s₄ := by
    refine .cons ⟨rfl, rfl, rfl⟩ (.cons ⟨_, .load, rfl, rfl⟩ ?_)
    exact .cons ⟨_, .arith 0, rfl, rfl⟩ (.cons ⟨_, .store 1, rfl, rfl⟩ (.nil _))
  exact ⟨s, s₄, hinit, (h₁.append h₂).append h₃, rfl, rfl, rfl⟩

end Qbman
