import Mathlib.Algebra.BigOperators.Group.Finset.Basic
import Mathlib.Algebra.Order.BigOperators.Group.Finset
import Mathlib.Data.Fintype.Card
import Qbman.Lib.System

/-!
# Read-modify-write loops with an exclusive monitor

An operation on a shared word is a loop: load the word and set the thread's monitor, compute, store
if the monitor is still set, and start again if the store failed. A store clears the monitors of all
threads. It may also fail for no reason.

Each interleaving of such loops is a run in which the operations are atomic (`Client.simulation`):
an operation takes place at the store that succeeds. In a run of `n` threads the loops take no more
than `4 * n` instructions for each operation, and `4` for each store that was refused
(`Client.instrs_le`), so no schedule keeps all threads from finishing.
-/

namespace Exclusive

open scoped BigOperators

/-- Threads that share a word. `finish` is what a thread has done once it has written the word; the
other steps leave the word alone. -/
structure Client (σ ι Op α β : Type*) where
  init : σ → Prop
  word : σ → α
  thread : Op → ι
  /-- The thread of the operation is about to run it. -/
  ready : σ → Op → Prop
  arith : Op → α → α
  finish : σ → Op → α → σ
  other : σ → β → σ → Prop
  actor : β → Option ι
  word_finish : ∀ s o v, word (finish s o v) = v
  word_other : ∀ s b t, other s b t → word t = word s
  ready_finish : ∀ s o v o', ready s o → ready s o' → thread o' ≠ thread o →
    ready (finish s o v) o'
  ready_other : ∀ s b t o, other s b t → ready s o → actor b ≠ some (thread o) → ready t o

/-- The next instruction of a loop, with the registers that are still read. -/
inductive Pc (α : Type*) where
  | load
  | arith (w : α)
  | store (w : α)
  | branch (w : α) (failed : Bool)

structure State (σ ι Op α : Type*) where
  client : σ
  loop : ι → Option (Op × Pc α)
  monitor : ι → Bool

/-- `ok` is whether the hardware lets a store through that the monitor allows. -/
inductive Label (ι Op β : Type*) where
  | start (o : Op)
  | instr (i : ι) (ok : Bool)
  | other (b : β)

variable {σ ι Op α β : Type*}

namespace Client

variable (C : Client σ ι Op α β)

/-- The system in which an operation is one step. -/
def atomicSys : Trans.Sys σ (Op ⊕ β) where
  init := C.init
  step s l t := match l with
    | .inl o => C.ready s o ∧ t = C.finish s o (C.arith o (C.word s))
    | .inr b => C.other s b t

end Client

namespace State

variable (C : Client σ ι Op α β) (s : State σ ι Op α)

section Exec

variable [DecidableEq ι]

def setLoop (i : ι) (p : Option (Op × Pc α)) : State σ ι Op α :=
  { s with loop := Function.update s.loop i p }

def setMonitor (i : ι) (b : Bool) : State σ ι Op α :=
  { s with monitor := Function.update s.monitor i b }

/-- The store of `w` takes place. -/
def finish (o : Op) (w : α) : State σ ι Op α :=
  { s with client := C.finish s.client o w, monitor := fun _ => false }

/-- Thread `i`, which is in the loop of `o`, executes one instruction. -/
def exec (i : ι) (o : Op) (ok : Bool) : Pc α → State σ ι Op α
  | .load => (s.setLoop i (some (o, .arith (C.word s.client)))).setMonitor i true
  | .arith w => s.setLoop i (some (o, .store (C.arith o w)))
  | .store w =>
    if ok && s.monitor i then
      (s.setLoop i (some (o, .branch w false))).finish C o w
    else
      (s.setLoop i (some (o, .branch w true))).setMonitor i false
  | .branch _ true => s.setLoop i (some (o, .load))
  | .branch _ false => s.setLoop i none

end Exec

/-- Thread `i` is in loop `o` at `p`. While its monitor is set, its register is up to date. -/
def At (i : ι) (o : Op) : Pc α → Prop
  | .load => C.ready s.client o
  | .arith w => C.ready s.client o ∧ (s.monitor i = true → w = C.word s.client)
  | .store w => C.ready s.client o ∧ (s.monitor i = true → w = C.arith o (C.word s.client))
  | .branch _ failed => failed = true → C.ready s.client o

def Inv : Prop := ∀ i o p, s.loop i = some (o, p) → C.thread o = i ∧ s.At C i o p

end State

/-- The operation that thread `i` has started, until its store succeeds. -/
def State.running (s : State σ ι Op α) (i : ι) : Option Op :=
  match s.loop i with
  | some (_, .branch _ false) => none
  | some (o, _) => some o
  | none => none

/-- The threads execute their loops one instruction at a time, in any order. -/
def Client.sys [DecidableEq ι] (C : Client σ ι Op α β) :
    Trans.Sys (State σ ι Op α) (Label ι Op β) where
  init s := C.init s.client ∧ ∀ i, s.loop i = none
  step s l t := match l with
    | .start o => s.loop (C.thread o) = none ∧ C.ready s.client o ∧
        t = s.setLoop (C.thread o) (some (o, .load))
    | .instr i ok => ∃ o p, s.loop i = some (o, p) ∧ t = s.exec C i o ok p
    | .other b => (∀ i, C.actor b = some i → s.loop i = none) ∧
        ∃ x, C.other s.client b x ∧ t = { s with client := x }

namespace State

variable {C : Client σ ι Op α β} {s : State σ ι Op α} [DecidableEq ι]

theorem exec_store_of_true {i : ι} {ok : Bool} (h : (ok && s.monitor i) = true) (o : Op) (w : α) :
    s.exec C i o ok (.store w) = (s.setLoop i (some (o, .branch w false))).finish C o w := if_pos h

theorem exec_store_of_false {i : ι} {ok : Bool} (h : (ok && s.monitor i) = false) (o : Op) (w : α) :
    s.exec C i o ok (.store w) = (s.setLoop i (some (o, .branch w true))).setMonitor i false := by
  simp [exec, h]

@[simp] theorem setLoop_client (i : ι) (p : Option (Op × Pc α)) :
    (s.setLoop i p).client = s.client := rfl

@[simp] theorem setLoop_monitor (i : ι) (p : Option (Op × Pc α)) :
    (s.setLoop i p).monitor = s.monitor := rfl

@[simp] theorem setLoop_loop (i : ι) (p : Option (Op × Pc α)) :
    (s.setLoop i p).loop = Function.update s.loop i p := rfl

@[simp] theorem setMonitor_loop (i : ι) (b : Bool) : (s.setMonitor i b).loop = s.loop := rfl

@[simp] theorem setMonitor_monitor (i : ι) (b : Bool) :
    (s.setMonitor i b).monitor = Function.update s.monitor i b := rfl

/-! ## Atomicity -/

omit [DecidableEq ι] in
/-- What a thread relies on stays true if it is still ready, and the word is the same or its monitor
was cleared. -/
theorem At.frame {t : State σ ι Op α} {i : ι} {o : Op} {p : Pc α} (h : s.At C i o p)
    (hready : C.ready s.client o → C.ready t.client o)
    (hmon : t.monitor i = true → s.monitor i = true ∧ C.word t.client = C.word s.client) :
    t.At C i o p := by
  cases p with
  | load => exact hready h
  | arith w =>
    refine ⟨hready h.1, fun hm => ?_⟩
    rw [(hmon hm).2]
    exact h.2 (hmon hm).1
  | store w =>
    refine ⟨hready h.1, fun hm => ?_⟩
    rw [(hmon hm).2]
    exact h.2 (hmon hm).1
  | branch w failed => exact fun hf => hready (h hf)

/-- A step of thread `i`: its own new place, and what it leaves to the others. -/
theorem Inv.setLoop {t : State σ ι Op α} (h : s.Inv C) (i : ι) {q : Option (Op × Pc α)}
    (hloop : t.loop = Function.update s.loop i q)
    (hself : ∀ o p, q = some (o, p) → C.thread o = i ∧ t.At C i o p)
    (hothers : ∀ j o p, j ≠ i → C.thread o = j → s.At C j o p → t.At C j o p) : t.Inv C := by
  intro j o p hj
  rw [hloop] at hj
  by_cases hji : j = i
  · subst hji
    rw [Function.update_self] at hj
    exact hself o p hj
  · rw [Function.update_of_ne hji] at hj
    obtain ⟨hthread, hat⟩ := h j o p hj
    exact ⟨hthread, hothers j o p hji hthread hat⟩

/-- An instruction does nothing to the client, or it is the store that ends the operation. -/
theorem exec_client (i : ι) (o : Op) (ok : Bool) (p : Pc α) :
    (s.exec C i o ok p).client = s.client ∨
      ∃ w, p = .store w ∧ s.monitor i = true ∧
      (s.exec C i o ok p).client = C.finish s.client o w := by
  cases p with
  | load => exact .inl rfl
  | arith w => exact .inl rfl
  | store w =>
    cases hok : ok && s.monitor i with
    | true =>
      rw [exec_store_of_true hok]
      exact .inr ⟨w, rfl, (Bool.and_eq_true_iff.mp hok).2, rfl⟩
    | false =>
      rw [exec_store_of_false hok]
      exact .inl rfl
  | branch w failed => cases failed <;> exact .inl rfl

theorem Inv.exec (h : s.Inv C) {i : ι} {o : Op} {p : Pc α} (hi : s.loop i = some (o, p))
    (ok : Bool) : (s.exec C i o ok p).Inv C := by
  obtain ⟨hthread, hat⟩ := h i o p hi
  cases p with
  | load =>
    refine h.setLoop i rfl (fun o' p' hq => ?_) fun j o' p' hji _ hj => hj.frame id fun hm => ?_
    · cases hq
      exact ⟨hthread, hat, fun _ => rfl⟩
    · exact ⟨by rwa [State.exec, setMonitor_monitor, Function.update_of_ne hji] at hm, rfl⟩
  | arith w =>
    refine h.setLoop i rfl (fun o' p' hq => ?_) fun j o' p' _ _ hj => hj.frame id fun hm =>
      ⟨hm, rfl⟩
    cases hq
    exact ⟨hthread, hat.1, fun hm => congrArg (C.arith o) (hat.2 hm)⟩
  | store w =>
    cases hok : ok && s.monitor i with
    | true =>
      -- The store ends the operation, and clears all monitors.
      rw [exec_store_of_true hok]
      refine h.setLoop i rfl (fun o' p' hq => ?_) fun j o' p' hji ho' hj =>
        hj.frame (fun hr => ?_) ?_
      · cases hq
        exact ⟨hthread, fun hf => Bool.noConfusion hf⟩
      · exact C.ready_finish _ _ _ _ hat.1 hr (by rwa [ho', hthread])
      · exact fun hm => Bool.noConfusion hm
    | false =>
      rw [exec_store_of_false hok]
      refine h.setLoop i rfl (fun o' p' hq => ?_) fun j o' p' hji _ hj => hj.frame id fun hm => ?_
      · cases hq
        exact ⟨hthread, fun _ => hat.1⟩
      · exact ⟨by rwa [setMonitor_monitor, Function.update_of_ne hji] at hm, rfl⟩
  | branch w failed =>
    cases failed with
    | true =>
      refine h.setLoop i rfl (fun o' p' hq => ?_) fun j o' p' _ _ hj => hj.frame id fun hm =>
        ⟨hm, rfl⟩
      cases hq
      exact ⟨hthread, hat rfl⟩
    | false =>
      refine h.setLoop i rfl (fun o' p' hq => by cases hq) fun j o' p' _ _ hj =>
        hj.frame id fun hm => ⟨hm, rfl⟩

theorem Inv.start (h : s.Inv C) {o : Op} (hready : C.ready s.client o) :
    (s.setLoop (C.thread o) (some (o, .load))).Inv C := by
  refine h.setLoop (C.thread o) rfl (fun o' p' hq => ?_)
    fun j o' p' _ _ hj => hj.frame id fun hm => ⟨hm, rfl⟩
  cases hq
  exact ⟨rfl, hready⟩

omit [DecidableEq ι] in
theorem Inv.other (h : s.Inv C) {b : β} {x : σ} (hfree : ∀ i, C.actor b = some i → s.loop i = none)
    (hx : C.other s.client b x) : Inv C { s with client := x } := by
  intro i o p hi
  obtain ⟨hthread, hat⟩ := h i o p hi
  refine ⟨hthread, hat.frame (fun hr => C.ready_other _ _ _ _ hx hr fun hact => ?_) fun hm =>
    ⟨hm, C.word_other _ _ _ hx⟩⟩
  have hnone : s.loop i = none := hfree i (hthread ▸ hact)
  rw [hi] at hnone
  cases hnone

/-! ## What an instruction does, without the registers -/

omit [DecidableEq ι] in
theorem running_of_none {i : ι} (h : s.loop i = none) : s.running i = none := by
  rw [running, h]

omit [DecidableEq ι] in
/-- A thread that runs an operation is ready for it. -/
theorem Inv.running (h : s.Inv C) {i : ι} {o : Op} (hi : s.running i = some o) :
    C.thread o = i ∧ C.ready s.client o := by
  cases hl : s.loop i with
  | none =>
    rw [running_of_none hl] at hi
    cases hi
  | some op =>
    obtain ⟨o', p⟩ := op
    obtain ⟨hthread, hat⟩ := h i o' p hl
    unfold State.running at hi
    rw [hl] at hi
    cases p with
    | load =>
      cases hi
      exact ⟨hthread, hat⟩
    | arith w =>
      cases hi
      exact ⟨hthread, hat.1⟩
    | store w =>
      cases hi
      exact ⟨hthread, hat.1⟩
    | branch w failed =>
      cases failed with
      | true =>
        cases hi
        exact ⟨hthread, hat rfl⟩
      | false => cases hi

omit [DecidableEq ι] in
theorem running_congr {t : State σ ι Op α} {i : ι} (h : t.loop i = s.loop i) :
    t.running i = s.running i := by
  rw [running, running, h]

/-- An instruction of thread `i` ends its operation, or changes neither the client nor what runs. -/
theorem running_exec {i : ι} {o : Op} {p : Pc α} (hi : s.loop i = some (o, p)) (ok : Bool) :
    (∀ j, j ≠ i → (s.exec C i o ok p).running j = s.running j) ∧
      (((s.exec C i o ok p).client = s.client ∧ (s.exec C i o ok p).running i = s.running i) ∨
        ∃ w, (s.exec C i o ok p).client = C.finish s.client o w ∧
          s.running i = some o ∧ (s.exec C i o ok p).running i = none) := by
  have hloop : ∀ t : State σ ι Op α, ∀ q, t.loop = Function.update s.loop i q →
      (∀ j, j ≠ i → t.running j = s.running j) ∧ t.loop i = q := fun t q ht => by
    refine ⟨fun j hji => running_congr ?_, ?_⟩
    · rw [ht, Function.update_of_ne hji]
    · rw [ht, Function.update_self]
  cases p with
  | load =>
    obtain ⟨hothers, hself⟩ := hloop (s.exec C i o ok .load) _ rfl
    refine ⟨hothers, .inl ⟨rfl, ?_⟩⟩
    simp only [running, hself, hi]
  | arith w =>
    obtain ⟨hothers, hself⟩ := hloop (s.exec C i o ok (.arith w)) _ rfl
    refine ⟨hothers, .inl ⟨rfl, ?_⟩⟩
    simp only [running, hself, hi]
  | store w =>
    cases hok : ok && s.monitor i with
    | true =>
      rw [exec_store_of_true hok]
      obtain ⟨hothers, hself⟩ :=
        hloop ((s.setLoop i (some (o, .branch w false))).finish C o w) _ rfl
      refine ⟨hothers, .inr ⟨w, rfl, ?_, ?_⟩⟩
      · simp only [running, hi]
      · simp only [running, hself]
    | false =>
      rw [exec_store_of_false hok]
      obtain ⟨hothers, hself⟩ :=
        hloop ((s.setLoop i (some (o, .branch w true))).setMonitor i false) _ rfl
      refine ⟨hothers, .inl ⟨rfl, ?_⟩⟩
      simp only [running, hself, hi]
  | branch w failed =>
    cases failed with
    | true =>
      obtain ⟨hothers, hself⟩ := hloop (s.exec C i o ok (.branch w true)) _ rfl
      refine ⟨hothers, .inl ⟨rfl, ?_⟩⟩
      simp only [running, hself, hi]
    | false =>
      obtain ⟨hothers, hself⟩ := hloop (s.exec C i o ok (.branch w false)) _ rfl
      refine ⟨hothers, .inl ⟨rfl, ?_⟩⟩
      simp only [running, hself, hi]

end State

section Simulation

variable [DecidableEq ι] (C : Client σ ι Op α β)

theorem Client.sys_inductive : C.sys.Inductive (State.Inv C) where
  init s := by
    rintro ⟨-, hnone⟩ i o p hi
    rw [hnone i] at hi
    cases hi
  step s l t h hstep := by
    cases l with
    | start o =>
      obtain ⟨-, hready, rfl⟩ := hstep
      exact h.start hready
    | instr i ok =>
      obtain ⟨o, p, hi, rfl⟩ := hstep
      exact h.exec hi ok
    | other b =>
      obtain ⟨hfree, x, hx, rfl⟩ := hstep
      exact h.other hfree hx

/-- The loops are atomic. -/
theorem Client.simulation :
    Trans.Sys.Simulation C.sys C.atomicSys fun s x => s.Inv C ∧ x = s.client where
  init s h := ⟨s.client, h.1, C.sys_inductive.init s h, rfl⟩
  step s l t x := by
    rintro ⟨hinv, rfl⟩ hstep
    have hinv' := C.sys_inductive.step s l t hinv hstep
    cases l with
    | start o =>
      obtain ⟨-, -, rfl⟩ := hstep
      exact ⟨[], _, .nil _, hinv', rfl⟩
    | instr i ok =>
      obtain ⟨o, p, hi, rfl⟩ := hstep
      rcases State.exec_client i o ok p with hsame | ⟨w, rfl, hmon, hfin⟩
      · exact ⟨[], s.client, .nil _, hinv', hsame.symm⟩
      · obtain ⟨hready, hw⟩ := (hinv i o _ hi).2
        refine ⟨[.inl o], _, .cons ⟨hready, rfl⟩ (.nil _), hinv', ?_⟩
        rw [hfin, hw hmon]
    | other b =>
      obtain ⟨-, y, hy, rfl⟩ := hstep
      exact ⟨[.inr b], y, .cons hy (.nil _), hinv', rfl⟩

end Simulation

/-! ## Progress -/

namespace State

variable [Fintype ι]

/-- The instructions of another round, if the store will fail. -/
def retry (monitor : Bool) : Nat := cond monitor 0 4

/-- The instructions that a thread may still need: `4 * n` for an operation of `n` threads, less
those done, and `4` more if its next store will fail. -/
def need (n : Nat) (monitor : Bool) : Option (Op × Pc α) → Nat
  | none => 0
  | some (_, .load) => 4 * n
  | some (_, .arith _) => 4 * n - 1 + retry monitor
  | some (_, .store _) => 4 * n - 2 + retry monitor
  | some (_, .branch _ true) => 4 * n + 1
  | some (_, .branch _ false) => 1

def needs (s : State σ ι Op α) : Nat :=
  ∑ i, need (Fintype.card ι) (s.monitor i) (s.loop i)

omit [Fintype ι] in
/-- A cleared monitor costs another round. -/
theorem need_le (n : Nat) (m m' : Bool) (p : Option (Op × Pc α)) :
    need n m p ≤ need n m' p + if m' = true ∧ m = false then 4 else 0 := by
  rcases p with _ | ⟨o, _ | w | w | ⟨w, _ | _⟩⟩ <;> cases m <;> cases m' <;> simp [need, retry]

variable {C : Client σ ι Op α β} {s t : State σ ι Op α} [DecidableEq ι]

/-- The needs of thread `i` change by what it does, those of the others by at most `k`. -/
theorem needs_le {i : ι} {q : Option (Op × Pc α)} {k : Nat}
    (hloop : t.loop = Function.update s.loop i q)
    (hothers : ∀ j, j ≠ i → need (Fintype.card ι) (t.monitor j) (s.loop j) ≤
      need (Fintype.card ι) (s.monitor j) (s.loop j) + k) :
    t.needs + need (Fintype.card ι) (s.monitor i) (s.loop i) ≤
      s.needs + need (Fintype.card ι) (t.monitor i) q + k * (Fintype.card ι - 1) := by
  have hs := Finset.add_sum_erase Finset.univ
    (fun j => need (Fintype.card ι) (s.monitor j) (s.loop j)) (Finset.mem_univ i)
  have ht := Finset.add_sum_erase Finset.univ
    (fun j => need (Fintype.card ι) (t.monitor j) (t.loop j)) (Finset.mem_univ i)
  have hle : ∑ j ∈ Finset.univ.erase i, need (Fintype.card ι) (t.monitor j) (t.loop j) ≤
      ∑ j ∈ Finset.univ.erase i, (need (Fintype.card ι) (s.monitor j) (s.loop j) + k) := by
    refine Finset.sum_le_sum fun j hj => ?_
    have hji := Finset.ne_of_mem_erase hj
    rw [hloop, Function.update_of_ne hji]
    exact hothers j hji
  have hk : ∑ j ∈ Finset.univ.erase i, (need (Fintype.card ι) (s.monitor j) (s.loop j) + k) =
      ∑ j ∈ Finset.univ.erase i, need (Fintype.card ι) (s.monitor j) (s.loop j) +
        k * (Fintype.card ι - 1) := by
    rw [Finset.sum_add_distrib, Finset.sum_const_nat fun _ _ => rfl,
      Finset.card_erase_of_mem (Finset.mem_univ i), Finset.card_univ, Nat.mul_comm]
  simp only [hloop, Function.update_self] at ht
  simp only [needs, hloop]
  simp only [hloop] at hle
  omega

/-- An instruction is one that was needed, and a refused store costs another round. -/
theorem needs_exec {i : ι} {o : Op} {p : Pc α} (hi : s.loop i = some (o, p)) (ok : Bool) :
    (s.exec C i o ok p).needs + 1 ≤ s.needs + if ok then 0 else 4 := by
  have hcard : 0 < Fintype.card ι := Fintype.card_pos_iff.mpr ⟨i⟩
  cases p with
  | load =>
    have h := needs_le (s := s) (t := s.exec C i o ok .load) (k := 0) rfl fun j hji => by
      simp [exec, Function.update_of_ne hji]
    simp [hi, need, retry, exec] at h ⊢
    omega
  | arith w =>
    have h := needs_le (s := s) (t := s.exec C i o ok (.arith w)) (k := 0) rfl fun j _ =>
      Nat.le_refl _
    rw [hi] at h
    simp only [need, exec, setLoop_monitor] at h ⊢
    omega
  | store w =>
    cases hok : ok && s.monitor i with
    | true =>
      rw [exec_store_of_true hok]
      obtain ⟨rfl, hmon⟩ := Bool.and_eq_true_iff.mp hok
      have h := needs_le (s := s) (t := (s.setLoop i (some (o, .branch w false))).finish C o w)
        (k := 4)
        rfl fun j _ => (need_le _ _ (s.monitor j) _).trans
          (Nat.add_le_add_left (by split <;> omega) _)
      simp [hi, need, retry, hmon] at h ⊢
      omega
    | false =>
      rw [exec_store_of_false hok]
      have h := needs_le (s := s) (t := (s.setLoop i (some (o, .branch w true))).setMonitor i false)
        (k := 0) rfl fun j hji => by simp [Function.update_of_ne hji]
      rw [hi] at h
      cases hm : s.monitor i with
      | true =>
        obtain rfl : ok = false := by simpa [hm] using hok
        simp [need, retry, hm] at h ⊢
        omega
      | false =>
        simp [need, retry, hm] at h
        omega
  | branch w failed =>
    have h := needs_le (s := s) (t := s.exec C i o ok (.branch w failed)) (k := 0)
      (q := if failed then some (o, .load) else none) (by cases failed <;> rfl)
      fun j _ => by cases failed <;> exact Nat.le_refl _
    rw [hi] at h
    cases failed with
    | true =>
      simp [need] at h
      omega
    | false =>
      simp [need] at h
      omega

theorem needs_start {o : Op} (hnone : s.loop (C.thread o) = none) :
    (s.setLoop (C.thread o) (some (o, .load))).needs ≤ s.needs + 4 * Fintype.card ι := by
  have h := needs_le (s := s) (t := s.setLoop (C.thread o) (some (o, .load))) (k := 0) rfl
    fun j _ => Nat.le_refl _
  simp only [hnone, need] at h
  omega

end State

namespace Label

def isStart : Label ι Op β → Bool
  | .start _ => true
  | _ => false

def isInstr : Label ι Op β → Bool
  | .instr _ _ => true
  | _ => false

/-- An instruction at which the hardware lets no store through. -/
def isRefusal : Label ι Op β → Bool
  | .instr _ false => true
  | _ => false

end Label

theorem Client.instrs_add_needs_le [Fintype ι] [DecidableEq ι] (C : Client σ ι Op α β)
    {s t : State σ ι Op α} {ls : List (Label ι Op β)} (h : C.sys.Steps s ls t) :
    ls.countP Label.isInstr + t.needs ≤
      s.needs + 4 * Fintype.card ι * ls.countP Label.isStart + 4 * ls.countP Label.isRefusal := by
  induction h with
  | nil s => simp
  | @cons s t u l ls hd tl ih =>
    cases l with
    | start o =>
      obtain ⟨hnone, -, rfl⟩ := hd
      have hs := State.needs_start hnone
      simp [List.countP_cons, Label.isStart, Label.isInstr, Label.isRefusal, Nat.mul_add]
      omega
    | instr i ok =>
      obtain ⟨o, p, hi, rfl⟩ := hd
      have hs := State.needs_exec (C := C) hi ok
      cases ok with
      | true =>
        simp [List.countP_cons, Label.isStart, Label.isInstr, Label.isRefusal] at hs ⊢
        omega
      | false =>
        simp [List.countP_cons, Label.isStart, Label.isInstr, Label.isRefusal] at hs ⊢
        omega
    | other b =>
      obtain ⟨-, x, -, rfl⟩ := hd
      have hs : State.needs { s with client := x } = s.needs := rfl
      rw [hs] at ih
      simpa [List.countP_cons, Label.isStart, Label.isInstr, Label.isRefusal] using ih

/-- The loops of a run from an initial state take no more than `4` instructions for each thread and
operation, and `4` for each refused store. -/
theorem Client.instrs_le [Fintype ι] [DecidableEq ι] (C : Client σ ι Op α β)
    {s t : State σ ι Op α} {ls : List (Label ι Op β)} (hinit : C.sys.init s)
    (h : C.sys.Steps s ls t) :
    ls.countP Label.isInstr ≤
      4 * Fintype.card ι * ls.countP Label.isStart + 4 * ls.countP Label.isRefusal := by
  have hs : s.needs = 0 := Finset.sum_eq_zero fun i _ => by rw [hinit.2 i]; rfl
  have hle := C.instrs_add_needs_le h
  omega

end Exclusive
