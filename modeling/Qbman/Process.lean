import Qbman.Enqueue
import Qbman.Eqcr.Init
import Qbman.Lib.System
import Qbman.Pull
import Qbman.Release

/-!
# Several portals in one process

`processSys` is a history of `qbman_swp_init` and `qbman_swp_finish` calls. The data-path operations
dispatch through the seven process-wide pointers, which the first memory-backed portal switches for
good; the management path tests the portal itself. So every live portal gets its own implementation
exactly if no memory-backed portal was ever initialised or all live portals are memory-backed
(`processSys_dispatch_iff`).
-/

namespace Qbman

/-! ## The data-path operations -/

/-- A call of a data-path operation. -/
inductive DataPathOp where
  | enqueue (c : EnqCall)
  | pull (d : QbmanPullDesc)
  | dqrrNext
  | release (d : QbmanReleaseDesc) (buffers : Nat → U64) (numBuffers : U32)

/-- What a data-path operation returns: a code, with the descriptor a pull leaves, or an entry. -/
inductive DataPathRet where
  | code (ret : Int)
  | pulled (ret : Int) (d : QbmanPullDesc)
  | entry (off : Option Nat)

/-- An outcome with its result wrapped. -/
def Outcome.map {α β : Type} (f : α → β) (o : Outcome α) : Outcome β := ⟨f o.ret, o.swp, o.accs⟩

namespace DataPathOp

/-- The call through the entry point. -/
def call (ptrs : FnPtrs) (s : QbmanSwp) (r : Regions) : DataPathOp → Outcome DataPathRet
  | enqueue c => (c.run ptrs s r).map .code
  | pull d => (qbmanSwpPull ptrs s d).map fun ret => .pulled ret.1 ret.2
  | dqrrNext => (qbmanSwpDqrrNext ptrs s r).map .entry
  | release d buffers n => (qbmanSwpRelease ptrs s r d buffers n).map .code

/-- The implementation that the call on portal `s` runs. -/
def impl (ptrs : FnPtrs) (s : QbmanSwp) : DataPathOp → Impl
  | enqueue (.enqueue _ _) =>
    if s.sys.eqcrMode = .vbArray then ptrs.enqueueArrayModePtr else ptrs.enqueueRingModePtr
  | enqueue (.multiple _ _ _ _) => ptrs.enqueueMultiplePtr
  | enqueue (.multipleDesc _ _ _) => ptrs.enqueueMultipleDescPtr
  | pull _ => ptrs.pullPtr
  | dqrrNext => ptrs.dqrrNextPtr
  | release _ _ _ => ptrs.releasePtr

theorem impl_ptrs (i : Impl) (s : QbmanSwp) (op : DataPathOp) : op.impl i.ptrs s = i := by
  rcases op with (_ | _ | _) | _ | _ | _
  · cases i <;> exact ite_self _
  all_goals cases i <;> rfl

/-- A call runs as in a process whose pointers all name the implementation that it dispatches to. -/
theorem call_eq (ptrs : FnPtrs) (s : QbmanSwp) (r : Regions) (op : DataPathOp) :
    op.call ptrs s r = op.call (op.impl ptrs s).ptrs s r := by
  rcases op with (_ | _ | _) | _ | _ | _
  · simp only [call, EnqCall.run, impl, qbmanSwpEnqueue]
    split
    · rw [qbmanSwpEnqueueArrayMode, qbmanSwpEnqueueArrayMode]
      cases ptrs.enqueueArrayModePtr <;> rfl
    · rw [qbmanSwpEnqueueRingMode, qbmanSwpEnqueueRingMode]
      cases ptrs.enqueueRingModePtr <;> rfl
  · simp only [call, EnqCall.run, impl, qbmanSwpEnqueueMultiple]
    cases ptrs.enqueueMultiplePtr <;> rfl
  · simp only [call, EnqCall.run, impl, qbmanSwpEnqueueMultipleDesc]
    cases ptrs.enqueueMultipleDescPtr <;> rfl
  · simp only [call, impl, qbmanSwpPull]
    cases ptrs.pullPtr <;> rfl
  · simp only [call, impl, qbmanSwpDqrrNext]
    cases ptrs.dqrrNextPtr <;> rfl
  · simp only [call, impl, qbmanSwpRelease]
    cases ptrs.releasePtr <;> rfl

end DataPathOp

/-! ## Histories -/

/-- The process: the driver's shared state and the live portals at their addresses. -/
structure Process where
  globals : Globals := {}
  live : Addr → Option QbmanSwp := fun _ => none

inductive ProcOp where
  | init (d : QbmanSwpDesc) (env : InitEnv)
  | finish (a : Addr)

/-- Successful calls: `malloc` gives a block that is not in use; a portal is finished once. -/
def processSys : Trans.Sys Process ProcOp where
  init P := P = {}
  step P op Q := match op with
    | .init d env => ∃ a p, (qbmanSwpInit P.globals d env).ret = some (a, p) ∧ P.live a = none ∧
        Q = ⟨(qbmanSwpInit P.globals d env).globals, Function.update P.live a (some p)⟩
    | .finish a => ∃ p, P.live a = some p ∧
        Q = ⟨qbmanSwpFinish P.globals p, Function.update P.live a none⟩

/-- A memory-backed portal was initialised. -/
def SomeMemBacked (ops : List ProcOp) : Prop := ∃ d env, .init d env ∈ ops ∧ d.memBacked = true

/-- The pointers are those of the history, and every live portal was initialised in it. -/
structure Process.Inv (P : Process) (ops : List ProcOp) : Prop where
  direct : ¬ SomeMemBacked ops → P.globals.ptrs = Impl.direct.ptrs
  memBack : SomeMemBacked ops → P.globals.ptrs = Impl.memBack.ptrs
  live : ∀ a p, P.live a = some p → ∃ env, .init p.desc env ∈ ops

namespace Process

variable {P Q : Process} {ops : List ProcOp}

theorem Inv.init (h : P.Inv ops) {d : QbmanSwpDesc} {env : InitEnv} {a : Addr} {p : QbmanSwp}
    (hret : (qbmanSwpInit P.globals d env).ret = some (a, p)) :
    Inv ⟨(qbmanSwpInit P.globals d env).globals, Function.update P.live a (some p)⟩
      (ops ++ [.init d env]) := by
  obtain ⟨-, hdesc, -, -, -, -, -, -, -, -, hglobals⟩ := qbmanSwpInit_some hret
  have hptrs : (qbmanSwpInit P.globals d env).globals.ptrs =
      if d.memBacked then FnPtrs.memBack else P.globals.ptrs := by rw [hglobals]
  have hsome : SomeMemBacked (ops ++ [.init d env]) ↔ SomeMemBacked ops ∨ d.memBacked = true := by
    constructor
    · rintro ⟨d', env', hmem, hd'⟩
      rcases List.mem_append.mp hmem with hmem | hmem
      · exact .inl ⟨d', env', hmem, hd'⟩
      · cases List.mem_singleton.mp hmem
        exact .inr hd'
    · rintro (⟨d', env', hmem, hd'⟩ | hd)
      · exact ⟨d', env', List.mem_append_left _ hmem, hd'⟩
      · exact ⟨d, env, List.mem_append_right _ (List.mem_singleton_self _), hd⟩
  refine ⟨fun hno => ?_, fun hyes => ?_, fun a' p' ha' => ?_⟩
  · rw [hsome, not_or] at hno
    show (qbmanSwpInit P.globals d env).globals.ptrs = _
    rw [hptrs, if_neg hno.2, h.direct hno.1]
  · show (qbmanSwpInit P.globals d env).globals.ptrs = _
    rw [hptrs]
    split
    · rfl
    · rename_i hd
      exact h.memBack ((hsome.mp hyes).resolve_right hd)
  · have hlive : Function.update P.live a (some p) a' = some p' := ha'
    by_cases haa : a' = a
    · rw [haa, Function.update_self] at hlive
      cases hlive
      rw [hdesc]
      exact ⟨env, List.mem_append_right _ (List.mem_singleton_self _)⟩
    · rw [Function.update_of_ne haa] at hlive
      obtain ⟨env', hmem⟩ := h.live a' p' hlive
      exact ⟨env', List.mem_append_left _ hmem⟩

theorem Inv.finish (h : P.Inv ops) (a : Addr) (p : QbmanSwp) :
    Inv ⟨qbmanSwpFinish P.globals p, Function.update P.live a none⟩ (ops ++ [.finish a]) := by
  have hsome : SomeMemBacked (ops ++ [.finish a]) ↔ SomeMemBacked ops := by
    simp [SomeMemBacked]
  refine ⟨fun hno => h.direct (hsome.not.mp hno), fun hyes => h.memBack (hsome.mp hyes),
    fun a' p' ha' => ?_⟩
  have hlive : Function.update P.live a none a' = some p' := ha'
  by_cases haa : a' = a
  · rw [haa, Function.update_self] at hlive
    cases hlive
  · rw [Function.update_of_ne haa] at hlive
    obtain ⟨env, hmem⟩ := h.live a' p' hlive
    exact ⟨env, List.mem_append_left _ hmem⟩

theorem inv_run (h₀ : processSys.init P) (h : processSys.Steps P ops Q) : Q.Inv ops := by
  have hstart : P.Inv [] := by
    obtain rfl : P = {} := h₀
    exact ⟨fun _ => rfl, fun ⟨_, _, hmem, _⟩ => (nomatch hmem), fun a p hp => (nomatch hp)⟩
  refine h.keeps_history (I := Inv) (fun P hist op Q hinv hstep => ?_) hstart
  cases op with
  | init d env =>
    obtain ⟨a, p, hret, -, rfl⟩ := hstep
    exact hinv.init hret
  | finish a =>
    obtain ⟨p, -, rfl⟩ := hstep
    exact hinv.finish a p

end Process

/-- After any history, the data-path operations of the live portals run the portals' own
implementations exactly if no memory-backed portal was initialised or all live ones are. -/
theorem processSys_dispatch_iff {P Q : Process} {ops : List ProcOp} (h₀ : processSys.init P)
    (h : processSys.Steps P ops Q) :
    (∀ a p, Q.live a = some p → ∀ op : DataPathOp, op.impl Q.globals.ptrs p = p.desc.impl) ↔
      ¬ SomeMemBacked ops ∨ ∀ a p, Q.live a = some p → p.desc.memBacked = true := by
  have hinv := Process.inv_run h₀ h
  constructor
  · intro hall
    by_contra hcon
    rw [not_or, not_not, not_forall] at hcon
    obtain ⟨hsome, a, hcon⟩ := hcon
    obtain ⟨p, hcon⟩ := not_forall.mp hcon
    obtain ⟨hp, hdirect⟩ := Classical.not_imp.mp hcon
    have hown := hall a p hp .dqrrNext
    rw [hinv.memBack hsome, DataPathOp.impl_ptrs] at hown
    exact hdirect (QbmanSwpDesc.impl_eq_memBack.mp hown.symm)
  · rintro (hno | hmem) a p hp op
    · obtain ⟨env, hop⟩ := hinv.live a p hp
      have hd : ¬ p.desc.memBacked = true := fun hd => hno ⟨p.desc, env, hop, hd⟩
      rw [hinv.direct hno, DataPathOp.impl_ptrs, QbmanSwpDesc.impl, if_neg hd]
    · obtain ⟨env, hop⟩ := hinv.live a p hp
      have hd := hmem a p hp
      rw [hinv.memBack ⟨p.desc, env, hop, hd⟩, DataPathOp.impl_ptrs,
        QbmanSwpDesc.impl_eq_memBack.mpr hd]

/-- A memory-backed portal and a direct one, of which the direct one is finished. -/
theorem processSys_dispatch_iff_finish :
    ∃ ops Q, processSys.Steps {} ops Q ∧ ops.length = 3 ∧ SomeMemBacked ops ∧
      (∃ p, Q.live 0x3000 = some p) ∧ Q.live 0x1000 = none ∧
      ∀ a p, Q.live a = some p → ∀ op : DataPathOp, op.impl Q.globals.ptrs p = p.desc.impl := by
  let p₁ := ((qbmanSwpInit {} (.rev5000 .vbRing 1) (.ok 0x3000 0 0)).ret.get rfl).2
  let P₁ : Process := ⟨(qbmanSwpInit {} (.rev5000 .vbRing 1) (.ok 0x3000 0 0)).globals,
    Function.update (fun _ => none) 0x3000 (some p₁)⟩
  let p₂ := ((qbmanSwpInit P₁.globals (.rev4100 .vbRing 0) (.ok 0x1000 0 0)).ret.get rfl).2
  let P₂ : Process := ⟨(qbmanSwpInit P₁.globals (.rev4100 .vbRing 0) (.ok 0x1000 0 0)).globals,
    Function.update P₁.live 0x1000 (some p₂)⟩
  let Q : Process := ⟨qbmanSwpFinish P₂.globals p₂, Function.update P₂.live 0x1000 none⟩
  have hmemBack : processSys.step {} (.init (.rev5000 .vbRing 1) (.ok 0x3000 0 0)) P₁ :=
    ⟨0x3000, p₁, rfl, rfl, rfl⟩
  have hdirect : processSys.step P₁ (.init (.rev4100 .vbRing 0) (.ok 0x1000 0 0)) P₂ :=
    ⟨0x1000, p₂, rfl, rfl, rfl⟩
  have hfinish : processSys.step P₂ (.finish 0x1000) Q := ⟨p₂, rfl, rfl⟩
  have hrun := Trans.Sys.Steps.cons hmemBack (.cons hdirect (.cons hfinish (.nil _)))
  have hlive : ∀ a p, Q.live a = some p → p = p₁ := fun a p hp => by
    have hp' : Function.update (Function.update (Function.update (fun _ => none) 0x3000 (some p₁))
      0x1000 (some p₂)) 0x1000 none a = some p := hp
    rw [Function.update_idem, Function.update_apply] at hp'
    split at hp'
    · cases hp'
    · rw [Function.update_apply] at hp'
      split at hp'
      · exact (Option.some.inj hp').symm
      · cases hp'
  refine ⟨_, Q, hrun, rfl, ⟨_, _, List.mem_cons_self, rfl⟩, ⟨p₁, rfl⟩, rfl,
    (processSys_dispatch_iff rfl hrun).mpr (.inr fun a p hp => ?_)⟩
  rw [hlive a p hp]
  exact (by decide : (QbmanSwpDesc.rev5000 .vbRing 1).memBacked = true)

/-- A direct portal, then a memory-backed one: `qbman_swp_dqrr_next` of the first one reads the
memory-backed ring. -/
theorem processSys_not_dispatch :
    ∃ ops Q p, processSys.Steps {} ops Q ∧ Q.live 0x1000 = some p ∧ p.desc.memBacked = false ∧
      DataPathOp.dqrrNext.impl Q.globals.ptrs p = .memBack := by
  let p₁ := ((qbmanSwpInit {} (.rev4100 .vbRing 0) (.ok 0x1000 0 0)).ret.get rfl).2
  let P₁ : Process := ⟨(qbmanSwpInit {} (.rev4100 .vbRing 0) (.ok 0x1000 0 0)).globals,
    Function.update (fun _ => none) 0x1000 (some p₁)⟩
  have hdirect : processSys.step {} (.init (.rev4100 .vbRing 0) (.ok 0x1000 0 0)) P₁ :=
    ⟨0x1000, p₁, rfl, rfl, rfl⟩
  have hmemBack : processSys.step P₁ (.init (.rev5000 .vbRing 1) (.ok 0x3000 0 0)) _ :=
    ⟨0x3000, _, rfl, rfl, rfl⟩
  exact ⟨_, _, p₁, .cons hdirect (.cons hmemBack (.nil _)), rfl, by decide, rfl⟩

end Qbman
