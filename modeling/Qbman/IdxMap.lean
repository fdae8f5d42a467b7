import Qbman.Process

/-!
# From a token back to its portal

`qbman_swp_pull` puts the index of the portal plus one, in 8 bits, as the token into its command,
and `qbman_check_command_complete` takes `portal_idx_map[tok - 1]` for the portal. `qbman_swp_init`
and `qbman_swp_finish` keep that table, and none of them holds the index against its 64 entries.
Tokens lead back to their portals exactly in the histories with indices inside the table
(`mapSys_roundTrip_iff`).
-/

namespace Qbman

def maxQbmanPortals : Int := 64

/-- An index inside `portal_idx_map`. -/
def InMap (i : Int) : Prop := 0 ≤ i ∧ i < maxQbmanPortals

instance (i : Int) : Decidable (InMap i) := inferInstanceAs (Decidable (_ ∧ _))

/-- The index at which a call that succeeds accesses `portal_idx_map`. -/
def Process.mapAccess (P : Process) : ProcOp → Option Int
  | .init d _ => some d.idx
  | .finish a => (P.live a).map (·.desc.idx)

/-- Live portals have different indices. -/
def Process.Distinct (P : Process) : ProcOp → Prop
  | .init d _ => ∀ a p, P.live a = some p → p.desc.idx ≠ d.idx
  | .finish _ => True

/-- A process with the indices at which the calls so far accessed the table. -/
structure MapState where
  proc : Process := {}
  accessed : List Int := []

/-- Histories of successful calls for portals with different indices. -/
def mapSys : Trans.Sys MapState ProcOp where
  init s := s = {}
  step s op t := processSys.step s.proc op t.proc ∧ s.proc.Distinct op ∧
    t.accessed = s.accessed ++ (s.proc.mapAccess op).toList

/-- A token leads to the portal at `a`: `qbman_check_command_complete` of an entry with the token
looks inside the table and runs the hook of that portal. -/
structure LeadsTo (portalIdxMap : Int → Option Addr) (tok : U8) (a : Addr) : Prop where
  ne_zero : tok ≠ 0
  inside : InMap (tok.toNat - 1)
  lookup : ∀ b, portalIdxMap (tok.toNat - 1) = some b ↔ b = a
  check : ∀ (swp : Addr → Option QbmanSwp) (p : QbmanSwp) (dq : U64) (l : Line),
    dqTok l = tok → swp a = some p → qbmanCheckCommandComplete portalIdxMap swp dq l =
      some (1, Function.update swp a (some { p with vdq := p.vdq.hook dq }))

/-- The table was accessed inside only, and the token of any pull of a live portal, whatever was
done to the portal since it was initialised, leads to it. -/
structure MapState.RoundTrip (s : MapState) : Prop where
  inside : ∀ i ∈ s.accessed, InMap i
  token : ∀ a p, s.proc.live a = some p → ∀ q : QbmanSwp, q.sys = p.sys → ∀ ptrs d d',
    (qbmanSwpPull ptrs q d).ret = (0, d') → LeadsTo s.proc.globals.portalIdxMap d'.tok a

/-- A portal of a history: its index in the table leads to it. -/
structure MapState.Entry (s : MapState) (ops : List ProcOp) (a : Addr) (p : QbmanSwp) : Prop where
  built : ∃ env, .init p.desc env ∈ ops
  idx : p.sys.idx = BitVec.ofInt 32 p.desc.idx
  map : s.proc.globals.portalIdxMap p.desc.idx = some a

structure MapState.Inv (s : MapState) (ops : List ProcOp) : Prop where
  accessed : ∀ i, i ∈ s.accessed ↔ ∃ d env, .init d env ∈ ops ∧ d.idx = i
  live : ∀ a p, s.proc.live a = some p → s.Entry ops a p

namespace MapState

variable {s t : MapState} {ops : List ProcOp}

theorem Inv.init (h : s.Inv ops) {d : QbmanSwpDesc} {env : InitEnv} {a : Addr} {p : QbmanSwp}
    (hret : (qbmanSwpInit s.proc.globals d env).ret = some (a, p))
    (hdistinct : s.proc.Distinct (.init d env))
    (hproc : t.proc = ⟨(qbmanSwpInit s.proc.globals d env).globals,
      Function.update s.proc.live a (some p)⟩)
    (haccessed : t.accessed = s.accessed ++ [d.idx]) : t.Inv (ops ++ [.init d env]) := by
  obtain ⟨-, hdesc, -, -, -, -, -, -, hidx, -, hglobals⟩ := qbmanSwpInit_some hret
  have hmap : t.proc.globals.portalIdxMap =
      Function.update s.proc.globals.portalIdxMap d.idx (some a) := by rw [hproc, hglobals]
  have hlive : t.proc.live = Function.update s.proc.live a (some p) := by rw [hproc]
  constructor
  · intro i
    simp only [haccessed, List.mem_append, List.mem_singleton, h.accessed]
    grind
  · intro a' p' hp'
    rw [hlive] at hp'
    by_cases ha : a' = a
    · subst ha
      rw [Function.update_self] at hp'
      obtain rfl := Option.some.inj hp'
      refine ⟨⟨env, ?_⟩, hdesc ▸ hidx, ?_⟩
      · rw [hdesc]
        exact List.mem_append_right _ (List.mem_singleton_self _)
      · rw [hmap, hdesc, Function.update_self]
    · rw [Function.update_of_ne ha] at hp'
      obtain ⟨⟨env', hmem⟩, hidx', hmap'⟩ := h.live a' p' hp'
      refine ⟨⟨env', List.mem_append_left _ hmem⟩, hidx', ?_⟩
      rw [hmap, Function.update_of_ne (hdistinct a' p' hp'), hmap']

theorem Inv.finish (h : s.Inv ops) {a : Addr} {p : QbmanSwp} (hp : s.proc.live a = some p)
    (hproc : t.proc = ⟨qbmanSwpFinish s.proc.globals p, Function.update s.proc.live a none⟩)
    (haccessed : t.accessed = s.accessed ++ [p.desc.idx]) : t.Inv (ops ++ [.finish a]) := by
  have hmap : t.proc.globals.portalIdxMap =
      Function.update s.proc.globals.portalIdxMap p.desc.idx none := by
    rw [hproc]
    rfl
  have hlive : t.proc.live = Function.update s.proc.live a none := by rw [hproc]
  obtain ⟨⟨env, hmem⟩, -, hown⟩ := h.live a p hp
  constructor
  · intro i
    simp only [haccessed, List.mem_append, List.mem_singleton, h.accessed]
    grind
  · intro a' p' hp'
    rw [hlive] at hp'
    by_cases ha : a' = a
    · subst ha
      rw [Function.update_self] at hp'
      cases hp'
    · rw [Function.update_of_ne ha] at hp'
      obtain ⟨⟨env', hmem'⟩, hidx', hmap'⟩ := h.live a' p' hp'
      refine ⟨⟨env', List.mem_append_left _ hmem'⟩, hidx', ?_⟩
      -- Two live portals with one index would share its entry.
      have hne : p'.desc.idx ≠ p.desc.idx := fun he =>
        ha (Option.some.inj (hmap'.symm.trans (he ▸ hown)))
      rw [hmap, Function.update_of_ne hne, hmap']

theorem inv_run (h : mapSys.Steps {} ops s) : s.Inv ops := by
  have hstart : Inv {} [] := ⟨fun i => by simp, fun a p hp => by cases hp⟩
  refine h.keeps_history (I := Inv) (fun s hist op t hinv hstep => ?_) hstart
  obtain ⟨hproc, hdistinct, haccessed⟩ := hstep
  cases op with
  | init d env =>
    obtain ⟨a, p, hret, -, hproc⟩ := hproc
    exact hinv.init hret hdistinct hproc haccessed
  | finish a =>
    obtain ⟨p, hp, hproc⟩ := hproc
    refine hinv.finish hp hproc ?_
    rw [haccessed, Process.mapAccess, hp]
    rfl

/-- The token of a portal with an index inside the table leads to it. -/
theorem Entry.leadsTo {a : Addr} {p : QbmanSwp} (h : s.Entry ops a p) (hin : InMap p.desc.idx) :
    LeadsTo s.proc.globals.portalIdxMap ((p.sys.idx + 1).setWidth 8) a := by
  have htok := tok_toNat h.idx hin.1 hin.2
  have hprev : ((((p.sys.idx + 1).setWidth 8 : U8).toNat : Int) - 1) = p.desc.idx := by omega
  have hne : ((p.sys.idx + 1).setWidth 8 : U8) ≠ 0 := by
    intro hzero
    have hnonneg := hin.1
    rw [hzero] at htok
    simp at htok
    omega
  refine ⟨hne, hprev ▸ hin, fun b => ?_, fun swp q dq l hl hq => ?_⟩
  · rw [hprev, h.map]
    exact ⟨fun hb => (Option.some.inj hb).symm, fun hb => hb ▸ rfl⟩
  · rw [qbmanCheckCommandComplete, hl, if_neg hne, hprev, h.map]
    simp [hq]

end MapState

/-- After any history, the table was accessed inside only and every token leads back to its portal
exactly if every portal was initialised with an index inside the table. -/
theorem mapSys_roundTrip_iff {s : MapState} {ops : List ProcOp} (h : mapSys.Steps {} ops s) :
    s.RoundTrip ↔ ∀ d env, .init d env ∈ ops → InMap d.idx := by
  have hinv := MapState.inv_run h
  constructor
  · intro hround d env hmem
    exact hround.inside d.idx ((hinv.accessed d.idx).mpr ⟨d, env, hmem, rfl⟩)
  · intro hin
    constructor
    · intro i hi
      obtain ⟨d, env, hmem, rfl⟩ := (hinv.accessed i).mp hi
      exact hin d env hmem
    · intro a p hp q hsys ptrs d d' hret
      have hentry := hinv.live a p hp
      obtain ⟨env, hmem⟩ := hentry.built
      rw [qbmanSwpPull_tok hret, hsys]
      exact hentry.leadsTo (hin p.desc env hmem)

/-- The history of one portal. -/
theorem mapSys_one (idx : Int) :
    ∃ s, mapSys.Steps {} [.init (.rev4100 .vbRing idx) (.ok 0x1000 0 0)] s ∧
    s.accessed = [idx] ∧ s.proc.live 0x1000 = some (swpRev4100 idx 0x1000) := by
  let g := (qbmanSwpInit {} (.rev4100 .vbRing idx) (.ok 0x1000 0 0)).globals
  let t : MapState := ⟨⟨g,
    Function.update (fun _ => none) 0x1000 (some (swpRev4100 idx 0x1000))⟩, [idx]⟩
  have hstep : mapSys.step {} (.init (.rev4100 .vbRing idx) (.ok 0x1000 0 0)) t := by
    refine ⟨⟨0x1000, swpRev4100 idx 0x1000, ?_, rfl, rfl⟩, ?_, rfl⟩
    · simp [swpRev4100, qbmanSwpInit, qbmanSwpSysInit, InitEnv.ok]
    · intro a p hp
      cases hp
  refine ⟨t, .cons hstep (.nil _), rfl, ?_⟩
  simp [t]

/-- The last index of the table. -/
theorem mapSys_roundTrip_iff_last : ∃ s,
    mapSys.Steps {} [.init (.rev4100 .vbRing 63) (.ok 0x1000 0 0)] s ∧ s.RoundTrip := by
  obtain ⟨s, hrun, -⟩ := mapSys_one 63
  refine ⟨s, hrun, (mapSys_roundTrip_iff hrun).mpr fun d env hmem => ?_⟩
  cases List.mem_singleton.mp hmem
  decide

/-- Index 255: `qbman_swp_init` writes behind the table, and the token of a pull is zero. -/
theorem mapSys_not_roundTrip : ∃ s p,
    mapSys.Steps {} [.init (.rev4100 .vbRing 255) (.ok 0x1000 0 0)] s ∧
      s.proc.live 0x1000 = some p ∧ (∃ i ∈ s.accessed, ¬ InMap i) ∧
      (qbmanSwpPull s.proc.globals.ptrs p {}).ret.2.tok = 0 ∧ ¬ s.RoundTrip := by
  obtain ⟨s, hrun, haccessed, hlive⟩ := mapSys_one 255
  have hout : ∃ i ∈ s.accessed, ¬ InMap i := ⟨255, by rw [haccessed]; simp, by decide⟩
  refine ⟨s, _, hrun, hlive, hout, ?_, fun h => ?_⟩
  · rw [qbmanSwpPull_eq]
    cases s.proc.globals.ptrs.pullPtr <;> decide
  · obtain ⟨i, hi, hnot⟩ := hout
    exact hnot (h.inside i hi)

end Qbman
