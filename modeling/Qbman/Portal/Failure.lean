import Qbman.Portal

/-!
# Failed initialisation

`qbman_swp_init` has four ways to fail: no memory for the portal object, no memory for the shadow, a
portal that is not enabled, and one whose `DQPI` is not zero. It writes `qman_version` before the
last three, and the last one leaves the shadow allocated (`qbmanSwpInit_failsClean_iff`).
-/

namespace Qbman

/-- The blocks that `qbman_swp_init` allocates: the portal object, then the shadow. -/
def initAllocated (env : InitEnv) : List Addr :=
  match env.mallocSwp with
  | none => []
  | some a => a :: env.mallocCena.toList

/-- A call that returns `NULL` frees each block that it allocated once, and leaves the process-wide
state as it was. -/
structure FailsClean (g : Globals) (d : QbmanSwpDesc) (env : InitEnv) : Prop where
  freed : (qbmanSwpInit g d env).ret = none →
    (qbmanSwpInit g d env).freed.Perm (initAllocated env)
  globals : (qbmanSwpInit g d env).ret = none → (qbmanSwpInit g d env).globals = g

/-- The shadow is allocated and the portal is enabled. -/
def InitEnv.SysOk (env : InitEnv) : Prop :=
  env.mallocCena ≠ none ∧ env.cinh 0 qbmanCinhSwpCfg ≠ 0

/-- `DQPI` is zero. -/
def InitEnv.DqpiOk (env : InitEnv) : Prop := env.cinh 1 qbmanCinhSwpDqpi &&& 0xF = 0

variable {g : Globals} {d : QbmanSwpDesc} {env : InitEnv} {a : Addr}

/-- `qbman_swp_sys_init` frees the shadow when it fails, and only then. -/
theorem sysInit_cases (d : QbmanSwpDesc) (dqrrSize : U8) (mallocCena : Option Addr) (cfg : U32) :
    let r := qbmanSwpSysInit d dqrrSize mallocCena cfg
    r.ret ≠ 0 ∧ ¬ (mallocCena ≠ none ∧ cfg ≠ 0) ∧ r.freed = mallocCena.toList ∨
      r.ret = 0 ∧ (mallocCena ≠ none ∧ cfg ≠ 0) ∧ r.freed = [] := by
  unfold qbmanSwpSysInit
  cases mallocCena with
  | none => exact .inl ⟨show (-1 : Int) ≠ 0 by decide, fun h => h.1 rfl, rfl⟩
  | some c =>
    by_cases hcfg : cfg = 0
    · simp only [if_pos hcfg]
      exact .inl ⟨show (-1 : Int) ≠ 0 by decide, fun h => h.2 hcfg, rfl⟩
    · simp only [if_neg hcfg]
      exact .inr ⟨trivial, ⟨Option.some_ne_none c, hcfg⟩, trivial⟩

/-- The exit for a failed `qbman_swp_sys_init`. -/
theorem qbmanSwpInit_sys_failed (ha : env.mallocSwp = some a) (h : ¬ env.SysOk) :
    (qbmanSwpInit g d env).ret = none ∧
      (qbmanSwpInit g d env).globals = { g with qmanVersion := d.qmanVersion } ∧
      (qbmanSwpInit g d env).freed = env.mallocCena.toList ++ [a] := by
  obtain ⟨hret, -, hfreed⟩ | ⟨-, hok, -⟩ := sysInit_cases d (swpDefaults d).dqrr.dqrrSize
    env.mallocCena (env.cinh 0 qbmanCinhSwpCfg)
  · simp only [qbmanSwpInit, ha, if_pos hret, hfreed, and_self]
  · exact absurd hok h

/-- The exit for a `DQPI` that is not zero: the shadow is not freed. -/
theorem qbmanSwpInit_dqpi_failed (ha : env.mallocSwp = some a) (h : env.SysOk)
    (hdqpi : ¬ env.DqpiOk) :
    (qbmanSwpInit g d env).ret = none ∧ (qbmanSwpInit g d env).freed = [a] := by
  obtain ⟨-, hbad, -⟩ | ⟨hret, -, hfreed⟩ := sysInit_cases d (swpDefaults d).dqrr.dqrrSize
    env.mallocCena (env.cinh 0 qbmanCinhSwpCfg)
  · exact absurd h hbad
  · have hne : env.cinh 1 qbmanCinhSwpDqpi &&& 0xF ≠ 0 := hdqpi
    simp only [qbmanSwpInit, ha, if_neg (not_not_intro hret), if_pos hne, hfreed]
    exact ⟨trivial, rfl⟩

theorem qbmanSwpInit_ok (ha : env.mallocSwp = some a) (h : env.SysOk) (hdqpi : env.DqpiOk) :
    (qbmanSwpInit g d env).ret ≠ none := by
  obtain ⟨-, hbad, -⟩ | ⟨hret, -, -⟩ := sysInit_cases d (swpDefaults d).dqrr.dqrrSize
    env.mallocCena (env.cinh 0 qbmanCinhSwpCfg)
  · exact absurd h hbad
  · have heq : ¬ env.cinh 1 qbmanCinhSwpDqpi &&& 0xF ≠ 0 := not_not_intro hdqpi
    simp only [qbmanSwpInit, ha, if_neg (not_not_intro hret), if_neg heq]
    exact Option.some_ne_none _

/-- A failed call leaves no trace if it fails at its first `malloc`, or in `qbman_swp_sys_init`
under the version that `qman_version` had already. -/
theorem qbmanSwpInit_failsClean_iff (g : Globals) (d : QbmanSwpDesc) (env : InitEnv) :
    FailsClean g d env ↔ env.mallocSwp = none ∨ (env.SysOk ∧ env.DqpiOk) ∨
      (¬ env.SysOk ∧ g.qmanVersion = d.qmanVersion) := by
  cases ha : env.mallocSwp with
  | none =>
    refine iff_of_true ⟨fun _ => ?_, fun _ => ?_⟩ (.inl rfl)
    · simp [qbmanSwpInit, initAllocated, ha]
    · simp [qbmanSwpInit, ha]
  | some a =>
    have halloc : initAllocated env = a :: env.mallocCena.toList := by rw [initAllocated, ha]
    by_cases hsys : env.SysOk
    · by_cases hdqpi : env.DqpiOk
      · have hok := qbmanSwpInit_ok (g := g) (d := d) ha hsys hdqpi
        exact iff_of_true ⟨fun h => absurd h hok, fun h => absurd h hok⟩ (.inr (.inl ⟨hsys, hdqpi⟩))
      · obtain ⟨hret, hfreed⟩ := qbmanSwpInit_dqpi_failed (g := g) (d := d) ha hsys hdqpi
        refine iff_of_false (fun h => ?_) (by simp [hsys, hdqpi])
        obtain ⟨c, hc⟩ := Option.ne_none_iff_exists'.mp hsys.1
        have hperm := (h.freed hret).length_eq
        rw [hfreed, halloc, hc] at hperm
        cases hperm
    · obtain ⟨hret, hglobals, hfreed⟩ := qbmanSwpInit_sys_failed (g := g) (d := d) ha hsys
      have hversion : { g with qmanVersion := d.qmanVersion } = g ↔
          g.qmanVersion = d.qmanVersion := by
        constructor
        · exact fun h => (congrArg Globals.qmanVersion h).symm
        · exact fun h => by rw [← h]
      constructor
      · intro h
        exact .inr (.inr ⟨hsys, hversion.mp (hglobals.symm.trans (h.globals hret))⟩)
      · intro h
        have heq : g.qmanVersion = d.qmanVersion := by simpa [hsys] using h
        refine ⟨fun _ => ?_, fun _ => hglobals.trans (hversion.mpr heq)⟩
        rw [hfreed, halloc]
        exact List.perm_append_singleton a _

/-- A portal that is not clean: the shadow at `0x2000` is lost, and `qman_version` is written. -/
theorem qbmanSwpInit_not_failsClean :
    ¬ FailsClean {} (.rev4100 .vbRing 0)
      { mallocSwp := some 0x1000, mallocCena := some 0x2000, cinh := fun _ _ => 1 } := by
  intro h
  have hperm := (h.freed rfl).length_eq
  exact absurd hperm (by decide)

end Qbman
