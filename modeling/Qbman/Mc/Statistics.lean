import Qbman.Lib.Count
import Qbman.Mc.Command
import Qbman.Mc.Timeout

/-!
# The statistics queries

`qbman_cgr_statistics_query` stores a count in the caller's variable if the *value* of the variable
is not zero, where the test was meant for the pointer. A clearing query of an object whose count is
not zero is lost for a variable that was zero, and with it the sum of what a sequence of queries
reports (`statRun_reports_iff`).
-/

namespace Qbman

def qbmanMcRsltOk : U8 := 0xf0

/-- `r->rslt` -/
def mcRslt (l : Line) : U8 := byteOf l 1

/-- `r->frm_cnt` and `r->byte_cnt` of `struct qbman_cgr_statistics_query_rslt`. -/
def statFrmCnt (l : Line) : U64 := Bytes.load 64 (byteOf l) 16 8
def statByteCnt (l : Line) : U64 := Bytes.load 64 (byteOf l) 24 8

/-- `& 0xFFFFFFFFFFllu` -/
def low40 (x : U64) : U64 := x &&& 0xFFFFFFFFFF

/-- What a statistics query gives back: its result, the portal, the accesses and the caller's two
variables. -/
structure StatOutcome where
  ret : Int
  swp : QbmanSwp
  accs : List Access
  frameCnt : U64
  byteCnt : U64

/-- `start` is the command as `qbman_swp_mc_start` hands it out. -/
def qbmanCgrStatisticsQuery (p : QbmanSwp) (start : Line) (polls : Nat → Region) (cgid : U32)
    (clear : Int) (commandType : U32) (frameCnt byteCnt : U64) : StatOutcome :=
  let r := qbmanCgrStatisticsQueryRequest cgid clear commandType
  let out := qbmanSwpMcComplete p (r.fill start) r.verb polls
  match out.ret with
  | none => { ret := - eIO, swp := out.swp, accs := out.accs, frameCnt, byteCnt }
  | some l =>
    if mcRslt l ≠ qbmanMcRsltOk then
      { ret := - eIO, swp := out.swp, accs := out.accs, frameCnt, byteCnt }
    else
      { ret := 0, swp := out.swp, accs := out.accs
        frameCnt := if frameCnt ≠ 0 then low40 (statFrmCnt l) else frameCnt
        byteCnt := if byteCnt ≠ 0 then low40 (statByteCnt l) else byteCnt }

def qbmanCgrRejectStatistics (p : QbmanSwp) (start : Line) (polls : Nat → Region) (cgid : U32)
    (clear : Int) (frameCnt byteCnt : U64) : StatOutcome :=
  qbmanCgrStatisticsQuery p start polls cgid clear 0xff frameCnt byteCnt

def qbmanCcgrRejectStatistics (p : QbmanSwp) (start : Line) (polls : Nat → Region) (cgid : U32)
    (clear : Int) (frameCnt byteCnt : U64) : StatOutcome :=
  qbmanCgrStatisticsQuery p start polls cgid clear 1 frameCnt byteCnt

def qbmanCqDequeueStatistics (p : QbmanSwp) (start : Line) (polls : Nat → Region) (cgid : U32)
    (clear : Int) (frameCnt byteCnt : U64) : StatOutcome :=
  qbmanCgrStatisticsQuery p start polls cgid clear 0 frameCnt byteCnt

/-! ## Sequences of queries -/

inductive StatKind where
  | cgrReject
  | ccgrReject
  | cqDequeue
  deriving DecidableEq, Repr

/-- A query: its object, the command handed out, what the portal shows at each poll, and what the
caller's variables hold before it. -/
structure StatQuery where
  kind : StatKind
  cgid : U32
  clear : Int
  start : Line
  polls : Nat → Region
  frameCnt : U64
  byteCnt : U64

namespace StatQuery

def commandType (q : StatQuery) : U32 :=
  match q.kind with
  | .cgrReject => 0xff
  | .ccgrReject => 1
  | .cqDequeue => 0

def run (p : QbmanSwp) (q : StatQuery) : StatOutcome :=
  match q.kind with
  | .cgrReject =>
    qbmanCgrRejectStatistics p q.start q.polls q.cgid q.clear q.frameCnt q.byteCnt
  | .ccgrReject =>
    qbmanCcgrRejectStatistics p q.start q.polls q.cgid q.clear q.frameCnt q.byteCnt
  | .cqDequeue =>
    qbmanCqDequeueStatistics p q.start q.polls q.cgid q.clear q.frameCnt q.byteCnt

/-- The hardware's response, if `qbman_swp_mc_complete` sees one. -/
def response (p : QbmanSwp) (q : StatQuery) : Option Line :=
  let r := qbmanCgrStatisticsQueryRequest q.cgid q.clear q.commandType
  (qbmanSwpMcComplete p (r.fill q.start) r.verb q.polls).ret

theorem run_eq (p : QbmanSwp) (q : StatQuery) :
    q.run p = qbmanCgrStatisticsQuery p q.start q.polls q.cgid q.clear q.commandType q.frameCnt
      q.byteCnt := by
  unfold run commandType
  cases q.kind <;> rfl

end StatQuery

/-- A query of a sequence, with its response and its outcome. -/
structure StatRecord where
  query : StatQuery
  response : Option Line
  outcome : StatOutcome

/-- The records of a sequence of queries on a portal. -/
def statRun (p : QbmanSwp) : List StatQuery → List StatRecord
  | [] => []
  | q :: qs =>
    let outcome := q.run p
    { query := q, response := q.response p, outcome } :: statRun outcome.swp qs

namespace StatRecord

/-- A query that returns 0 leaves the low 40 bits of the counts in the variables. -/
def Kept (c : StatRecord) : Prop :=
  c.outcome.ret = 0 → ∀ l, c.response = some l →
    c.outcome.frameCnt = low40 (statFrmCnt l) ∧ c.outcome.byteCnt = low40 (statByteCnt l)

/-- Where a count is not zero, the variable for it was not zero. -/
def Seen (c : StatRecord) : Prop :=
  ∀ l, c.response = some l → mcRslt l = qbmanMcRsltOk →
    (low40 (statFrmCnt l) ≠ 0 → c.query.frameCnt ≠ 0) ∧
      (low40 (statByteCnt l) ≠ 0 → c.query.byteCnt ≠ 0)

/-- The outcome is that of a query with the response. -/
structure Faithful (c : StatRecord) : Prop where
  none : c.response = none → c.outcome.ret = - eIO
  failed : ∀ l, c.response = some l → mcRslt l ≠ qbmanMcRsltOk → c.outcome.ret = - eIO
  ok : ∀ l, c.response = some l → mcRslt l = qbmanMcRsltOk → c.outcome.ret = 0 ∧
    c.outcome.frameCnt =
      (if c.query.frameCnt ≠ 0 then low40 (statFrmCnt l) else c.query.frameCnt) ∧
    c.outcome.byteCnt = if c.query.byteCnt ≠ 0 then low40 (statByteCnt l) else c.query.byteCnt

end StatRecord

theorem statQuery_faithful (p : QbmanSwp) (q : StatQuery) :
    StatRecord.Faithful { query := q, response := q.response p, outcome := q.run p } := by
  constructor
  · intro h
    simp only [StatQuery.response] at h
    simp only [StatQuery.run_eq, qbmanCgrStatisticsQuery, h]
  · intro l h hrslt
    simp only [StatQuery.response] at h
    simp only [StatQuery.run_eq, qbmanCgrStatisticsQuery, h, if_pos hrslt]
  · intro l h hrslt
    simp only [StatQuery.response] at h
    simp only [StatQuery.run_eq, qbmanCgrStatisticsQuery, h, if_neg (not_not_intro hrslt),
      and_self]

theorem statRun_faithful (p : QbmanSwp) (qs : List StatQuery) : ∀ c ∈ statRun p qs, c.Faithful := by
  induction qs generalizing p with
  | nil => simp [statRun]
  | cons q qs ih =>
    intro c hc
    obtain rfl | hc := List.mem_cons.mp hc
    · exact statQuery_faithful p q
    · exact ih _ c hc

/-! ## What is lost -/

/-- The store is made unless the variable is zero and the count is not. -/
theorem stored_eq_iff (v x : U64) : (if v ≠ 0 then x else v) = x ↔ (x ≠ 0 → v ≠ 0) := by
  by_cases hv : v = 0
  · subst hv
    rw [if_neg (not_not_intro rfl)]
    constructor
    · exact fun h hx => absurd h.symm hx
    · intro h
      by_contra hx
      exact h (Ne.symm hx) rfl
  · rw [if_pos hv]
    exact iff_of_true rfl fun _ => hv

namespace StatRecord

variable {c : StatRecord}

theorem Faithful.ret_eq_zero (h : c.Faithful) {l : Line} (hl : c.response = some l) :
    c.outcome.ret = 0 ↔ mcRslt l = qbmanMcRsltOk := by
  constructor
  · intro hret
    by_contra hrslt
    rw [h.failed l hl hrslt] at hret
    cases hret
  · exact fun hrslt => (h.ok l hl hrslt).1

theorem Faithful.kept_iff (h : c.Faithful) : c.Kept ↔ c.Seen := by
  unfold Kept Seen
  constructor
  · intro hkept l hl hrslt
    obtain ⟨hret, hframe, hbyte⟩ := h.ok l hl hrslt
    obtain ⟨hf, hb⟩ := hkept hret l hl
    rw [hframe] at hf
    rw [hbyte] at hb
    exact ⟨(stored_eq_iff _ _).mp hf, (stored_eq_iff _ _).mp hb⟩
  · intro hseen hret l hl
    have hrslt := (h.ret_eq_zero hl).mp hret
    obtain ⟨-, hframe, hbyte⟩ := h.ok l hl hrslt
    obtain ⟨hf, hb⟩ := hseen l hl hrslt
    rw [hframe, hbyte]
    exact ⟨(stored_eq_iff _ _).mpr hf, (stored_eq_iff _ _).mpr hb⟩

end StatRecord

/-! ## Accounting -/

namespace StatRecord

variable (c : StatRecord)

/-- A clearing query of the object. -/
def Clears (kind : StatKind) (cgid : U32) : Prop :=
  c.query.kind = kind ∧ c.query.cgid = cgid ∧ c.query.clear ≠ 0

instance (kind : StatKind) (cgid : U32) : Decidable (c.Clears kind cgid) :=
  inferInstanceAs (Decidable (_ ∧ _ ∧ _))

/-- The caller adds up what a variable holds after a query that returns 0. -/
def reported (var : StatOutcome → U64) : Nat :=
  if c.outcome.ret = 0 then (var c.outcome).toNat else 0

/-- The hardware accumulated and cleared the count of a successful response. -/
def cleared (cnt : Line → U64) : Nat :=
  match c.response with
  | some l => if mcRslt l = qbmanMcRsltOk then (cnt l).toNat else 0
  | none => 0

/-- The counts of a successful response are 40 bits wide. -/
def Bounded : Prop :=
  ∀ l, c.response = some l → mcRslt l = qbmanMcRsltOk →
    (statFrmCnt l).toNat < 2 ^ 40 ∧ (statByteCnt l).toNat < 2 ^ 40

end StatRecord

@[simp]
theorem low40_toNat (x : U64) : (low40 x).toNat = x.toNat % 2 ^ 40 := by
  rw [low40, BitVec.toNat_and]
  exact Nat.and_two_pow_sub_one_eq_mod x.toNat 40

/-- A variable takes at most the count, and all of it iff it is stored. -/
theorem stored_toNat_le (v : U64) {x : U64} (hx : x.toNat < 2 ^ 40) :
    (if v ≠ 0 then low40 x else v).toNat ≤ x.toNat ∧
      ((if v ≠ 0 then low40 x else v).toNat = x.toNat ↔ (low40 x ≠ 0 → v ≠ 0)) := by
  have hlow : (low40 x).toNat = x.toNat := by rw [low40_toNat, Nat.mod_eq_of_lt hx]
  have heq : low40 x = x := BitVec.eq_of_toNat_eq hlow
  rw [heq, ← stored_eq_iff v x, BitVec.toNat_inj]
  refine ⟨?_, Iff.rfl⟩
  split
  · exact le_rfl
  · rename_i hv
    simp [not_not.mp hv]

namespace StatRecord

variable {c : StatRecord}

/-- A query reports at most what was cleared, and all of it iff both counts were seen. -/
theorem Faithful.reported_le (h : c.Faithful) (hb : c.Bounded) :
    c.reported StatOutcome.frameCnt ≤ c.cleared statFrmCnt ∧
      c.reported StatOutcome.byteCnt ≤ c.cleared statByteCnt ∧
      (c.reported StatOutcome.frameCnt = c.cleared statFrmCnt ∧
        c.reported StatOutcome.byteCnt = c.cleared statByteCnt ↔ c.Seen) := by
  unfold reported cleared Seen
  cases hl : c.response with
  | none => simp [h.none hl, eIO]
  | some l =>
    by_cases hrslt : mcRslt l = qbmanMcRsltOk
    · obtain ⟨hret, hframe, hbyte⟩ := h.ok l hl hrslt
      obtain ⟨hf, hb⟩ := hb l hl hrslt
      obtain ⟨hfle, hfeq⟩ := stored_toNat_le c.query.frameCnt hf
      obtain ⟨hble, hbeq⟩ := stored_toNat_le c.query.byteCnt hb
      simp only [hret, hframe, hbyte, hrslt, if_true]
      refine ⟨hfle, hble, ?_⟩
      rw [hfeq, hbeq]
      constructor
      · rintro hseen _ ⟨⟩ -
        exact hseen
      · exact fun hseen => hseen l rfl hrslt
    · simp [h.failed l hl hrslt, hrslt, eIO]

end StatRecord

/-- A sequence adds up for an object: over its clearing queries, the counts reported are those
cleared. -/
def AddsUp (cs : List StatRecord) (kind : StatKind) (cgid : U32) : Prop :=
  let clearing := cs.filter (·.Clears kind cgid)
  (clearing.map (·.reported StatOutcome.frameCnt)).sum = (clearing.map (·.cleared statFrmCnt)).sum ∧
    (clearing.map (·.reported StatOutcome.byteCnt)).sum = (clearing.map (·.cleared statByteCnt)).sum

theorem addsUp_iff {cs : List StatRecord} {kind : StatKind} {cgid : U32}
    (hf : ∀ c ∈ cs, c.Faithful) (hb : ∀ c ∈ cs, c.Clears kind cgid → c.Bounded) :
    AddsUp cs kind cgid ↔ ∀ c ∈ cs, c.Clears kind cgid → c.Seen := by
  have hmem : ∀ c ∈ cs.filter (·.Clears kind cgid), c.Faithful ∧ c.Bounded := by
    intro c hc
    simp only [List.mem_filter, decide_eq_true_eq] at hc
    exact ⟨hf c hc.1, hb c hc.1 hc.2⟩
  simp only [AddsUp]
  rw [Count.sum_map_eq_iff fun c hc => ((hmem c hc).1.reported_le (hmem c hc).2).1,
    Count.sum_map_eq_iff fun c hc => ((hmem c hc).1.reported_le (hmem c hc).2).2.1,
    ← forall₂_and]
  simp only [List.mem_filter, decide_eq_true_eq, and_imp] at hmem ⊢
  refine forall₃_congr fun c hc hclears => ?_
  obtain ⟨hfaith, hbound⟩ := hmem c hc hclears
  exact (hfaith.reported_le hbound).2.2

/-- **What a sequence of queries reports.** The queries that return 0 leave the counts in the
variables iff no count that is not zero met a variable that was zero; and the counts reported by the
clearing queries of an object add up to those cleared iff that holds of these queries. -/
theorem statRun_reports_iff (p : QbmanSwp) (qs : List StatQuery) :
    ((∀ c ∈ statRun p qs, c.Kept) ↔ ∀ c ∈ statRun p qs, c.Seen) ∧
      ∀ kind cgid, (∀ c ∈ statRun p qs, c.Clears kind cgid → c.Bounded) →
        (AddsUp (statRun p qs) kind cgid ↔ ∀ c ∈ statRun p qs, c.Clears kind cgid → c.Seen) :=
  ⟨forall₂_congr fun c hc => (statRun_faithful p qs c hc).kept_iff,
    fun _ _ hb => addsUp_iff (statRun_faithful p qs) hb⟩

/-- A clearing query of congestion group 7 with variables that are zero; the response reports 5
frames of 320 bytes. -/
def statQueryZero : StatQuery where
  kind := .cgrReject
  cgid := 7
  clear := 1
  start := fun _ => 0
  polls := fun _ a =>
    if a = 0x740 then 0xf055 else if a = 0x750 then 5 else if a = 0x758 then 320 else 0
  frameCnt := 0
  byteCnt := 0

theorem statQueryZero_response :
    statQueryZero.response (swpRev4100 0 0x1000) = some ((statQueryZero.polls 0).line 0x740) := by
  decide

/-- The query returns 0, and both counts are lost. -/
theorem statRun_not_reported :
    ¬ (∀ c ∈ statRun (swpRev4100 0 0x1000) [statQueryZero], c.Kept) ∧
      ¬ AddsUp (statRun (swpRev4100 0 0x1000) [statQueryZero]) .cgrReject 7 := by
  obtain ⟨c, hc, hrun⟩ : ∃ c : StatRecord, c.query = statQueryZero ∧
      statRun (swpRev4100 0 0x1000) [statQueryZero] = [c] := ⟨_, rfl, rfl⟩
  have hl : c.response = some ((statQueryZero.polls 0).line 0x740) := by
    rw [← statQueryZero_response, ← (List.cons.inj hrun).1]
  have hrslt : mcRslt ((statQueryZero.polls 0).line 0x740) = qbmanMcRsltOk := by decide
  have hfaith : ∀ c' ∈ [c], c'.Faithful := hrun ▸ statRun_faithful _ _
  have hmem : c ∈ [c] := List.mem_singleton.mpr rfl
  have hclears : c.Clears .cgrReject 7 := by
    rw [StatRecord.Clears, hc]
    decide
  have hseen : ¬ c.Seen := by
    intro h
    exact (h _ hl hrslt).1 (by decide) (by rw [hc]; rfl)
  have hbound : c.Bounded := by
    intro l hl' _
    obtain rfl := Option.some.inj (hl.symm.trans hl')
    decide
  rw [hrun]
  constructor
  · exact fun h => hseen ((hfaith c hmem).kept_iff.mp (h c hmem))
  · rw [addsUp_iff hfaith (by simpa using fun _ => hbound)]
    exact fun h => hseen (h c hmem hclears)

end Qbman
