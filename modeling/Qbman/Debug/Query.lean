import Qbman.Mc.Complete
import Qbman.Mc.Statistics

/-!
# The queries and a missing response

Six of the seven queries copy the response into the caller's structure as `*r = *mc_complete(…)` and
then test `r`, the caller's pointer, which is not `NULL`. They read through the `NULL` that
`qbman_swp_mc_complete` returns when no response comes. `qbman_cgr_statistics_query` tests the
pointer that it got.
-/

namespace Qbman

/-- The memory of the caller that a query writes: its result structure, or its two counters. -/
structure QueryMem where
  rslt : Line
  frameCnt : U64
  byteCnt : U64

/-- What a query leaves. -/
structure QueryOutcome where
  ret : Int
  swp : QbmanSwp
  accs : List Access
  mem : QueryMem

/-- A read of what a pointer points to; `none` if the pointer is `NULL`. -/
def derefResponse (r : Option Line) : Option Line := r

/-- The body of the queries that copy the response: `none` if they read through `NULL`. -/
def queryCopying (req : McRequest) (p : QbmanSwp) (start : Line) (polls : Nat → Region)
    (mem : QueryMem) : Option QueryOutcome :=
  let out := qbmanSwpMcComplete p (req.fill start) req.verb polls
  (derefResponse out.ret).map fun r =>
    -- `if (!r)` looks at the caller's pointer
    { ret := if mcRslt r ≠ qbmanMcRsltOk then - eIO else 0
      swp := out.swp
      accs := out.accs
      mem := { mem with rslt := r } }

namespace Debug

variable (p : QbmanSwp) (start : Line) (polls : Nat → Region)

def qbmanBpQuery (bpid : U32) (mem : QueryMem) : Option QueryOutcome :=
  queryCopying (qbmanBpQueryRequest bpid) p start polls mem

def qbmanFqQuery (fqid : U32) (mem : QueryMem) : Option QueryOutcome :=
  queryCopying (qbmanFqQueryRequest fqid) p start polls mem

def qbmanFqQueryState (fqid : U32) (mem : QueryMem) : Option QueryOutcome :=
  queryCopying (qbmanFqQueryStateRequest fqid) p start polls mem

def qbmanCgrQuery (cgid : U32) (mem : QueryMem) : Option QueryOutcome :=
  queryCopying (qbmanCgrQueryRequest cgid) p start polls mem

def qbmanCgrWredQuery (cgid : U32) (mem : QueryMem) : Option QueryOutcome :=
  queryCopying (qbmanCgrWredQueryRequest cgid) p start polls mem

def qbmanWqchanQuery (chanid : U16) (mem : QueryMem) : Option QueryOutcome :=
  queryCopying (qbmanWqchanQueryRequest chanid) p start polls mem

end Debug

/-- A call of a query. -/
inductive Query where
  | bp (bpid : U32)
  | fq (fqid : U32)
  | fqState (fqid : U32)
  | cgr (cgid : U32)
  | cgrWred (cgid : U32)
  | wqchan (chanid : U16)
  | cgrStatistics (cgid : U32) (clear : Int) (commandType : U32)
  deriving DecidableEq

namespace Query

def request : Query → McRequest
  | bp b => qbmanBpQueryRequest b
  | fq f => qbmanFqQueryRequest f
  | fqState f => qbmanFqQueryStateRequest f
  | cgr c => qbmanCgrQueryRequest c
  | cgrWred c => qbmanCgrWredQueryRequest c
  | wqchan ch => qbmanWqchanQueryRequest ch
  | cgrStatistics c clear ct => qbmanCgrStatisticsQueryRequest c clear ct

/-- The queries that copy the response before they test for one. -/
def copies : Query → Bool
  | cgrStatistics .. => false
  | _ => true

variable (p : QbmanSwp) (start : Line) (polls : Nat → Region)

def run (mem : QueryMem) : Query → Option QueryOutcome
  | bp b => Debug.qbmanBpQuery p start polls b mem
  | fq f => Debug.qbmanFqQuery p start polls f mem
  | fqState f => Debug.qbmanFqQueryState p start polls f mem
  | cgr c => Debug.qbmanCgrQuery p start polls c mem
  | cgrWred c => Debug.qbmanCgrWredQuery p start polls c mem
  | wqchan ch => Debug.qbmanWqchanQuery p start polls ch mem
  | cgrStatistics c clear ct =>
    let out := qbmanCgrStatisticsQuery p start polls c clear ct mem.frameCnt mem.byteCnt
    some { ret := out.ret, swp := out.swp, accs := out.accs
           mem := { mem with frameCnt := out.frameCnt, byteCnt := out.byteCnt } }

/-- What `qbman_swp_mc_complete` returns to the query. -/
def response (q : Query) : Option Line :=
  (qbmanSwpMcComplete p (q.request.fill start) q.request.verb polls).ret

variable {p start polls}

theorem response_eq_none_iff {q : Query} :
    q.response p start polls = none ↔ ∀ k ≤ mcLoopvar, mcOutcome p polls k = none := by
  rw [response, qbmanSwpMcComplete_eq_exit]
  exact mcCompleteExit_ret_eq_none_iff

theorem run_of_copies {q : Query} (h : q.copies = true) (mem : QueryMem) :
    q.run p start polls mem = queryCopying q.request p start polls mem := by
  cases q with
  | cgrStatistics => cases h
  | _ => rfl

/-- The query returns `-EIO` and leaves the caller's memory alone if no response comes, and returns
`0` for a response exactly if it is a success. -/
structure Survives (p : QbmanSwp) (start : Line) (polls : Nat → Region) (mem : QueryMem)
    (q : Query) : Prop where
  silent : q.response p start polls = none →
    ∃ o, q.run p start polls mem = some o ∧ o.ret = - eIO ∧ o.mem = mem
  answered : ∀ l, q.response p start polls = some l →
    ∃ o, q.run p start polls mem = some o ∧ (o.ret = 0 ↔ mcRslt l = qbmanMcRsltOk)

theorem ret_eq_zero_iff (l : Line) :
    (if mcRslt l ≠ qbmanMcRsltOk then - eIO else 0) = 0 ↔ mcRslt l = qbmanMcRsltOk := by
  by_cases h : mcRslt l = qbmanMcRsltOk <;> simp [h, eIO]

/-- A query that copies reads through `NULL` if there is no response. -/
theorem queryCopying_of_none {q : Query} (h : q.response p start polls = none) (mem : QueryMem) :
    queryCopying q.request p start polls mem = none := by
  have hret : (qbmanSwpMcComplete p (q.request.fill start) q.request.verb polls).ret = none := h
  simp [queryCopying, derefResponse, hret]

theorem queryCopying_answered {q : Query} {l : Line} (h : q.response p start polls = some l)
    (mem : QueryMem) : ∃ o, queryCopying q.request p start polls mem = some o ∧
      (o.ret = 0 ↔ mcRslt l = qbmanMcRsltOk) := by
  have hret : (qbmanSwpMcComplete p (q.request.fill start) q.request.verb polls).ret = some l := h
  refine ⟨_, by simp only [queryCopying, derefResponse, hret, Option.map_some]; rfl, ?_⟩
  exact ret_eq_zero_iff l

theorem statistics_survives (cgid : U32) (clear : Int) (commandType : U32) (mem : QueryMem) :
    Survives p start polls mem (.cgrStatistics cgid clear commandType) := by
  constructor
  · intro h
    simp only [response, request] at h
    exact ⟨_, rfl, by simp only [qbmanCgrStatisticsQuery, h, and_self]⟩
  · intro l h
    simp only [response, request] at h
    refine ⟨_, rfl, ?_⟩
    by_cases hok : mcRslt l = qbmanMcRsltOk <;> simp [qbmanCgrStatisticsQuery, h, hok, eIO]

end Query

/-- A query survives a missing response if it is the statistics query; else none may be missing. -/
theorem query_survives_iff (p : QbmanSwp) (start : Line) (polls : Nat → Region) (mem : QueryMem)
    (q : Query) : q.Survives p start polls mem ↔
      q.copies = false ∨ ∃ k ≤ mcLoopvar, (mcOutcome p polls k).isSome := by
  have hresponse : (∃ k ≤ mcLoopvar, (mcOutcome p polls k).isSome) ↔
      q.response p start polls ≠ none := by
    rw [Ne, Query.response_eq_none_iff]
    simp only [not_forall, exists_prop, Option.isSome_iff_ne_none, Ne]
  rw [hresponse]
  cases hq : q.copies with
  | false =>
    cases q with
    | cgrStatistics c clear ct =>
      exact iff_of_true (Query.statistics_survives c clear ct mem) (.inl rfl)
    | _ => cases hq
  | true =>
    constructor
    · intro h
      refine .inr fun hnone => ?_
      obtain ⟨o, ho, -⟩ := h.silent hnone
      rw [Query.run_of_copies hq, Query.queryCopying_of_none hnone] at ho
      cases ho
    · rintro (h | h)
      · cases h
      · refine ⟨fun hnone => absurd hnone h, fun l hl => ?_⟩
        rw [Query.run_of_copies hq]
        exact Query.queryCopying_answered hl mem

/-- The hardware does not answer a buffer pool query. -/
theorem qbmanBpQuery_not_survives :
    let p := ((qbmanSwpInit {} (.rev4100 .vbRing 0) (.ok 0x1000 0 0)).ret.get rfl).2
    ¬ (Query.bp 1).Survives p (fun _ => 0) (fun _ _ => 0) ⟨fun _ => 0, 0, 0⟩ := by
  intro p h
  have hpoll : mcOutcome p (fun _ _ => 0) 0 = none := by decide
  have hnone : (Query.bp 1).response p (fun _ => 0) (fun _ _ => 0) = none :=
    Query.response_eq_none_iff.mpr fun _ _ => hpoll
  obtain ⟨o, ho, -⟩ := h.silent hnone
  have hrun := Query.queryCopying_of_none (q := .bp 1) hnone ⟨fun _ => 0, 0, 0⟩
  have : (none : Option QueryOutcome) = some o := hrun.symm.trans ho
  cases this

end Qbman
