import Mathlib.Data.List.Induction
import Qbman.Mc.Shadow

/-!
# The usage checks of the management interface

A `QBMAN_CHECKING` build keeps a state `mc.check` that says which of `qbman_swp_mc_start`, `_submit`
and `_result` may come next, and asserts it. Two of the tests are the wrong way round: `_start`
moves on when it has *no* command to return, which never happens, and `_submit` asserts that the
state is *not* the one in which it may be called. So the state only tells whether a command is
submitted and not answered (`foldl_checkNext`), and a use of the interface is reported only if it
conflicts with that (`Detected`); a missing or double start and a double submit go unnoticed.
-/

namespace Qbman.Checking

/-! ## The build with checks -/

/-- `enum swp_mc_check`. -/
inductive SwpMcCheck where
  | canStart
  | canSubmit
  | canPoll
  deriving DecidableEq, Repr

/-- `struct qbman_swp` with its `mc.check`, as `qbman_swp_init` sets it. -/
structure Swp where
  swp : QbmanSwp
  check : SwpMcCheck := .canStart

/-- What a call gives back: whether its assertion reports, its result and the portal. -/
structure Checked (α : Type) where
  report : Bool
  ret : α
  swp : Swp

def qbmanSwpMcStart (p : Swp) (shadow : Bytes.Mem) : Checked Addr :=
  let report := decide (p.check ≠ .canStart)
  let ret := (Qbman.qbmanSwpMcStart p.swp shadow).1
  let p := if ret = 0 then { p with check := .canSubmit } else p
  { report, ret, swp := p }

def qbmanSwpMcSubmit (p : Swp) (cmd : Line) (cmdVerb : U8) : Checked (List Access) :=
  let report := !decide (p.check ≠ .canSubmit)
  let ret := Qbman.qbmanSwpMcSubmit p.swp cmd cmdVerb
  { report, ret, swp := { p with check := .canPoll } }

def qbmanSwpMcResult (p : Swp) (cena : Region) : Checked (Option Line) :=
  let report := decide (p.check ≠ .canPoll)
  let out := Qbman.qbmanSwpMcResult p.swp cena
  let check := if out.ret.isNone then p.check else .canStart
  { report, ret := out.ret, swp := { swp := out.swp, check } }

/-- The assertion of `qbman_swp_finish`. -/
def qbmanSwpFinish (p : Swp) : Bool := decide (p.check ≠ .canStart)

/-- A call of the interface, with what the driver reads during it. -/
inductive Call where
  | start (shadow : Bytes.Mem)
  | submit (cmd : Line) (cmdVerb : U8)
  | result (cena : Region)

/-- A call as seen from outside: whether a result was returned. -/
inductive Event where
  | start
  | submit
  | result (done : Bool)
  deriving DecidableEq, Repr

/-- A call: whether it reports, the event and the portal. -/
def Call.run (p : Swp) : Call → Checked Event
  | .start shadow => { qbmanSwpMcStart p shadow with ret := .start }
  | .submit cmd cmdVerb => { qbmanSwpMcSubmit p cmd cmdVerb with ret := .submit }
  | .result cena =>
    let out := qbmanSwpMcResult p cena
    { out with ret := .result out.ret.isSome }

/-- A sequence of calls: whether one of them reports, the events and the portal. -/
def run (p : Swp) : List Call → Checked (List Event)
  | [] => { report := false, ret := [], swp := p }
  | c :: cs =>
    let out := c.run p
    let rest := run out.swp cs
    { report := out.report || rest.report, ret := out.ret :: rest.ret, swp := rest.swp }

/-- A sequence of calls, with `qbman_swp_finish` at its end or not, reports. -/
def reports (p : Swp) (calls : List Call) (finish : Bool) : Bool :=
  (run p calls).report || finish && qbmanSwpFinish (run p calls).swp

/-! ## The legal protocol -/

/-- Start, submit, and result until it returns a response. -/
def Cycle (es : List Event) : Prop :=
  ∃ n, es = .start :: .submit :: (List.replicate n (.result false) ++ [.result true])

/-- Repeated cycles. -/
inductive Cycles : List Event → Prop
  | nil : Cycles []
  | snoc {es c : List Event} : Cycles es → Cycle c → Cycles (es ++ c)

/-- A prefix of repeated cycles; before a finish, whole cycles. -/
def Legal (es : List Event) (finish : Bool) : Prop :=
  if finish then Cycles es else ∃ rest, Cycles (es ++ rest)

/-! ## The checks as an automaton -/

def checkNext (c : SwpMcCheck) : Event → SwpMcCheck
  | .start => c
  | .submit => .canPoll
  | .result done => if done then .canStart else c

def checkReport (c : SwpMcCheck) : Event → Bool
  | .start => decide (c ≠ .canStart)
  | .submit => !decide (c ≠ .canSubmit)
  | .result _ => decide (c ≠ .canPoll)

/-- `qbman_swp_mc_start` returns a pointer into the shadow, never `NULL`. -/
theorem mcStart_ne_zero (p : QbmanSwp) (shadow : Bytes.Mem) :
    (Qbman.qbmanSwpMcStart p shadow).1 ≠ 0 := by
  have hcmd : (McHost.mk p shadow).cmd = (p.sys.cena : Nat) + p.desc.impl.cr := McHost.cmd_eq _
  have hcr : 0 < p.desc.impl.cr := by cases p.desc.impl <;> decide
  intro h
  have h0 : (McHost.mk p shadow).cmd = 0 := h
  omega

/-- A call moves the check state as its event says. -/
theorem Call.run_eq (p : Swp) (c : Call) :
    (c.run p).report = checkReport p.check (c.run p).ret ∧
      (c.run p).swp.check = checkNext p.check (c.run p).ret := by
  cases c with
  | start shadow =>
    refine ⟨rfl, ?_⟩
    simp only [Call.run, qbmanSwpMcStart, if_neg (mcStart_ne_zero p.swp shadow)]
    rfl
  | submit cmd cmdVerb => exact ⟨rfl, rfl⟩
  | result cena =>
    refine ⟨rfl, ?_⟩
    simp only [Call.run, qbmanSwpMcResult, checkNext]
    cases (Qbman.qbmanSwpMcResult p.swp cena).ret <;> rfl

/-- Some event of a sequence reports, from a check state on. -/
def anyReport : SwpMcCheck → List Event → Bool
  | _, [] => false
  | c, e :: es => checkReport c e || anyReport (checkNext c e) es

theorem run_eq (p : Swp) (calls : List Call) :
    (run p calls).report = anyReport p.check (run p calls).ret ∧
      (run p calls).swp.check = (run p calls).ret.foldl checkNext p.check := by
  induction calls generalizing p with
  | nil => exact ⟨rfl, rfl⟩
  | cons c cs ih =>
    obtain ⟨hreport, hcheck⟩ := c.run_eq p
    obtain ⟨ihreport, ihcheck⟩ := ih (c.run p).swp
    rw [hcheck] at ihreport ihcheck
    simp only [run, anyReport, List.foldl_cons, hreport, ihreport, ihcheck, and_self]

/-! ## What the checks see -/

/-- A command is submitted and no response to it was returned. -/
def Pending (es : List Event) : Prop :=
  ∃ es₁ es₂, es = es₁ ++ .submit :: es₂ ∧ .result true ∉ es₂

/-- A new command is started, or the portal finished, while one is pending, or a result is asked for
while none is. -/
def Detected (es : List Event) (finish : Bool) : Prop :=
  (∃ es₁ es₂, es = es₁ ++ .start :: es₂ ∧ Pending es₁) ∨
    (∃ es₁ es₂ done, es = es₁ ++ .result done :: es₂ ∧ ¬ Pending es₁) ∨
    finish = true ∧ Pending es

theorem pending_snoc (es : List Event) (e : Event) :
    Pending (es ++ [e]) ↔ e = .submit ∨ Pending es ∧ e ≠ .result true := by
  constructor
  · rintro ⟨es₁, es₂, heq, hnot⟩
    induction es₂ using List.reverseRecOn with
    | nil =>
      obtain ⟨-, h⟩ := List.append_inj' heq rfl
      exact .inl (List.cons.inj h).1
    | append_singleton es₂ e' _ =>
      rw [← List.cons_append, ← List.append_assoc] at heq
      obtain ⟨hes, he⟩ := List.append_inj' heq rfl
      obtain rfl := (List.cons.inj he).1
      simp only [List.mem_append, List.mem_singleton, not_or] at hnot
      exact .inr ⟨⟨es₁, es₂, hes, hnot.1⟩, fun h => hnot.2 h.symm⟩
  · rintro (rfl | ⟨⟨es₁, es₂, rfl, hnot⟩, he⟩)
    · exact ⟨es, [], rfl, by simp⟩
    · refine ⟨es₁, es₂ ++ [e], by simp, ?_⟩
      simp only [List.mem_append, List.mem_singleton, not_or]
      exact ⟨hnot, fun h => he h.symm⟩

theorem not_pending_nil : ¬ Pending [] := by
  rintro ⟨es₁, es₂, h, -⟩
  simp at h

/-- The check state after any sequence: `swp_mc_can_submit` is never reached. -/
theorem foldl_checkNext (es : List Event) :
    (Pending es → es.foldl checkNext .canStart = .canPoll) ∧
      (¬ Pending es → es.foldl checkNext .canStart = .canStart) := by
  induction es using List.reverseRecOn with
  | nil => exact ⟨fun h => absurd h not_pending_nil, fun _ => rfl⟩
  | append_singleton es e ih =>
    rw [pending_snoc, List.foldl_append, List.foldl_cons, List.foldl_nil]
    cases e with
    | start =>
      simp only [checkNext, reduceCtorEq, ne_eq, not_false_eq_true, and_true, false_or]
      exact ih
    | submit => simp [checkNext]
    | result done =>
      cases done with
      | true => simp [checkNext]
      | false => simpa [checkNext] using ih

/-- The report of one more event. -/
theorem checkReport_iff (es : List Event) (e : Event) :
    checkReport (es.foldl checkNext .canStart) e = true ↔
      e = .start ∧ Pending es ∨ (∃ done, e = .result done) ∧ ¬ Pending es := by
  obtain ⟨hpoll, hstart⟩ := foldl_checkNext es
  by_cases h : Pending es
  · rw [hpoll h]
    cases e <;> simp [checkReport, h]
  · rw [hstart h]
    cases e <;> simp [checkReport, h]

/-- Some event of a sequence reports, in the state that the events before it lead to. -/
theorem anyReport_iff (c : SwpMcCheck) (es : List Event) :
    anyReport c es = true ↔
      ∃ es₁ e es₂, es = es₁ ++ e :: es₂ ∧ checkReport (es₁.foldl checkNext c) e = true := by
  induction es generalizing c with
  | nil => simp [anyReport]
  | cons e es ih =>
    rw [anyReport, Bool.or_eq_true, ih]
    constructor
    · rintro (h | ⟨es₁, e', es₂, rfl, h⟩)
      · exact ⟨[], e, es, rfl, h⟩
      · exact ⟨e :: es₁, e', es₂, rfl, h⟩
    · rintro ⟨es₁, e', es₂, heq, h⟩
      cases es₁ with
      | nil =>
        obtain ⟨rfl, rfl⟩ := List.cons.inj heq
        exact .inl h
      | cons e₁ es₁ =>
        obtain ⟨rfl, rfl⟩ := List.cons.inj heq
        exact .inr ⟨es₁, e', es₂, rfl, h⟩

/-- What the checks report of a sequence of calls is what is `Detected` of its events. -/
theorem reports_iff (p : QbmanSwp) (calls : List Call) (finish : Bool) :
    reports { swp := p } calls finish = true ↔ Detected (run { swp := p } calls).ret finish := by
  obtain ⟨hreport, hcheck⟩ := run_eq { swp := p } calls
  have hfinish : qbmanSwpFinish (run { swp := p } calls).swp = true ↔
      Pending (run { swp := p } calls).ret := by
    obtain ⟨hpoll, hstart⟩ := foldl_checkNext (run { swp := p } calls).ret
    unfold qbmanSwpFinish
    rw [hcheck]
    by_cases h : Pending (run { swp := p } calls).ret
    · simp [hpoll h, h]
    · simp [hstart h, h]
  unfold reports Detected
  rw [Bool.or_eq_true, Bool.and_eq_true, hreport, hfinish, anyReport_iff]
  simp only [checkReport_iff]
  constructor
  · rintro (⟨es₁, e, es₂, heq, ⟨rfl, h⟩ | ⟨⟨done, rfl⟩, h⟩⟩ | h)
    · exact .inl ⟨es₁, es₂, heq, h⟩
    · exact .inr (.inl ⟨es₁, es₂, done, heq, h⟩)
    · exact .inr (.inr h)
  · rintro (⟨es₁, es₂, heq, h⟩ | ⟨es₁, es₂, done, heq, h⟩ | h)
    · exact .inl ⟨es₁, .start, es₂, heq, .inl ⟨rfl, h⟩⟩
    · exact .inl ⟨es₁, .result done, es₂, heq, .inr ⟨⟨done, rfl⟩, h⟩⟩
    · exact .inr h

/-! ## Legal sequences are not reported -/

theorem await_check (n : Nat) :
    anyReport .canPoll (List.replicate n (.result false) ++ [.result true]) = false ∧
      (List.replicate n (Event.result false) ++ [Event.result true]).foldl checkNext .canPoll =
        .canStart := by
  induction n with
  | zero => exact ⟨rfl, rfl⟩
  | succ n ih => exact ih

theorem Cycle.check {c : List Event} (h : Cycle c) :
    anyReport .canStart c = false ∧ c.foldl checkNext .canStart = .canStart := by
  obtain ⟨n, rfl⟩ := h
  exact await_check n

theorem anyReport_append (c : SwpMcCheck) (es es' : List Event) :
    anyReport c (es ++ es') = (anyReport c es || anyReport (es.foldl checkNext c) es') := by
  induction es generalizing c with
  | nil => simp [anyReport]
  | cons e es ih => simp [anyReport, ih, Bool.or_assoc]

/-- Whole cycles report nothing and lead back to `swp_mc_can_start`. -/
theorem Cycles.check {es : List Event} (h : Cycles es) :
    anyReport .canStart es = false ∧ es.foldl checkNext .canStart = .canStart := by
  induction h with
  | nil => exact ⟨rfl, rfl⟩
  | snoc _ hc ih =>
    obtain ⟨hreport, hcheck⟩ := ih
    rw [anyReport_append, List.foldl_append, hreport, hcheck]
    exact hc.check

theorem Legal.not_detected {es : List Event} {finish : Bool} (h : Legal es finish) :
    ¬ Detected es finish := by
  have hprefix : ∃ rest, Cycles (es ++ rest) := by
    cases finish with
    | true => exact ⟨[], by rwa [List.append_nil]⟩
    | false => exact h
  obtain ⟨rest, hcycles⟩ := hprefix
  -- a report inside the prefix would be one inside the cycles
  have hquiet (es₁ es₂ : List Event) (e : Event) (heq : es = es₁ ++ e :: es₂) :
      checkReport (es₁.foldl checkNext .canStart) e ≠ true := by
    intro hreport
    have hany := (anyReport_iff .canStart (es ++ rest)).mpr
      ⟨es₁, e, es₂ ++ rest, by simp [heq], hreport⟩
    rw [hcycles.check.1] at hany
    cases hany
  rintro (⟨es₁, es₂, heq, hp⟩ | ⟨es₁, es₂, done, heq, hp⟩ | ⟨rfl, hp⟩)
  · exact hquiet es₁ es₂ _ heq ((checkReport_iff es₁ _).mpr (.inl ⟨rfl, hp⟩))
  · exact hquiet es₁ es₂ _ heq ((checkReport_iff es₁ _).mpr (.inr ⟨⟨done, rfl⟩, hp⟩))
  · have hpoll := (foldl_checkNext es).1 hp
    have hcycles : Cycles es := h
    rw [hcycles.check.2] at hpoll
    cases hpoll

/-- The checks report exactly the illegal sequences where the sequence is legal or its fault is one
that they see. -/
theorem reports_exact_iff (p : QbmanSwp) (calls : List Call) (finish : Bool) :
    (reports { swp := p } calls finish = true ↔ ¬ Legal (run { swp := p } calls).ret finish) ↔
      Legal (run { swp := p } calls).ret finish ∨ Detected (run { swp := p } calls).ret finish := by
  rw [reports_iff]
  constructor
  · intro h
    by_cases hlegal : Legal (run { swp := p } calls).ret finish
    · exact .inl hlegal
    · exact .inr (h.mpr hlegal)
  · rintro (h | h)
    · exact ⟨fun hd => absurd hd h.not_detected, fun hn => absurd h hn⟩
    · exact ⟨fun _ hlegal => hlegal.not_detected h, fun _ => h⟩

theorem Cycles.head {es : List Event} (h : Cycles es) : es = [] ∨ ∃ es', es = .start :: es' := by
  induction h with
  | nil => exact .inl rfl
  | snoc _ hc ih =>
    obtain ⟨n, rfl⟩ := hc
    obtain rfl | ⟨es', rfl⟩ := ih
    · exact .inr ⟨_, rfl⟩
    · exact .inr ⟨_, rfl⟩

/-- A command that is submitted without a start is not reported. -/
theorem reports_not_exact :
    ¬ ∀ (p : QbmanSwp) (calls : List Call) (finish : Bool),
      reports { swp := p } calls finish = true ↔ ¬ Legal (run { swp := p } calls).ret finish := by
  intro h
  have hsubmit := h (swpRev4100 0 0x1000) [.submit (fun _ => 0) 0x30] false
  have hillegal : ¬ Legal [.submit] false := by
    rintro ⟨rest, hcycles⟩
    obtain h | ⟨es', h⟩ := hcycles.head
    · cases h
    · cases h
  have hreport := hsubmit.mpr hillegal
  cases hreport

end Qbman.Checking
