import Qbman.Lib.Calls
import Qbman.Mc.Shadow
import Qbman.Portal.Parts

/-!
# Management commands, word by word

`mcSys` submits a command, writes a response and polls for it at once. In `mcStores` the driver
stores the words of a command one at a time and reads those of the response one at a time, and the
hardware stores the words of a response in any order with the first one last; all of this is
interleaved. The driver stores the first word last and reads the first word first, so the system
refines `mcSys` (`mcStores_simulation`): the hardware never takes half of a command, and a call
never returns half of a response (`mcStores_exact`).
-/

namespace Qbman

/-- What the driver is doing: it stores a command, or reads the response register, or neither. -/
inductive McAct where
  | none
  | storing (todo : List Access)
  | reading (words : List U32)

/-- The hardware stores the response `line` to command `k`, whose valid bit is `v`, and has the
words `todo` still to store. -/
structure McAnswer where
  k : Nat
  v : Bool
  line : Line
  todo : List (Fin 16)

/-- A portal between any two accesses. `calls` are the commands as the calls make them. -/
structure McStores where
  mc : McState
  act : McAct
  answer : Option McAnswer
  calls : List Line

inductive McStoresLabel where
  | submit (cmd : Line) (cmdVerb : U8)
  | access
  | poll
  | read
  | result
  | answer (k : Nat) (l : Line) (words : List (Fin 16))
  | word

/-- An order to store the words of a line in, each at least once and the first word last. -/
def FirstLast (words : List (Fin 16)) : Prop :=
  ∃ ws i, words = ws ++ [i] ∧ i.val = 0 ∧ ∀ j, j ∈ ws ↔ j.val ≠ 0

/-- The access that tells the hardware of a command: the store of its first word, or the write to
`CR_RT`. -/
def Impl.mcTold : Impl → Access → Bool
  | .direct, .cenaWord off _ => off == Impl.direct.cr
  | .memBack, .cinhWrite off _ => off == qbmanCinhSwpCrRt
  | _, _ => false

/-- What a command with valid bit `v` does to the response registers: a direct portal's register for
`v` is cleared. -/
def Impl.afterCommand : Impl → Bool → Region → Region
  | .direct, v, m => m.run (memcpyWords (Impl.direct.rr v) fun _ : Fin 16 => 0)
  | .memBack, _, m => m

namespace McState

variable (impl : Impl) (s : McState)

/-- After an access of a submission. The hardware looks at the command register when told to. -/
def afterAccess (a : Access) : McState :=
  let m := s.cena.access a
  if impl.mcTold a then
    let v := (m.line impl.cr).validBit
    { s with
      cena := impl.afterCommand v m
      submitted := s.submitted ++ [m.line impl.cr]
      last := v
      accepted := Function.update s.accepted s.submitted.length (v != s.last) }
  else { s with cena := m }

/-- After a poll that read `words` from the response register. -/
def afterRead (words : List U32) : McState :=
  let m := s.cena.run (memcpyWords (mcResponseOff s.swp) fun i : Fin 16 => words.getD i 0)
  { afterPoll { s with cena := m } none with cena := s.cena }

end McState

namespace McStores

variable (impl : Impl) (s : McStores)

/-- After an access of a submission; after the last one the call polls. -/
def afterAccess (a : Access) (rest : List Access) : McStores :=
  let mc := s.mc.afterAccess impl a
  match rest with
  | [] => { s with mc := { mc with phase := .polling none }, act := .none }
  | _ => { s with mc, act := .storing rest }

/-- After the hardware stored a word of a response; after the last one it has answered. -/
def afterWord (x : McAnswer) (i : Fin 16) (rest : List (Fin 16)) : McStores :=
  let cena := Function.update s.mc.cena (impl.rr x.v + 4 * i) (x.line i)
  match rest with
  | [] => { s with
      mc := { s.mc with cena, answer := Function.update s.mc.answer x.k (some x.line) }
      answer := none }
  | _ => { s with mc := { s.mc with cena }, answer := some { x with todo := rest } }

end McStores

/-- Submissions and polls, access by access, and responses, word by word, in any order. -/
def mcStores (impl : Impl) : Trans.Sys McStores McStoresLabel where
  init s := (mcSys impl none).init s.mc ∧ s.act = .none ∧ s.answer = none ∧ s.calls = []
  step s l t := match l with
    | .submit cmd cmdVerb => s.act = .none ∧ s.mc.phase = .idle ∧ cmdVerb.getLsbD 7 = false ∧
        t = { s with
          act := .storing (qbmanSwpMcSubmit s.mc.swp cmd cmdVerb)
          calls := s.calls ++ [mcSetVerb cmd cmdVerb (s.mc.swp.mcValidBit impl)] }
    | .access => ∃ a rest, s.act = .storing (a :: rest) ∧ t = s.afterAccess impl a rest
    | .poll => s.act = .none ∧ s.mc.phase ≠ .idle ∧ t = { s with act := .reading [] }
    | .read => ∃ ws, s.act = .reading ws ∧ ws.length < 16 ∧
        t = { s with act := .reading (ws ++ [s.mc.cena (mcResponseOff s.mc.swp + 4 * ws.length)]) }
    | .result => ∃ ws, s.act = .reading ws ∧ ws.length = 16 ∧
        t = { s with mc := s.mc.afterRead ws, act := .none }
    | .answer k l words => ∃ c, s.answer = none ∧ s.mc.submitted[k]? = some c ∧
        s.mc.accepted k = true ∧ s.mc.answer k = none ∧ mcVerb l ≠ 0 ∧
        (impl = .memBack → l.validBit = c.validBit) ∧ FirstLast words ∧
        t = { s with answer := some ⟨k, c.validBit, l, words⟩ }
    | .word => ∃ x i rest, s.answer = some x ∧ x.todo = i :: rest ∧ t = s.afterWord impl x i rest

/-! ## The accesses of a submission -/

/-- The accesses that store `l` to the command register: the last one tells the hardware. -/
structure Submits (impl : Impl) (l : Line) (accs : List Access) : Prop where
  told : ∃ before a, accs = before ++ [a] ∧ impl.mcTold a = true ∧
    ∀ a ∈ before, impl.mcTold a = false
  words : ∀ a ∈ accs, (∃ j : Fin 16, a = .cenaWord (impl.cr + 4 * j) (l j)) ∨
    ∀ m : Region, m.access a = m
  all : ∀ j : Fin 16, .cenaWord (impl.cr + 4 * j) (l j) ∈ accs

variable {impl : Impl} {b : Bool} {p : QbmanSwp} {l : Line} {accs rest : List Access} {a : Access}

theorem mem_qbmanCenaWriteComplete {off : Nat} :
    a ∈ qbmanCenaWriteComplete off l ↔ ∃ j : Fin 16, a = .cenaWord (off + 4 * j) (l j) := by
  simp only [qbmanCenaWriteComplete, memcpyWords, List.mem_reverse, List.mem_ofFn, eq_comm]

/-- The first word comes last. -/
theorem qbmanCenaWriteComplete_last (off : Nat) (l : Line) :
    ∃ before, qbmanCenaWriteComplete off l = before ++ [.cenaWord off (l 0)] ∧
      ∀ a ∈ before, ∃ k w, a = .cenaWord (off + 4 + 4 * k) w := by
  refine ⟨(memcpyWords (off + 4) fun j => l j.succ).reverse, ?_, fun a ha => ?_⟩
  · rw [qbmanCenaWriteComplete, memcpyWords_succ, List.reverse_cons]
  · obtain ⟨k, rfl⟩ := List.mem_ofFn.mp (List.mem_reverse.mp ha)
    exact ⟨k, _, rfl⟩

theorem submits (hd : p.desc.impl = impl) (cmd : Line) (cmdVerb : U8) :
    Submits impl (mcSetVerb cmd cmdVerb (p.mcValidBit impl)) (qbmanSwpMcSubmit p cmd cmdVerb) := by
  subst hd
  unfold qbmanSwpMcSubmit
  by_cases hm : p.desc.memBacked = true
  · rw [if_pos hm, QbmanSwpDesc.impl_eq_memBack.mpr hm]
    refine ⟨⟨_, _, rfl, rfl, fun a ha => ?_⟩, fun a ha => ?_, fun j => ?_⟩
    · obtain ⟨j, rfl⟩ := mem_qbmanCenaWriteComplete.mp ha
      rfl
    · rcases List.mem_append.mp ha with ha | ha
      · exact .inl (mem_qbmanCenaWriteComplete.mp ha)
      · obtain rfl := List.mem_singleton.mp ha
        exact .inr fun m => rfl
    · exact List.mem_append_left _ (mem_qbmanCenaWriteComplete.mpr ⟨j, rfl⟩)
  · have hi : p.desc.impl = .direct := by rw [QbmanSwpDesc.impl, if_neg hm]
    rw [if_neg hm, hi]
    refine ⟨?_, fun a ha => .inl (mem_qbmanCenaWriteComplete.mp ha),
      fun j => mem_qbmanCenaWriteComplete.mpr ⟨j, rfl⟩⟩
    obtain ⟨before, heq, hbefore⟩ := qbmanCenaWriteComplete_last qbmanCenaSwpCr
      (mcSetVerb cmd cmdVerb p.mc.validBit)
    refine ⟨before, _, heq, rfl, fun a ha => ?_⟩
    obtain ⟨k, w, rfl⟩ := hbefore a ha
    exact beq_eq_false_iff_ne.mpr (by
      show qbmanCenaSwpCr + 4 + 4 * k ≠ qbmanCenaSwpCr
      omega)

namespace Submits

variable {todo : List Access} {m : Region}

theorem ne_nil (h : Submits impl l accs) : accs ≠ [] := by
  obtain ⟨before, a, rfl, -⟩ := h.told
  exact List.append_ne_nil_of_right_ne_nil _ (List.cons_ne_nil _ _)

/-- Only the last access tells the hardware. -/
theorem told_iff (h : Submits impl l accs) {done : List Access} (hdone : accs = done ++ a :: rest) :
    impl.mcTold a = true ↔ rest = [] := by
  obtain ⟨before, e, heq, hlast, hbefore⟩ := h.told
  rw [hdone] at heq
  rcases List.eq_nil_or_concat rest with rfl | ⟨rest', e', rfl⟩
  · obtain ⟨-, he⟩ := List.append_inj' heq rfl
    obtain rfl : a = e := by simpa using he
    exact iff_of_true hlast rfl
  · have hcons : done ++ a :: rest' ++ [e'] = before ++ [e] := by
      rw [← heq]
      simp
    obtain ⟨hb, -⟩ := List.append_inj' hcons rfl
    refine iff_of_false ?_ (by simp)
    rw [hbefore a (hb ▸ List.mem_append_right _ (List.mem_cons_self ..))]
    exact Bool.false_ne_true

/-- An access leaves everything outside the command register. -/
theorem frame (h : Submits impl l accs) (ha : a ∈ accs) (m : Region) {off : Nat}
    (hoff : ¬ (impl.cr ≤ off ∧ off < impl.cr + 64)) : m.access a off = m off := by
  rcases h.words a ha with ⟨j, rfl⟩ | hquiet
  · exact Function.update_of_ne (by omega) _ _
  · rw [hquiet]

theorem frame_run (h : Submits impl l accs) {off : Nat}
    (hoff : ¬ (impl.cr ≤ off ∧ off < impl.cr + 64)) (m : Region) : m.run accs off = m off :=
  Region.run_same (f := fun m => m off) (fun _ ha m => h.frame ha m hoff) m

end Submits

/-- The words of `l` that are not in `todo` are in the command register. -/
def Stored (impl : Impl) (l : Line) (todo : List Access) (m : Region) : Prop :=
  ∀ j : Fin 16, .cenaWord (impl.cr + 4 * j) (l j) ∉ todo → m (impl.cr + 4 * j) = l j

theorem Stored.access {m : Region} (h : Stored impl l (a :: rest) m) (hs : Submits impl l accs)
    (ha : a ∈ accs) : Stored impl l rest (m.access a) := by
  intro j hj
  by_cases hself : a = .cenaWord (impl.cr + 4 * j) (l j)
  · rw [hself]
    exact Function.update_self ..
  · have hold := h j fun hmem => (List.mem_cons.mp hmem).elim (fun he => hself he.symm) hj
    rcases hs.words a ha with ⟨i, rfl⟩ | hquiet
    · have hne : impl.cr + 4 * j ≠ impl.cr + 4 * i := by
        intro he
        obtain rfl : i = j := Fin.ext (by omega)
        exact hself rfl
      exact (Function.update_of_ne hne _ _).trans hold
    · rw [hquiet]
      exact hold

theorem Stored.line {m : Region} (h : Stored impl l [] m) : m.line impl.cr = l :=
  funext fun j => h j List.not_mem_nil

theorem Stored.run {todo : List Access} {m : Region} (h : Stored impl l todo m)
    (hs : Submits impl l accs) (htodo : ∀ a ∈ todo, a ∈ accs) : Stored impl l [] (m.run todo) := by
  induction todo generalizing m with
  | nil => exact h
  | cons a todo ih =>
    exact ih (h.access hs (htodo a (List.mem_cons_self ..)))
      fun b hb => htodo b (List.mem_cons_of_mem a hb)

/-- After all the accesses, wherever they started. -/
theorem Submits.line (hs : Submits impl l accs) (m : Region) : (m.run accs).line impl.cr = l :=
  Stored.line (Stored.run (fun j hj => absurd (hs.all j) hj) hs fun _ ha => ha)

/-! ## The refinement -/

/-- A response in progress: the words that are not in `todo` are stored. -/
structure McAnswer.Pending (impl : Impl) (x : McAnswer) (s : McState) : Prop where
  valid : ∃ c, s.submitted[x.k]? = some c ∧ x.v = c.validBit ∧
    (impl = .memBack → x.line.validBit = c.validBit)
  accepted : s.accepted x.k = true
  unanswered : s.answer x.k = none
  verb : mcVerb x.line ≠ 0
  last : ∃ ws i, x.todo = ws ++ [i] ∧ i.val = 0 ∧ ∀ j ∈ ws, j.val ≠ 0
  stored : ∀ j, j ∉ x.todo → s.cena (impl.rr x.v + 4 * j) = x.line j

namespace McStores

variable {s t : McStores} {m : Region}

/-- The command register, and a response in progress but for its first word. -/
def Hidden (impl : Impl) (s : McStores) (off : Nat) : Prop :=
  (impl.cr ≤ off ∧ off < impl.cr + 64) ∨
    ∃ x, s.answer = some x ∧ ∃ j : Fin 16, j.val ≠ 0 ∧ off = impl.rr x.v + 4 * j

/-- How far the driver is. -/
def ActRel (impl : Impl) (s : McStores) : McAct → Prop
  | .none => s.calls = s.mc.submitted
  | .storing todo => s.mc.phase = .idle ∧ s.answer = none ∧ todo ≠ [] ∧
      ∃ cmd cmdVerb done, cmdVerb.getLsbD 7 = false ∧
        qbmanSwpMcSubmit s.mc.swp cmd cmdVerb = done ++ todo ∧
        Stored impl (mcSetVerb cmd cmdVerb (s.mc.swp.mcValidBit impl)) todo s.mc.cena ∧
        s.calls = s.mc.submitted ++ [mcSetVerb cmd cmdVerb (s.mc.swp.mcValidBit impl)]
  | .reading ws => s.calls = s.mc.submitted ∧ s.mc.phase ≠ .idle ∧ ws.length ≤ 16 ∧
      -- The response was complete when its first word was read.
      ∀ b w, s.mc.swp.mcValidBit impl = vbit b → ws[0]? = some w → impl.mcReady b w = true →
        s.answer = none ∧ ∀ i w, ws[i]? = some w → w = s.mc.cena (impl.rr b + 4 * i)

/-- With the memory `m` the portal is one whose steps are made at once. -/
structure Rel (impl : Impl) (s : McStores) (m : Region) : Prop where
  inv : McState.Inv impl { s.mc with cena := m }
  mem : ∀ off, ¬ s.Hidden impl off → s.mc.cena off = m off
  act : s.ActRel impl s.act
  answer : ∀ x, s.answer = some x → x.Pending impl s.mc

def Sim (impl : Impl) (s : McStores) (u : McState) : Prop :=
  ∃ m, u = { s.mc with cena := m } ∧ s.Rel impl m

/-- The first word of a response is never hidden. -/
theorem not_hidden_rr (s : McStores) (b : Bool) : ¬ s.Hidden impl (impl.rr b) := by
  rintro (⟨-, hlt⟩ | ⟨x, -, j, hj, he⟩)
  · have := impl.rr_cr b
    omega
  · have hne : ∀ v : Bool, impl.rr b ≠ impl.rr v + 4 * j := by
      intro v
      have hlt := j.isLt
      have hrr : (impl.rr b = impl.rr v ∨ impl.rr b + 64 ≤ impl.rr v) ∨
          impl.rr v + 64 ≤ impl.rr b := by
        cases impl <;> cases b <;> cases v <;> decide
      omega
    exact hne x.v he

/-- Without a response in progress no word of a response is hidden. -/
theorem not_hidden_of_none (h : s.answer = none) (b : Bool) (k : Nat) :
    ¬ s.Hidden impl (impl.rr b + k) := by
  rintro (⟨-, hlt⟩ | ⟨x, hx, -⟩)
  · have := impl.rr_cr b
    omega
  · cases h.symm.trans hx

theorem hidden_congr (h : t.answer = s.answer) {off : Nat} :
    t.Hidden impl off ↔ s.Hidden impl off := by
  unfold Hidden
  rw [h]

end McStores

/-- A command without a response is the one the driver polls for, and a poll sees nothing yet. -/
theorem McState.Inv.unanswered {u : McState} (h : u.Inv impl) {k : Nat} {c : Line}
    (hc : u.submitted[k]? = some c) (hacc : u.accepted k = true) (hans : u.answer k = none) :
    u.phase ≠ .idle ∧ ∃ b, u.Link impl b ∧ c.validBit = b ∧
      impl.mcReady b (u.cena (impl.rr b)) = false := by
  obtain ⟨⟨b, hlink⟩, hcomplete⟩ := h
  rcases hlink.state with hsync | ⟨k', hk⟩
  · exact absurd hans (hsync.answered k hacc)
  · obtain rfl : k = k' := by
      by_contra hne
      exact hk.answered k hacc hne hans
    obtain ⟨c', hc', hb⟩ := hk.bit
    obtain rfl : c = c' := Option.some.inj (hc.symm.trans hc')
    exact ⟨(hcomplete.polling hlink hk).1, b, hlink, hb, hk.empty hans⟩

namespace McStores

variable {s t : McStores} {m : Region}

/-- A response in progress is that of the command that the driver polls for. -/
theorem Rel.pending (h : s.Rel impl m) {x : McAnswer} (hx : s.answer = some x) :
    s.mc.phase ≠ .idle ∧ ∀ b, s.mc.swp.mcValidBit impl = vbit b →
      x.v = b ∧ impl.mcReady b (s.mc.cena (impl.rr b)) = false := by
  have hp := h.answer x hx
  obtain ⟨c, hc, hv, -⟩ := hp.valid
  obtain ⟨hphase, b, hlink, hb, hready⟩ := h.inv.unanswered hc hp.accepted hp.unanswered
  refine ⟨hphase, fun b' hb' => ?_⟩
  obtain rfl : b' = b := vbit_inj.mp (hb'.symm.trans hlink.bit)
  exact ⟨hv.trans hb, (congrArg _ (h.mem _ (s.not_hidden_rr _))).trans hready⟩

/-- A complete response is not in progress. -/
theorem Rel.answer_none (h : s.Rel impl m) {b : Bool} (hb : s.mc.swp.mcValidBit impl = vbit b)
    (hready : impl.mcReady b (s.mc.cena (impl.rr b)) = true) : s.answer = none := by
  cases hx : s.answer with
  | none => rfl
  | some x =>
    have hunready := ((h.pending hx).2 b hb).2
    rw [hready] at hunready
    cases hunready

theorem Rel.submit (h : s.Rel impl m) (hact : s.act = .none) (hidle : s.mc.phase = .idle)
    {cmd : Line} {cmdVerb : U8} (hv : cmdVerb.getLsbD 7 = false) :
    Rel impl { s with
      act := .storing (qbmanSwpMcSubmit s.mc.swp cmd cmdVerb)
      calls := s.calls ++ [mcSetVerb cmd cmdVerb (s.mc.swp.mcValidBit impl)] } m := by
  obtain ⟨b, hlink⟩ := h.inv.1
  have hs := submits (p := s.mc.swp) hlink.mode cmd cmdVerb
  have hact' := h.act
  rw [hact] at hact'
  refine ⟨h.inv, h.mem, ⟨hidle, ?_, hs.ne_nil, cmd, cmdVerb, [], hv, rfl,
    fun j hj => absurd (hs.all j) hj, congrArg (· ++ [_]) hact'⟩, h.answer⟩
  cases hx : s.answer with
  | none => rfl
  | some x => exact absurd hidle (h.pending hx).1

/-- What one access makes of two memories that agree at an offset. -/
theorem run_congr {m m' : Region} {off : Nat} (h : m off = m' off) (accs : List Access) :
    m.run accs off = m'.run accs off := by
  have hupdate : ∀ {off' : Nat} {w w' : U32}, (off' = off → w = w') → ∀ {m m' : Region},
      m off = m' off →
      Function.update m off' w off = Function.update m' off' w' off := by
    intro off' w w' hw m m' h
    by_cases he : off = off'
    · subst he
      rw [Function.update_self, Function.update_self, hw rfl]
    · rw [Function.update_of_ne he, Function.update_of_ne he, h]
  induction accs generalizing m m' with
  | nil => exact h
  | cons a accs ih =>
    refine ih ?_
    cases a with
    | cinhRead off' v => exact h
    | cinhWrite off' v => exact h
    | cenaRead off' v => exact h
    | cenaWord off' v => exact hupdate (fun _ => rfl) h
    | cenaByte off' v => exact hupdate (fun he => by rw [he, h]) h
    | cenaMemset len =>
      show (if off < len then 0 else m off) = if off < len then 0 else m' off
      rw [h]

theorem afterAccess_last (htold : impl.mcTold a = true) : s.afterAccess impl a [] =
    { s with mc := { s.mc.afterAccess impl a with phase := .polling none }, act := .none } ∧
      s.mc.afterAccess impl a =
        let l := (s.mc.cena.access a).line impl.cr
        { s.mc with
          cena := impl.afterCommand l.validBit (s.mc.cena.access a)
          submitted := s.mc.submitted ++ [l]
          last := l.validBit
          accepted := Function.update s.mc.accepted s.mc.submitted.length
            (l.validBit != s.mc.last) } :=
  ⟨rfl, if_pos htold⟩

theorem afterAccess_more (htold : ¬ impl.mcTold a = true) (hrest : rest ≠ []) :
    s.afterAccess impl a rest =
      { s with mc := { s.mc with cena := s.mc.cena.access a }, act := .storing rest } := by
  have hmc : s.mc.afterAccess impl a = { s.mc with cena := s.mc.cena.access a } := if_neg htold
  cases rest with
  | nil => exact absurd rfl hrest
  | cons b rest =>
    rw [← hmc]
    rfl

/-- What a submission stores, and what is stored after its next access. -/
theorem Rel.storing (h : s.Rel impl m) (hact : s.act = .storing (a :: rest)) :
    s.mc.phase = .idle ∧ s.answer = none ∧ ∃ cmd cmdVerb done, cmdVerb.getLsbD 7 = false ∧
      qbmanSwpMcSubmit s.mc.swp cmd cmdVerb = done ++ a :: rest ∧
      Submits impl (mcSetVerb cmd cmdVerb (s.mc.swp.mcValidBit impl))
        (qbmanSwpMcSubmit s.mc.swp cmd cmdVerb) ∧
      Stored impl (mcSetVerb cmd cmdVerb (s.mc.swp.mcValidBit impl)) rest (s.mc.cena.access a) ∧
      s.calls = s.mc.submitted ++ [mcSetVerb cmd cmdVerb (s.mc.swp.mcValidBit impl)] := by
  obtain ⟨b, hlink⟩ := h.inv.1
  have hact' := h.act
  rw [hact] at hact'
  obtain ⟨hidle, hnone, -, cmd, cmdVerb, done, hv, haccs, hstored, hcalls⟩ := hact'
  have hs := submits (p := s.mc.swp) hlink.mode cmd cmdVerb
  refine ⟨hidle, hnone, cmd, cmdVerb, done, hv, haccs, hs, hstored.access hs ?_, hcalls⟩
  rw [haccs]
  exact List.mem_append_right _ (List.mem_cons_self ..)

/-- The last access of a submission is the submission at once. -/
theorem Rel.access_last (h : s.Rel impl m) (hact : s.act = .storing [a]) :
    ∃ ls u, (mcSys impl none).Steps { s.mc with cena := m } ls u ∧
      (s.afterAccess impl a []).Sim impl u := by
  obtain ⟨hidle, hnone, cmd, cmdVerb, done, hv, haccs, hs, hstored, hcalls⟩ := h.storing hact
  obtain ⟨heq, hmc⟩ := s.afterAccess_last ((hs.told_iff haccs).mpr rfl)
  have ha : a ∈ qbmanSwpMcSubmit s.mc.swp cmd cmdVerb := by
    rw [haccs]
    exact List.mem_append_right _ (List.mem_cons_self ..)
  have hline := hstored.line
  have hline' := hs.line m
  let u := McState.afterSubmit impl { s.mc with cena := m } none cmd cmdVerb
  have hstep : (mcSys impl none).step { s.mc with cena := m } (.submit cmd cmdVerb) u :=
    ⟨hidle, hv, rfl⟩
  rw [heq, hmc, hline]
  have hu : u = { s.mc with
      cena := u.cena
      phase := .polling none
      submitted := s.mc.submitted ++ [mcSetVerb cmd cmdVerb (s.mc.swp.mcValidBit impl)]
      last := (mcSetVerb cmd cmdVerb (s.mc.swp.mcValidBit impl)).validBit
      accepted := Function.update s.mc.accepted s.mc.submitted.length
        ((mcSetVerb cmd cmdVerb (s.mc.swp.mcValidBit impl)).validBit != s.mc.last) } := by
    simp only [u, McState.afterSubmit, hline']
  refine ⟨[_], u, .cons hstep (.nil _), u.cena, hu, ?_, fun off hoff => ?_, hcalls,
    fun x hx => by cases hnone.symm.trans hx⟩
  · have hinv : u.Inv impl := (mcSys_inductive impl).step _ _ _ h.inv hstep
    rw [hu] at hinv
    exact hinv
  · have hoff' : ¬ s.Hidden impl off := (hidden_congr (by rfl)).not.mp hoff
    have hcr : ¬ (impl.cr ≤ off ∧ off < impl.cr + 64) := fun hcr => hoff' (.inl hcr)
    have hsame : s.mc.cena.access a off = m.run (qbmanSwpMcSubmit s.mc.swp cmd cmdVerb) off := by
      rw [hs.frame ha _ hcr, hs.frame_run hcr, h.mem off hoff']
    simp only [u, McState.afterSubmit, hline']
    cases impl with
    | memBack => exact hsame
    | direct => exact run_congr hsame _

/-- The accesses before it are not seen. -/
theorem Rel.access_more (h : s.Rel impl m) (hact : s.act = .storing (a :: rest))
    (hrest : rest ≠ []) :
    (s.afterAccess impl a rest).Sim impl { s.mc with cena := m } := by
  obtain ⟨hidle, hnone, cmd, cmdVerb, done, hv, haccs, hs, hstored, hcalls⟩ := h.storing hact
  have ha : a ∈ qbmanSwpMcSubmit s.mc.swp cmd cmdVerb := by
    rw [haccs]
    exact List.mem_append_right _ (List.mem_cons_self ..)
  rw [s.afterAccess_more (fun htold => hrest ((hs.told_iff haccs).mp htold)) hrest]
  refine ⟨m, rfl, h.inv, fun off hoff => ?_, ⟨hidle, hnone, hrest, cmd, cmdVerb, done ++ [a], hv,
    by rw [haccs, List.append_assoc]; rfl, hstored, hcalls⟩,
    fun x hx => by cases hnone.symm.trans hx⟩
  have hoff' : ¬ s.Hidden impl off := (hidden_congr (by rfl)).not.mp hoff
  exact (hs.frame ha _ fun hcr => hoff' (.inl hcr)).trans (h.mem off hoff')

theorem Rel.access (h : s.Rel impl m) (hact : s.act = .storing (a :: rest)) :
    ∃ ls u, (mcSys impl none).Steps { s.mc with cena := m } ls u ∧
      (s.afterAccess impl a rest).Sim impl u := by
  by_cases hrest : rest = []
  · subst hrest
    exact h.access_last hact
  · exact ⟨[], _, .nil _, h.access_more hact hrest⟩

theorem responseOff_eq (hd : p.desc.impl = impl) (hb : p.mcValidBit impl = vbit b) :
    mcResponseOff p = impl.rr b := by
  subst hd
  unfold mcResponseOff
  by_cases hm : p.desc.memBacked = true
  · rw [if_pos hm, QbmanSwpDesc.impl_eq_memBack.mpr hm]
    rfl
  · have hi : p.desc.impl = .direct := by rw [QbmanSwpDesc.impl, if_neg hm]
    rw [hi] at hb
    have hmc : p.mc.validBit = vbit b := hb
    rw [if_neg hm, hi, hmc]
    rfl

/-- The next word of the response register. -/
theorem Rel.read (h : s.Rel impl m) {ws : List U32} (hact : s.act = .reading ws)
    (hlt : ws.length < 16) :
    Rel impl { s with
      act := .reading (ws ++ [s.mc.cena (mcResponseOff s.mc.swp + 4 * ws.length)]) } m := by
  obtain ⟨b, hlink⟩ := h.inv.1
  have hmode : s.mc.swp.desc.impl = impl := hlink.mode
  have hact' := h.act
  rw [hact] at hact'
  obtain ⟨hcalls, hphase, -, hwords⟩ := hact'
  refine ⟨h.inv, h.mem, ⟨hcalls, hphase, ?_, fun b w hb hw hready => ?_⟩, h.answer⟩
  · rw [List.length_append]
    exact hlt
  rw [responseOff_eq hmode hb] at hw ⊢
  cases ws with
  | nil =>
    obtain rfl : s.mc.cena (impl.rr b) = w := Option.some.inj hw
    refine ⟨h.answer_none hb hready, fun i w' hi => ?_⟩
    obtain hi | ⟨rfl, rfl⟩ := Calls.getElem?_concat hi
    · cases hi
    · rfl
  | cons w₀ ws =>
    obtain ⟨hnone, hsame⟩ := hwords b w hb hw hready
    refine ⟨hnone, fun i w' hi => ?_⟩
    obtain hi | ⟨rfl, rfl⟩ := Calls.getElem?_concat hi
    · exact hsame i w' hi
    · rfl

/-- The region that a poll sees: what it read. -/
theorem line_getD {ws : List U32} (hlen : ws.length = 16) (m' : Region) (off : Nat)
    (h : ∀ i w, ws[i]? = some w → w = m' (off + 4 * i)) :
    (fun i : Fin 16 => ws.getD i 0) = m'.line off := by
  funext i
  have hi : (i : Nat) < ws.length := by omega
  rw [List.getD_eq_getElem _ _ hi]
  exact h i _ (List.getElem?_eq_getElem hi)

/-- A poll that read the whole register returns what a poll at once returns, if its first word was
that of a response; else it returns nothing. -/
theorem Rel.result (h : s.Rel impl m) {ws : List U32} (hact : s.act = .reading ws)
    (hlen : ws.length = 16) :
    ∃ ls u, (mcSys impl none).Steps { s.mc with cena := m } ls u ∧
      Sim impl { s with mc := s.mc.afterRead ws, act := .none } u := by
  obtain ⟨b, hlink⟩ := h.inv.1
  have hmode : s.mc.swp.desc.impl = impl := hlink.mode
  have hbit : s.mc.swp.mcValidBit impl = vbit b := hlink.bit
  have hact' := h.act
  rw [hact] at hact'
  obtain ⟨hcalls, hphase, -, hwords⟩ := hact'
  have hpolling : s.mc.phase = .polling none := h.inv.2.phase.resolve_left hphase
  let m' := s.mc.cena.run (memcpyWords (impl.rr b) fun i : Fin 16 => ws.getD i 0)
  have hread : s.mc.afterRead ws =
      { McState.afterPoll { s.mc with cena := m' } none with cena := s.mc.cena } := by
    rw [McState.afterRead, responseOff_eq hmode hbit]
  have hline : m'.line (impl.rr b) = fun i : Fin 16 => ws.getD i 0 := line_memcpyWords _ _ _
  have hword : m' (impl.rr b) = ws.getD 0 0 := congrFun hline 0
  obtain ⟨hret, hswp⟩ := qbmanSwpMcResult_eq hmode hbit m'
  rw [hword] at hret hswp
  by_cases hready : impl.mcReady b (ws.getD 0 0) = true
  · obtain ⟨hnone, hsame⟩ := hwords b _ hbit (by
      rw [List.getD_eq_getElem _ _ (by omega)]
      exact List.getElem?_eq_getElem (by omega)) hready
    have hmem : s.mc.cena.line (impl.rr b) = m.line (impl.rr b) :=
      funext fun j => h.mem _ (not_hidden_of_none hnone b (4 * j))
    have heq : m'.line (impl.rr b) = m.line (impl.rr b) :=
      (hline.trans (line_getD hlen _ _ hsame)).trans hmem
    have hfirst : m (impl.rr b) = ws.getD 0 0 := (congrFun heq 0).symm.trans hword
    obtain ⟨hret', hswp'⟩ := qbmanSwpMcResult_eq hmode hbit m
    rw [hfirst, if_pos hready] at hret' hswp'
    rw [if_pos hready, heq] at hret
    rw [if_pos hready] at hswp
    have hstep : (mcSys impl none).step { s.mc with cena := m } .poll
        (McState.afterPoll { s.mc with cena := m } none) := ⟨none, hpolling, rfl⟩
    have hpoll : s.mc.afterRead ws =
        { McState.afterPoll { s.mc with cena := m } none with cena := s.mc.cena } := by
      rw [hread, McState.afterPoll_some hret, McState.afterPoll_some hret', hswp, hswp']
    have hu : McState.afterPoll { s.mc with cena := m } none =
        { s.mc.afterRead ws with cena := m } := by
      rw [hpoll, McState.afterPoll_some hret']
    have hinv := (mcSys_inductive impl).step _ _ _ h.inv hstep
    rw [hu] at hinv
    have hsub : (s.mc.afterRead ws).submitted = s.mc.submitted := by
      rw [hpoll, McState.afterPoll_some hret']
    refine ⟨[.poll], _, .cons hstep (.nil _), m, hu, hinv, fun off hoff => ?_,
      hcalls.trans hsub.symm, fun x hx => by cases hnone.symm.trans hx⟩
    exact h.mem off ((hidden_congr (by rfl)).not.mp hoff)
  · rw [if_neg hready] at hret hswp
    have hmc : s.mc.afterRead ws = s.mc := by
      rw [hread, McState.afterPoll_none hret, hswp]
    rw [hmc]
    exact ⟨[], _, .nil _, m, rfl, h.inv, h.mem, hcalls, h.answer⟩

/-- The hardware starts to store a response. -/
theorem Rel.respond (h : s.Rel impl m) {k : Nat} {c l : Line} {words : List (Fin 16)}
    (hnone : s.answer = none) (hc : s.mc.submitted[k]? = some c) (hacc : s.mc.accepted k = true)
    (hans : s.mc.answer k = none) (hverb : mcVerb l ≠ 0)
    (hbit : impl = .memBack → l.validBit = c.validBit) (hwords : FirstLast words) :
    Rel impl { s with answer := some ⟨k, c.validBit, l, words⟩ } m := by
  obtain ⟨hphase, b, hlink, -, hunready⟩ := h.inv.unanswered hc hacc hans
  obtain ⟨ws, i, rfl, hi, hall⟩ := hwords
  refine ⟨h.inv, fun off hoff => h.mem off fun hs => hoff ?_, ?_, fun x hx => ?_⟩
  · rcases hs with hcr | ⟨x, hx, -⟩
    · exact .inl hcr
    · cases hnone.symm.trans hx
  · have hact := h.act
    cases ha : s.act with
    | none =>
      rw [ha] at hact
      exact hact
    | storing todo =>
      rw [ha] at hact
      exact absurd hact.1 hphase
    | reading words =>
      rw [ha] at hact
      obtain ⟨hcalls, hphase', hlen, hwords⟩ := hact
      refine ⟨hcalls, hphase', hlen, fun b' w hb' hw hready => ?_⟩
      obtain rfl : b' = b := vbit_inj.mp (hb'.symm.trans hlink.bit)
      have hw' := (hwords b' w hb' hw hready).2 0 w hw
      have hsame : m (impl.rr b') = w := (h.mem _ (s.not_hidden_rr b')).symm.trans hw'.symm
      have hready' : impl.mcReady b' (m (impl.rr b')) = false := hunready
      rw [hsame, hready] at hready'
      cases hready'
  · obtain rfl := Option.some.inj hx
    refine ⟨⟨c, hc, rfl, hbit⟩, hacc, hans, hverb, ⟨ws, i, rfl, hi, fun j hj => (hall j).mp hj⟩,
      fun j hj => ?_⟩
    rw [List.mem_append, List.mem_singleton, not_or, hall] at hj
    exact absurd (Fin.ext ((not_not.mp hj.1).trans hi.symm)) hj.2

/-- While a response is in progress, a poll has seen nothing. -/
theorem ActRel.of_pending {act : McAct} (h : s.ActRel impl act) {x : McAnswer}
    (hx : s.answer = some x) (hcalls : t.calls = s.calls) (hsub : t.mc.submitted = s.mc.submitted)
    (hphase : t.mc.phase = s.mc.phase) (hswp : t.mc.swp = s.mc.swp) : t.ActRel impl act := by
  cases act with
  | none => exact (hcalls.trans h).trans hsub.symm
  | storing todo => cases h.2.1.symm.trans hx
  | reading ws =>
    obtain ⟨h₁, h₂, h₃, h₄⟩ := h
    refine ⟨(hcalls.trans h₁).trans hsub.symm, hphase ▸ h₂, h₃, fun b w hb hw hready => ?_⟩
    rw [hswp] at hb
    cases (h₄ b w hb hw hready).1.symm.trans hx

/-- The words of a response register are apart. -/
theorem word_ne {i j : Fin 16} (h : j ≠ i) (off : Nat) : off + 4 * (j : Nat) ≠ off + 4 * i :=
  fun he => h (Fin.ext (by omega))

/-- The last word of a response is the response at once. -/
theorem Rel.word_last (h : s.Rel impl m) {x : McAnswer} {i : Fin 16} (hx : s.answer = some x)
    (htodo : x.todo = [i]) :
    ∃ ls u, (mcSys impl none).Steps { s.mc with cena := m } ls u ∧
      (s.afterWord impl x i []).Sim impl u := by
  have hp := h.answer x hx
  obtain ⟨c, hc, hv, hbit⟩ := hp.valid
  let u := McState.afterRespond impl { s.mc with cena := m } x.k x.v x.line
  have hstep : (mcSys impl none).step { s.mc with cena := m } (.respond x.k x.line) u :=
    ⟨c, hc, hp.accepted, hp.unanswered, hp.verb, hbit, by rw [← hv]⟩
  refine ⟨[_], u, .cons hstep (.nil _), u.cena, rfl, (mcSys_inductive impl).step _ _ _ h.inv hstep,
    fun off hhidden => ?_, h.act.of_pending hx rfl rfl rfl rfl, fun _ h' => by cases h'⟩
  have hcr : ¬ (impl.cr ≤ off ∧ off < impl.cr + 64) := fun hcr => hhidden (.inl hcr)
  show Function.update s.mc.cena (impl.rr x.v + 4 * i) (x.line i) off =
    m.run (memcpyWords (impl.rr x.v) x.line) off
  by_cases hin : ∃ j : Fin 16, off = impl.rr x.v + 4 * j
  · obtain ⟨j, rfl⟩ := hin
    rw [run_memcpyWords]
    by_cases hj : j = i
    · rw [hj, Function.update_self]
    · rw [Function.update_of_ne (word_ne hj _)]
      refine hp.stored j fun hmem => ?_
      rw [htodo] at hmem
      exact hj (List.mem_singleton.mp hmem)
  · rw [run_memcpyWords_of_lt _ _ _ fun j hj he => hin ⟨⟨j, hj⟩, he⟩,
      Function.update_of_ne fun he => hin ⟨i, he⟩]
    refine h.mem off ?_
    rintro (h' | ⟨y, hy, j, -, he⟩)
    · exact hcr h'
    · obtain rfl := Option.some.inj (hx.symm.trans hy)
      exact hin ⟨j, he⟩

/-- The words before it are not seen. -/
theorem Rel.word_more (h : s.Rel impl m) {x : McAnswer} {i k : Fin 16} {rest : List (Fin 16)}
    (hx : s.answer = some x) (htodo : x.todo = i :: k :: rest) :
    Rel impl (s.afterWord impl x i (k :: rest)) m := by
  have hp := h.answer x hx
  obtain ⟨ws, i₀, hlast, hi₀, hws⟩ := hp.last
  rw [htodo] at hlast
  obtain ⟨ws', rfl⟩ : ∃ ws', ws = i :: ws' := by
    cases ws with
    | nil => cases hlast
    | cons j ws' => exact ⟨ws', by rw [(List.cons.inj hlast).1]⟩
  have hi : i.val ≠ 0 := hws i (List.mem_cons_self ..)
  refine ⟨h.inv, fun off hhidden => ?_, h.act.of_pending hx rfl rfl rfl rfl, fun y hy => ?_⟩
  · have hne : off ≠ impl.rr x.v + 4 * i := fun he => hhidden (.inr ⟨_, rfl, i, hi, he⟩)
    refine (Function.update_of_ne hne _ _).trans (h.mem off fun h' => hhidden ?_)
    rcases h' with hcr | ⟨y, hy, j, hj, he⟩
    · exact .inl hcr
    · obtain rfl := Option.some.inj (hx.symm.trans hy)
      exact .inr ⟨_, rfl, j, hj, he⟩
  · obtain rfl := Option.some.inj hy
    refine ⟨hp.valid, hp.accepted, hp.unanswered, hp.verb, ⟨ws', i₀, (List.cons.inj hlast).2, hi₀,
      fun j hj => hws j (List.mem_cons_of_mem i hj)⟩, fun j hj => ?_⟩
    show Function.update s.mc.cena (impl.rr x.v + 4 * i) (x.line i) (impl.rr x.v + 4 * j) = x.line j
    by_cases hji : j = i
    · rw [hji, Function.update_self]
    · rw [Function.update_of_ne (word_ne hji _)]
      refine hp.stored j fun hmem => ?_
      rw [htodo] at hmem
      exact (List.mem_cons.mp hmem).elim hji hj

theorem Rel.word (h : s.Rel impl m) {x : McAnswer} {i : Fin 16} {rest : List (Fin 16)}
    (hx : s.answer = some x) (htodo : x.todo = i :: rest) :
    ∃ ls u, (mcSys impl none).Steps { s.mc with cena := m } ls u ∧
      (s.afterWord impl x i rest).Sim impl u := by
  cases rest with
  | nil => exact h.word_last hx htodo
  | cons k rest => exact ⟨[], _, .nil _, m, rfl, h.word_more hx htodo⟩

theorem Sim.step {u : McState} (h : s.Sim impl u) {l : McStoresLabel}
    (hstep : (mcStores impl).step s l t) :
    ∃ ls u', (mcSys impl none).Steps u ls u' ∧ t.Sim impl u' := by
  obtain ⟨m, rfl, hrel⟩ := h
  cases l with
  | submit cmd cmdVerb =>
    obtain ⟨hact, hidle, hv, rfl⟩ := hstep
    exact ⟨[], _, .nil _, m, rfl, hrel.submit hact hidle hv⟩
  | access =>
    obtain ⟨a, rest, hact, rfl⟩ := hstep
    exact hrel.access hact
  | poll =>
    obtain ⟨hact, hphase, rfl⟩ := hstep
    have hcalls := hrel.act
    rw [hact] at hcalls
    exact ⟨[], _, .nil _, m, rfl, hrel.inv, hrel.mem, ⟨hcalls, hphase, Nat.zero_le _,
      fun b w _ hw => by cases hw⟩, hrel.answer⟩
  | read =>
    obtain ⟨ws, hact, hlt, rfl⟩ := hstep
    exact ⟨[], _, .nil _, m, rfl, hrel.read hact hlt⟩
  | result =>
    obtain ⟨ws, hact, hlen, rfl⟩ := hstep
    exact hrel.result hact hlen
  | answer k l words =>
    obtain ⟨c, hnone, hc, hacc, hans, hverb, hbit, hwords, rfl⟩ := hstep
    exact ⟨[], _, .nil _, m, rfl, hrel.respond hnone hc hacc hans hverb hbit hwords⟩
  | word =>
    obtain ⟨x, i, rest, hx, htodo, rfl⟩ := hstep
    exact hrel.word hx htodo

end McStores

/-- Word by word, the interface refines the one whose commands and responses are stored at once. -/
theorem mcStores_simulation (impl : Impl) :
    (mcStores impl).Simulation (mcSys impl none) (McStores.Sim impl) where
  init s h := by
    obtain ⟨hinit, hact, hanswer, hcalls⟩ := h
    refine ⟨s.mc, hinit, s.mc.cena, rfl, (mcSys_inductive impl).init _ hinit, fun _ _ => rfl, ?_,
      fun x hx => by cases hanswer.symm.trans hx⟩
    obtain ⟨-, -, -, hsub, -⟩ := hinit
    rw [hact]
    exact hcalls.trans hsub.symm
  step _ _ _ _ h hstep := h.step hstep

/-! ## Every run -/

namespace McState

variable {s t : McState}

/-- Every call that returned returned the response to its command. -/
def Paired (s : McState) : Prop :=
  ∀ (k : Nat) r, s.results[k]? = some r → ∃ l, r = some l ∧ s.answer k = some l

theorem Inv.paired (h : s.Inv impl) : s.Paired := by
  obtain ⟨⟨b, hlink⟩, hcomplete⟩ := h
  intro k r hr
  cases r with
  | none => exact absurd hr (hcomplete.results k)
  | some l => exact ⟨l, rfl, (hlink.history.own_iff hr).mpr fun i _ => hcomplete.results i⟩

end McState

/-- The hardware took the commands of the calls whole, in order and each as new, all but that of a
submission in progress; each call that returned returned what the hardware stored for its command,
every word; and a poll that starts now returns what there is. -/
structure McStores.Exact (s : McStores) : Prop where
  taken : s.mc.submitted <+: s.calls
  progress : s.calls.length ≤ s.mc.submitted.length + 1
  accepted : ∀ k < s.mc.submitted.length, s.mc.accepted k = true
  results : s.mc.Paired
  returned : s.mc.results.length ≤ s.mc.submitted.length ∧
    s.mc.submitted.length ≤ s.mc.results.length + 1
  poll : s.mc.phase ≠ .idle → ∃ k, k + 1 = s.mc.submitted.length ∧
    (qbmanSwpMcResult s.mc.swp s.mc.cena).ret = s.mc.answer k

namespace McStores

variable {s : McStores} {m : Region}

/-- A poll at once sees the same in both memories. -/
theorem Rel.poll_eq (h : s.Rel impl m) :
    (qbmanSwpMcResult s.mc.swp s.mc.cena).ret = (qbmanSwpMcResult s.mc.swp m).ret := by
  obtain ⟨b, hlink⟩ := h.inv.1
  have hmode : s.mc.swp.desc.impl = impl := hlink.mode
  have hbit : s.mc.swp.mcValidBit impl = vbit b := hlink.bit
  have hword : s.mc.cena (impl.rr b) = m (impl.rr b) := h.mem _ (s.not_hidden_rr b)
  rw [(qbmanSwpMcResult_eq hmode hbit s.mc.cena).1, (qbmanSwpMcResult_eq hmode hbit m).1, hword]
  by_cases hready : impl.mcReady b (m (impl.rr b)) = true
  · have hnone : s.answer = none := h.answer_none hbit (by rw [hword, hready])
    have hline : s.mc.cena.line (impl.rr b) = m.line (impl.rr b) :=
      funext fun j => h.mem _ (not_hidden_of_none hnone b (4 * j))
    rw [hline]
  · rw [if_neg hready, if_neg hready]

theorem Rel.calls (h : s.Rel impl m) :
    s.mc.submitted <+: s.calls ∧ s.calls.length ≤ s.mc.submitted.length + 1 := by
  have hact := h.act
  cases ha : s.act with
  | none =>
    rw [ha] at hact
    rw [show s.calls = s.mc.submitted from hact]
    exact ⟨List.prefix_rfl, Nat.le_succ _⟩
  | storing todo =>
    rw [ha] at hact
    obtain ⟨-, -, -, cmd, cmdVerb, -, -, -, -, hcalls⟩ := hact
    rw [hcalls]
    exact ⟨List.prefix_append _ _, Nat.le_of_eq List.length_append⟩
  | reading ws =>
    rw [ha] at hact
    rw [hact.1]
    exact ⟨List.prefix_rfl, Nat.le_succ _⟩

theorem Rel.exact (h : s.Rel impl m) : s.Exact := by
  obtain ⟨htaken, hprogress⟩ := h.calls
  obtain ⟨b, hlink⟩ := h.inv.1
  have hexact := h.inv.exact
  refine ⟨htaken, hprogress, hexact.accepted, h.inv.paired, ?_, fun hphase => ?_⟩
  · by_cases hphase : s.mc.phase = .idle
    · have hres : s.mc.results.length = s.mc.submitted.length := hlink.history.results hphase
      omega
    · have hres : s.mc.results.length + 1 = s.mc.submitted.length := hlink.history.pending hphase
      omega
  · rw [h.poll_eq]
    exact hexact.poll hphase

end McStores

/-- Whatever is stored and read in between, commands and responses are never seen in part. -/
theorem mcStores_exact {s : McStores} (h : (mcStores impl).Reach s) : s.Exact := by
  obtain ⟨u, -, m, rfl, hrel⟩ := (mcStores_simulation impl).reach h
  exact hrel.exact

namespace McStores

variable {mc : McState} {act : McAct} {answer : Option McAnswer} {calls : List Line}

theorem reach_stores (n : Nat) {todo : List Access} (hn : n < todo.length)
    (h : (mcStores impl).Reach ⟨mc, .storing todo, answer, calls⟩) :
    (mcStores impl).Reach
      ⟨(todo.take n).foldl (·.afterAccess impl ·) mc, .storing (todo.drop n), answer, calls⟩ := by
  induction n generalizing mc todo with
  | zero => exact h
  | succ n ih =>
    obtain ⟨a, b, rest, rfl⟩ : ∃ a b rest, todo = a :: b :: rest := by
      rcases todo with _ | ⟨a, _ | ⟨b, rest⟩⟩
      · cases hn
      · exact absurd (Nat.lt_of_succ_lt_succ hn) (Nat.not_lt_zero n)
      · exact ⟨a, b, rest, rfl⟩
    exact ih (Nat.lt_of_succ_lt_succ hn)
      (h.step (a := McStoresLabel.access) ⟨a, b :: rest, rfl, rfl⟩)

theorem reach_reads (n : Nat) {ws : List U32} (hn : ws.length + n ≤ 16)
    (h : (mcStores impl).Reach ⟨mc, .reading ws, answer, calls⟩) :
    (mcStores impl).Reach ⟨mc, .reading (ws ++ (List.range' ws.length n).map fun i =>
      mc.cena (mcResponseOff mc.swp + 4 * i)), answer, calls⟩ := by
  induction n generalizing ws with
  | zero => simpa using h
  | succ n ih =>
    have hnext := h.step (a := McStoresLabel.read) ⟨ws, rfl, by omega, rfl⟩
    have hrest := ih (by rw [List.length_append, List.length_singleton]; omega) hnext
    rw [List.length_append, List.length_singleton, List.append_assoc] at hrest
    exact hrest

theorem reach_words (n : Nat) {x : McAnswer} (hn : n < x.todo.length)
    (h : (mcStores impl).Reach ⟨mc, act, some x, calls⟩) :
    (mcStores impl).Reach
      ⟨{ mc with
          cena := (x.todo.take n).foldl (fun m (i : Fin 16) => Function.update m
            (impl.rr x.v + 4 * i) (x.line i)) mc.cena },
        act, some { x with todo := x.todo.drop n }, calls⟩ := by
  induction n generalizing mc x with
  | zero => exact h
  | succ n ih =>
    obtain ⟨k, v, l, todo⟩ := x
    obtain ⟨i, j, rest, rfl⟩ : ∃ i j rest, todo = i :: j :: rest := by
      rcases todo with _ | ⟨i, _ | ⟨j, rest⟩⟩
      · cases hn
      · exact absurd (Nat.lt_of_succ_lt_succ hn) (Nat.not_lt_zero n)
      · exact ⟨i, j, rest, rfl⟩
    exact ih (Nat.lt_of_succ_lt_succ hn)
      (h.step (a := McStoresLabel.word) ⟨_, i, j :: rest, rfl, rfl, rfl⟩)

end McStores

deriving instance DecidableEq for McPhase

/-- A memory-backed portal whose first poll reads the first word of the response register before the
hardware stores it and the other words after: that poll returns nothing, and the next one
everything. -/
theorem mcStores_exact_torn :
    ∃ s, (mcStores .memBack).Reach s ∧ s.Exact ∧ s.calls.length = 1 ∧
      (s.mc.results.map fun r => r.map fun l => (l 0, l 5, l 15)) = [some (0xb2, 7, 7)] := by
  let p := ((qbmanSwpInit {} (.rev5000 .vbRing 0) (.ok 0x1000 0 0)).ret.get rfl).2
  have hinit : (mcStores .memBack).init ⟨McState.cleared p, .none, none, []⟩ :=
    ⟨⟨⟨{}, .rev5000 .vbRing 0, .ok 0x1000 0 0, 0x1000, rfl, rfl⟩, fun _ => rfl, rfl, rfl, rfl,
      fun _ => rfl, fun _ => rfl, rfl⟩, rfl, rfl, rfl⟩
  have hsubmit := (Trans.Sys.Reach.of_init hinit).step
    (a := McStoresLabel.submit (fun _ => 3) 0x32) ⟨rfl, rfl, by decide, rfl⟩
  have hstored := McStores.reach_stores 16 (by decide) hsubmit
  have hbell : (qbmanSwpMcSubmit p (fun _ => 3) 0x32).drop 16 =
      [.cinhWrite qbmanCinhSwpCrRt qmanRtMode] := by
    rw [qbmanSwpMcSubmit, if_pos (by decide)]
    exact List.drop_left' (by simp [qbmanCenaWriteComplete, memcpyWords])
  have hpolls := hstored.step (a := McStoresLabel.access)
    ⟨_, _, congrArg McAct.storing hbell, rfl⟩
  have hpoll := hpolls.step (a := McStoresLabel.poll) ⟨rfl, by decide, rfl⟩
  have hfirst := McStores.reach_reads 1 (by decide) hpoll
  have hanswer := hfirst.step
    (a := McStoresLabel.answer 0 (fun i => if i = 0 then 0xb2 else 7) (List.finRange 16).reverse)
    ⟨_, rfl, List.getElem?_eq_getElem (by decide), by decide,
      Option.isNone_iff_eq_none.mp (by decide), by decide, fun _ => by decide,
      ⟨(List.finRange 16).reverse.dropLast, 0, by decide, rfl, by decide⟩, rfl⟩
  have hwords := McStores.reach_words 15 (by decide) hanswer
  have hdone := hwords.step (a := McStoresLabel.word) ⟨_, 0, [], rfl, rfl, rfl⟩
  have hrest := McStores.reach_reads 15 (by decide) hdone
  have hnothing := hrest.step (a := McStoresLabel.result) ⟨_, rfl, by decide, rfl⟩
  have hagain := hnothing.step (a := McStoresLabel.poll) ⟨rfl, by decide +kernel, rfl⟩
  have hall := McStores.reach_reads 16 (by decide) hagain
  have hresult := hall.step (a := McStoresLabel.result) ⟨_, rfl, by decide, rfl⟩
  exact ⟨_, hresult, mcStores_exact hresult, by decide +kernel, by decide +kernel⟩

end Qbman
