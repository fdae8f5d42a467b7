import Qbman.Lib.Slots
import Qbman.Reject

/-!
# Rings whose slots the hardware grants

The release ring and the enqueue ring in array mode have no producer index. A call reads a register
that grants a slot and says the valid bit to use, or is rejected; the hardware takes a slot when it
finds it with the valid bit it expects there (direct mode) or when a register write tells it to
(memory-backed mode). `GrantRing` is what such a ring is made of, `GrantRing.Spec` what the driver's
call does to the slot it was granted, and `grantSys` interleaves calls with the hardware taking
slots in any order. It refines the abstract slots (`grantSys_simulation`).
-/

namespace Qbman

/-- A ring of a portal. `idx` and `vb` are the slot and the valid bit in a granting word, `asked` is
the command that an operation asks for with that word, `told` the slot that an access tells the
hardware of. -/
structure GrantRing (Op α : Type) where
  size : Nat
  reg : Nat
  grants : U32 → Bool
  idx : U32 → Nat
  vb : U32 → Bool
  call : QbmanSwp → Regions → Op → Outcome Int
  asked : Op → U32 → α
  read : Region → Nat → α
  bit : Region → Nat → Bool
  told : Access → Option Nat
  /-- The hardware waits to be told, whatever the valid bits are. -/
  doorbell : Bool

/-- A portal, the memory of its ring and the hardware's side: `busy` slots were granted and not
taken since, `expect` is the valid bit it waits for, `rung` are the slots it was told of. `sent` are
the commands that calls reported as accepted. -/
structure GrantState (α : Type) where
  swp : QbmanSwp
  cena : Region
  busy : Nat → Bool
  expect : Nat → Bool
  rung : Nat → Bool
  sent : List α
  taken : List α

namespace GrantRing

variable {Op α : Type} (R : GrantRing Op α)

/-- The call put the command `x` into slot `i` with the valid bit `v`, and told the hardware. -/
structure Puts (s : QbmanSwp) (o : Outcome Int) (i : Nat) (v : Bool) (x : α) : Prop where
  ret : o.ret = 0
  swp : o.swp = s
  read : ∀ m : Region, R.read (m.run o.accs) i = x
  bit : ∀ m : Region, R.bit (m.run o.accs) i = v
  rest : ∀ (m : Region), ∀ j < R.size, j ≠ i →
    R.read (m.run o.accs) j = R.read m j ∧ R.bit (m.run o.accs) j = R.bit m j
  told : o.accs.filterMap R.told = if R.doorbell then [i] else []

/-- What the driver does with a register that grants a slot, and with one that does not. -/
structure Spec (ok : QbmanSwp → Op → Prop) : Prop where
  rejects : ∀ s r op, ok s op →
    Rejects s (R.call s r op) (· = -eBUSY) (R.grants (r.cinh R.reg) = false)
  puts : ∀ s r op, ok s op → R.grants (r.cinh R.reg) = true → R.idx (r.cinh R.reg) < R.size →
    R.Puts s (R.call s r op) (R.idx (r.cinh R.reg)) (R.vb (r.cinh R.reg))
      (R.asked op (r.cinh R.reg))
  told_read : ∀ a : Access, a.IsRead → R.told a = none

/-- The hardware finds a command in the slot. -/
def ready (s : GrantState α) (i : Nat) : Bool :=
  if R.doorbell then s.rung i else R.bit s.cena i == s.expect i

end GrantRing

/-- A portal with an empty ring over cleared memory, whose hardware waits for set valid bits. -/
def GrantState.cleared (α : Type) (p : QbmanSwp) : GrantState α where
  swp := p
  cena := fun _ => 0
  busy := fun _ => false
  expect := fun _ => true
  rung := fun _ => false
  sent := []
  taken := []

namespace GrantState

variable {Op α : Type} (R : GrantRing Op α) (s : GrantState α)

/-- After a call. -/
def afterCall (op : Op) (r : Regions) : GrantState α :=
  let w := r.cinh R.reg
  let o := R.call s.swp r op
  { s with
    swp := o.swp
    cena := s.cena.run o.accs
    busy := if R.grants w then Function.update s.busy (R.idx w) true else s.busy
    rung := fun i => s.rung i || (o.accs.filterMap R.told).contains i
    sent := if o.ret = 0 then s.sent ++ [R.asked op w] else s.sent }

/-- After the hardware took slot `i`. -/
def afterTake (i : Nat) : GrantState α :=
  { s with
    busy := Function.update s.busy i false
    expect := Function.update s.expect i (!s.expect i)
    rung := Function.update s.rung i false
    taken := s.taken ++ [R.read s.cena i] }

/-- A portal with an empty ring: no slot is granted or looks ready. -/
structure Init (s : GrantState α) : Prop where
  busy : ∀ i, s.busy i = false
  ready : ∀ i < R.size, R.ready s i = false
  sent : s.sent = []
  taken : s.taken = []

end GrantState

inductive GrantLabel (Op : Type) where
  | call (op : Op) (r : Regions)
  | take (i : Nat)

section

variable {Op α : Type} (R : GrantRing Op α)

/-- What the hardware may grant: a slot of the ring that is not busy, with the valid bit that it
then waits for if it looks at valid bits. -/
def GrantState.MayGrant (s : GrantState α) (w : U32) : Prop :=
  R.grants w = true → R.idx w < R.size ∧ s.busy (R.idx w) = false ∧
    (R.doorbell = false → R.vb w = s.expect (R.idx w))

/-- Calls and the hardware in any order. -/
def grantSys (ok : QbmanSwp → Op → Prop) (init : GrantState α → Prop) :
    Trans.Sys (GrantState α) (GrantLabel Op) where
  init s := init s ∧ s.Init R
  step s l t := match l with
    | .call op r => ok s.swp op ∧ s.MayGrant R (r.cinh R.reg) ∧ t = s.afterCall R op r
    | .take i => i < R.size ∧ R.ready s i = true ∧ t = s.afterTake R i

/-- The state holds the slots: the busy ones are those with a command. -/
structure GrantState.Rel (s : GrantState α) (x : Slots α R.size) : Prop where
  sent : x.sent = s.sent
  taken : x.taken = s.taken
  busy : ∀ i < R.size, s.busy i = true ↔ x.slot i ≠ none
  holds : x.Holds (R.read s.cena) (fun i => R.ready s i = true)

variable {R} {s : GrantState α} {x : Slots α R.size} {ok : QbmanSwp → Op → Prop}

namespace GrantState.Rel

theorem ready_iff (h : s.Rel R x) {i : Nat} (hi : i < R.size) :
    R.ready s i = true ↔ s.busy i = true :=
  (h.holds.ready i hi).trans (h.busy i hi).symm

/-- A call that was granted a slot puts its command there. -/
theorem granted (h : s.Rel R x) (hR : R.Spec ok) {op : Op} {r : Regions} (hok : ok s.swp op)
    (hw : R.grants (r.cinh R.reg) = true) (hmay : s.MayGrant R (r.cinh R.reg)) :
    ∃ bs y, (Slots.sys α R.size).Steps x bs y ∧ (s.afterCall R op r).Rel R y := by
  obtain ⟨hi, hbusy, hexpect⟩ := hmay hw
  set i := R.idx (r.cinh R.reg) with hidx
  have hputs := hR.puts s.swp r op hok hw hi
  have hfree : x.slot i = none := by
    by_contra hne
    rw [(h.busy i hi).mpr hne] at hbusy
    cases hbusy
  have hsent : (s.afterCall R op r).sent = s.sent ++ [R.asked op (r.cinh R.reg)] :=
    if_pos hputs.ret
  have hb : (s.afterCall R op r).busy = Function.update s.busy i true := if_pos hw
  have hnew : R.ready (s.afterCall R op r) i = true := by
    simp only [GrantRing.ready]
    cases hd : R.doorbell with
    | true => simp [afterCall, hputs.told, hd, hidx]
    | false =>
      have hbit : R.bit (s.cena.run (R.call s.swp r op).accs) i = s.expect i :=
        (hputs.bit s.cena).trans (hexpect hd)
      simp [afterCall, hbit]
  have hrest : ∀ j < R.size, j ≠ i → R.read (s.afterCall R op r).cena j = R.read s.cena j ∧
      (R.ready (s.afterCall R op r) j = true ↔ R.ready s j = true) := by
    intro j hj hji
    obtain ⟨hread, hbit⟩ := hputs.rest s.cena j hj hji
    refine ⟨hread, ?_⟩
    simp only [GrantRing.ready]
    cases hd : R.doorbell with
    | true => simp [afterCall, hputs.told, hd, hji, ← hidx]
    | false =>
      simp [afterCall, hbit]
  refine ⟨[.inl (i, R.asked op (r.cinh R.reg))], x.put i _ ⟨hi, hfree⟩,
    .cons ⟨⟨hi, hfree⟩, rfl⟩ (.nil _), ⟨?_, h.taken, fun j hj => ?_, ?_⟩⟩
  · rw [hsent, ← h.sent]
    rfl
  · show (s.afterCall R op r).busy j = true ↔ Function.update x.slot i _ j ≠ none
    rw [hb]
    by_cases hji : j = i
    · subst hji
      simp
    · rw [Function.update_of_ne hji, Function.update_of_ne hji]
      exact h.busy j hj
  · exact h.holds.put ⟨hi, hfree⟩ (hputs.read s.cena) hnew hrest

/-- A rejected call leaves everything as it was. -/
theorem rejected (h : s.Rel R x) (hR : R.Spec ok) {op : Op} {r : Regions} (hok : ok s.swp op)
    (hw : R.grants (r.cinh R.reg) = false) : (s.afterCall R op r).Rel R x := by
  obtain ⟨hiff, hclean⟩ := hR.rejects s.swp r op hok
  have htrace := hclean hw
  have hret : (R.call s.swp r op).ret ≠ 0 := by
    rw [hiff.mpr hw]
    decide
  have htold : (R.call s.swp r op).accs.filterMap R.told = [] :=
    List.filterMap_eq_nil_iff.mpr fun a ha => hR.told_read a (htrace.reads a ha)
  have hsame : s.afterCall R op r = s := by
    have hgrants : ¬ R.grants (r.cinh R.reg) = true := by rw [hw]; exact Bool.false_ne_true
    simp only [afterCall, htrace.swp, htrace.cena, if_neg hgrants, htold, if_neg hret,
      List.contains_nil, Bool.or_false]
  rw [hsame]
  exact h

/-- The hardware takes a command that it finds. -/
theorem take (h : s.Rel R x) {i : Nat} (hi : i < R.size) (hready : R.ready s i = true) :
    ∃ bs y, (Slots.sys α R.size).Steps x bs y ∧ (s.afterTake R i).Rel R y := by
  have hslot := h.holds.slot_eq hi hready
  have hnot : ¬ R.ready (s.afterTake R i) i = true := by
    simp only [GrantRing.ready] at hready ⊢
    cases hd : R.doorbell with
    | true => simp [afterTake]
    | false =>
      have hbit : R.bit s.cena i = s.expect i := by simpa [hd] using hready
      simp [afterTake, hbit]
  have hrest : ∀ j < R.size, j ≠ i → R.read (s.afterTake R i).cena j = R.read s.cena j ∧
      (R.ready (s.afterTake R i) j = true ↔ R.ready s j = true) := by
    intro j _ hji
    refine ⟨rfl, ?_⟩
    simp only [GrantRing.ready, afterTake, Function.update_of_ne hji]
  refine ⟨[.inr i], x.take i _ ⟨hi, hslot⟩, .cons ⟨_, ⟨hi, hslot⟩, rfl⟩ (.nil _),
    ⟨h.sent, ?_, fun j hj => ?_, h.holds.take ⟨hi, hslot⟩ hnot hrest⟩⟩
  · show x.taken ++ [_] = s.taken ++ [_]
    rw [h.taken]
  · show Function.update s.busy i false j = true ↔ Function.update x.slot i none j ≠ none
    by_cases hji : j = i
    · subst hji
      simp
    · rw [Function.update_of_ne hji, Function.update_of_ne hji]
      exact h.busy j hj

theorem of_init (h : s.Init R) : s.Rel R (Slots.empty α R.size) where
  sent := h.sent.symm
  taken := h.taken.symm
  busy i _ := by simp [h.busy i, Slots.empty]
  holds := Slots.holds_empty fun i hi => by simp [h.ready i hi]

end GrantState.Rel

/-- The ring refines the slots. -/
theorem grantSys_simulation (hR : R.Spec ok) (init : GrantState α → Prop) :
    (grantSys R ok init).Simulation (Slots.sys α R.size) (·.Rel R ·) where
  init s hs := ⟨Slots.empty α R.size, rfl, .of_init hs.2⟩
  step s l t x h hstep := by
    cases l with
    | call op r =>
      obtain ⟨hok, hmay, rfl⟩ := hstep
      cases hw : R.grants (r.cinh R.reg) with
      | true => exact h.granted hR hok hw hmay
      | false => exact ⟨[], x, .nil x, h.rejected hR hok hw⟩
    | take i =>
      obtain ⟨hi, hready, rfl⟩ := hstep
      exact h.take hi hready

/-- The commands that calls reported as accepted are those the hardware took and those in the busy
slots, each as often as it was accepted; the hardware finds a command in exactly the busy slots. -/
structure GrantState.Exact (R : GrantRing Op α) (s : GrantState α) : Prop where
  perm : s.sent.Perm (s.taken ++ ((List.range R.size).filter s.busy).map (R.read s.cena))
  ready_iff : ∀ i < R.size, R.ready s i = true ↔ s.busy i = true

theorem GrantState.Rel.exact (h : s.Rel R x) : s.Exact R where
  perm := by
    have hbusy : (List.range R.size).filter s.busy =
        (List.range R.size).filter fun i => R.ready s i = true := by
      refine List.filter_congr fun i hi => ?_
      rw [Bool.eq_iff_iff, ← h.ready_iff (List.mem_range.mp hi), decide_eq_true_iff]
    rw [hbusy, ← h.sent, ← h.taken]
    exact h.holds.sent_perm
  ready_iff _ hi := h.ready_iff hi

end

end Qbman
