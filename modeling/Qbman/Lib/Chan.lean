import Qbman.Lib.Cyclic
import Qbman.Lib.System

/-!
# A bounded channel, and the ring of slots that stores it

`Chan α cap` is what a ring between a producer and a consumer is for: the messages sent so far, how
many of them were received, and at most `cap` in between. Its bounds are fields, so no channel can
deliver what was not sent or hold more than `cap` messages. `Chan.received` is a prefix of what was
sent by construction.

`Chan.Stored` is the ring: `cap` slots, the message with number `i` in slot `(base + i) % cap`.
Sending writes the slots of the new messages (`Stored.append`), receiving writes none
(`Stored.pull`).
-/

/-- The messages sent and the number received. -/
structure Chan (α : Type*) (cap : Nat) where
  sent : List α
  got : Nat
  got_le : got ≤ sent.length
  fits : sent.length ≤ got + cap

namespace Chan

variable {α : Type*} {cap : Nat}

/-- The messages the consumer has taken. -/
def received (c : Chan α cap) : List α := c.sent.take c.got

theorem got_le_append (c : Chan α cap) (x : α) : c.got ≤ (c.sent ++ [x]).length := by
  rw [List.length_append]
  exact Nat.le_add_right_of_le c.got_le

theorem append_fits (c : Chan α cap) (x : α) (h : c.sent.length < c.got + cap) :
    (c.sent ++ [x]).length ≤ c.got + cap := by
  rw [List.length_append]
  exact h

theorem fits_succ (c : Chan α cap) : c.sent.length ≤ c.got + 1 + cap :=
  Nat.le_trans c.fits (by omega)

/-- Send one message. -/
def push (c : Chan α cap) (x : α) (h : c.sent.length < c.got + cap) : Chan α cap :=
  ⟨c.sent ++ [x], c.got, c.got_le_append x, c.append_fits x h⟩

/-- Take the oldest message. -/
def pull (c : Chan α cap) (h : c.got < c.sent.length) : Chan α cap :=
  ⟨c.sent, c.got + 1, h, c.fits_succ⟩

theorem received_isPrefix (c : Chan α cap) : c.received <+: c.sent := List.take_prefix _ _

@[simp] theorem length_received (c : Chan α cap) : c.received.length = c.got :=
  List.length_take_of_le c.got_le

theorem received_pull (c : Chan α cap) (h : c.got < c.sent.length) :
    (c.pull h).received = c.received ++ [c.sent[c.got]] :=
  (List.take_append_getElem h).symm

/-- The channel as a system: any message while there is room, any receipt while one is in it. A
channel may be inherited with messages in it. -/
def sys (α : Type*) (cap : Nat) : Trans.Sys (Chan α cap) (α ⊕ Unit) where
  init c := c.got = 0
  step c l c' := match l with
    | .inl x => ∃ h, c' = c.push x h
    | .inr () => ∃ h, c' = c.pull h

/-- Sending a list of messages that fits. -/
theorem sends (c : Chan α cap) (xs : List α) (h : c.sent.length + xs.length ≤ c.got + cap) :
    ∃ c' : Chan α cap, (sys α cap).Steps c (xs.map .inl) c' ∧ c'.sent = c.sent ++ xs ∧
      c'.got = c.got := by
  induction xs generalizing c with
  | nil => exact ⟨c, .nil c, by simp, rfl⟩
  | cons x xs ih =>
    simp only [List.length_cons] at h
    have hx : c.sent.length < c.got + cap := by omega
    obtain ⟨c', hs, hc, hg⟩ := ih (c.push x hx) (by simp [push]; omega)
    exact ⟨c', .cons ⟨hx, rfl⟩ hs, by simpa [push] using hc, hg⟩

/-- Receiving the oldest message. -/
theorem receives (c : Chan α cap) (h : c.got < c.sent.length) :
    (sys α cap).Steps c [.inr ()] (c.pull h) := .cons ⟨h, rfl⟩ (.nil _)

/-- Ring slot `(base + i) % cap` holds message `i`, for each message in the channel. -/
def Stored (c : Chan α cap) (base : Nat) (slot : Nat → α) : Prop :=
  ∀ i (h : i < c.sent.length), c.got ≤ i → slot ((base + i) % cap) = c.sent[i]

theorem Stored.pull {c : Chan α cap} {base : Nat} {slot : Nat → α} (hs : c.Stored base slot)
    (h : c.got < c.sent.length) : (c.pull h).Stored base slot :=
  fun i hi hg => hs i hi (Nat.le_of_succ_le hg)

/-- The slot of the oldest message in the channel. -/
theorem Stored.head {c : Chan α cap} {base : Nat} {slot : Nat → α} (hs : c.Stored base slot)
    (h : c.got < c.sent.length) : slot ((base + c.got) % cap) = c.sent[c.got] :=
  hs c.got h (Nat.le_refl _)

/-- Writing the new messages to their slots, and no other slot of the ring, stores the channel
they were sent on: a new message's slot is not one of a message in the channel. -/
theorem Stored.append {c c' : Chan α cap} {base : Nat} {slot slot' : Nat → α} {xs : List α}
    (hs : c.Stored base slot) (hsent : c'.sent = c.sent ++ xs) (hgot : c'.got = c.got)
    (hnew : ∀ j (h : j < xs.length), slot' ((base + c.sent.length + j) % cap) = xs[j])
    (hold : ∀ k, (∀ j < xs.length, k ≠ (base + c.sent.length + j) % cap) → slot' k = slot k) :
    c'.Stored base slot' := by
  intro i hi hg
  have hfit := c'.fits
  rw [hgot] at hg hfit
  simp only [hsent, List.length_append] at hi hfit
  simp only [hsent]
  by_cases hlt : i < c.sent.length
  · rw [List.getElem_append_left hlt, hold, hs i hlt hg]
    intro j hj he
    have := Cyclic.slot_inj_window (a := base + c.got) (by omega) (by omega) (by omega)
      (by omega) he
    omega
  · obtain ⟨j, rfl⟩ := Nat.exists_eq_add_of_le (Nat.le_of_not_lt hlt)
    have hj : j < xs.length := by omega
    rw [List.getElem_append_right (by omega), ← Nat.add_assoc, hnew j hj]
    congr 1
    omega

end Chan
