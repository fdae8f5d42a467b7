import Qbman.Portal

/-!
# Interrupt registers

The functions for the interrupt registers of a portal, the threshold of its dequeue interrupt and
its interrupt timeout. Each reads or writes one register and nothing else. What the hardware returns
to a read is the argument `v`.
-/

namespace Qbman

/-- A function that returns the register at `off`. -/
def cinhGet (s : QbmanSwp) (off : Nat) (v : U32) : Outcome U32 :=
  { ret := v, swp := s, accs := [.cinhRead off v] }

/-- A function that sets the register at `off`. -/
def cinhSet (s : QbmanSwp) (off : Nat) (mask : U32) : Outcome Unit :=
  { ret := (), swp := s, accs := [.cinhWrite off mask] }

def qbmanSwpInterruptGetVanish (s : QbmanSwp) (v : U32) : Outcome U32 :=
  cinhGet s qbmanCinhSwpIsdr v

def qbmanSwpInterruptSetVanish (s : QbmanSwp) (mask : U32) : Outcome Unit :=
  cinhSet s qbmanCinhSwpIsdr mask

def qbmanSwpInterruptReadStatus (s : QbmanSwp) (v : U32) : Outcome U32 :=
  cinhGet s qbmanCinhSwpIsr v

def qbmanSwpInterruptClearStatus (s : QbmanSwp) (mask : U32) : Outcome Unit :=
  cinhSet s qbmanCinhSwpIsr mask

def qbmanSwpDqrrThrshldReadStatus (s : QbmanSwp) (v : U32) : Outcome U32 :=
  cinhGet s qbmanCinhSwpDqrrItr v

def qbmanSwpDqrrThrshldWrite (s : QbmanSwp) (mask : U32) : Outcome Unit :=
  cinhSet s qbmanCinhSwpDqrrItr mask

def qbmanSwpIntrTimeoutReadStatus (s : QbmanSwp) (v : U32) : Outcome U32 :=
  cinhGet s qbmanCinhSwpItpr v

def qbmanSwpIntrTimeoutWrite (s : QbmanSwp) (mask : U32) : Outcome Unit :=
  cinhSet s qbmanCinhSwpItpr mask

def qbmanSwpInterruptGetTrigger (s : QbmanSwp) (v : U32) : Outcome U32 :=
  cinhGet s qbmanCinhSwpIer v

def qbmanSwpInterruptSetTrigger (s : QbmanSwp) (mask : U32) : Outcome Unit :=
  cinhSet s qbmanCinhSwpIer mask

/-- The register is returned as an `int`. -/
def qbmanSwpInterruptGetInhibit (s : QbmanSwp) (v : U32) : Outcome Int :=
  { ret := v.toInt, swp := s, accs := [.cinhRead qbmanCinhSwpIir v] }

/-- The value that `qbman_swp_interrupt_set_inhibit` writes. -/
def inhibitMask (inhibit : Int) : U32 := if inhibit ≠ 0 then 0xffffffff else 0

def qbmanSwpInterruptSetInhibit (s : QbmanSwp) (inhibit : Int) : Outcome Unit :=
  cinhSet s qbmanCinhSwpIir (inhibitMask inhibit)

/-! ## The calls -/

/-- A register that its functions return and set as it is. -/
inductive SwpReg where
  | vanish
  | status
  | dqrrThrshld
  | intrTimeout
  | trigger
  deriving DecidableEq

namespace SwpReg

def off : SwpReg → Nat
  | vanish => qbmanCinhSwpIsdr
  | status => qbmanCinhSwpIsr
  | dqrrThrshld => qbmanCinhSwpDqrrItr
  | intrTimeout => qbmanCinhSwpItpr
  | trigger => qbmanCinhSwpIer

/-- The function that returns the register. -/
def get : SwpReg → QbmanSwp → U32 → Outcome U32
  | vanish => qbmanSwpInterruptGetVanish
  | status => qbmanSwpInterruptReadStatus
  | dqrrThrshld => qbmanSwpDqrrThrshldReadStatus
  | intrTimeout => qbmanSwpIntrTimeoutReadStatus
  | trigger => qbmanSwpInterruptGetTrigger

/-- The function that sets the register. -/
def set : SwpReg → QbmanSwp → U32 → Outcome Unit
  | vanish => qbmanSwpInterruptSetVanish
  | status => qbmanSwpInterruptClearStatus
  | dqrrThrshld => qbmanSwpDqrrThrshldWrite
  | intrTimeout => qbmanSwpIntrTimeoutWrite
  | trigger => qbmanSwpInterruptSetTrigger

theorem get_ret (r : SwpReg) (s : QbmanSwp) (v : U32) : (r.get s v).ret = v := by cases r <;> rfl

theorem off_injective : Function.Injective off := by
  intro r q h
  revert h
  cases r <;> cases q <;> decide

theorem off_ne_iir (r : SwpReg) : r.off ≠ qbmanCinhSwpIir := by cases r <;> decide

end SwpReg

/-- A call of one of the functions, with what the hardware returns to it. -/
inductive IntrCall where
  | get (r : SwpReg) (v : U32)
  | set (r : SwpReg) (mask : U32)
  | getInhibit (v : U32)
  | setInhibit (inhibit : Int)

namespace IntrCall

/-- The portal after the call. -/
def swp (s : QbmanSwp) : IntrCall → QbmanSwp
  | get r v => (r.get s v).swp
  | set r mask => (r.set s mask).swp
  | getInhibit v => (qbmanSwpInterruptGetInhibit s v).swp
  | setInhibit inhibit => (qbmanSwpInterruptSetInhibit s inhibit).swp

/-- The accesses of the call. -/
def accs (s : QbmanSwp) : IntrCall → List Access
  | get r v => (r.get s v).accs
  | set r mask => (r.set s mask).accs
  | getInhibit v => (qbmanSwpInterruptGetInhibit s v).accs
  | setInhibit inhibit => (qbmanSwpInterruptSetInhibit s inhibit).accs

/-- What the call sets the register to. -/
def mask? (r : SwpReg) : IntrCall → Option U32
  | set q mask => if q = r then some mask else none
  | _ => none

/-- What the call asks of the interrupt inhibit register. -/
def inhibit? : IntrCall → Option Int
  | setInhibit inhibit => some inhibit
  | _ => none

/-! Each call is one access to its own register, and leaves the portal object alone. -/

@[simp] theorem accs_get (s : QbmanSwp) (r : SwpReg) (v : U32) :
    (get r v).accs s = [.cinhRead r.off v] := by
  cases r <;> rfl

@[simp] theorem accs_set (s : QbmanSwp) (r : SwpReg) (mask : U32) :
    (set r mask).accs s = [.cinhWrite r.off mask] := by
  cases r <;> rfl

@[simp] theorem accs_getInhibit (s : QbmanSwp) (v : U32) :
    (getInhibit v).accs s = [.cinhRead qbmanCinhSwpIir v] := rfl

@[simp] theorem accs_setInhibit (s : QbmanSwp) (inhibit : Int) :
    (setInhibit inhibit).accs s = [.cinhWrite qbmanCinhSwpIir (inhibitMask inhibit)] := rfl

theorem swp_eq (s : QbmanSwp) (c : IntrCall) : c.swp s = s := by
  cases c with
  | get r v => cases r <;> rfl
  | set r mask => cases r <;> rfl
  | getInhibit v => rfl
  | setInhibit inhibit => rfl

end IntrCall

end Qbman
