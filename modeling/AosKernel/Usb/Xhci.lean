import AosKernel.Lib.Ring

namespace AosKernel.Usb

open Verif

def PAGE_SIZE : Nat := 4096

structure XhciTrb where
  param : Nat
  status : Nat
  control : Nat
  deriving DecidableEq

def sizeofXhciTrb : Nat := 8 + 4 + 4

-- `kxc->trbs_per_page`, for both rings.
def trbsPerPage : Nat := PAGE_SIZE / sizeofXhciTrb

namespace XhciTrb

def cycle (trb : XhciTrb) : Bool := trb.control &&& 1 == 1

def type (trb : XhciTrb) : Nat := trb.control >>> 10 &&& 0x3F

def toggleCycle (trb : XhciTrb) : Bool := trb.control &&& (1 <<< 1) != 0

end XhciTrb

def TRB_TYPE_LINK : Nat := 6

-- The command ring of an xhci_controller.
structure CommandRing where
  cmdRing : Nat → XhciTrb
  cmdIndex : Nat
  cmdCycle : Nat

namespace CommandRing

-- As xhci_init leaves it: a zeroed page whose last TRB is a Link TRB with
-- Toggle Cycle.
def init (cmdRingPhys : Nat) : CommandRing where
  cmdRing := Function.update (fun _ => ⟨0, 0, 0⟩) (trbsPerPage - 1)
    ⟨cmdRingPhys, 0, 1 ||| 6 <<< 10 ||| 1 <<< 1⟩
  cmdIndex := 0
  cmdCycle := 1

-- xhci_send_cmd, up to the doorbell.
def sendCmd (r : CommandRing) (type param : Nat) : CommandRing :=
  let trb : XhciTrb := ⟨param, 0, (type &&& 0x3F) <<< 10 ||| (r.cmdCycle &&& 0x1)⟩
  { cmdRing := Function.update r.cmdRing r.cmdIndex trb
    cmdIndex := if r.cmdIndex + 1 = trbsPerPage - 1 then 0 else r.cmdIndex + 1
    cmdCycle := if r.cmdIndex + 1 = trbsPerPage - 1 then r.cmdCycle ^^^ 1 else r.cmdCycle }

end CommandRing

-- The event ring. `erdp` is the register, as last written.
structure EventRing where
  eventRing : Nat → XhciTrb
  eventRingPhys : Nat
  eventIndex : Nat
  eventCycle : Nat
  erdp : Nat

namespace EventRing

def init (eventRingPhys : Nat) : EventRing where
  eventRing _ := ⟨0, 0, 0⟩
  eventRingPhys := eventRingPhys
  eventIndex := 0
  eventCycle := 1
  erdp := eventRingPhys

-- The test of xhci_next_event for an event at the index.
def fresh (r : EventRing) : Bool := (r.eventRing r.eventIndex).control &&& 1 == r.eventCycle

-- What it does when there is one.
def advance (r : EventRing) : EventRing :=
  let eventIndex := if r.eventIndex + 1 = trbsPerPage then 0 else r.eventIndex + 1
  { r with
    eventIndex
    eventCycle := if r.eventIndex + 1 = trbsPerPage then r.eventCycle ^^^ 1 else r.eventCycle
    erdp := r.eventRingPhys + eventIndex * sizeofXhciTrb ||| 1 <<< 3 }

-- The TRB that ERDP points to. Its lowest four bits are flags.
def dequeueIndex (r : EventRing) : Nat :=
  (r.erdp >>> 4) - (r.eventRingPhys >>> 4)

theorem advance_dequeueIndex (r : EventRing) : r.advance.dequeueIndex = r.advance.eventIndex := by
  have hptr : ∀ index, (r.eventRingPhys + index * sizeofXhciTrb ||| 1 <<< 3) >>> 4 =
      (r.eventRingPhys >>> 4) + index := by
    intro index
    rw [Nat.shiftRight_or_distrib, show (1 <<< 3) >>> 4 = 0 from rfl, Nat.or_zero,
      Nat.shiftRight_eq_div_pow, Nat.shiftRight_eq_div_pow]
    exact Nat.add_mul_div_right _ _ (Nat.two_pow_pos 4)
  simp only [dequeueIndex, advance, hptr, Nat.add_sub_cancel_left]

end EventRing

end AosKernel.Usb
