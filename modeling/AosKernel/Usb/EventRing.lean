import AosKernel.Lib.Trace
import AosKernel.Usb.Xhci

namespace AosKernel.Usb

open Verif

-- Where a call of xhci_next_event is: behind the test of the cycle bit, and
-- behind the write to ERDP, on its way out with a pointer to a TRB.
inductive NextEventCall
  | idle
  | found
  | leaving (trb : Nat)
  deriving DecidableEq

-- The event ring between the driver and a controller. `enqueue` and `pcs` are the
-- controller's index and cycle state. The rest are histories: how many TRBs lie
-- before the dequeue pointer last written to ERDP, the events posted, and the
-- values of the TRBs returned, each as it was when the call returned.
structure EventState where
  ring : EventRing
  call : NextEventCall
  enqueue : Nat
  pcs : Bool
  released : Nat
  posted : List XhciTrb
  returned : List XhciTrb

inductive EventAction
  | post (param status control : Nat)
  | test
  | advance
  | finish

namespace EventState

def setup (eventRingPhys : Nat) : EventState where
  ring := EventRing.init eventRingPhys
  call := .idle
  enqueue := 0
  pcs := true
  released := 0
  posted := []
  returned := []

-- The controller's event, with its cycle state for the lowest bit of the control
-- word.
def event (s : EventState) (param status control : Nat) : XhciTrb :=
  ⟨param, status, 2 * control + s.pcs.toNat⟩

def post (s : EventState) (trb : XhciTrb) : EventState :=
  { s with
    ring := { s.ring with eventRing := Function.update s.ring.eventRing s.enqueue trb }
    enqueue := Ring.next trbsPerPage s.enqueue
    pcs := if s.enqueue + 1 ≥ trbsPerPage then !s.pcs else s.pcs
    posted := s.posted ++ [trb] }

end EventState

-- The controller may post whenever there is a TRB before the dequeue pointer, in
-- the middle of a call too; the TRB a call has just released it leaves alone
-- until the call has returned. (A controller that keeps a TRB free, so that a full
-- ring does not look like an empty one, never comes to that TRB.)
inductive EventStep (s : EventState) : EventAction → EventState → Prop
  | post {param status control} (hroom : s.posted.length < s.released + trbsPerPage)
      (hleaving : ∀ trb, s.call = .leaving trb → s.enqueue ≠ trb) :
      EventStep s (.post param status control) (s.post (s.event param status control))
  | test (hcall : s.call = .idle) :
      EventStep s .test { s with call := if s.ring.fresh then .found else .idle }
  | advance (hcall : s.call = .found) :
      EventStep s .advance { s with
        ring := s.ring.advance
        call := .leaving s.ring.eventIndex
        released := s.released + 1 }
  | finish {trb} (hcall : s.call = .leaving trb) :
      EventStep s .finish { s with
        call := .idle
        returned := s.returned ++ [s.ring.eventRing trb] }

namespace EventState

-- How many TRBs the driver has released, and which it is about to return.
def CallInv (s : EventState) : Prop :=
  match s.call with
  | .idle => s.released = s.returned.length
  | .found => s.released = s.returned.length ∧ s.returned.length < s.posted.length
  | .leaving trb => s.released = s.returned.length + 1 ∧ s.returned.length < s.posted.length ∧
      trb = s.returned.length % trbsPerPage

structure Inv (s : EventState) : Prop where
  ring : Ring.Marked trbsPerPage XhciTrb.cycle s.ring.eventRing s.posted s.returned.length
  enqueue : s.enqueue = s.posted.length % trbsPerPage
  pcs : s.pcs = Ring.lap trbsPerPage s.posted.length
  index : s.ring.eventIndex = s.released % trbsPerPage
  cycle : s.ring.eventCycle = (Ring.lap trbsPerPage s.released).toNat
  dequeue : s.ring.dequeueIndex = s.released % trbsPerPage
  call : CallInv s
  order : s.returned <+: s.posted

section Steps

variable {s t : EventState}

theorem trbsPerPage_pos : 0 < trbsPerPage := by decide

theorem setup_inv (eventRingPhys : Nat) : Inv (setup eventRingPhys) := by
  refine ⟨.nil fun _ _ => (by decide : XhciTrb.cycle ⟨0, 0, 0⟩ = false), rfl, ?_, rfl, ?_, ?_, rfl,
    List.prefix_rfl⟩
  · exact Ring.lap_zero.symm
  · rw [setup, Ring.lap_zero]
    rfl
  · exact Nat.sub_self _

theorem cycle_event (s : EventState) (param status control : Nat) :
    (s.event param status control).cycle = s.pcs := by
  have hbit : (2 * control + s.pcs.toNat) &&& 1 = s.pcs.toNat := by
    rw [Nat.and_one_is_mod, Nat.mul_add_mod]
    cases s.pcs <;> rfl
  simp only [XhciTrb.cycle, event, hbit]
  cases s.pcs <;> rfl

-- The test finds an event exactly if there is one before those released.
theorem Inv.fresh_iff (h : Inv s) (hreleased : s.released = s.returned.length) :
    s.ring.fresh = true ↔ s.returned.length < s.posted.length := by
  rw [← h.ring.bit_iff trbsPerPage_pos, EventRing.fresh, h.cycle, h.index, hreleased, beq_iff_eq,
    XhciTrb.cycle]
  have hbit := Nat.and_one_is_mod (s.ring.eventRing (s.returned.length % trbsPerPage)).control
  obtain hzero | hone := Nat.mod_two_eq_zero_or_one
    (s.ring.eventRing (s.returned.length % trbsPerPage)).control
  · rw [hbit, hzero]
    cases Ring.lap trbsPerPage s.returned.length <;> simp
  · rw [hbit, hone]
    cases Ring.lap trbsPerPage s.returned.length <;> simp

theorem Inv.post (h : Inv s) (hroom : s.posted.length < s.released + trbsPerPage)
    (hleaving : ∀ trb, s.call = .leaving trb → s.enqueue ≠ trb) (param status control : Nat) :
    Inv (s.post (s.event param status control)) := by
  have hfree : s.posted.length < s.returned.length + trbsPerPage := by
    have hcall := h.call
    unfold CallInv at hcall
    split at hcall
    · omega
    · omega
    · rename_i trb heq
      obtain ⟨hreleased, hlt, htrb⟩ := hcall
      have hne := hleaving trb heq
      rw [h.enqueue, htrb] at hne
      have hother : s.posted.length ≠ s.returned.length + trbsPerPage := by
        intro hsame
        rw [hsame, Nat.add_mod_right] at hne
        exact hne rfl
      omega
  refine ⟨?_, ?_, ?_, h.index, h.cycle, h.dequeue, ?_, h.order.trans (List.prefix_append _ _)⟩
  · have hpush := h.ring.push hfree (a := s.event param status control)
      (by rw [cycle_event, h.pcs])
    rwa [← h.enqueue] at hpush
  · simp only [EventState.post, List.length_append, List.length_singleton]
    rw [← Ring.next_mod trbsPerPage_pos, ← h.enqueue]
  · simp only [EventState.post, List.length_append, List.length_singleton]
    rw [Ring.lap_succ trbsPerPage_pos, ← h.enqueue, ← h.pcs]
  · have hcall := h.call
    unfold CallInv at hcall ⊢
    simp only [EventState.post, List.length_append, List.length_singleton]
    cases hphase : s.call with
    | idle =>
        rw [hphase] at hcall
        exact hcall
    | found =>
        rw [hphase] at hcall
        exact ⟨hcall.1, Nat.lt_succ_of_lt hcall.2⟩
    | leaving trb =>
        rw [hphase] at hcall
        exact ⟨hcall.1, Nat.lt_succ_of_lt hcall.2.1, hcall.2.2⟩

theorem Inv.step {a : EventAction} (h : Inv s) (hs : EventStep s a t) : Inv t := by
  have hcall := h.call
  cases hs with
  | post hroom hleaving => exact h.post hroom hleaving _ _ _
  | test hidle =>
      rw [CallInv, hidle] at hcall
      refine ⟨h.ring, h.enqueue, h.pcs, h.index, h.cycle, h.dequeue, ?_, h.order⟩
      cases hfresh : s.ring.fresh with
      | false => exact hcall
      | true => exact ⟨hcall, (h.fresh_iff hcall).mp hfresh⟩
  | advance hfound =>
      rw [CallInv, hfound] at hcall
      obtain ⟨hreleased, hlt⟩ := hcall
      have hend : s.ring.eventIndex + 1 = trbsPerPage ↔ s.ring.eventIndex + 1 ≥ trbsPerPage :=
        Ring.eq_iff_ge (h.index ▸ Nat.mod_lt _ trbsPerPage_pos)
      have hnext : s.ring.advance.eventIndex = (s.released + 1) % trbsPerPage := by
        simp only [EventRing.advance, hend]
        rw [← Ring.next_mod trbsPerPage_pos, ← h.index]
        rfl
      refine ⟨h.ring, h.enqueue, h.pcs, hnext, ?_, ?_, ⟨by rw [← hreleased], hlt, ?_⟩, h.order⟩
      · simp only [EventRing.advance, hend]
        rw [Ring.lap_succ trbsPerPage_pos, ← h.index, h.cycle]
        cases Ring.lap trbsPerPage s.released <;> split <;> rfl
      · rw [EventRing.advance_dequeueIndex, hnext]
      · rw [h.index, hreleased]
  | @finish trb hleaving =>
      rw [CallInv, hleaving] at hcall
      obtain ⟨hreleased, hlt, rfl⟩ := hcall
      have hfront := h.ring.front hlt
      refine ⟨?_, h.enqueue, h.pcs, h.index, h.cycle, h.dequeue, ?_, ?_⟩
      · rw [List.length_append, List.length_singleton]
        exact h.ring.pop hlt
      · rw [CallInv, List.length_append]
        exact hreleased
      · exact Ring.prefix_snoc h.order hfront

end Steps

end EventState

end AosKernel.Usb
