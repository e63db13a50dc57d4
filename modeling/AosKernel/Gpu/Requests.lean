import AosKernel.Lib.Trace
import AosKernel.Gpu.Virtqueue

namespace AosKernel.Gpu

open Verif

def MAX_CMD_RESP_BUFS : Nat := 16

-- A chain that the driver has made available. `tag` is a history: chains are
-- numbered in the order in which they are sent.
structure Chain where
  tag : Nat
  slot : Nat
  head : Nat
  deriving DecidableEq

-- Where a caller is: with a slot from wait_for_free_buf, and then in
-- virtio_submit_sync after virtio_send_ex, after the write to desc_to_buf, in
-- the wait loop of virtqueue_wait_complete_sync with the slot it has looked
-- up, and behind that loop.
inductive SubmitPhase
  | idle
  | holding (slot : Nat)
  | sent (c : Chain)
  | mapped (c : Chain)
  | polling (c : Chain) (pbufSlot timeout : Nat)
  | retiring (c : Chain) (pbufSlot : Nat)
  deriving DecidableEq

-- A virtio_controller with its queue and buffers set up, and its callers.
-- The rest are histories: how many chains have been sent, those the device
-- has not completed, and the tags of those it has completed and of those
-- whose calls have returned TRUE.
structure Controller where
  virtq : Virtqueue
  cmdBufPhys : Nat → Nat
  respBufPhys : Nat → Nat
  bufBusy : Nat → Bool
  descToBuf : Nat → Nat
  now : Nat
  calls : Nat → SubmitPhase
  sends : Nat
  inFlight : List Chain
  completed : List Nat
  succeeded : List Nat

namespace Controller

def setCall (s : Controller) (k : Nat) (ph : SubmitPhase) : Controller :=
  { s with calls := Function.update s.calls k ph }

def setBusy (s : Controller) (slot : Nat) (busy : Bool) : Controller :=
  { s with bufBusy := Function.update s.bufBusy slot busy }

def requestDescs (s : Controller) (slot cmdSize respSize : Nat) : List VirtqDesc :=
  [⟨s.cmdBufPhys slot, cmdSize, VIRTQ_DESC_F_NEXT, 0⟩,
    ⟨s.respBufPhys slot, respSize, VIRTQ_DESC_F_WRITE, noDesc⟩]

-- virtio_send_ex in virtio_submit_sync. If it fails the call returns FALSE.
def send (s : Controller) (k slot cmdSize respSize : Nat) : Controller :=
  let (vq, sent) := s.virtq.sendEx (s.requestDescs slot cmdSize respSize)
  match sent with
  | none => { s.setCall k .idle with virtq := vq }
  | some head =>
      let c : Chain := ⟨s.sends + 1, slot, head⟩
      { s.setCall k (.sent c) with virtq := vq, sends := s.sends + 1, inFlight := c :: s.inFlight }

def mapBuf (s : Controller) (k : Nat) (c : Chain) : Controller :=
  { s.setCall k (.mapped c) with descToBuf := Function.update s.descToBuf c.head c.slot }

-- The beginning of virtqueue_wait_complete_sync.
def lookUp (s : Controller) (k : Nat) (c : Chain) : Controller :=
  let pbufSlot := s.descToBuf s.virtq.lastHead
  let s := s.setCall k (.polling c pbufSlot s.now)
  if pbufSlot < MAX_CMD_RESP_BUFS then s.setBusy pbufSlot true else s

-- A turn of its wait loop.
def poll (s : Controller) (k : Nat) (c : Chain) (pbufSlot timeout : Nat) : Controller :=
  if s.virtq.usedIdx = s.virtq.lastUsedIdx then
    if s.now - timeout ≥ 10000 then s.setCall k .idle else s
  else s.setCall k (.retiring c pbufSlot)

-- The rest of it, under virtq_lock. The walk before the loop changes nothing.
def retireAll (s : Controller) (k : Nat) (c : Chain) (pbufSlot : Nat) : Controller :=
  let s := { s.setCall k .idle with virtq := s.virtq.retire, succeeded := c.tag :: s.succeeded }
  if pbufSlot < MAX_CMD_RESP_BUFS then s.setBusy pbufSlot false else s

def complete (s : Controller) (c : Chain) : Controller :=
  { s with
    virtq := s.virtq.complete c.head
    inFlight := s.inFlight.filter (·.tag ≠ c.tag)
    completed := c.tag :: s.completed }

end Controller

-- `take` is wait_for_free_buf, which comes by the slot when it is free.
inductive RequestAction
  | take (k slot : Nat)
  | send (k cmdSize respSize : Nat)
  | mapBuf (k : Nat)
  | lookUp (k : Nat)
  | poll (k : Nat)
  | retire (k : Nat)
  | complete (c : Chain)
  | tick (ms : Nat)

-- The steps of the callers and the device. Without a command core
-- virtio_submit_async takes the steps of virtio_submit_sync.
inductive RequestStep (s : Controller) : RequestAction → Controller → Prop
  | take {k slot} (hidle : s.calls k = .idle) (hslot : slot < MAX_CMD_RESP_BUFS)
      (hfree : s.bufBusy slot = false) :
      RequestStep s (.take k slot) ((s.setBusy slot true).setCall k (.holding slot))
  | send {k slot cmdSize respSize} (hphase : s.calls k = .holding slot) :
      RequestStep s (.send k cmdSize respSize) (s.send k slot cmdSize respSize)
  | mapBuf {k c} (hphase : s.calls k = .sent c) : RequestStep s (.mapBuf k) (s.mapBuf k c)
  | lookUp {k c} (hphase : s.calls k = .mapped c) : RequestStep s (.lookUp k) (s.lookUp k c)
  | poll {k c pbufSlot timeout} (hphase : s.calls k = .polling c pbufSlot timeout) :
      RequestStep s (.poll k) (s.poll k c pbufSlot timeout)
  | retire {k c pbufSlot} (hphase : s.calls k = .retiring c pbufSlot) :
      RequestStep s (.retire k) (s.retireAll k c pbufSlot)
  | complete {c} (hc : c ∈ s.inFlight) : RequestStep s (.complete c) (s.complete c)
  | tick {ms} : RequestStep s (.tick ms) { s with now := s.now + ms }

-- The chain whose completion the call waits for.
def SubmitPhase.chain : SubmitPhase → Option Chain
  | .idle | .holding _ => none
  | .sent c | .mapped c | .polling c _ _ | .retiring c _ => some c

def SubmitPhase.slot : SubmitPhase → Option Nat
  | .idle => none
  | .holding slot => some slot
  | .sent c | .mapped c | .polling c _ _ | .retiring c _ => some c.slot

@[simp] theorem slot_idle : SubmitPhase.idle.slot = none := rfl

@[simp] theorem chain_idle : SubmitPhase.idle.chain = none := rfl

-- A call that has returned TRUE had its own chain completed, and the slot of a
-- chain in flight is busy.
structure Correlated (s : Controller) : Prop where
  own : ∀ tag ∈ s.succeeded, tag ∈ s.completed
  busy : ∀ c ∈ s.inFlight, s.bufBusy c.slot = true

-- A request is sent when no other call waits, and when avail->idx does not
-- wrap to 0, or the slot is found there all the same; and the device completes
-- no chain whose call has given it up.
def Orderly (s : Controller) : RequestAction → Prop
  | .send k _ _ => (∀ k', (s.calls k').chain = none) ∧
      (s.virtq.availIdx = 2 ^ 16 - 1 → s.virtq.freeHead = 0 ∨
        (s.calls k).slot = some (s.descToBuf 0))
  | .complete c => ∃ k, (s.calls k).chain = some c
  | _ => True

-- Nothing has been sent, and no slot is in use.
structure Unused (s : Controller) : Prop where
  idle : ∀ k, s.calls k = .idle
  inFlight : s.inFlight = []
  completed : s.completed = []
  succeeded : s.succeeded = []
  free : ∀ slot, s.bufBusy slot = false
  availIdx : s.virtq.availIdx < 2 ^ 16
  usedIdx : s.virtq.usedIdx < 2 ^ 16
  used : s.virtq.lastUsedIdx = s.virtq.usedIdx

-- The slot that the call looks up, or has looked up, is its own, and it has
-- left the wait loop only for its own chain.
def FindsOwn (s : Controller) : SubmitPhase → Prop
  | .idle | .holding _ => True
  | .sent c => s.virtq.lastHead = c.head ∨ s.descToBuf s.virtq.lastHead = c.slot
  | .mapped c => s.descToBuf s.virtq.lastHead = c.slot
  | .polling c pbufSlot _ => pbufSlot = c.slot
  | .retiring c pbufSlot => pbufSlot = c.slot ∧ c.tag ∈ s.completed

-- The calls and the chains in flight, each with its slot.
structure SlotsApart (s : Controller) : Prop where
  range : ∀ k slot, (s.calls k).slot = some slot → slot < MAX_CMD_RESP_BUFS
  held : ∀ k slot, (s.calls k).slot = some slot → s.bufBusy slot = true
  calls : ∀ k k' slot, (s.calls k).slot = some slot → (s.calls k').slot = some slot → k = k'
  busy : ∀ c ∈ s.inFlight, s.bufBusy c.slot = true
  chains : ∀ c ∈ s.inFlight, ∀ k, (s.calls k).slot = some c.slot → (s.calls k).chain = some c
  unique : ∀ c ∈ s.inFlight, ∀ c' ∈ s.inFlight, c.slot = c'.slot → c = c'

-- The tags, and the indices of the used ring.
structure RingInv (s : Controller) : Prop where
  sends : ∀ c ∈ s.inFlight, c.tag ≤ s.sends
  done : ∀ tag ∈ s.completed, tag ≤ s.sends
  tags : ∀ c ∈ s.inFlight, ∀ c' ∈ s.inFlight, c.tag = c'.tag → c = c'
  pending : ∀ c ∈ s.inFlight, c.tag ∉ s.completed
  availIdx : s.virtq.availIdx < 2 ^ 16
  usedIdx : s.virtq.usedIdx < 2 ^ 16
  lastUsedIdx : s.virtq.lastUsedIdx < 2 ^ 16

-- At most one call waits, and nothing is left in the used ring but its chain.
structure WaitInv (s : Controller) : Prop where
  alone : ∀ k k' c c', (s.calls k).chain = some c → (s.calls k').chain = some c' → k = k'
  quiet : (∀ k, (s.calls k).chain = none) → s.virtq.usedIdx = s.virtq.lastUsedIdx
  waits : ∀ k c, (s.calls k).chain = some c →
    c ∈ s.inFlight ∧ s.virtq.usedIdx = s.virtq.lastUsedIdx ∨
      c.tag ∈ s.completed ∧ s.virtq.usedIdx ≠ s.virtq.lastUsedIdx
  finds : ∀ k, FindsOwn s (s.calls k)

structure RequestInv (s : Controller) : Prop where
  slots : SlotsApart s
  ring : RingInv s
  wait : WaitInv s
  own : ∀ tag ∈ s.succeeded, tag ∈ s.completed

theorem RequestInv.correlated {s : Controller} (h : RequestInv s) : Correlated s :=
  ⟨h.own, h.slots.busy⟩

theorem Unused.inv {s : Controller} (h : Unused s) : RequestInv s := by
  refine ⟨⟨?_, ?_, ?_, ?_, ?_, ?_⟩, ⟨?_, ?_, ?_, ?_, h.availIdx, h.usedIdx, h.used ▸ h.usedIdx⟩,
    ⟨?_, fun _ => h.used.symm, ?_, ?_⟩, ?_⟩
  all_goals simp [h.inFlight, h.completed, h.succeeded, h.idle, FindsOwn]

section Steps

variable {s t : Controller} {k slot : Nat} {c : Chain} {ph : SubmitPhase}

theorem setCall_slot_self : ((s.setCall k ph).calls k).slot = ph.slot := by
  simp [Controller.setCall]

theorem setCall_slot_of_ne {k' : Nat} (h : k' ≠ k) :
    ((s.setCall k ph).calls k') = s.calls k' := by
  simp [Controller.setCall, h]

-- The slots are apart as long as the calls keep slots and chains.
theorem SlotsApart.congr (h : SlotsApart s) (hslot : ∀ k, (t.calls k).slot = (s.calls k).slot)
    (hchain : ∀ k, (t.calls k).chain = (s.calls k).chain) (hbusy : t.bufBusy = s.bufBusy)
    (hflight : t.inFlight = s.inFlight) : SlotsApart t := by
  refine ⟨?_, ?_, ?_, ?_, ?_, ?_⟩
  · simpa only [hslot] using h.range
  · simpa only [hslot, hbusy] using h.held
  · simpa only [hslot] using h.calls
  · simpa only [hflight, hbusy] using h.busy
  · simpa only [hflight, hslot, hchain] using h.chains
  · simpa only [hflight] using h.unique

-- A call ends.
theorem SlotsApart.drop (h : SlotsApart s) (k : Nat) (hcalls : t.calls = Function.update s.calls k .idle)
    (hbusy : t.bufBusy = s.bufBusy) (hflight : t.inFlight = s.inFlight) : SlotsApart t := by
  have hslot : ∀ k' slot, (t.calls k').slot = some slot → k' ≠ k ∧ t.calls k' = s.calls k' := by
    intro k' slot hk'
    rw [hcalls] at hk' ⊢
    by_cases hk : k' = k
    · subst hk
      rw [Function.update_self] at hk'
      cases hk'
    · exact ⟨hk, Function.update_of_ne hk ..⟩
  refine ⟨fun k' slot hk' => ?_, fun k' slot hk' => ?_, fun k' k'' slot hk' hk'' => ?_, ?_,
    fun c hc k' hk' => ?_, ?_⟩
  · exact h.range k' slot ((hslot k' slot hk').2 ▸ hk')
  · exact hbusy ▸ h.held k' slot ((hslot k' slot hk').2 ▸ hk')
  · exact h.calls k' k'' slot ((hslot k' slot hk').2 ▸ hk') ((hslot k'' slot hk'').2 ▸ hk'')
  · rw [hflight, hbusy]
    exact h.busy
  · rw [hflight] at hc
    have hsame := (hslot k' _ hk').2
    rw [hsame] at hk' ⊢
    exact h.chains c hc k' hk'
  · rw [hflight]
    exact h.unique

-- A slot is released that no call and no chain in flight has.
theorem SlotsApart.release (h : SlotsApart s) (hcalls : ∀ k, (s.calls k).slot ≠ some slot)
    (hflight : ∀ c ∈ s.inFlight, c.slot ≠ slot) : SlotsApart (s.setBusy slot false) := by
  refine ⟨h.range, fun k slot' hk => ?_, h.calls, fun c hc => ?_, h.chains, h.unique⟩
  · have hne : slot' ≠ slot := fun heq => hcalls k (heq ▸ hk)
    exact (Function.update_of_ne hne ..).trans (h.held k slot' hk)
  · exact (Function.update_of_ne (hflight c hc) ..).trans (h.busy c hc)

theorem SlotsApart.take (h : SlotsApart s) (hidle : s.calls k = .idle)
    (hrange : slot < MAX_CMD_RESP_BUFS) (hfree : s.bufBusy slot = false) :
    SlotsApart ((s.setBusy slot true).setCall k (.holding slot)) := by
  have hbusy {slot' : Nat} (hb : s.bufBusy slot' = true) :
      slot' ≠ slot ∧ ((s.setBusy slot true).setCall k (.holding slot)).bufBusy slot' = true := by
    have hne : slot' ≠ slot := by
      rintro rfl
      simp [hfree] at hb
    exact ⟨hne, (Function.update_of_ne hne ..).trans hb⟩
  have hcases (k' slot' : Nat)
      (hk' : (((s.setBusy slot true).setCall k (.holding slot)).calls k').slot = some slot') :
      k' = k ∧ slot' = slot ∨ k' ≠ k ∧ (s.calls k').slot = some slot' := by
    by_cases hk : k' = k
    · subst hk
      rw [setCall_slot_self] at hk'
      exact .inl ⟨rfl, (Option.some_inj.mp hk').symm⟩
    · rw [setCall_slot_of_ne hk] at hk'
      exact .inr ⟨hk, hk'⟩
  refine ⟨fun k' slot' hk' => ?_, fun k' slot' hk' => ?_, fun k' k'' slot' hk' hk'' => ?_,
    fun c hc => (hbusy (h.busy c hc)).2, fun c hc k' hk' => ?_, h.unique⟩
  · obtain ⟨-, rfl⟩ | ⟨-, hs⟩ := hcases k' slot' hk'
    · exact hrange
    · exact h.range k' slot' hs
  · obtain ⟨-, rfl⟩ | ⟨-, hs⟩ := hcases k' slot' hk'
    · exact Function.update_self ..
    · exact (hbusy (h.held k' slot' hs)).2
  · obtain ⟨hk, heq⟩ | ⟨-, hs⟩ := hcases k' slot' hk'
    · obtain ⟨hk₂, -⟩ | ⟨-, hs₂⟩ := hcases k'' slot' hk''
      · rw [hk, hk₂]
      · exact absurd heq (hbusy (h.held k'' slot' hs₂)).1
    · obtain ⟨-, heq⟩ | ⟨-, hs₂⟩ := hcases k'' slot' hk''
      · exact absurd heq (hbusy (h.held k' slot' hs)).1
      · exact h.calls k' k'' slot' hs hs₂
  · obtain ⟨-, heq⟩ | ⟨hne, hs⟩ := hcases k' c.slot hk'
    · exact absurd heq (hbusy (h.busy c hc)).1
    · rw [setCall_slot_of_ne hne]
      exact h.chains c hc k' hs

-- A call sends its chain.
theorem SlotsApart.send (h : SlotsApart s) (hphase : s.calls k = .holding c.slot)
    (hcalls : t.calls = Function.update s.calls k (.sent c)) (hbusy : t.bufBusy = s.bufBusy)
    (hflight : t.inFlight = c :: s.inFlight) : SlotsApart t := by
  have hown : (s.calls k).slot = some c.slot := by rw [hphase]; rfl
  have hchain : (s.calls k).chain = none := by rw [hphase]; rfl
  have hslot (k' : Nat) : (t.calls k').slot = (s.calls k').slot := by
    rw [hcalls]
    by_cases hk : k' = k
    · subst hk
      rw [Function.update_self, hown]
      rfl
    · rw [Function.update_of_ne hk]
  have hother (c' : Chain) (hc' : c' ∈ s.inFlight) : c'.slot ≠ c.slot := by
    intro heq
    have := h.chains c' hc' k (hown.trans (congrArg some heq.symm))
    rw [hchain] at this
    cases this
  refine ⟨?_, ?_, ?_, ?_, fun c' hc' k' hk' => ?_, ?_⟩
  · simpa only [hslot] using h.range
  · simpa only [hslot, hbusy] using h.held
  · simpa only [hslot] using h.calls
  · rw [hflight, hbusy, List.forall_mem_cons]
    exact ⟨h.held k c.slot hown, h.busy⟩
  · rw [hslot] at hk'
    rw [hflight, List.mem_cons] at hc'
    obtain rfl | hc' := hc'
    · rw [h.calls k' k c'.slot hk' hown, hcalls, Function.update_self]
      rfl
    · have hk : k' ≠ k := by
        rintro rfl
        rw [hown, Option.some_inj] at hk'
        exact hother c' hc' hk'.symm
      rw [hcalls, Function.update_of_ne hk]
      exact h.chains c' hc' k' hk'
  · rw [hflight]
    intro c₁ h₁ c₂ h₂ heq
    obtain hc₁ | hc₁ := List.mem_cons.mp h₁
    · obtain hc₂ | hc₂ := List.mem_cons.mp h₂
      · rw [hc₁, hc₂]
      · exact absurd (hc₁ ▸ heq.symm) (hother c₂ hc₂)
    · obtain hc₂ | hc₂ := List.mem_cons.mp h₂
      · exact absurd (hc₂ ▸ heq) (hother c₁ hc₁)
      · exact h.unique c₁ hc₁ c₂ hc₂ heq

theorem SlotsApart.complete (h : SlotsApart s) (c : Chain) : SlotsApart (s.complete c) := by
  have hmem {c' : Chain} (hc' : c' ∈ (s.complete c).inFlight) : c' ∈ s.inFlight :=
    List.mem_of_mem_filter hc'
  exact ⟨h.range, h.held, h.calls, fun c' hc' => h.busy c' (hmem hc'),
    fun c' hc' => h.chains c' (hmem hc'),
    fun c₁ hc₁ c₂ hc₂ => h.unique c₁ (hmem hc₁) c₂ (hmem hc₂)⟩

-- What the tags and the indices of the rings depend on.
theorem RingInv.congr (h : RingInv s) (hvirtq : t.virtq = s.virtq) (hsends : t.sends = s.sends)
    (hflight : t.inFlight = s.inFlight) (hcompleted : t.completed = s.completed) : RingInv t := by
  obtain ⟨h₁, h₂, h₃, h₄, h₅, h₆, h₇⟩ := h
  exact ⟨by rwa [hflight, hsends], by rwa [hcompleted, hsends], by rwa [hflight],
    by rwa [hflight, hcompleted], by rwa [hvirtq], by rwa [hvirtq], by rwa [hvirtq]⟩

theorem RingInv.complete (h : RingInv s) (hc : c ∈ s.inFlight) : RingInv (s.complete c) := by
  have hmem {c' : Chain} (hc' : c' ∈ (s.complete c).inFlight) : c' ∈ s.inFlight ∧ c'.tag ≠ c.tag := by
    simpa [Controller.complete] using hc'
  refine ⟨fun c' hc' => h.sends c' (hmem hc').1, ?_,
    fun c₁ hc₁ c₂ hc₂ => h.tags c₁ (hmem hc₁).1 c₂ (hmem hc₂).1, fun c' hc' => ?_, h.availIdx,
    Virtqueue.nextIdx_lt _, h.lastUsedIdx⟩
  · simp only [Controller.complete, List.forall_mem_cons]
    exact ⟨h.sends c hc, h.done⟩
  · obtain ⟨hc', hne⟩ := hmem hc'
    simp only [Controller.complete, List.mem_cons, not_or]
    exact ⟨hne, h.pending c' hc'⟩

theorem RingInv.send (h : RingInv s) (htag : c.tag = s.sends + 1) (hsends : t.sends = s.sends + 1)
    (hflight : t.inFlight = c :: s.inFlight) (hcompleted : t.completed = s.completed)
    (havail : t.virtq.availIdx < 2 ^ 16) (hused : t.virtq.usedIdx < 2 ^ 16)
    (hlast : t.virtq.lastUsedIdx < 2 ^ 16) : RingInv t := by
  have hnew {c' : Chain} (hc' : c' ∈ s.inFlight) : c'.tag ≠ c.tag := by
    have := h.sends c' hc'
    omega
  refine ⟨?_, fun tag htag' => ?_, ?_, ?_, havail, hused, hlast⟩
  · rw [hflight, hsends, List.forall_mem_cons]
    exact ⟨Nat.le_of_eq htag, fun c' hc' => Nat.le_succ_of_le (h.sends c' hc')⟩
  · rw [hcompleted] at htag'
    rw [hsends]
    exact Nat.le_succ_of_le (h.done tag htag')
  · rw [hflight]
    intro c₁ h₁ c₂ h₂ heq
    obtain hc₁ | hc₁ := List.mem_cons.mp h₁
    · obtain hc₂ | hc₂ := List.mem_cons.mp h₂
      · rw [hc₁, hc₂]
      · exact absurd (hc₁ ▸ heq.symm) (hnew hc₂)
    · obtain hc₂ | hc₂ := List.mem_cons.mp h₂
      · exact absurd (hc₂ ▸ heq) (hnew hc₁)
      · exact h.tags c₁ hc₁ c₂ hc₂ heq
  · rw [hflight, hcompleted, List.forall_mem_cons]
    refine ⟨fun hdone => ?_, h.pending⟩
    have := h.done c.tag hdone
    omega

-- The call of a chain that waits goes on; nothing else changes that a call
-- depends on.
theorem WaitInv.step (h : WaitInv s) (hphase : (s.calls k).chain = some c)
    (hcalls : t.calls = Function.update s.calls k ph) (hchain : ph.chain = some c)
    (hvirtq : t.virtq = s.virtq) (hflight : t.inFlight = s.inFlight)
    (hcompleted : t.completed = s.completed) (hfinds : FindsOwn t ph) : WaitInv t := by
  have hsame (k' : Nat) : (t.calls k').chain = (s.calls k').chain := by
    rw [hcalls]
    by_cases hk : k' = k
    · subst hk
      rw [Function.update_self, hchain, hphase]
    · rw [Function.update_of_ne hk]
  refine ⟨?_, ?_, ?_, fun k' => ?_⟩
  · simpa only [hsame] using h.alone
  · simpa only [hsame, hvirtq] using h.quiet
  · simpa only [hsame, hvirtq, hflight, hcompleted] using h.waits
  · rw [hcalls]
    by_cases hk : k' = k
    · subst hk
      rwa [Function.update_self]
    · rw [Function.update_of_ne hk]
      cases hk' : s.calls k' with
      | idle | holding slot => trivial
      | sent c' | mapped c' | polling c' pbufSlot timeout | retiring c' pbufSlot =>
          exact absurd (h.alone k' k c' c (by rw [hk']; rfl) hphase) hk

-- A call that waits for nothing comes or goes.
theorem WaitInv.other (h : WaitInv s) (hcalls : t.calls = Function.update s.calls k ph)
    (hbefore : (s.calls k).chain = none) (hafter : ph.chain = none) (hused : t.virtq = s.virtq)
    (hmap : t.descToBuf = s.descToBuf) (hflight : t.inFlight = s.inFlight)
    (hcompleted : t.completed = s.completed) : WaitInv t := by
  have hsame (k' : Nat) : (t.calls k').chain = (s.calls k').chain := by
    rw [hcalls]
    by_cases hk : k' = k
    · subst hk
      rw [Function.update_self, hbefore, hafter]
    · rw [Function.update_of_ne hk]
  have hfinds {ph' : SubmitPhase} (hph : FindsOwn s ph') : FindsOwn t ph' := by
    cases ph' with
    | idle | holding slot => trivial
    | sent c | mapped c | retiring c pbufSlot =>
        simpa only [FindsOwn, hused, hmap, hcompleted] using hph
    | polling c pbufSlot timeout => exact hph
  refine ⟨?_, ?_, ?_, fun k' => ?_⟩
  · simpa only [hsame] using h.alone
  · simpa only [hsame, hused] using h.quiet
  · simpa only [hsame, hused, hflight, hcompleted] using h.waits
  · rw [hcalls]
    by_cases hk : k' = k
    · subst hk
      rw [Function.update_self]
      cases ph with
      | idle | holding slot => trivial
      | sent c | mapped c | polling c pbufSlot timeout | retiring c pbufSlot => cases hafter
    · rw [Function.update_of_ne hk]
      exact hfinds (h.finds k')

theorem WaitInv.of_quiet (hnone : ∀ k, (s.calls k).chain = none)
    (hused : s.virtq.usedIdx = s.virtq.lastUsedIdx) : WaitInv s := by
  refine ⟨fun k' _ c' _ hc' => ?_, fun _ => hused, fun k' c' hc' => ?_, fun k' => ?_⟩
  · rw [hnone] at hc'
    cases hc'
  · rw [hnone] at hc'
    cases hc'
  · have := hnone k'
    cases hk' : s.calls k' with
    | idle | holding slot => trivial
    | sent c | mapped c | polling c pbufSlot timeout | retiring c pbufSlot =>
        rw [hk'] at this
        cases this

-- The only call that waits ends.
theorem WaitInv.ended (h : WaitInv s) (hphase : (s.calls k).chain = some c) (k' : Nat) :
    (Function.update s.calls k .idle k').chain = none := by
  by_cases hk : k' = k
  · subst hk
    rw [Function.update_self, chain_idle]
  · rw [Function.update_of_ne hk, Option.eq_none_iff_forall_ne_some]
    exact fun c' hc' => hk (h.alone k' k c' c hc' hphase)

-- A chain is sent while no call waits.
theorem WaitInv.send (h : WaitInv s) (hnone : ∀ k, (s.calls k).chain = none)
    (hcalls : t.calls = Function.update s.calls k (.sent c)) (hc : c ∈ t.inFlight)
    (hused : t.virtq.usedIdx = s.virtq.usedIdx) (hlast : t.virtq.lastUsedIdx = s.virtq.lastUsedIdx)
    (hfinds : FindsOwn t (.sent c)) : WaitInv t := by
  have hsame (k' : Nat) (c' : Chain) (hc' : (t.calls k').chain = some c') : k' = k ∧ c' = c := by
    rw [hcalls] at hc'
    by_cases hk : k' = k
    · subst hk
      rw [Function.update_self] at hc'
      exact ⟨rfl, (Option.some_inj.mp hc').symm⟩
    · rw [Function.update_of_ne hk, hnone] at hc'
      cases hc'
  refine ⟨fun k₁ k₂ c₁ c₂ hc₁ hc₂ => ?_, fun hall => ?_, fun k' c' hc' => .inl ?_, fun k' => ?_⟩
  · rw [(hsame k₁ c₁ hc₁).1, (hsame k₂ c₂ hc₂).1]
  · have := hall k
    rw [hcalls, Function.update_self] at this
    cases this
  · rw [(hsame k' c' hc').2, hused, hlast]
    exact ⟨hc, h.quiet hnone⟩
  · rw [hcalls]
    by_cases hk : k' = k
    · subst hk
      rwa [Function.update_self]
    · rw [Function.update_of_ne hk]
      have hother := hnone k'
      cases hk' : s.calls k' with
      | idle | holding slot => trivial
      | sent c | mapped c | polling c pbufSlot timeout | retiring c pbufSlot =>
          rw [hk'] at hother
          cases hother

-- The device completes the chain of the call that waits.
theorem WaitInv.complete (h : WaitInv s) (hring : RingInv s) (hc : c ∈ s.inFlight)
    (hphase : (s.calls k).chain = some c) : WaitInv (s.complete c) := by
  refine ⟨h.alone, fun hall => ?_, fun k' c' hc' => .inr ?_, fun k' => ?_⟩
  · rw [show (s.complete c).calls = s.calls from rfl] at hall
    rw [hall k] at hphase
    cases hphase
  · obtain rfl := h.alone k' k c' c hc' hphase
    obtain rfl : c' = c := Option.some_inj.mp (hc'.symm.trans hphase)
    refine ⟨List.mem_cons_self, ?_⟩
    obtain ⟨-, hused⟩ | ⟨hdone, -⟩ := h.waits k' c' hc'
    · change nextIdx s.virtq.usedIdx ≠ s.virtq.lastUsedIdx
      rw [← hused]
      exact Virtqueue.nextIdx_ne _
    · exact absurd hdone (hring.pending c' hc)
  · have hfinds := h.finds k'
    change FindsOwn (s.complete c) (s.calls k')
    cases hk' : s.calls k' with
    | idle | holding slot => trivial
    | sent c' | mapped c' | polling c' pbufSlot timeout =>
        rw [hk'] at hfinds
        exact hfinds
    | retiring c' pbufSlot =>
        rw [hk'] at hfinds
        exact ⟨hfinds.1, List.mem_cons_of_mem _ hfinds.2⟩

end Steps

section Invariant

variable {s t : Controller} {k slot : Nat} {c : Chain}

theorem RequestInv.send (h : RequestInv s) (hphase : s.calls k = .holding slot)
    {cmdSize respSize : Nat} (hok : Orderly s (.send k cmdSize respSize)) :
    RequestInv (s.send k slot cmdSize respSize) := by
  obtain ⟨hnone, hwrap⟩ := hok
  obtain ⟨hslots, hring, hwait, hown⟩ := h
  have hused := Virtqueue.sendEx_used s.virtq (s.requestDescs slot cmdSize respSize)
  have havail := Virtqueue.sendEx_availIdx (s.requestDescs slot cmdSize respSize) hring.availIdx
  have husedLt := hused.1 ▸ hring.usedIdx
  have hlastLt := hused.2 ▸ hring.lastUsedIdx
  unfold Controller.send
  dsimp only
  split
  · refine ⟨hslots.drop k rfl rfl rfl, ⟨hring.sends, hring.done, hring.tags, hring.pending, havail,
      husedLt, hlastLt⟩, .of_quiet (fun k' => ?_) ?_, hown⟩
    · simp only [Controller.setCall]
      by_cases hk : k' = k
      · subst hk
        rw [Function.update_self, chain_idle]
      · rw [Function.update_of_ne hk, hnone]
    · exact hused.1.trans ((hwait.quiet hnone).trans hused.2.symm)
  · rename_i head hsent
    refine ⟨hslots.send hphase rfl rfl rfl, ?_, hwait.send hnone rfl List.mem_cons_self hused.1
      hused.2 ?_, hown⟩
    · exact hring.send rfl rfl rfl rfl havail husedLt hlastLt
    · obtain hfound | ⟨hmax, hzero⟩ := Virtqueue.lastHead_sendEx hsent hring.availIdx
      · exact .inl hfound
      · obtain hhead | hslot := hwrap hmax
        · exact .inl (hzero.trans (hhead.symm.trans (Virtqueue.sendEx_sent hsent).1.symm))
        · right
          rw [hphase] at hslot
          exact (congrArg s.descToBuf hzero).trans (Option.some_inj.mp hslot).symm

theorem RequestInv.take (h : RequestInv s) (hidle : s.calls k = .idle)
    (hrange : slot < MAX_CMD_RESP_BUFS) (hfree : s.bufBusy slot = false) :
    RequestInv ((s.setBusy slot true).setCall k (.holding slot)) :=
  ⟨h.slots.take hidle hrange hfree, h.ring.congr rfl rfl rfl rfl,
    h.wait.other rfl (by rw [hidle, chain_idle]) rfl rfl rfl rfl rfl, h.own⟩

-- A call that waits goes on.
theorem RequestInv.goOn (h : RequestInv s) {ph : SubmitPhase}
    (hchain : (s.calls k).chain = some c) (hslot : (s.calls k).slot = some c.slot)
    (hcalls : t.calls = Function.update s.calls k ph) (hchain' : ph.chain = some c)
    (hslot' : ph.slot = some c.slot) (hvirtq : t.virtq = s.virtq) (hbusy : t.bufBusy = s.bufBusy)
    (hsends : t.sends = s.sends) (hflight : t.inFlight = s.inFlight)
    (hcompleted : t.completed = s.completed) (hsucceeded : t.succeeded = s.succeeded)
    (hfinds : FindsOwn t ph) : RequestInv t := by
  have hphase (k' : Nat) : (t.calls k').slot = (s.calls k').slot ∧
      (t.calls k').chain = (s.calls k').chain := by
    rw [hcalls]
    by_cases hk : k' = k
    · subst hk
      rw [Function.update_self, hchain, hslot]
      exact ⟨hslot', hchain'⟩
    · rw [Function.update_of_ne hk]
      exact ⟨rfl, rfl⟩
  refine ⟨h.slots.congr (fun k' => (hphase k').1) (fun k' => (hphase k').2) hbusy hflight,
    h.ring.congr hvirtq hsends hflight hcompleted,
    h.wait.step hchain hcalls hchain' hvirtq hflight hcompleted hfinds, ?_⟩
  rw [hsucceeded, hcompleted]
  exact h.own

theorem RequestInv.mapBuf (h : RequestInv s) (hphase : s.calls k = .sent c) :
    RequestInv (s.mapBuf k c) := by
  have hfinds := h.wait.finds k
  rw [hphase] at hfinds
  refine h.goOn (by rw [hphase]; rfl) (by rw [hphase]; rfl) rfl rfl rfl rfl rfl rfl rfl rfl rfl ?_
  change Function.update s.descToBuf c.head c.slot s.virtq.lastHead = c.slot
  by_cases hhead : s.virtq.lastHead = c.head
  · rw [hhead, Function.update_self]
  · rw [Function.update_of_ne hhead]
    exact hfinds.resolve_left hhead

-- The call looks up its own slot, which is busy already.
theorem RequestInv.lookUp_eq (h : RequestInv s) (hphase : s.calls k = .mapped c) :
    s.lookUp k c = s.setCall k (.polling c c.slot s.now) := by
  have hslot : (s.calls k).slot = some c.slot := by rw [hphase]; rfl
  have hfound : s.descToBuf s.virtq.lastHead = c.slot := by
    have hfinds := h.wait.finds k
    rw [hphase] at hfinds
    exact hfinds
  have hsame : Function.update s.bufBusy c.slot true = s.bufBusy := by
    rw [← h.slots.held k c.slot hslot, Function.update_eq_self]
  unfold Controller.lookUp
  rw [hfound]
  dsimp only
  rw [if_pos (h.slots.range k c.slot hslot)]
  simp only [Controller.setBusy, Controller.setCall, hsame]

theorem RequestInv.lookUp (h : RequestInv s) (hphase : s.calls k = .mapped c) :
    RequestInv (s.lookUp k c) := by
  rw [h.lookUp_eq hphase]
  exact h.goOn (by rw [hphase]; rfl) (by rw [hphase]; rfl) rfl rfl rfl rfl rfl rfl rfl rfl rfl rfl

theorem RequestInv.poll (h : RequestInv s) {pbufSlot timeout : Nat}
    (hphase : s.calls k = .polling c pbufSlot timeout) :
    RequestInv (s.poll k c pbufSlot timeout) := by
  have hchain : (s.calls k).chain = some c := by rw [hphase]; rfl
  have hslot : (s.calls k).slot = some c.slot := by rw [hphase]; rfl
  have hfinds := h.wait.finds k
  rw [hphase] at hfinds
  unfold Controller.poll
  split
  · rename_i hused
    split
    · exact ⟨h.slots.drop k rfl rfl rfl, h.ring.congr rfl rfl rfl rfl,
        .of_quiet (h.wait.ended hchain) hused, h.own⟩
    · exact h
  · rename_i hused
    refine h.goOn hchain hslot rfl rfl rfl rfl rfl rfl rfl rfl rfl ⟨hfinds, ?_⟩
    exact ((h.wait.waits k c hchain).resolve_left fun hnot => hused hnot.2).1

theorem RequestInv.retiring (h : RequestInv s) {pbufSlot : Nat}
    (hphase : s.calls k = .retiring c pbufSlot) : pbufSlot = c.slot ∧ c.tag ∈ s.completed := by
  have hfinds := h.wait.finds k
  rw [hphase] at hfinds
  exact hfinds

theorem RequestInv.retireAll_eq (h : RequestInv s) {pbufSlot : Nat}
    (hphase : s.calls k = .retiring c pbufSlot) :
    s.retireAll k c pbufSlot =
      { s.setCall k .idle with
        virtq := s.virtq.retire, succeeded := c.tag :: s.succeeded }.setBusy c.slot false := by
  have hslot : (s.calls k).slot = some c.slot := by rw [hphase]; rfl
  unfold Controller.retireAll
  dsimp only
  rw [(h.retiring hphase).1, if_pos (h.slots.range k c.slot hslot)]

theorem RequestInv.retireAll (h : RequestInv s) {pbufSlot : Nat}
    (hphase : s.calls k = .retiring c pbufSlot) : RequestInv (s.retireAll k c pbufSlot) := by
  have hchain : (s.calls k).chain = some c := by rw [hphase]; rfl
  have hslot : (s.calls k).slot = some c.slot := by rw [hphase]; rfl
  have hdone := (h.retiring hphase).2
  obtain ⟨hused, havail, hlast⟩ := Virtqueue.retire_used h.ring.usedIdx h.ring.lastUsedIdx
  rw [h.retireAll_eq hphase]
  refine ⟨SlotsApart.release (h.slots.drop k rfl rfl rfl) (fun k' hk' => ?_) (fun c' hc' heq => ?_),
    ⟨h.ring.sends, h.ring.done, h.ring.tags, h.ring.pending, Nat.lt_of_le_of_lt (Nat.le_of_eq havail)
      h.ring.availIdx, Nat.lt_of_le_of_lt (Nat.le_of_eq hused) h.ring.usedIdx,
      Nat.lt_of_le_of_lt (Nat.le_of_eq hlast) h.ring.usedIdx⟩,
    .of_quiet (h.wait.ended hchain) (hused.trans hlast.symm), ?_⟩
  · by_cases hk : k' = k
    · subst hk
      simp [Controller.setCall] at hk'
    · simp only [Controller.setCall, Function.update_of_ne hk] at hk'
      exact hk (h.slots.calls k' k c.slot hk' hslot)
  · -- a chain in flight with this slot would be the one completed
    have hsame := h.slots.chains c' hc' k (hslot.trans (congrArg some heq.symm))
    rw [hchain, Option.some_inj] at hsame
    exact h.ring.pending c' hc' (hsame ▸ hdone)
  · exact List.forall_mem_cons.mpr ⟨hdone, h.own⟩

theorem RequestInv.complete (h : RequestInv s) (hc : c ∈ s.inFlight)
    (hphase : (s.calls k).chain = some c) : RequestInv (s.complete c) :=
  ⟨h.slots.complete c, h.ring.complete hc, h.wait.complete h.ring hc hphase,
    fun tag htag => List.mem_cons_of_mem _ (h.own tag htag)⟩

theorem RequestInv.step (h : RequestInv s) {a : RequestAction} (hs : RequestStep s a t)
    (hok : Orderly s a) : RequestInv t := by
  cases hs with
  | take hidle hslot hfree => exact h.take hidle hslot hfree
  | send hphase => exact h.send hphase hok
  | mapBuf hphase => exact h.mapBuf hphase
  | lookUp hphase => exact h.lookUp hphase
  | poll hphase => exact h.poll hphase
  | retire hphase => exact h.retireAll hphase
  | complete hc =>
      obtain ⟨k, hphase⟩ := hok
      exact h.complete hc hphase
  | tick => exact ⟨h.slots.congr (fun _ => rfl) (fun _ => rfl) rfl rfl, h.ring.congr rfl rfl rfl rfl,
      ⟨h.wait.alone, h.wait.quiet, h.wait.waits, h.wait.finds⟩, h.own⟩

end Invariant

theorem correlated_run {start s : Controller} {past : List (Controller × RequestAction)}
    (hstart : Unused start) (h : Trace RequestStep start past s)
    (hok : Trace.Admits Orderly past) : Trace.Always Correlated past s :=
  h.always_of_admits hstart.inv (fun _ _ _ hinv (hok : Orderly _ _) hs => hinv.step hs hok)
    (fun _ hinv => hinv.correlated) hok


-- A queue of four descriptors, as virtio_setup_queues leaves it.
def freshController : Controller where
  virtq :=
    { desc := fun i => ⟨0, 0, 0, if i < 3 then i + 1 else noDesc⟩
      availRing := fun _ => 0
      availIdx := 0
      usedRing := fun _ => 0
      usedIdx := 0
      queueSize := 4
      freeHead := 0
      lastUsedIdx := 0 }
  cmdBufPhys i := 0x10000 + 24 * i
  respBufPhys i := 0x11000 + 408 * i
  bufBusy _ := false
  descToBuf _ := 0
  now := 0
  calls _ := .idle
  sends := 0
  inFlight := []
  completed := []
  succeeded := []

theorem freshController_unused : Unused freshController :=
  ⟨fun _ => rfl, rfl, rfl, rfl, fun _ => rfl, by decide, by decide, rfl⟩

theorem setCall_chain_none {s : Controller} {k : Nat} {ph : SubmitPhase}
    (h : ∀ k', (s.calls k').chain = none) (hph : ph.chain = none) (k' : Nat) :
    ((s.setCall k ph).calls k').chain = none := by
  by_cases hk : k' = k
  · subst hk
    simpa [Controller.setCall] using hph
  · rw [setCall_slot_of_ne hk, h]

-- A request that the device completes at once.
theorem correlated_run_one :
    ∃ past s, Trace RequestStep freshController past s ∧ s.succeeded = [1] ∧
      Trace.Always Correlated past s := by
  have htaken := Trace.nil.snoc
    (show RequestStep freshController (.take 0 0) _ from .take rfl (by decide) rfl)
  have hsent := htaken.snoc (show RequestStep _ (.send 0 24 24) _ from .send rfl)
  have hmapped := hsent.snoc (RequestStep.mapBuf (k := 0) (c := ⟨1, 0, 0⟩) rfl)
  have hfound := hmapped.snoc (RequestStep.lookUp (k := 0) (c := ⟨1, 0, 0⟩) rfl)
  have hcompleted := hfound.snoc (RequestStep.complete (c := ⟨1, 0, 0⟩) (List.mem_singleton.mpr rfl))
  have hpolled := hcompleted.snoc (RequestStep.poll (k := 0) (c := ⟨1, 0, 0⟩) rfl)
  have hretired := hpolled.snoc (RequestStep.retire (k := 0) (c := ⟨1, 0, 0⟩) rfl)
  refine ⟨_, _, hretired, rfl, correlated_run freshController_unused hretired ?_⟩
  simp only [Trace.admits_snoc, Trace.admits_nil, Orderly, and_true, true_and]
  refine ⟨⟨setCall_chain_none (fun _ => rfl) rfl, fun hwrap => ?_⟩, 0, rfl⟩
  exact absurd hwrap (by decide)

-- The first request times out. While the second waits the device completes the
-- first, and the second returns TRUE with its chain in flight and its slot free.
theorem correlated_fails :
    ¬ ∀ (start : Controller) (past : List (Controller × RequestAction)) (s : Controller),
      Unused start → Trace RequestStep start past s → Trace.Always Correlated past s := by
  intro hall
  have htaken := Trace.nil.snoc
    (show RequestStep freshController (.take 0 0) _ from .take rfl (by decide) rfl)
  have hsent := htaken.snoc (show RequestStep _ (.send 0 24 24) _ from .send rfl)
  have hmapped := hsent.snoc (RequestStep.mapBuf (k := 0) (c := ⟨1, 0, 0⟩) rfl)
  have hfound := hmapped.snoc (RequestStep.lookUp (k := 0) (c := ⟨1, 0, 0⟩) rfl)
  have hlate := hfound.snoc (show RequestStep _ (.tick 10000) _ from .tick)
  have htimedOut := hlate.snoc (RequestStep.poll (k := 0) (c := ⟨1, 0, 0⟩) rfl)
  have htaken' := htimedOut.snoc
    (show RequestStep _ (.take 0 1) _ from .take rfl (by decide) rfl)
  have hsent' := htaken'.snoc (show RequestStep _ (.send 0 24 24) _ from .send rfl)
  have hmapped' := hsent'.snoc (RequestStep.mapBuf (k := 0) (c := ⟨2, 1, 2⟩) rfl)
  have hfound' := hmapped'.snoc (RequestStep.lookUp (k := 0) (c := ⟨2, 1, 2⟩) rfl)
  have hcompleted := hfound'.snoc
    (RequestStep.complete (c := ⟨1, 0, 0⟩) (List.mem_cons_of_mem _ (List.mem_singleton.mpr rfl)))
  have hpolled := hcompleted.snoc (RequestStep.poll (k := 0) (c := ⟨2, 1, 2⟩) rfl)
  have hretired := hpolled.snoc (RequestStep.retire (k := 0) (c := ⟨2, 1, 2⟩) rfl)
  have hown := (hall _ _ _ freshController_unused hretired).2.own 2 List.mem_cons_self
  exact absurd hown (by decide)

end AosKernel.Gpu
