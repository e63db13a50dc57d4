import AosKernel.Lib.Trace
import AosKernel.Gpu.Requests
import AosKernel.Mm.Region

namespace AosKernel.Gpu

open Verif Verif.Span

-- The sizes of the structures that the driver exchanges with the device. All
-- of them are packed.
def sizeofRect : Nat := 4 + 4 + 4 + 4
def sizeofCtrlHdr : Nat := 4 + 4 + 8 + 4 + 1 + 3
def sizeofRespDisplayInfo : Nat := sizeofCtrlHdr + 16 * (sizeofRect + 4 + 4)
def sizeofMemEntry : Nat := 8 + 4 + 4

theorem sizeofCtrlHdr_eq : sizeofCtrlHdr = 24 := rfl

theorem sizeofRespDisplayInfo_eq : sizeofRespDisplayInfo = 408 := rfl

-- The commands the driver writes into a slot. The two that attach backing have
-- one entry behind them.
inductive Command
  | getDisplayInfo
  | resourceCreate2d
  | resourceUnref
  | setScanout
  | resourceFlush
  | transferToHost2d
  | resourceAttachBacking
  | resourceDetachBacking
  | ctxCreate
  | ctxDestroy
  | ctxAttachResource
  | ctxDetachResource
  | resourceCreate3d
  | transferToHost3d
  | submit3d
  deriving DecidableEq

namespace Command

def cmdSize : Command → Nat
  | getDisplayInfo => sizeofCtrlHdr
  | resourceCreate2d => sizeofCtrlHdr + 4 + 4 + 4 + 4
  | resourceUnref => sizeofCtrlHdr + 4 + 4
  | setScanout => sizeofCtrlHdr + sizeofRect + 4 + 4
  | resourceFlush => sizeofCtrlHdr + sizeofRect + 4 + 4
  | transferToHost2d => sizeofCtrlHdr + sizeofRect + 8 + 4 + 4
  | resourceAttachBacking => sizeofCtrlHdr + 4 + 4 + sizeofMemEntry
  | resourceDetachBacking => sizeofCtrlHdr + 4 + 4
  | ctxCreate => sizeofCtrlHdr + 4 + 4 + 64
  | ctxDestroy => sizeofCtrlHdr
  | ctxAttachResource => sizeofCtrlHdr + 4 + 4
  | ctxDetachResource => sizeofCtrlHdr + 4 + 4
  | resourceCreate3d => sizeofCtrlHdr + 12 * 4
  | transferToHost3d => sizeofCtrlHdr + 6 * 4 + 8 + 4 * 4
  | submit3d => sizeofCtrlHdr + 4 + 4

-- Only the display information is more than a header.
def respSize : Command → Nat
  | getDisplayInfo => sizeofRespDisplayInfo
  | _ => sizeofCtrlHdr

theorem cmdSize_bounds (c : Command) : 0 < c.cmdSize ∧ c.cmdSize ≤ 96 := by
  cases c <;> decide

theorem respSize_bounds (c : Command) : sizeofCtrlHdr ≤ c.respSize ∧ c.respSize ≤ sizeofRespDisplayInfo := by
  cases c <;> decide

end Command

-- The command and response buffers of a controller: what avmf_alloc gave for
-- them, where the slots are, which are in use, and what the driver has written
-- into a slot since it took it.
structure Buffers where
  cmdBuf : Span
  respBuf : Span
  cmdBufPhys : Nat → Nat
  respBufPhys : Nat → Nat
  bufBusy : Nat → Bool
  held : Nat → Option Command

namespace Buffers

-- What avmf_alloc gives for `size` bytes is whole pages.
def allocated (phys size : Nat) : Span := ⟨phys, Mm.align4k size⟩

-- virtio_setup_buffers.
def setupBuffers (cmdPhys respPhys : Nat) : Buffers where
  cmdBuf := allocated cmdPhys 0x1000
  respBuf := allocated respPhys 0x1000
  cmdBufPhys i := cmdPhys + i * sizeofCtrlHdr
  respBufPhys i := respPhys + i * sizeofRespDisplayInfo
  bufBusy _ := false
  held _ := none

-- virtio_refresh with GPU_REFRESH_FLAG_BUFFERS. Where an allocation fails the
-- buffer stays.
def refreshCmd (s : Buffers) : Option Nat → Buffers
  | none => s
  | some phys =>
      { s with
        cmdBuf := allocated phys (MAX_CMD_RESP_BUFS * sizeofCtrlHdr)
        cmdBufPhys := fun i => phys + sizeofCtrlHdr * i }

def refreshResp (s : Buffers) : Option Nat → Buffers
  | none => s
  | some phys =>
      { s with
        respBuf := allocated phys (MAX_CMD_RESP_BUFS * sizeofCtrlHdr)
        respBufPhys := fun i => phys + sizeofRespDisplayInfo * i }

-- wait_for_free_buf, the command written into its slot, the slot marked as
-- busy again and freed while the call waits, and a refresh.
inductive Action
  | take (slot : Nat)
  | write (slot : Nat) (cmd : Command)
  | wait (slot : Nat)
  | free (slot : Nat)
  | refresh (cmd resp : Option Nat)

-- A new allocation is apart from the buffers that are there.
inductive Step (s : Buffers) : Action → Buffers → Prop
  | take {slot} : slot < MAX_CMD_RESP_BUFS → s.bufBusy slot = false →
      Step s (.take slot) { s with
        bufBusy := Function.update s.bufBusy slot true
        held := Function.update s.held slot none }
  | write {slot cmd} : s.bufBusy slot = true → s.held slot = none →
      Step s (.write slot cmd) { s with held := Function.update s.held slot (some cmd) }
  | wait {slot} : slot < MAX_CMD_RESP_BUFS →
      Step s (.wait slot) { s with bufBusy := Function.update s.bufBusy slot true }
  | free {slot} : slot < MAX_CMD_RESP_BUFS →
      Step s (.free slot) { s with
        bufBusy := Function.update s.bufBusy slot false
        held := Function.update s.held slot none }
  | refresh {cmd resp} :
      Apart (s.refreshCmd cmd).cmdBuf s.respBuf →
      Apart (s.refreshCmd cmd).cmdBuf ((s.refreshCmd cmd).refreshResp resp).respBuf →
      Step s (.refresh cmd resp) ((s.refreshCmd cmd).refreshResp resp)

def cmdRange (s : Buffers) (slot : Nat) (cmd : Command) : Span := ⟨s.cmdBufPhys slot, cmd.cmdSize⟩

def respRange (s : Buffers) (slot : Nat) (cmd : Command) : Span :=
  ⟨s.respBufPhys slot, cmd.respSize⟩

-- The four ranges of two slots are disjoint and lie in their allocations.
structure Separate (s : Buffers) (i : Nat) (a : Command) (j : Nat) (b : Command) : Prop where
  apart : [s.cmdRange i a, s.respRange i a, s.cmdRange j b, s.respRange j b].Pairwise Apart
  cmd : Inside (s.cmdRange i a) s.cmdBuf ∧ Inside (s.cmdRange j b) s.cmdBuf
  resp : Inside (s.respRange i a) s.respBuf ∧ Inside (s.respRange j b) s.respBuf

def NoOverlap (s : Buffers) : Prop :=
  ∀ i j a b, i ≠ j → s.bufBusy i = true → s.bufBusy j = true → s.held i = some a →
    s.held j = some b → s.Separate i a j b

-- The command in the lower of two slots ends before the higher begins, and
-- both responses are among the ten that fit into a page.
def Roomy (i : Nat) (a : Command) (j : Nat) (b : Command) : Prop :=
  (if i < j then a.cmdSize ≤ (j - i) * sizeofCtrlHdr else b.cmdSize ≤ (i - j) * sizeofCtrlHdr) ∧
    i < 10 ∧ j < 10

-- A command is written where it has room beside those of the other busy slots.
def FindsRoom (s : Buffers) : Action → Prop
  | .write slot cmd => ∀ j other, j ≠ slot → s.bufBusy j = true → s.held j = some other →
      Roomy slot cmd j other
  | _ => True

structure Laid (s : Buffers) : Prop where
  cmdSize : s.cmdBuf.size = Mm.PAGE_SIZE
  respSize : s.respBuf.size = Mm.PAGE_SIZE
  cmdPhys : ∀ i, s.cmdBufPhys i = s.cmdBuf.base + i * sizeofCtrlHdr
  respPhys : ∀ i, s.respBufPhys i = s.respBuf.base + i * sizeofRespDisplayInfo
  apart : Apart s.cmdBuf s.respBuf
  slots : ∀ i, s.bufBusy i = true → i < MAX_CMD_RESP_BUFS
  free : ∀ i, s.bufBusy i = false → s.held i = none

section Steps

variable {s t : Buffers} {i j : Nat} {a b : Command}

theorem Roomy.symm (h : Roomy i a j b) (hne : i ≠ j) : Roomy j b i a := by
  obtain ⟨hcmd, hi, hj⟩ := h
  refine ⟨?_, hj, hi⟩
  by_cases hlt : i < j
  · rw [if_pos hlt] at hcmd
    rwa [if_neg (by omega)]
  · rw [if_neg hlt] at hcmd
    rwa [if_pos (by omega)]

theorem Laid.cmdRange_inside (h : Laid s) (hi : i < MAX_CMD_RESP_BUFS) (a : Command) :
    Inside (s.cmdRange i a) s.cmdBuf := by
  have hsize := a.cmdSize_bounds.2
  simp only [Inside, limit, cmdRange, h.cmdPhys, h.cmdSize, MAX_CMD_RESP_BUFS, sizeofCtrlHdr_eq,
    Mm.PAGE_SIZE] at hi ⊢
  omega

-- The response buffer has room for ten slots.
theorem Laid.respRange_inside_iff (h : Laid s) (a : Command) :
    Inside (s.respRange i a) s.respBuf ↔ i < 10 := by
  have hsize := a.respSize_bounds
  simp only [Inside, limit, respRange, h.respPhys, h.respSize, sizeofRespDisplayInfo_eq,
    sizeofCtrlHdr_eq, Mm.PAGE_SIZE] at hsize ⊢
  omega

theorem Laid.cmdRange_apart_iff (h : Laid s) :
    Apart (s.cmdRange i a) (s.cmdRange j b) ↔
      if i < j then a.cmdSize ≤ (j - i) * sizeofCtrlHdr
      else b.cmdSize ≤ (i - j) * sizeofCtrlHdr := by
  have ha := a.cmdSize_bounds
  have hb := b.cmdSize_bounds
  rw [apart_iff ha.1 hb.1]
  simp only [limit, cmdRange, h.cmdPhys, sizeofCtrlHdr_eq]
  split <;> omega

theorem Laid.respRange_apart (h : Laid s) (hne : i ≠ j) :
    Apart (s.respRange i a) (s.respRange j b) := by
  have ha := a.respSize_bounds
  have hb := b.respSize_bounds
  rw [sizeofCtrlHdr_eq, sizeofRespDisplayInfo_eq] at ha hb
  rw [apart_iff (Nat.lt_of_lt_of_le (by decide) ha.1) (Nat.lt_of_lt_of_le (by decide) hb.1)]
  simp only [limit, respRange, h.respPhys, sizeofRespDisplayInfo_eq]
  omega

theorem Laid.separate_iff (h : Laid s) (hi : i < MAX_CMD_RESP_BUFS) (hj : j < MAX_CMD_RESP_BUFS)
    (hne : i ≠ j) : s.Separate i a j b ↔ Roomy i a j b := by
  constructor
  · rintro ⟨hapart, -, hresp⟩
    have hcmd := (List.pairwise_cons.mp hapart).1 (s.cmdRange j b) (by simp)
    exact ⟨h.cmdRange_apart_iff.mp hcmd, (h.respRange_inside_iff a).mp hresp.1,
      (h.respRange_inside_iff b).mp hresp.2⟩
  · rintro ⟨hcmd, hi', hj'⟩
    have hcmdI := h.cmdRange_inside hi a
    have hcmdJ := h.cmdRange_inside hj b
    have hrespI := (h.respRange_inside_iff a).mpr hi'
    have hrespJ := (h.respRange_inside_iff b).mpr hj'
    refine ⟨?_, ⟨hcmdI, hcmdJ⟩, hrespI, hrespJ⟩
    simp only [List.pairwise_cons, List.mem_cons, List.not_mem_nil, or_false, forall_eq_or_imp,
      forall_eq, List.Pairwise.nil, and_true, false_imp_iff, implies_true]
    exact ⟨⟨h.apart.inside hcmdI hrespI, h.cmdRange_apart_iff.mpr hcmd,
      h.apart.inside hcmdI hrespJ⟩, ⟨(h.apart.inside hcmdJ hrespI).symm, h.respRange_apart hne⟩,
      h.apart.inside hcmdJ hrespJ⟩

theorem allocated_size {size : Nat} (hpos : 0 < size) (hle : size ≤ Mm.PAGE_SIZE) (phys : Nat) :
    (allocated phys size).size = Mm.PAGE_SIZE := by
  have hsmall : ¬ size > Mm.UINT64_MAX - (Mm.PAGE_SIZE - 1) := by
    simp only [Mm.UINT64_MAX, Mm.PAGE_SIZE] at hle ⊢
    omega
  rw [allocated, Mm.align4k, if_neg hsmall]
  simp only [Mm.alignUpPage, Mm.PAGE_SIZE] at hle ⊢
  omega

theorem setupBuffers_laid {cmdPhys respPhys : Nat}
    (h : Apart (setupBuffers cmdPhys respPhys).cmdBuf (setupBuffers cmdPhys respPhys).respBuf) :
    Laid (setupBuffers cmdPhys respPhys) where
  cmdSize := allocated_size (by decide) (by decide) cmdPhys
  respSize := allocated_size (by decide) (by decide) respPhys
  cmdPhys _ := rfl
  respPhys _ := rfl
  apart := h
  slots _ hi := nomatch hi
  free _ _ := rfl

theorem Laid.step {act : Action} (h : Laid s) (hs : Step s act t) : Laid t := by
  have hbusy : ∀ {slot : Nat}, slot < MAX_CMD_RESP_BUFS → ∀ {flag : Bool} {i : Nat},
      Function.update s.bufBusy slot flag i = true → i < MAX_CMD_RESP_BUFS := by
    intro slot hslot flag i hi
    by_cases heq : i = slot
    · rwa [heq]
    · rw [Function.update_of_ne heq] at hi
      exact h.slots i hi
  have hfree : ∀ {slot : Nat} {flag : Bool} {cmd : Option Command}, flag = true ∨ cmd = none →
      ∀ i, Function.update s.bufBusy slot flag i = false →
        Function.update s.held slot cmd i = none := by
    intro slot flag cmd hflag i hi
    by_cases heq : i = slot
    · rw [heq, Function.update_self] at hi ⊢
      rw [hi] at hflag
      exact hflag.resolve_left Bool.noConfusion
    · rw [Function.update_of_ne heq] at hi ⊢
      exact h.free i hi
  cases hs with
  | take hslot _ =>
      exact { h with slots := fun _ => hbusy hslot, free := hfree (.inl rfl) }
  | @write slot cmd hslot _ =>
      refine { h with free := fun i hi => ?_ }
      have hne : i ≠ slot := by
        rintro rfl
        exact absurd (hslot.symm.trans hi) Bool.noConfusion
      exact (Function.update_of_ne hne ..).trans (h.free i hi)
  | @wait slot hslot =>
      refine { h with slots := fun _ => hbusy hslot, free := ?_ }
      have hsame : ∀ i, Function.update s.bufBusy slot true i = false →
          Function.update s.held slot (s.held slot) i = none := hfree (.inl rfl)
      rwa [Function.update_eq_self] at hsame
  | free hslot =>
      exact { h with slots := fun _ => hbusy hslot, free := hfree (.inr rfl) }
  | @refresh cmd resp hcmd hresp =>
      have hmid : Laid (s.refreshCmd cmd) := by
        cases cmd with
        | none => exact h
        | some phys =>
            exact { h with
              cmdSize := allocated_size (by decide) (by decide) phys
              cmdPhys := fun i => by simp only [refreshCmd, allocated, Nat.mul_comm]
              apart := hcmd }
      cases resp with
      | none => exact hmid
      | some phys =>
          exact { hmid with
            respSize := allocated_size (by decide) (by decide) phys
            respPhys := fun i => by simp only [refreshResp, allocated, Nat.mul_comm]
            apart := hresp }

-- Slots and commands that have room here have it wherever the buffers are.
theorem noOverlap_iff (h : Laid s) :
    NoOverlap s ↔ ∀ i j a b, i ≠ j → s.bufBusy i = true → s.bufBusy j = true →
      s.held i = some a → s.held j = some b → Roomy i a j b := by
  constructor
  · intro hall i j a b hne hi hj ha hb
    exact (h.separate_iff (h.slots i hi) (h.slots j hj) hne).mp (hall i j a b hne hi hj ha hb)
  · intro hall i j a b hne hi hj ha hb
    exact (h.separate_iff (h.slots i hi) (h.slots j hj) hne).mpr (hall i j a b hne hi hj ha hb)

-- No slot that is busy afterwards holds a command it did not hold before.
theorem NoOverlap.shrink (h : NoOverlap s) (hs : Laid s) (ht : Laid t)
    (hheld : ∀ i a, t.bufBusy i = true → t.held i = some a →
      s.bufBusy i = true ∧ s.held i = some a) : NoOverlap t := by
  rw [noOverlap_iff ht]
  intro i j a b hne hi hj ha hb
  obtain ⟨hi, ha⟩ := hheld i a hi ha
  obtain ⟨hj, hb⟩ := hheld j b hj hb
  exact (noOverlap_iff hs).mp h i j a b hne hi hj ha hb

theorem NoOverlap.step_iff {act : Action} (h : NoOverlap s) (hs : Laid s) (hstep : Step s act t) :
    NoOverlap t ↔ FindsRoom s act := by
  have ht := hs.step hstep
  cases hstep with
  | @take slot hslot hfree =>
      refine iff_of_true (h.shrink hs ht fun i a hi ha => ?_) trivial
      have hne : i ≠ slot := by
        rintro rfl
        simp at ha
      simpa [Function.update_of_ne hne] using And.intro hi ha
  | @write slot cmd hbusy hnone =>
      rw [noOverlap_iff ht]
      rw [noOverlap_iff hs] at h
      constructor
      · intro hall j other hne hj hother
        exact hall slot j cmd other hne.symm hbusy hj (Function.update_self ..)
          ((Function.update_of_ne hne ..).trans hother)
      · intro hroom i j a b hne hi hj ha hb
        by_cases hslot : i = slot
        · subst hslot
          obtain rfl : cmd = a := by simpa using ha
          exact hroom j b hne.symm hj ((Function.update_of_ne hne.symm ..).symm.trans hb)
        · have ha' := (Function.update_of_ne hslot ..).symm.trans ha
          by_cases hslot' : j = slot
          · subst hslot'
            obtain rfl : cmd = b := by simpa using hb
            exact (hroom i a hne hi ha').symm hne.symm
          · exact h i j a b hne hi hj ha' ((Function.update_of_ne hslot' ..).symm.trans hb)
  | @wait slot hslot =>
      refine iff_of_true (h.shrink hs ht fun i a _ ha => ⟨?_, ha⟩) trivial
      rw [← Bool.not_eq_false]
      intro hfree
      exact absurd ((hs.free i hfree).symm.trans ha) (by simp)
  | @free slot hslot =>
      refine iff_of_true (h.shrink hs ht fun i a hi ha => ?_) trivial
      have hne : i ≠ slot := by
        rintro rfl
        simp at ha
      simpa [Function.update_of_ne hne] using And.intro hi ha
  | @refresh cmd resp hcmd hresp =>
      refine iff_of_true (h.shrink hs ht fun i a hi ha => ?_) trivial
      cases cmd <;> cases resp <;> exact ⟨hi, ha⟩

end Steps

-- The buffers of busy slots are disjoint and inside their allocations
-- throughout a run exactly when every command of it finds room.
theorem buffers_separate_iff {cmdPhys respPhys : Nat}
    (hapart : Apart (setupBuffers cmdPhys respPhys).cmdBuf (setupBuffers cmdPhys respPhys).respBuf)
    {past : List (Buffers × Action)} {s : Buffers}
    (h : Trace Step (setupBuffers cmdPhys respPhys) past s) :
    Trace.Always NoOverlap past s ↔ Trace.Admits FindsRoom past :=
  Trace.always_iff_admits (I := Laid) (setupBuffers_laid hapart)
    (fun _ _ _ _ _ hi => nomatch hi) (fun _ _ _ hlaid _ hs _ => hlaid.step hs)
    (fun _ _ _ hlaid hno hs => hno.step_iff hlaid hs) h

def twoPages : Buffers := setupBuffers 0x100000 0x101000

theorem twoPages_apart : Apart twoPages.cmdBuf twoPages.respBuf :=
  (apart_iff (by decide) (by decide)).mpr (by decide)

-- The flush in slot 0 ends where slot 2 begins.
theorem buffers_separate_iff_two : ∃ past s, Trace Step twoPages past s ∧
    past.map Prod.snd = [.take 0, .take 2, .write 0 .resourceFlush, .write 2 .setScanout] ∧
      Trace.Always NoOverlap past s := by
  have htaken := Trace.nil.snoc (show Step twoPages (.take 0) _ from .take (by decide) rfl)
  have hboth := htaken.snoc (show Step _ (.take 2) _ from .take (by decide) rfl)
  have hflush := hboth.snoc (show Step _ (.write 0 .resourceFlush) _ from .write rfl rfl)
  have hscanout := hflush.snoc (show Step _ (.write 2 .setScanout) _ from .write rfl rfl)
  refine ⟨_, _, hscanout, rfl, (buffers_separate_iff twoPages_apart hscanout).mpr ?_⟩
  simp only [Trace.admits_snoc]
  refine ⟨⟨⟨⟨Trace.admits_nil, trivial⟩, trivial⟩, ?_⟩, ?_⟩
  · intro j other _ _ hheld
    simp [twoPages, setupBuffers, Function.update_apply] at hheld
  · intro j other _ _ hheld
    simp only [twoPages, setupBuffers, Function.update_apply] at hheld
    by_cases hj : j = 0
    · subst hj
      obtain rfl : Command.resourceFlush = other := by simpa using hheld
      exact ⟨by decide, by decide, by decide⟩
    · simp [hj] at hheld

-- Two callers flush at the same time, from slots 0 and 1.
theorem buffers_separate_fails :
    ¬ ∀ (cmdPhys respPhys : Nat) (past : List (Buffers × Action)) (s : Buffers),
      Apart (setupBuffers cmdPhys respPhys).cmdBuf (setupBuffers cmdPhys respPhys).respBuf →
        Trace Step (setupBuffers cmdPhys respPhys) past s → Trace.Always NoOverlap past s := by
  intro hall
  have htaken := Trace.nil.snoc (show Step twoPages (.take 0) _ from .take (by decide) rfl)
  have hboth := htaken.snoc (show Step _ (.take 1) _ from .take (by decide) rfl)
  have hflush := hboth.snoc (show Step _ (.write 0 .resourceFlush) _ from .write rfl rfl)
  have hsecond := hflush.snoc (show Step _ (.write 1 .resourceFlush) _ from .write rfl rfl)
  have hseparate := (hall _ _ _ _ twoPages_apart hsecond).2 0 1 .resourceFlush .resourceFlush
    (by decide) rfl rfl rfl rfl
  have hapart := (List.pairwise_cons.mp hseparate.apart).1 _ (.tail _ (.head _))
  exact absurd ((apart_iff (by decide) (by decide)).mp hapart) (by decide)

end Buffers

end AosKernel.Gpu
