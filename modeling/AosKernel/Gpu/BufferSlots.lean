import AosKernel.Gpu.Requests

namespace AosKernel.Gpu

open Verif

-- With no chain in flight and no caller at work, every slot is free again.
def NoLeak (s : Controller) : Prop :=
  s.inFlight = [] → (∀ k, s.calls k = .idle) → ∀ slot < MAX_CMD_RESP_BUFS, s.bufBusy slot = false

-- A request finds the two descriptors it needs on the free list.
def FindsDescs (s : Controller) : RequestAction → Prop
  | .send _ _ _ => s.virtq.freeHead ≠ noDesc ∧ (s.virtq.desc s.virtq.freeHead).next ≠ noDesc
  | _ => True

-- A busy slot belongs to a call or to a chain in flight.
def SlotsOwned (s : Controller) : Prop :=
  ∀ slot, s.bufBusy slot = true →
    (∃ k, (s.calls k).slot = some slot) ∨ ∃ c ∈ s.inFlight, c.slot = slot

theorem slot_of_chain {ph : SubmitPhase} {c : Chain} (h : ph.chain = some c) :
    ph.slot = some c.slot := by
  cases ph with
  | idle | holding slot => cases h
  | sent c' | mapped c' | polling c' pbufSlot timeout | retiring c' pbufSlot =>
      cases h
      rfl

theorem sendEx_succeeds {vq : Virtqueue} (hfree : vq.freeHead ≠ noDesc)
    (hnext : (vq.desc vq.freeHead).next ≠ noDesc) (d d' : VirtqDesc) :
    ∃ head, (vq.sendEx [d, d']).2 = some head := by
  refine ⟨vq.freeHead, ?_⟩
  simp [Virtqueue.sendEx, Virtqueue.fillChain, Virtqueue.setDesc, hfree, hnext]

section Steps

variable {s t : Controller} {k slot : Nat} {c : Chain}

theorem SlotsOwned.none_busy (h : SlotsOwned s) : NoLeak s := by
  intro hflight hidle slot _
  rw [← Bool.not_eq_true]
  intro hbusy
  obtain ⟨k, hk⟩ | ⟨c, hc, -⟩ := h slot hbusy
  · rw [hidle] at hk
    cases hk
  · rw [hflight] at hc
    cases hc

-- The calls keep their slots, and the chains stay in flight.
theorem SlotsOwned.congr (h : SlotsOwned s) (hslot : ∀ k, (t.calls k).slot = (s.calls k).slot)
    (hbusy : t.bufBusy = s.bufBusy) (hflight : s.inFlight ⊆ t.inFlight) : SlotsOwned t := by
  intro slot hb
  rw [hbusy] at hb
  obtain ⟨k, hk⟩ | ⟨c, hc, hslot'⟩ := h slot hb
  · exact .inl ⟨k, (hslot k).trans hk⟩
  · exact .inr ⟨c, hflight hc, hslot'⟩

theorem update_slot {ph : SubmitPhase} (hph : ph.slot = (s.calls k).slot) (k' : Nat) :
    (Function.update s.calls k ph k').slot = (s.calls k').slot := by
  by_cases hk : k' = k
  · subst hk
    rw [Function.update_self, hph]
  · rw [Function.update_of_ne hk]

theorem SlotsOwned.take (h : SlotsOwned s) (hidle : s.calls k = .idle) :
    SlotsOwned ((s.setBusy slot true).setCall k (.holding slot)) := by
  intro slot' hbusy
  by_cases hslot : slot' = slot
  · refine .inl ⟨k, ?_⟩
    rw [setCall_slot_self, hslot]
    rfl
  · have hold : s.bufBusy slot' = true := (Function.update_of_ne hslot ..).symm.trans hbusy
    obtain ⟨k', hk'⟩ | hchain := h slot' hold
    · have hne : k' ≠ k := by
        rintro rfl
        simp [hidle] at hk'
      refine .inl ⟨k', ?_⟩
      rw [setCall_slot_of_ne hne]
      exact hk'
    · exact .inr hchain

-- The chain of a call that ends is in flight, or its slot is released.
theorem SlotsOwned.drop (h : SlotsOwned s) (hslot : (s.calls k).slot = some slot)
    (hcalls : t.calls = Function.update s.calls k .idle) (hflight : t.inFlight = s.inFlight)
    (hbusy : ∀ slot', t.bufBusy slot' = true → s.bufBusy slot' = true)
    (hown : t.bufBusy slot = true → ∃ c ∈ s.inFlight, c.slot = slot) : SlotsOwned t := by
  intro slot' hb
  rw [hflight]
  obtain ⟨k', hk'⟩ | hchain := h slot' (hbusy slot' hb)
  · by_cases hk : k' = k
    · subst hk
      rw [hslot, Option.some_inj] at hk'
      subst hk'
      exact .inr (hown hb)
    · refine .inl ⟨k', ?_⟩
      rw [hcalls, Function.update_of_ne hk]
      exact hk'
  · exact .inr hchain

theorem SlotsOwned.complete (h : SlotsOwned s) (hring : RingInv s) (hc : c ∈ s.inFlight)
    (hphase : (s.calls k).chain = some c) : SlotsOwned (s.complete c) := by
  intro slot hbusy
  obtain hcall | ⟨c', hc', hslot⟩ := h slot hbusy
  · exact .inl hcall
  · by_cases htag : c'.tag = c.tag
    · refine .inl ⟨k, ?_⟩
      rw [hring.tags c' hc' c hc htag] at hslot
      exact (slot_of_chain hphase).trans (congrArg some hslot)
    · exact .inr ⟨c', by simpa [Controller.complete, htag] using hc', hslot⟩

theorem SlotsOwned.send (h : SlotsOwned s) (hphase : s.calls k = .holding slot)
    {cmdSize respSize : Nat} (hdescs : FindsDescs s (.send k cmdSize respSize)) :
    SlotsOwned (s.send k slot cmdSize respSize) := by
  obtain ⟨head, hsent⟩ := sendEx_succeeds hdescs.1 hdescs.2
    ⟨s.cmdBufPhys slot, cmdSize, VIRTQ_DESC_F_NEXT, 0⟩
    ⟨s.respBufPhys slot, respSize, VIRTQ_DESC_F_WRITE, noDesc⟩
  unfold Controller.send Controller.requestDescs
  dsimp only
  rw [hsent]
  exact h.congr (update_slot (by rw [hphase]; rfl)) rfl (List.subset_cons_self _ _)

theorem SlotsOwned.poll (h : SlotsOwned s) (hinv : RequestInv s) {pbufSlot timeout : Nat}
    (hphase : s.calls k = .polling c pbufSlot timeout) :
    SlotsOwned (s.poll k c pbufSlot timeout) := by
  have hchain : (s.calls k).chain = some c := by rw [hphase]; rfl
  unfold Controller.poll
  split
  · rename_i hused
    split
    · -- a chain that is given up is still in flight
      have hflight := (hinv.wait.waits k c hchain).resolve_right fun hnot => hnot.2 hused
      exact h.drop (slot_of_chain hchain) rfl rfl (fun _ hb => hb) fun _ => ⟨c, hflight.1, rfl⟩
    · exact h
  · exact h.congr (update_slot (by rw [hphase]; rfl)) rfl (List.Subset.refl _)

theorem SlotsOwned.step (h : SlotsOwned s) (hinv : RequestInv s) {a : RequestAction}
    (hs : RequestStep s a t) (hok : Orderly s a) (hdescs : FindsDescs s a) : SlotsOwned t := by
  cases hs with
  | take hidle _ _ => exact h.take hidle
  | send hphase => exact h.send hphase hdescs
  | mapBuf hphase => exact h.congr (update_slot (by rw [hphase]; rfl)) rfl (List.Subset.refl _)
  | lookUp hphase =>
      rw [hinv.lookUp_eq hphase]
      exact h.congr (update_slot (by rw [hphase]; rfl)) rfl (List.Subset.refl _)
  | poll hphase => exact h.poll hinv hphase
  | @retire k c pbufSlot hphase =>
      rw [hinv.retireAll_eq hphase]
      refine h.drop (show (s.calls k).slot = some c.slot by rw [hphase]; rfl) rfl rfl (fun slot' hb => ?_) fun hb => ?_
      · by_cases hslot : slot' = c.slot
        · simp [Controller.setBusy, hslot] at hb
        · exact (Function.update_of_ne hslot ..).symm.trans hb
      · simp [Controller.setBusy] at hb
  | complete hc =>
      obtain ⟨k, hphase⟩ := hok
      exact h.complete hinv.ring hc hphase
  | tick => exact h.congr (fun _ => rfl) rfl (List.Subset.refl _)

end Steps

theorem no_leak_run {start s : Controller} {past : List (Controller × RequestAction)}
    (hstart : Unused start) (h : Trace RequestStep start past s)
    (hok : Trace.Admits (fun s a => Orderly s a ∧ FindsDescs s a) past) :
    Trace.Always NoLeak past s := by
  refine h.always_of_admits (I := fun s => RequestInv s ∧ SlotsOwned s)
    ⟨hstart.inv, fun slot hbusy => ?_⟩ ?_ (fun _ hinv => hinv.2.none_busy) hok
  · simp [hstart.free] at hbusy
  · rintro s a t ⟨hinv, howned⟩ ⟨horder, hdescs⟩ hs
    exact ⟨hinv.step hs horder, howned.step hinv hs horder hdescs⟩

theorem no_leak_run_one :
    ∃ past s, Trace RequestStep freshController past s ∧ s.succeeded = [1] ∧
      Trace.Always NoLeak past s := by
  have htaken := Trace.nil.snoc
    (show RequestStep freshController (.take 0 0) _ from .take rfl (by decide) rfl)
  have hsent := htaken.snoc (show RequestStep _ (.send 0 24 24) _ from .send rfl)
  have hmapped := hsent.snoc (RequestStep.mapBuf (k := 0) (c := ⟨1, 0, 0⟩) rfl)
  have hfound := hmapped.snoc (RequestStep.lookUp (k := 0) (c := ⟨1, 0, 0⟩) rfl)
  have hcompleted := hfound.snoc (RequestStep.complete (c := ⟨1, 0, 0⟩) (List.mem_singleton.mpr rfl))
  have hpolled := hcompleted.snoc (RequestStep.poll (k := 0) (c := ⟨1, 0, 0⟩) rfl)
  have hretired := hpolled.snoc (RequestStep.retire (k := 0) (c := ⟨1, 0, 0⟩) rfl)
  refine ⟨_, _, hretired, rfl, no_leak_run freshController_unused hretired ?_⟩
  simp only [Trace.admits_snoc, Trace.admits_nil, Orderly, FindsDescs, and_true, true_and]
  refine ⟨⟨⟨setCall_chain_none (fun _ => rfl) rfl, fun hwrap => ?_⟩, by decide⟩, 0, rfl⟩
  exact absurd hwrap (by decide)

-- A request times out and the device completes it afterwards: nothing is in
-- flight, and slot 0 stays busy for ever.
theorem no_leak_fails :
    ¬ ∀ (start : Controller) (past : List (Controller × RequestAction)) (s : Controller),
      Unused start → Trace RequestStep start past s → Trace.Always NoLeak past s := by
  intro hall
  have htaken := Trace.nil.snoc
    (show RequestStep freshController (.take 0 0) _ from .take rfl (by decide) rfl)
  have hsent := htaken.snoc (show RequestStep _ (.send 0 24 24) _ from .send rfl)
  have hmapped := hsent.snoc (RequestStep.mapBuf (k := 0) (c := ⟨1, 0, 0⟩) rfl)
  have hfound := hmapped.snoc (RequestStep.lookUp (k := 0) (c := ⟨1, 0, 0⟩) rfl)
  have hlate := hfound.snoc (show RequestStep _ (.tick 10000) _ from .tick)
  have htimedOut := hlate.snoc (RequestStep.poll (k := 0) (c := ⟨1, 0, 0⟩) rfl)
  have hcompleted := htimedOut.snoc
    (RequestStep.complete (c := ⟨1, 0, 0⟩) (List.mem_singleton.mpr rfl))
  have hleak := (hall _ _ _ freshController_unused hcompleted).2
  refine absurd (hleak rfl ?_ 0 (by decide)) (by decide)
  rintro (_ | k) <;> rfl

end AosKernel.Gpu
