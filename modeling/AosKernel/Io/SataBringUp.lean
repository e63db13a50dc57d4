import AosKernel.Io.SataPorts

namespace AosKernel.Io.Ahci

open Verif Verif.Exec

variable {s : SataMemory} {rest : List (Nat × SataBlock)} {ksc : SataController}
  {ports : Nat → Option OwnedPort} {is : List Nat} {a : InitAnswers}

-- The memory of the ports among `is` that are up.
def portBlocks (ports : Nat → Option OwnedPort) (is : List Nat) : List (Nat × SataBlock) :=
  is.flatMap fun i => (ports i).elim [] OwnedPort.blocks

-- The driver's view of the ports, and the memory they have.
structure SataController.Owns (ksc : SataController) (ports : Nat → Option OwnedPort) : Prop where
  has : ∀ i, (ksc.portStates i).Has (ports i)
  available : ∀ i, ksc.portsAvailable i = (ports i).isSome
  inside : ∀ i, ports i ≠ none → i < KSATA_MAX_PORTS

@[simp] theorem setAvailable_portStates (ksc : SataController) (i : Nat) (available : Bool) :
    (ksc.setAvailable i available).portStates = ksc.portStates := rfl

@[simp] theorem setState_portsAvailable (ksc : SataController) (i : Nat) (state : PortState) :
    (ksc.setState i state).portsAvailable = ksc.portsAvailable := rfl

@[simp] theorem setState_self (ksc : SataController) (i : Nat) (state : PortState) :
    (ksc.setState i state).portStates i = state :=
  Function.update_self _ _ _

theorem setState_of_ne {i j : Nat} (hne : j ≠ i) (state : PortState) :
    (ksc.setState i state).portStates j = ksc.portStates j :=
  Function.update_of_ne hne _ _

section Destroy

theorem sat_avmfFreeIfAny_zero (Q : Unit → SataMemory → Prop) (E : Fault → Prop) :
    Sat (avmfFreeIfAny 0) s Q E ↔ Q () s := by
  rw [avmfFreeIfAny, if_neg (not_not.mpr rfl), sat_pure]

theorem sat_avmfFreeIfAny {a : Nat} {b : SataBlock} (ha : a ≠ 0)
    (h : HoldsJust s.heap ((a, b) :: rest)) :
    Sat (avmfFreeIfAny a) s (fun _ t => s.Same t ∧ HoldsJust t.heap rest) Blames := by
  rw [avmfFreeIfAny, if_pos ha]
  exact sat_avmfFree h

theorem sat_freeClt (o : OwnedPort) (h : HoldsJust s.heap (o.blocks ++ rest)) :
    Sat (freeClt o.portState) s (fun _ t => s.Same t ∧ HoldsJust t.heap
      ((o.clb, ⟨o.clbPhys, .cmdHdrs o.ctba⟩) :: (o.fis, ⟨o.fisPhys, .fis⟩) :: rest)) Blames := by
  have hfront : HoldsJust s.heap ((o.clt, ⟨o.cltPhys, .clt o.virts⟩) ::
      (tableBlocks o.virts o.phys (List.range o.slots) ++ (o.clb, ⟨o.clbPhys, .cmdHdrs o.ctba⟩) ::
        (o.fis, ⟨o.fisPhys, .fis⟩) :: rest)) :=
    h.perm (List.Perm.cons _ (List.perm_append_comm_assoc [_, _] _ rest))
  refine Sat.ite (fun _ => ?_) fun hzero => absurd o.clt_ne hzero
  rw [sat_bind]
  refine (sat_freeCmdTables List.nodup_range hfront).imp fun _ t ht => ?_
  obtain ⟨hsame, virts, ht⟩ := ht
  exact (sat_avmfFree ht).imp fun _ u hu => ⟨hsame.trans hu.1, hu.2⟩

theorem sat_destroyPorts (hhas : ∀ i ∈ is, (ksc.portStates i).Has (ports i)) (his : is.Nodup)
    (h : HoldsJust s.heap (portBlocks ports is ++ rest)) :
    Sat (destroyPorts is ksc) s (fun ksc' t => s.Same t ∧ ksc'.idx = ksc.idx ∧
      HoldsJust t.heap rest) Blames := by
  induction is generalizing s ksc with
  | nil => exact ⟨⟨rfl, rfl, rfl, rfl⟩, rfl, h⟩
  | cons i is ih =>
      obtain ⟨hi, his⟩ := List.nodup_cons.mp his
      have hport := hhas i (.head _)
      have hothers (state : PortState) (j : Nat) (hj : j ∈ is) :
          (((ksc.setState i state).setAvailable i false).portStates j).Has (ports j) := by
        have hne : j ≠ i := fun heq => hi (heq ▸ hj)
        rw [setAvailable_portStates, setState_of_ne hne]
        exact hhas j (.tail _ hj)
      rw [portBlocks, List.flatMap_cons, List.append_assoc] at h
      rw [destroyPorts]
      cases hp : ports i with
      | none =>
          rw [hp] at hport h
          rw [freeClt, if_neg (not_not.mpr hport.cltVirts), hport.clbVirt, hport.fisVirt]
          simp only [sat_bind, sat_pure, sat_avmfFreeIfAny_zero]
          exact ih (hothers _) his h
      | some o =>
          rw [hp] at hport h
          rw [show ksc.portStates i = o.portState from hport, sat_bind]
          refine (sat_freeClt o h).imp fun _ t ht => ?_
          rw [sat_bind]
          refine (sat_avmfFreeIfAny o.clb_ne ht.2).imp fun _ u hu => ?_
          rw [sat_bind]
          refine (sat_avmfFreeIfAny o.fis_ne hu.2).imp fun _ v hv => ?_
          refine (ih (hothers _) his hv.2).imp fun _ w hw => ?_
          exact ⟨ht.1.trans (hu.1.trans (hv.1.trans hw.1)), hw.2⟩

theorem sat_sataDestroy (howns : ksc.Owns ports) {idx : Nat} (hidx : ksc.idx = idx)
    (hcount : s.controllerCount = idx + 1) (hlt : idx + 1 < 2 ^ 64)
    (h : HoldsJust s.heap (portBlocks ports (List.range KSATA_MAX_PORTS) ++ rest)) :
    Sat (sataDestroy ksc) s (fun _ t => t.controllers = s.controllers ∧ t.controllerCount = idx ∧
      t.controllerCap = s.controllerCap ∧ t.regs = s.regs ∧ HoldsJust t.heap rest) Blames := by
  rw [sataDestroy, sat_bind]
  refine (sat_destroyPorts (fun i _ => howns.has i) List.nodup_range h).imp fun ksc' t ht => ?_
  obtain ⟨hsame, hidx', ht⟩ := ht
  have hlast : (t.controllerCount + 2 ^ 64 - 1) % 2 ^ 64 = idx := by
    rw [hsame.controllerCount, hcount]
    omega
  rw [sat_bind, sat_modify, hidx', hidx, if_pos hlast.symm, sat_pure]
  refine ⟨hsame.controllers, ?_, hsame.controllerCap, hsame.regs, ht⟩
  change t.controllerCount - 1 = idx
  rw [hsame.controllerCount, hcount, Nat.add_sub_cancel]

end Destroy

section Init

-- The registers of the ports that are up have the addresses of their memory.
def PortsTold (s : SataMemory) (device : PcieDevice) (ports : Nat → Option OwnedPort) : Prop :=
  ∀ i o, ports i = some o → s.regs device i = o.regs

-- What the loop over the ports keeps. No port among `is` has been set up yet.
structure BringingUp (ksc : SataController) (ports : Nat → Option OwnedPort) (is : List Nat)
    (rest : List (Nat × SataBlock)) (s : SataMemory) : Prop where
  owns : ksc.Owns ports
  slots : ksc.maxCommandSlots ≤ 32
  ahead : ∀ i ∈ is, ports i = none ∧ i < KSATA_MAX_PORTS
  told : PortsTold s ksc.sataDevice ports
  holds : HoldsJust s.heap (portBlocks ports (List.range KSATA_MAX_PORTS) ++ rest)

theorem SataController.Owns.set (h : ksc.Owns ports) {i : Nat} (hi : i < KSATA_MAX_PORTS)
    (o : OwnedPort) : ((ksc.setState i o.portState).setAvailable i true).Owns
      (Function.update ports i (some o)) where
  has j := by
    by_cases hj : j = i
    · rw [hj, Function.update_self, setAvailable_portStates, setState_self]
      rfl
    · rw [Function.update_of_ne hj, setAvailable_portStates, setState_of_ne hj]
      exact h.has j
  available j := by
    simp only [SataController.setAvailable, setState_portsAvailable, Function.update_apply]
    by_cases hj : j = i
    · rw [if_pos hj, if_pos hj, Option.isSome_some]
    · rw [if_neg hj, if_neg hj, h.available j]
  inside j hj := by
    by_cases heq : j = i
    · exact heq ▸ hi
    · rw [Function.update_of_ne heq] at hj
      exact h.inside j hj

-- A port that did not come up.
theorem SataController.Owns.fail (h : ksc.Owns ports) {i : Nat} (hi : ports i = none)
    {state : PortState} (hstate : state.Empty) : (ksc.setState i state).Owns ports where
  has j := by
    by_cases hj : j = i
    · rw [hj, hi, setState_self]
      exact hstate
    · rw [setState_of_ne hj]
      exact h.has j
  available := h.available
  inside := h.inside

theorem SataMemory.SameBut.trans {s t u : SataMemory} {device : PcieDevice} {is js : List Nat}
    (h : s.SameBut t device is) (h' : t.SameBut u device js) (hsub : is ⊆ js) :
    s.SameBut u device js :=
  ⟨h'.controllers.trans h.controllers, h'.controllerCount.trans h.controllerCount,
    h'.controllerCap.trans h.controllerCap, fun d i hor =>
      (h'.regs d i hor).trans (h.regs d i (hor.imp_right fun hnot hmem => hnot (hsub hmem)))⟩

theorem sat_initPorts (his : is.Nodup) {found : Nat} (hinv : BringingUp ksc ports is rest s)
    (hfound : 0 < found → ∃ i, ports i ≠ none) :
    Sat (initPorts a is found ksc) s (fun r t => s.SameBut t ksc.sataDevice (List.range KSATA_MAX_PORTS) ∧
      r.2.2.idx = ksc.idx ∧ r.2.2.sataDevice = ksc.sataDevice ∧ r.2.2.hbaMem = ksc.hbaMem ∧
        ∃ ports', BringingUp r.2.2 ports' [] rest t ∧
          (0 < r.2.1 → ∃ i, ports' i ≠ none)) Blames := by
  induction is generalizing s ksc ports found with
  | nil =>
      exact ⟨⟨rfl, rfl, rfl, fun _ _ _ => rfl⟩, rfl, rfl, rfl, ports, hinv, hfound⟩
  | cons i is ih =>
      obtain ⟨hi, his⟩ := List.nodup_cons.mp his
      obtain ⟨hnone, hlt⟩ := hinv.ahead i (.head _)
      have hahead (j : Nat) (hj : j ∈ is) := hinv.ahead j (.tail _ hj)
      rw [initPorts]
      refine Sat.ite (fun _ => ?_) fun _ =>
        ih his ⟨hinv.owns, hinv.slots, hahead, hinv.told, hinv.holds⟩ hfound
      have hempty : (ksc.portStates i).Empty := by
        have hhas := hinv.owns.has i
        rwa [hnone] at hhas
      rw [sat_bind]
      refine (sat_sataPortInit hinv.slots hempty hinv.holds).imp fun r t ht => ?_
      have hsub : [i] ⊆ List.range KSATA_MAX_PORTS := by simpa using hlt
      obtain ⟨ok, state⟩ := r
      obtain ⟨hsame, ⟨rfl, hstate, ht⟩ | ⟨rfl, o, rfl, ht, hregs⟩⟩ := ht
      · refine Sat.ite (fun _ => ?_) fun hne => absurd rfl hne
        refine ⟨hsame.trans ⟨rfl, rfl, rfl, fun _ _ _ => rfl⟩ hsub, rfl, rfl, rfl, ports,
          ⟨hinv.owns.fail hnone hstate, hinv.slots, fun _ hj => absurd hj List.not_mem_nil,
            fun j o ho => ?_, ht⟩, hfound⟩
        have hj : j ∉ [i] := fun hmem => by
          rw [List.mem_singleton.mp hmem, hnone] at ho
          cases ho
        rw [hsame.regs _ j (.inr hj)]
        exact hinv.told j o ho
      · refine Sat.ite (fun hne => by cases hne) fun _ => ?_
        have hfill := flatMap_fill_perm (l := List.range KSATA_MAX_PORTS) (i := i)
          List.nodup_range (List.mem_range.mpr hlt)
          (f := fun j => (ports j).elim [] OwnedPort.blocks)
          (g := fun j => (Function.update ports i (some o) j).elim [] OwnedPort.blocks)
          (by rw [hnone]; rfl) (fun j hj => by rw [Function.update_of_ne hj])
        rw [Function.update_self] at hfill
        have hnext : BringingUp ((ksc.setState i o.portState).setAvailable i true)
            (Function.update ports i (some o)) is rest t := by
          refine ⟨hinv.owns.set hlt o, hinv.slots, fun j hj => ?_, fun j p hp => ?_, ?_⟩
          · have hne : j ≠ i := fun heq => hi (heq ▸ hj)
            rw [Function.update_of_ne hne]
            exact hahead j hj
          · by_cases hj : j = i
            · rw [hj, Function.update_self] at hp
              cases hp
              rw [hj]
              exact hregs
            · rw [Function.update_of_ne hj] at hp
              rw [← hinv.told j p hp]
              exact hsame.regs _ j (.inr fun hmem => hj (List.mem_singleton.mp hmem))
          · refine ht.perm ?_
            rw [← List.append_assoc]
            exact hfill.symm.append_right rest
        refine (ih his hnext fun _ => ⟨i, ?_⟩).imp fun r u hu => ?_
        · rw [Function.update_self]
          exact Option.some_ne_none o
        · exact ⟨hsame.trans hu.1 hsub, hu.2⟩

-- A controller that is registered.
structure SataController.Up (ksc : SataController) (idx : Nat) (device : PcieDevice)
    (ports : Nat → Option OwnedPort) : Prop where
  idx : ksc.idx = idx
  sataDevice : ksc.sataDevice = device
  valid : ksc.valid = true
  foundSata : ksc.foundSata = true
  hbaMem : ksc.hbaMem ≠ none
  owns : ksc.Owns ports
  port : ∃ i, ports i ≠ none

-- What sata_init leaves of a controller, whether it comes up or not.
def BroughtUp (s : SataMemory) (idx : Nat) (device : PcieDevice) (rest : List (Nat × SataBlock))
    (r : Bool × SataController) (t : SataMemory) : Prop :=
  t.controllers = s.controllers ∧ t.controllerCap = s.controllerCap ∧
    (∀ d, d ≠ device → t.regs d = s.regs d) ∧
      (r.1 = false ∧ t.controllerCount = idx ∧ HoldsJust t.heap rest ∨
        r.1 = true ∧ t.controllerCount = idx + 1 ∧ ∃ ports, r.2.Up idx device ports ∧
          PortsTold t device ports ∧
            HoldsJust t.heap (portBlocks ports (List.range KSATA_MAX_PORTS) ++ rest))

theorem portBlocks_none (is : List Nat) : portBlocks (fun _ => none) is = [] :=
  List.flatMap_eq_nil_iff.mpr fun _ _ => rfl

theorem newController_owns (idx : Nat) (device : PcieDevice) :
    (newController idx device).Owns fun _ => none :=
  ⟨fun _ => ⟨rfl, rfl, rfl, rfl⟩, fun _ => rfl, fun _ hne => absurd rfl hne⟩

-- Where sata_init gives up on the controller.
theorem sat_giveUp {t : SataMemory} {idx : Nat} {device : PcieDevice} (hlt : idx + 1 < 2 ^ 64)
    (hcount : s.controllerCount = idx + 1) (howns : ksc.Owns ports) (hidx : ksc.idx = idx)
    (hsame : s.SameBut t device (List.range KSATA_MAX_PORTS))
    (ht : HoldsJust t.heap (portBlocks ports (List.range KSATA_MAX_PORTS) ++ rest)) :
    Sat (do return (false, ← sataDestroy ksc)) t (BroughtUp s idx device rest) Blames := by
  rw [sat_bind]
  refine (sat_sataDestroy howns hidx (hsame.controllerCount.trans hcount) hlt ht).imp
    fun ksc' u hu => ?_
  obtain ⟨hctl, hcount', hcap, hregs, hu⟩ := hu
  refine ⟨hctl.trans hsame.controllers, hcap.trans hsame.controllerCap, fun d hd => ?_,
    .inl ⟨rfl, hcount', hu⟩⟩
  rw [hregs]
  exact funext fun i => hsame.regs d i (.inl hd)

theorem sat_initController {idx : Nat} {device : PcieDevice} (hlt : idx + 1 < 2 ^ 64)
    (hcount : s.controllerCount = idx + 1) (hidx : ksc.idx = idx) (hdevice : ksc.sataDevice = device)
    (howns : ksc.Owns fun _ => none) (h : HoldsJust s.heap rest) :
    Sat (initController a ksc) s (BroughtUp s idx device rest) Blames := by
  have hrefl : s.SameBut s device (List.range KSATA_MAX_PORTS) := ⟨rfl, rfl, rfl, fun _ _ _ => rfl⟩
  have hstart : HoldsJust s.heap (portBlocks (fun _ => none) (List.range KSATA_MAX_PORTS) ++ rest) := by
    rw [portBlocks_none, List.nil_append]
    exact h
  have hslots : (a.cap >>> 8 &&& 0x1F) + 1 ≤ 32 := Nat.succ_le_succ Nat.and_le_right
  have hports : (a.cap &&& 0x1F) + 1 ≤ KSATA_MAX_PORTS := Nat.succ_le_succ Nat.and_le_right
  unfold initController
  generalize (Bars.sataMapBar.value ⟨a.config, [], []⟩).join = hbaMem
  refine Sat.ite (fun _ => sat_giveUp hlt hcount howns hidx hrefl hstart) fun hmapped => ?_
  have howns' (slots : Nat) : ({ ksc with
      hbaMem := hbaMem, maxCommandSlots := slots } : SataController).Owns fun _ => none :=
    ⟨howns.has, howns.available, howns.inside⟩
  refine Sat.ite (fun _ => sat_giveUp hlt hcount (howns' _) hidx hrefl hstart) fun _ => ?_
  refine Sat.ite (fun _ => sat_giveUp hlt hcount (howns' _) hidx hrefl hstart) fun _ => ?_
  refine Sat.ite (fun _ => sat_giveUp hlt hcount (howns' _) hidx hrefl hstart) fun _ => ?_
  rw [sat_bind]
  refine (sat_initPorts List.nodup_range ⟨howns' _, hslots,
    fun i hi => ⟨rfl, (List.mem_range.mp hi).trans_le hports⟩,
    fun _ _ ho => absurd ho.symm (Option.some_ne_none _), hstart⟩
    fun hpos => absurd hpos (Nat.lt_irrefl 0)).imp fun r t ht => ?_
  obtain ⟨ok, found, ksc'⟩ := r
  obtain ⟨hsame, hidx', hdevice', hhba, ports, hinv, hfound⟩ := ht
  dsimp only at hsame hidx' hdevice' hhba
  rw [hdevice] at hsame hdevice'
  have hgive := sat_giveUp hlt hcount hinv.owns (hidx'.trans hidx) hsame hinv.holds
  refine Sat.ite (fun _ => hgive) fun _ => ?_
  refine Sat.ite (fun hpos => ?_) fun _ => hgive
  refine ⟨hsame.controllers, hsame.controllerCap, fun d hd => ?_, .inr ⟨rfl, ?_, ports, ?_, ?_, ?_⟩⟩
  · exact funext fun i => hsame.regs d i (.inl hd)
  · exact hsame.controllerCount.trans hcount
  · refine ⟨hidx'.trans hidx, hdevice', rfl, rfl, ?_, ⟨hinv.owns.has,
      hinv.owns.available, hinv.owns.inside⟩, hfound hpos⟩
    rw [hhba]
    exact fun hnone => hmapped (Option.isNone_iff_eq_none.mpr hnone)
  · exact hdevice' ▸ hinv.told
  · exact hinv.holds

end Init

end AosKernel.Io.Ahci
