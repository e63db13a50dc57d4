import AosKernel.Io.SataBringUp
import AosKernel.Lib.Trace

namespace AosKernel.Io.Ahci

open Verif Verif.Exec

-- A registered controller, with the memory of its ports.
abbrev Registered := SataController × (Nat → Option OwnedPort)

def controllerBlocks (cs : List Registered) : List (Nat × SataBlock) :=
  cs.flatMap fun c => portBlocks c.2 (List.range KSATA_MAX_PORTS)

theorem controllerBlocks_snoc (cs : List Registered) (c : Registered) :
    controllerBlocks (cs ++ [c]) =
      controllerBlocks cs ++ portBlocks c.2 (List.range KSATA_MAX_PORTS) := by
  rw [controllerBlocks, List.flatMap_append, List.flatMap_singleton]
  rfl

namespace SataMemory

-- The array of controllers, where there is one, and what is in it.
inductive Holds (m : SataMemory) (cs : List Registered) (rest : List (Nat × SataBlock)) : Prop
  | empty (controllers : m.controllers = 0) (none : cs = []) (cap : m.controllerCap = 0)
      (holds : HoldsJust m.heap rest)
  | array (phys : Nat) (array : Nat → SataController) (controllers : m.controllers ≠ 0)
      (same : ∀ i (c : Registered), cs[i]? = some c → array i = c.1)
      (holds : HoldsJust m.heap ((m.controllers, ⟨phys, .controllers m.controllerCap array⟩) ::
        (controllerBlocks cs ++ rest)))

-- The blocks in use are the array, those of the controllers that are registered, and
-- the ones of `names`.
structure Inv (m : SataMemory) (cs : List Registered) (names : List (Nat × SataBlock)) : Prop where
  count : m.controllerCount = cs.length
  count_le : m.controllerCount ≤ m.controllerCap
  cap_le : m.controllerCap ≤ KSATA_MAX_CONTROLLERS
  cap_step : m.controllerCap % KSATA_ALLOC_STEP = 0
  up : ∀ i (c : Registered), cs[i]? = some c → c.1.Up i c.1.sataDevice c.2 ∧ PortsTold m c.1.sataDevice c.2
  devices : (cs.map fun c => c.1.sataDevice).Nodup
  holds : m.Holds cs names

variable {m : SataMemory} {cs : List Registered} {names names' : List (Nat × SataBlock)}

theorem Inv.of_holds {t : SataMemory} (h : m.Inv cs names) (hcount : t.controllerCount = cs.length)
    (hle : t.controllerCount ≤ t.controllerCap) (hcap : t.controllerCap ≤ KSATA_MAX_CONTROLLERS)
    (hstep : t.controllerCap % KSATA_ALLOC_STEP = 0) (hregs : t.regs = m.regs)
    (ht : t.Holds cs names') : t.Inv cs names' :=
  ⟨hcount, hle, hcap, hstep, fun i c hc => ⟨(h.up i c hc).1, fun j o ho => by
    rw [hregs]
    exact (h.up i c hc).2 j o ho⟩, h.devices, ht⟩

theorem Inv.same {t : SataMemory} (h : m.Inv cs names) (hsame : m.Same t)
    (ht : t.Holds cs names') : t.Inv cs names' := by
  refine h.of_holds (hsame.controllerCount.trans h.count) ?_ ?_ ?_ hsame.regs ht
  · rw [hsame.controllerCount, hsame.controllerCap]
    exact h.count_le
  · rw [hsame.controllerCap]
    exact h.cap_le
  · rw [hsame.controllerCap]
    exact h.cap_step

theorem sat_makeRoom (h : m.Inv cs names) (junk : Nat → SataController) :
    Sat (makeRoom junk) m (fun ok t => t.Inv cs names ∧ t.regs = m.regs ∧
      (ok = true → t.controllers ≠ 0 ∧ t.controllerCount < t.controllerCap)) Blames := by
  rw [makeRoom, sat_bind, sat_get]
  obtain ⟨hctl, rfl, hcap, hholds⟩ | ⟨phys, array, hctl, hsame, hholds⟩ := h.holds
  · rw [if_pos hctl, sat_bind]
    refine (sat_avmfAlloc hholds _).imp fun r t ht => ?_
    obtain ⟨a, aphys⟩ := r
    obtain ⟨hkept, ⟨rfl, ht⟩ | ⟨ha, -, ht⟩⟩ := ht
    · refine Sat.ite (fun _ => ?_) fun hne => absurd rfl hne
      exact ⟨h.same hkept (.empty (hkept.controllers.trans hctl) rfl
        (hkept.controllerCap.trans hcap) ht), hkept.regs, fun heq => by cases heq⟩
    · refine Sat.ite (fun hzero => absurd hzero ha) fun _ => ?_
      rw [sat_bind, sat_modify, sat_pure]
      have hpos : 0 < KSATA_ALLOC_STEP := by decide
      exact ⟨h.of_holds rfl (Nat.zero_le _) (show KSATA_ALLOC_STEP ≤ KSATA_MAX_CONTROLLERS by decide)
        (Nat.mod_self _) hkept.regs (.array aphys junk ha (fun i c hc => by simp at hc) ht),
        hkept.regs, fun _ => ⟨ha, hpos⟩⟩
  · rw [if_neg hctl]
    refine Sat.ite (fun hfull => ?_) fun hroom =>
      ⟨h, rfl, fun _ => ⟨hctl, Nat.lt_of_not_le hroom⟩⟩
    refine Sat.ite (fun _ => ⟨h, rfl, fun heq => by cases heq⟩) fun hmax => ?_
    rw [hholds.load (.head _)]
    dsimp only
    rw [sat_bind]
    refine (sat_avmfAlloc hholds _).imp fun r t ht => ?_
    obtain ⟨a, aphys⟩ := r
    obtain ⟨hkept, ⟨rfl, ht⟩ | ⟨ha, -, ht⟩⟩ := ht
    · refine Sat.ite (fun _ => ?_) fun hne => absurd rfl hne
      refine ⟨h.same hkept (.array phys array (hkept.controllers ▸ hctl) hsame ?_), hkept.regs,
        fun heq => by cases heq⟩
      rw [hkept.controllers, hkept.controllerCap]
      exact ht
    · refine Sat.ite (fun hzero => absurd hzero ha) fun _ => ?_
      rw [sat_bind]
      refine (sat_avmfFree (ht.perm (List.Perm.swap _ _ _))).imp fun _ u hu => ?_
      obtain ⟨hkept', hu⟩ := hu
      have hkept := hkept.trans hkept'
      have hlt : m.controllerCap < KSATA_MAX_CONTROLLERS :=
        Nat.lt_of_le_of_lt hfull (Nat.lt_of_not_le hmax)
      have hstep := h.cap_step
      have hcount : u.controllerCount < m.controllerCap + KSATA_ALLOC_STEP := by
        rw [hkept.controllerCount]
        exact Nat.lt_of_le_of_lt h.count_le (Nat.lt_add_of_pos_right (by decide))
      rw [sat_bind, sat_modify, sat_pure]
      refine ⟨h.of_holds (hkept.controllerCount.trans h.count) hcount.le ?_ ?_ hkept.regs
        (.array aphys _ ha (fun i c hc => ?_) hu), hkept.regs, fun _ => ⟨ha, hcount⟩⟩
      · change m.controllerCap + 16 ≤ 256
        change m.controllerCap < 256 at hlt
        change m.controllerCap % 16 = 0 at hstep
        omega
      · exact (Nat.add_mod_right _ _).trans hstep
      · have hi : i < m.controllerCount := h.count ▸ (List.getElem?_eq_some_iff.mp hc).1
        rw [if_pos hi]
        exact hsame i c hc

theorem getElem?_snoc {α : Type} {l : List α} {a c : α} {i : Nat} (h : (l ++ [a])[i]? = some c) :
    l[i]? = some c ∨ i = l.length ∧ c = a := by
  obtain hlt | hge := Nat.lt_or_ge i l.length
  · rw [List.getElem?_append_left hlt] at h
    exact .inl h
  · rw [List.getElem?_append_right hge, List.getElem?_singleton] at h
    obtain ⟨hzero, heq⟩ := Option.ite_none_right_eq_some.mp h
    exact .inr ⟨by omega, (Option.some.inj heq).symm⟩

section Array

variable {l : List (Nat × SataBlock)} {phys i : Nat} {array : Nat → SataController}

theorem sat_loadController (h : HoldsJust m.heap
      ((m.controllers, ⟨phys, .controllers m.controllerCap array⟩) :: l))
    (hi : i < m.controllerCap) (Q : SataController → SataMemory → Prop) (E : Fault → Prop) :
    Sat (loadController i) m Q E ↔ Q (array i) m := by
  rw [loadController, sat_bind, sat_get, h.load (.head _)]
  dsimp only
  rw [if_neg (Nat.not_le_of_lt hi)]
  rfl

theorem sat_storeController (h : HoldsJust m.heap
      ((m.controllers, ⟨phys, .controllers m.controllerCap array⟩) :: l))
    (hi : i < m.controllerCap) (ksc : SataController) :
    Sat (storeController i ksc) m (fun _ t => t.controllers = m.controllers ∧
      t.controllerCount = m.controllerCount ∧ t.controllerCap = m.controllerCap ∧
        t.regs = m.regs ∧ HoldsJust t.heap ((m.controllers, ⟨phys, .controllers m.controllerCap
          (Function.update array i ksc)⟩) :: l)) Blames := by
  rw [storeController, sat_bind, sat_get, h.load (.head _)]
  dsimp only
  rw [if_neg (Nat.not_le_of_lt hi)]
  exact ⟨rfl, rfl, rfl, rfl, h.store⟩

end Array

-- What sata_init leaves: the controllers as they were, or one more.
structure Initialised (m : SataMemory) (cs : List Registered) (names : List (Nat × SataBlock))
    (r : Bool × Option Nat) (t : SataMemory) : Prop where
  failed : r.1 = false → t.Inv cs names
  succeeded : r.1 = true → r.2 = some cs.length ∧ ∃ c, t.Inv (cs ++ [c]) names

theorem sat_sataInit (h : m.Inv cs names) {device : PcieDevice}
    (hnew : device ∉ cs.map fun c => c.1.sataDevice) (a : InitAnswers) :
    Sat (sataInit device a) m (Initialised m cs names) Blames := by
  rw [sataInit, sat_bind]
  refine (sat_makeRoom h a.junk).imp fun room t ht => ?_
  obtain ⟨hinv, hregs, hroom⟩ := ht
  cases room with
  | false =>
      refine Sat.ite (fun _ => ?_) fun hne => absurd rfl hne
      exact ⟨fun _ => hinv, fun heq => by cases heq⟩
  | true =>
      refine Sat.ite (fun heq => by cases heq) fun _ => ?_
      obtain ⟨hctl, hlt⟩ := hroom rfl
      obtain ⟨hzero, -⟩ | ⟨phys, array, -, hsame, hholds⟩ := hinv.holds
      · exact absurd hzero hctl
      rw [sat_bind, sat_get, sat_bind]
      refine (sat_storeController hholds hlt _).imp fun _ u hu => ?_
      obtain ⟨hctl', hcount', hcap', hregs', hu⟩ := hu
      rw [sat_bind, sat_modify, sat_bind]
      let v : SataMemory := { u with controllerCount := u.controllerCount + 1 }
      rw [← hctl', ← hcap'] at hu
      have hv : HoldsJust v.heap ((v.controllers, ⟨phys, .controllers v.controllerCap
        (Function.update array t.controllerCount (newController t.controllerCount device))⟩) ::
          (controllerBlocks cs ++ names)) := hu
      have hltv : t.controllerCount < v.controllerCap := hcap'.symm ▸ hlt
      have hbound : t.controllerCount + 1 < 2 ^ 64 :=
        Nat.lt_of_le_of_lt (Nat.le_trans hlt hinv.cap_le) (by decide)
      have hcountv : v.controllerCount = t.controllerCount + 1 := congrArg (· + 1) hcount'
      refine (sat_loadController hv hltv _ _).mpr ?_
      generalize hksc : Function.update array t.controllerCount
        (newController t.controllerCount device) t.controllerCount = ksc
      rw [Function.update_self] at hksc
      have howns : ksc.Owns fun _ => none := hksc ▸ newController_owns _ _
      have hidx : ksc.idx = t.controllerCount := hksc ▸ rfl
      have hdevice : ksc.sataDevice = device := hksc ▸ rfl
      clear hksc
      rw [sat_bind]
      refine (sat_initController hbound hcountv hidx hdevice howns hv).imp fun r w hw => ?_
      obtain ⟨ok, ksc'⟩ := r
      obtain ⟨hctlw, hcapw, hregsw, hw⟩ := hw
      have hltw : t.controllerCount < w.controllerCap := hcapw.symm ▸ hltv
      have hctlx : w.controllers ≠ 0 := by
        rw [hctlw]
        exact hctl' ▸ hctl
      have hcapx : w.controllerCap = t.controllerCap := hcapw.trans hcap'
      have htold {x : SataMemory} (hx : x.regs = w.regs) (i : Nat) (c : Registered)
          (hc : cs[i]? = some c) : PortsTold x c.1.sataDevice c.2 := fun j o ho => by
        have hne : c.1.sataDevice ≠ device := fun heq =>
          hnew (List.mem_map.mpr ⟨c, List.mem_of_getElem? hc, heq⟩)
        rw [hx, hregsw _ hne, show v.regs = t.regs from hregs']
        exact (hinv.up i c hc).2 j o ho
      have hold (first second : SataController) (i : Nat) (c : Registered) (hc : cs[i]? = some c) :
          Function.update (Function.update array t.controllerCount first) t.controllerCount second i =
            c.1 := by
        have hi : i < t.controllerCount := hinv.count ▸ (List.getElem?_eq_some_iff.mp hc).1
        rw [Function.update_of_ne hi.ne, Function.update_of_ne hi.ne]
        exact hsame i c hc
      rw [← hctlw, ← hcapw] at hw
      rw [sat_bind]
      obtain ⟨rfl, hcountw, hw⟩ | ⟨rfl, hcountw, ports, hup, htoldw, hw⟩ := hw
      · refine (sat_storeController hw hltw _).imp fun _ x hx => ?_
        obtain ⟨hctly, hcounty, hcapy, hregsy, hx⟩ := hx
        rw [← hctly, ← hcapy] at hx
        have hcapz : x.controllerCap = t.controllerCap := hcapy.trans hcapx
        have hcountz : x.controllerCount = t.controllerCount := hcounty.trans hcountw
        refine ⟨fun _ => ⟨hcountz.trans hinv.count, ?_, ?_, ?_, fun i c hc =>
          ⟨(hinv.up i c hc).1, htold hregsy i c hc⟩, hinv.devices,
          .array phys _ (hctly ▸ hctlx) (hold _ _) hx⟩, fun heq => Bool.noConfusion heq⟩
        · rw [hcountz, hcapz]
          exact hinv.count_le
        · exact hcapz ▸ hinv.cap_le
        · exact hcapz ▸ hinv.cap_step
      · have hfront := hw.perm List.perm_middle
        refine (sat_storeController hfront hltw _).imp fun _ x hx => ?_
        obtain ⟨hctly, hcounty, hcapy, hregsy, hx⟩ := hx
        rw [← hctly, ← hcapy] at hx
        have hcapz : x.controllerCap = t.controllerCap := hcapy.trans hcapx
        have hcountz : x.controllerCount = t.controllerCount + 1 := hcounty.trans hcountw
        have hperm : (portBlocks ports (List.range KSATA_MAX_PORTS) ++
            (controllerBlocks cs ++ names)).Perm
              (controllerBlocks (cs ++ [(ksc', ports)]) ++ names) := by
          rw [controllerBlocks_snoc, List.append_assoc]
          exact List.perm_append_comm_assoc _ _ _
        refine ⟨fun heq => Bool.noConfusion heq, fun _ => ⟨congrArg some hinv.count, (ksc', ports), ?_⟩⟩
        refine ⟨?_, ?_, hcapz ▸ hinv.cap_le, hcapz ▸ hinv.cap_step, fun i c hc => ?_, ?_,
          .array phys _ (hctly ▸ hctlx) (fun i c hc => ?_) (hx.perm (hperm.cons _))⟩
        · rw [hcountz, hinv.count, List.length_append, List.length_singleton]
        · rw [hcountz, hcapz]
          exact hlt
        · obtain hc | ⟨rfl, rfl⟩ := getElem?_snoc hc
          · exact ⟨(hinv.up i c hc).1, htold hregsy i c hc⟩
          · refine ⟨⟨hup.idx.trans hinv.count, rfl, hup.valid, hup.foundSata, hup.hbaMem, hup.owns,
              hup.port⟩, fun j o ho => ?_⟩
            rw [hregsy, hup.sataDevice]
            exact htoldw j o ho
        · rw [List.map_append, List.map_singleton, hup.sataDevice]
          exact List.nodup_append.mpr ⟨hinv.devices, List.nodup_singleton _, fun d hd e he heq =>
            hnew (List.mem_singleton.mp he ▸ heq ▸ hd)⟩
        · obtain hc | ⟨rfl, rfl⟩ := getElem?_snoc hc
          · exact hold _ _ i c hc
          · rw [← hinv.count, Function.update_self]

theorem Holds.load (h : m.Holds cs names) {a : Nat} {b : SataBlock}
    (hmem : (a, b) ∈ controllerBlocks cs ++ names) : m.heap a = some b := by
  obtain ⟨-, rfl, -, hholds⟩ | ⟨phys, array, -, -, hholds⟩ := h
  · exact hholds.load hmem
  · exact hholds.load (.tail _ hmem)

-- A block that is not the array.
theorem Holds.mem (h : m.Holds cs names) {a : Nat} {b : SataBlock} (hab : m.heap a = some b)
    (hne : a ≠ m.controllers) : (a, b) ∈ controllerBlocks cs ++ names := by
  obtain ⟨-, rfl, -, hholds⟩ | ⟨phys, array, -, -, hholds⟩ := h
  · exact (hholds.mem_iff a b).mp hab
  · obtain heq | hmem := List.mem_cons.mp ((hholds.mem_iff a b).mp hab)
    · exact absurd (congrArg Prod.fst heq) hne
    · exact hmem

-- What sata_get_block_device leaves: perhaps a name that is the caller's from then on.
def Named (m : SataMemory) (cs : List Registered) (names : List (Nat × SataBlock))
    (r : Option BlockDevice) (t : SataMemory) : Prop :=
  m.Same t ∧ ((∀ d, r = some d → d.name = 0) ∧ t.Inv cs names ∨
    ∃ d b, r = some d ∧ d.name ≠ 0 ∧ t.Inv cs ((d.name, b) :: names))

theorem sat_sataGetBlockDevice (h : m.Inv cs names) (cidx portId : Nat)
    (identified : Option (Nat → Nat)) :
    Sat (sataGetBlockDevice cidx portId identified) m (Named m cs names) Blames := by
  have hnone : Named m cs names none m :=
    ⟨⟨rfl, rfl, rfl, rfl⟩, .inl ⟨fun d hd => absurd hd.symm (Option.some_ne_none d), h⟩⟩
  unfold sataGetBlockDevice
  rw [sat_bind, sat_get]
  refine Sat.ite (fun _ => hnone) fun hrange => ?_
  have hlt : cidx < m.controllerCount := Nat.lt_of_not_le fun hle => hrange (.inl hle)
  obtain ⟨-, rfl, -, -⟩ | ⟨phys, array, hctl, hsame, hholds⟩ := h.holds
  · rw [h.count] at hlt
    exact absurd hlt (Nat.not_lt_zero _)
  rw [sat_bind, sat_loadController hholds (Nat.lt_of_lt_of_le hlt h.count_le)]
  refine Sat.ite (fun _ => hnone) fun _ => Sat.ite (fun _ => hnone) fun _ => ?_
  cases identified with
  | none => exact hnone
  | some words =>
      dsimp only
      rw [sat_bind]
      refine (sat_avmfAlloc hholds _).imp fun r t ht => ?_
      obtain ⟨name, nphys⟩ := r
      obtain ⟨hkept, ⟨hzero, ht⟩ | ⟨hname, -, ht⟩⟩ := ht
      · refine ⟨hkept, .inl ⟨fun d hd => ?_, h.same hkept (.array phys array ?_ hsame ?_)⟩⟩
        · cases hd
          exact hzero
        · exact hkept.controllers ▸ hctl
        · rw [hkept.controllers, hkept.controllerCap]
          exact ht
      · have hfront := ht.perm ((List.Perm.swap _ _ _).trans (List.perm_middle.symm.cons _))
        rw [← hkept.controllers, ← hkept.controllerCap] at hfront
        exact ⟨hkept, .inr ⟨_, _, rfl, hname,
          h.same hkept (.array phys array (hkept.controllers ▸ hctl) hsame hfront)⟩⟩

-- The controller at an index of the array.
def controller (m : SataMemory) (i : Nat) : Option SataController :=
  match m.heap m.controllers with
  | some ⟨_, .controllers cap array⟩ => if i < cap then some (array i) else none
  | _ => none

-- The blocks of a port that is up.
def portMemory (m : SataMemory) (state : PortState) : List Nat :=
  if state.active then
    state.cltVirts :: state.clbVirt :: state.fisVirt ::
      match m.heap state.cltVirts with
      | some ⟨_, .clt virts⟩ => (List.range state.slots).map virts
      | _ => []
  else []

def controllerMemory (m : SataMemory) (ksc : SataController) : List Nat :=
  (List.range KSATA_MAX_PORTS).flatMap fun i => m.portMemory (ksc.portStates i)

-- The blocks of the driver.
def memory (m : SataMemory) : List Nat :=
  (if m.controllers = 0 then [] else [m.controllers]) ++
    ((List.range m.controllerCount).filterMap m.controller).flatMap m.controllerMemory

theorem Inv.controller (h : m.Inv cs names) {i : Nat} {c : Registered} (hc : cs[i]? = some c) :
    m.controller i = some c.1 := by
  have hi : i < m.controllerCap :=
    Nat.lt_of_lt_of_le (h.count ▸ (List.getElem?_eq_some_iff.mp hc).1) h.count_le
  obtain ⟨-, rfl, -, -⟩ | ⟨phys, array, -, hsame, hholds⟩ := h.holds
  · simp at hc
  · rw [SataMemory.controller, hholds.load (.head _)]
    dsimp only
    rw [if_pos hi, hsame i c hc]

theorem tableBlocks_map {virts phys : Nat → Nat} {js : List Nat} (h : ∀ j ∈ js, virts j ≠ 0) :
    (tableBlocks virts phys js).map Prod.fst = js.map virts := by
  induction js with
  | nil => rfl
  | cons j js ih =>
      have hrest := ih fun i hi => h i (.tail _ hi)
      rw [tableBlocks, List.flatMap_cons, if_neg (h j (.head _)), List.map_append, List.map_cons]
      exact congrArg (virts j :: ·) hrest

theorem Inv.controllerMemory (h : m.Inv cs names) {i : Nat} {c : Registered}
    (hc : cs[i]? = some c) : m.controllerMemory c.1 =
      (portBlocks c.2 (List.range KSATA_MAX_PORTS)).map Prod.fst := by
  rw [SataMemory.controllerMemory, portBlocks, List.map_flatMap]
  refine List.flatMap_congr fun p hp => ?_
  have hhas := (h.up i c hc).1.owns.has p
  cases ho : c.2 p with
  | none =>
      rw [ho] at hhas
      rw [portMemory, hhas.active]
      rfl
  | some o =>
      rw [ho] at hhas
      have hmem : (o.clt, (⟨o.cltPhys, .clt o.virts⟩ : SataBlock)) ∈ controllerBlocks cs ++ names := by
        refine List.mem_append_left _ (List.mem_flatMap.mpr ⟨c, List.mem_of_getElem? hc, ?_⟩)
        refine List.mem_flatMap.mpr ⟨p, hp, ?_⟩
        rw [ho]
        exact .head _
      rw [hhas, portMemory, OwnedPort.portState, if_pos rfl, h.holds.load hmem]
      dsimp only
      rw [Option.elim_some, OwnedPort.blocks, List.map_cons, List.map_cons, List.map_cons,
        tableBlocks_map fun j hj => (o.tables j (List.mem_range.mp hj)).1]

theorem filterMap_range {α β : Type} (l : List α) (f : Nat → Option β) (g : α → β)
    (h : ∀ i a, l[i]? = some a → f i = some (g a)) :
    (List.range l.length).filterMap f = l.map g := by
  induction l using List.reverseRecOn with
  | nil => rfl
  | append_singleton l a ih =>
      have hlast : f l.length = some (g a) := h _ _ List.getElem?_concat_length
      rw [List.length_append, List.length_singleton, List.range_succ, List.filterMap_append,
        List.map_append, List.filterMap_cons_some hlast, List.filterMap_nil, List.map_singleton]
      rw [ih fun i b hb => h i b ?_]
      rw [List.getElem?_append_left (List.getElem?_eq_some_iff.mp hb).1, hb]

-- The blocks of the driver and the names are what is in use.
theorem Inv.memory (h : m.Inv cs names) : (m.memory ++ names.map Prod.fst).Nodup ∧
    ∀ a, m.heap a ≠ none ↔ a ∈ m.memory ++ names.map Prod.fst := by
  have hmemory : ((List.range m.controllerCount).filterMap m.controller).flatMap
      m.controllerMemory = (controllerBlocks cs).map Prod.fst := by
    rw [h.count, filterMap_range cs m.controller Prod.fst fun i c hc => h.controller hc,
      List.flatMap_map, controllerBlocks, List.map_flatMap]
    refine List.flatMap_congr fun c hc => ?_
    obtain ⟨i, hi⟩ := List.mem_iff_getElem?.mp hc
    exact h.controllerMemory hi
  rw [SataMemory.memory, hmemory]
  obtain ⟨hctl, rfl, -, hholds⟩ | ⟨phys, array, hctl, -, hholds⟩ := h.holds
  · rw [if_pos hctl]
    exact ⟨hholds.nodup, fun a => hholds.in_use_iff⟩
  · rw [if_neg hctl, List.append_assoc, ← List.map_append]
    exact ⟨hholds.nodup, fun a => hholds.in_use_iff⟩

end SataMemory

section Sessions

-- The driver, and the names that its callers have.
structure SataSession where
  memory : SataMemory
  names : List Nat

-- A call of the driver, with what the allocator answers during it.
inductive DriverCall
  | init (device : PcieDevice) (a : InitAnswers) (allocs : List (Option (Nat × Nat)))
  | getBlockDevice (cidx portId : Nat) (identified : Option (Nat → Nat))
      (allocs : List (Option (Nat × Nat)))

inductive DriverResult
  | initialised (ok : Bool) (idx : Option Nat)
  | blockDevice (out : Option BlockDevice)

def DriverCall.exec : DriverCall → SataM DriverResult
  | .init device a allocs => do
      modify fun s => { s with allocs := allocs }
      let (ok, idx) ← sataInit device a
      return .initialised ok idx
  | .getBlockDevice cidx portId identified allocs => do
      modify fun s => { s with allocs := allocs }
      return .blockDevice (← sataGetBlockDevice cidx portId identified)

def DriverResult.name : DriverResult → Nat
  | .blockDevice (some d) => d.name
  | _ => 0

def SataStep (s : SataSession) (c : DriverCall) (t : SataSession) : Prop :=
  ∃ r, Returns c.exec s.memory r t.memory ∧
    t.names = if r.name = 0 then s.names else r.name :: s.names

-- No controller is set up twice.
def SataSession.Admissible (s : SataSession) : DriverCall → Prop
  | .init device _ _ => ∀ i < s.memory.controllerCount, ∀ ksc, s.memory.controller i = some ksc →
      ksc.sataDevice ≠ device
  | .getBlockDevice .. => True

-- Two registers hold a physical address.
def IsAddress (lower upper phys : Nat) : Prop :=
  lower < 2 ^ 32 ∧ upper < 2 ^ 32 ∧ upper * 2 ^ 32 + lower = phys

-- What the controller has been told of a port is where the port's memory is.
structure SataMemory.Tells (m : SataMemory) (device : PcieDevice) (p : Nat) (state : PortState) :
    Prop where
  clb : IsAddress (m.regs device p).clb (m.regs device p).clbu state.clbPhys
  fb : IsAddress (m.regs device p).fb (m.regs device p).fbu state.fisPhys
  fis : m.heap state.fisVirt = some ⟨state.fisPhys, .fis⟩
  tables : ∃ cltPhys virts ctba, m.heap state.cltVirts = some ⟨cltPhys, .clt virts⟩ ∧
    m.heap state.clbVirt = some ⟨state.clbPhys, .cmdHdrs ctba⟩ ∧ ∀ j < state.slots,
      ∃ phys, m.heap (virts j) = some ⟨phys, .cmdTable⟩ ∧ IsAddress (ctba j).1 (ctba j).2 phys

-- A controller that callers can use.
structure SataMemory.Usable (m : SataMemory) (i : Nat) (ksc : SataController) : Prop where
  idx : ksc.idx = i
  valid : ksc.valid = true ∧ ksc.foundSata = true
  mapped : ksc.hbaMem ≠ none
  port : ∃ p, (ksc.portStates p).active = true
  available : ∀ p, ksc.portsAvailable p = (ksc.portStates p).active
  inside : ∀ p, (ksc.portStates p).active = true → p < KSATA_MAX_PORTS
  tells : ∀ p, (ksc.portStates p).active = true → m.Tells ksc.sataDevice p (ksc.portStates p)

-- What a call leaves alone: the controllers there are, and every block but the array,
-- which may move.
structure SataSession.Effect (s : SataSession) (c : DriverCall) (r : DriverResult) (t : SataMemory) :
    Prop where
  blocks : ∀ a b, s.memory.heap a = some b → a ≠ s.memory.controllers → t.heap a = some b
  controllers : ∀ i < s.memory.controllerCount, t.controller i = s.memory.controller i
  count : t.controllerCount = s.memory.controllerCount +
    match r with
    | .initialised true _ => 1
    | _ => 0
  index : ∀ idx, r = .initialised true idx → idx = some s.memory.controllerCount

variable {m : SataMemory} {cs : List Registered} {names : List (Nat × SataBlock)}

theorem halves_isAddress {phys : Nat} (h : phys < 2 ^ 64) :
    IsAddress (halves phys).1 (halves phys).2 phys := by
  refine ⟨Nat.mod_lt _ (by decide), ?_, Nat.div_add_mod' phys (2 ^ 32)⟩
  rw [halves, Nat.div_lt_iff_lt_mul (by decide)]
  exact h

theorem PortState.Has.active_eq {state : PortState} {o : Option OwnedPort} (h : state.Has o) :
    state.active = o.isSome := by
  cases o with
  | none => exact h.active
  | some o =>
      rw [show state = o.portState from h]
      rfl

theorem SataMemory.Inv.tells (h : m.Inv cs names) {i : Nat} {c : Registered}
    (hc : cs[i]? = some c) {p : Nat} {o : OwnedPort} (ho : c.2 p = some o) :
    m.Tells c.1.sataDevice p o.portState := by
  obtain ⟨hup, htold⟩ := h.up i c hc
  have hp : p < KSATA_MAX_PORTS := hup.owns.inside p (ho ▸ Option.some_ne_none o)
  have hload {a : Nat} {b : SataBlock} (hmem : (a, b) ∈ o.blocks) : m.heap a = some b := by
    refine h.holds.load (List.mem_append_left _ (List.mem_flatMap.mpr
      ⟨c, List.mem_of_getElem? hc, List.mem_flatMap.mpr ⟨p, List.mem_range.mpr hp, ?_⟩⟩))
    rw [ho]
    exact hmem
  have hregs : m.regs c.1.sataDevice p = o.regs := htold p o ho
  refine ⟨hregs ▸ halves_isAddress o.clbPhys_lt, hregs ▸ halves_isAddress o.fisPhys_lt,
    hload (.tail _ (.tail _ (.head _))), o.cltPhys, o.virts, o.ctba, hload (.head _),
    hload (.tail _ (.head _)), fun j hj => ?_⟩
  obtain ⟨hvirt, hctba, hphys⟩ := o.tables j hj
  refine ⟨o.phys j, hload ?_, hctba ▸ halves_isAddress hphys⟩
  refine .tail _ (.tail _ (.tail _ (List.mem_flatMap.mpr ⟨j, List.mem_range.mpr hj, ?_⟩)))
  rw [if_neg hvirt]
  exact .head _

theorem SataMemory.Inv.usable (h : m.Inv cs names) {i : Nat} {c : Registered}
    (hc : cs[i]? = some c) : m.Usable i c.1 := by
  obtain ⟨hup, -⟩ := h.up i c hc
  have hactive (p : Nat) := (hup.owns.has p).active_eq
  have hsome {p : Nat} (hp : (c.1.portStates p).active = true) : ∃ o, c.2 p = some o := by
    rw [hactive] at hp
    exact Option.isSome_iff_exists.mp hp
  refine ⟨hup.idx, ⟨hup.valid, hup.foundSata⟩, hup.hbaMem, ?_, fun p => ?_, fun p hp => ?_,
    fun p hp => ?_⟩
  · obtain ⟨p, hp⟩ := hup.port
    exact ⟨p, by rw [hactive, Option.isSome_iff_ne_none]; exact hp⟩
  · rw [hup.owns.available, hactive]
  · obtain ⟨o, ho⟩ := hsome hp
    exact hup.owns.inside p (ho ▸ Option.some_ne_none o)
  · obtain ⟨o, ho⟩ := hsome hp
    have hhas := hup.owns.has p
    rw [ho] at hhas
    rw [show c.1.portStates p = o.portState from hhas]
    exact h.tells hc ho

-- The invariant of a session.
def SataSession.Inv (s : SataSession) (cs : List Registered) (names : List (Nat × SataBlock)) :
    Prop :=
  s.memory.Inv cs names ∧ names.map Prod.fst = s.names

-- What was in use stays, and so do the controllers.
theorem SataMemory.Inv.effect {t : SataMemory} {cs' : List Registered}
    {names' : List (Nat × SataBlock)} (h : m.Inv cs names) (h' : t.Inv cs' names')
    (hcs : cs <+: cs') (hnames : names ⊆ names') :
    (∀ a b, m.heap a = some b → a ≠ m.controllers → t.heap a = some b) ∧
      ∀ i < m.controllerCount, t.controller i = m.controller i := by
  constructor
  · intro a b hab hne
    refine h'.holds.load ?_
    obtain hmem | hmem := List.mem_append.mp (h.holds.mem hab hne)
    · obtain ⟨c, hc, hmem⟩ := List.mem_flatMap.mp hmem
      exact List.mem_append_left _ (List.mem_flatMap.mpr ⟨c, hcs.subset hc, hmem⟩)
    · exact List.mem_append_right _ (hnames hmem)
  · intro i hi
    have hlt : i < cs.length := h.count ▸ hi
    have hc := List.getElem?_eq_getElem hlt
    obtain ⟨tail, rfl⟩ := hcs
    rw [h.controller hc, h'.controller ((List.getElem?_append_left hlt).trans hc)]

theorem SataMemory.Inv.allocs (h : m.Inv cs names) (allocs : List (Option (Nat × Nat))) :
    ({ m with allocs := allocs } : SataMemory).Inv cs names := by
  refine h.same ⟨rfl, rfl, rfl, rfl⟩ ?_
  obtain ⟨hctl, hnone, hcap, hholds⟩ | ⟨phys, array, hctl, hsame, hholds⟩ := h.holds
  · exact .empty hctl hnone hcap hholds
  · exact .array phys array hctl hsame hholds

theorem SataSession.Inv.call {s : SataSession} (h : s.Inv cs names) {c : DriverCall}
    (hok : s.Admissible c) : Sat c.exec s.memory (fun r t => s.Effect c r t ∧
      ∃ cs' names', t.Inv cs' names' ∧ names'.map Prod.fst =
        if r.name = 0 then s.names else r.name :: s.names) Blames := by
  obtain ⟨hinv, hnames⟩ := h
  cases c with
  | init device a allocs =>
      have hnew : device ∉ cs.map fun c => c.1.sataDevice := fun hmem => by
        obtain ⟨c, hc, heq⟩ := List.mem_map.mp hmem
        obtain ⟨i, hi⟩ := List.mem_iff_getElem?.mp hc
        have hlt : i < s.memory.controllerCount :=
          hinv.count ▸ (List.getElem?_eq_some_iff.mp hi).1
        exact hok i hlt c.1 (hinv.controller hi) heq
      rw [DriverCall.exec, sat_bind, sat_modify, sat_bind]
      refine (SataMemory.sat_sataInit (hinv.allocs allocs) hnew a).imp fun r t ht => ?_
      obtain ⟨ok, idx⟩ := r
      cases ok with
      | false =>
          have ht := ht.failed rfl
          obtain ⟨hblocks, hctl⟩ := hinv.effect ht (List.prefix_refl cs) (List.Subset.refl _)
          exact ⟨⟨hblocks, hctl, ht.count.trans hinv.count.symm, fun idx hidx => by cases hidx⟩,
            cs, names, ht, hnames⟩
      | true =>
          obtain ⟨hidx, c, ht⟩ := ht.succeeded rfl
          obtain ⟨hblocks, hctl⟩ := hinv.effect ht (List.prefix_append cs _) (List.Subset.refl _)
          refine ⟨⟨hblocks, hctl, ?_, fun idx' heq => ?_⟩, _, names, ht, hnames⟩
          · rw [ht.count, hinv.count, List.length_append, List.length_singleton]
          · cases heq
            rw [hinv.count]
            exact hidx
  | getBlockDevice cidx portId identified allocs =>
      rw [DriverCall.exec, sat_bind, sat_modify, sat_bind]
      refine (SataMemory.sat_sataGetBlockDevice (hinv.allocs allocs) cidx portId identified).imp
        fun r t ht => ?_
      obtain ⟨-, ⟨hzero, ht⟩ | ⟨d, b, rfl, hname, ht⟩⟩ := ht
      · obtain ⟨hblocks, hctl⟩ := hinv.effect ht (List.prefix_refl cs) (List.Subset.refl _)
        refine ⟨⟨hblocks, hctl, ht.count.trans hinv.count.symm, fun idx hidx => by cases hidx⟩,
          cs, names, ht, ?_⟩
        have hname : (DriverResult.blockDevice r).name = 0 := by
          cases r with
          | none => rfl
          | some d => exact hzero d rfl
        rw [if_pos hname]
        exact hnames
      · obtain ⟨hblocks, hctl⟩ := hinv.effect ht (List.prefix_refl cs) (List.subset_cons_self _ _)
        refine ⟨⟨hblocks, hctl, ht.count.trans hinv.count.symm, fun idx hidx => by cases hidx⟩,
          cs, _, ht, ?_⟩
        rw [List.map_cons, hnames]
        exact (if_neg hname).symm

-- Before the first call.
def SataSession.start (regs : PcieDevice → Nat → PortRegs) : SataSession :=
  ⟨⟨fun _ => none, [], 0, 0, 0, regs⟩, []⟩

theorem sessionInv_of_trace {regs : PcieDevice → Nat → PortRegs}
    {past : List (SataSession × DriverCall)} {s : SataSession}
    (h : Trace SataStep (.start regs) past s) (hok : Trace.Admits SataSession.Admissible past) :
    ∃ cs names, s.Inv cs names := by
  refine Trace.invariant_of_admits (I := fun s => ∃ cs names, s.Inv cs names) ?_ ?_ h hok
  · refine ⟨[], [], ⟨rfl, Nat.le_refl 0, Nat.zero_le _, rfl, fun i c hc => by simp at hc,
      List.nodup_nil, .empty rfl rfl rfl ⟨List.nodup_nil, fun a b => ?_⟩⟩, rfl⟩
    exact iff_of_false (fun heq => by cases heq) List.not_mem_nil
  · rintro s c t ⟨cs, names, hinv⟩ hadmissible ⟨r, hret, hnames⟩
    obtain ⟨-, cs', names', hinv', hnames'⟩ := (hinv.call hadmissible).of_returns hret
    exact ⟨cs', names', hinv', hnames'.trans hnames.symm⟩

-- However controllers are set up, whatever they answer and wherever memory runs out:
-- the blocks in use are the array, those of the registered controllers' ports and the
-- names, each of them once. What a controller was told of a port that is up is where the
-- port's memory is. Nothing but an allocator that hands out memory in use can stop a call.
theorem sataControllers_safe {regs : PcieDevice → Nat → PortRegs}
    {past : List (SataSession × DriverCall)} {s : SataSession}
    (h : Trace SataStep (.start regs) past s) (hok : Trace.Admits SataSession.Admissible past) :
    (s.memory.memory ++ s.names).Nodup ∧
      (∀ a, s.memory.heap a ≠ none ↔ a ∈ s.memory.memory ++ s.names) ∧
        (∀ i < s.memory.controllerCount, ∃ ksc, s.memory.controller i = some ksc ∧
          s.memory.Usable i ksc) ∧
            ∀ c, s.Admissible c →
              Sat c.exec s.memory (fun r t => s.Effect c r t) fun e => e = .allocator := by
  obtain ⟨cs, names, hinv⟩ := sessionInv_of_trace h hok
  obtain ⟨hnodup, huse⟩ := hinv.1.memory
  rw [hinv.2] at hnodup huse
  refine ⟨hnodup, huse, fun i hi => ?_, fun c hc => (hinv.call hc).imp fun r t ht => ht.1⟩
  have hc := List.getElem?_eq_getElem (hinv.1.count ▸ hi)
  exact ⟨_, hinv.1.controller hc, hinv.1.usable hc⟩

-- A controller with a drive on its only port, and room for one command.
def driveFound : PortAnswers := ⟨0x103, 0x103, SATA_PORT_SIGNATURE, 0x103, true, true, true⟩

def sataFunction : Bars.PciConfig
  | 1 => ⟨0x00100006, 0x00000147, 0xF9000000⟩
  | 9 => ⟨0xFEBF1000, 0xFFFFF000, 0⟩
  | _ => ⟨0, 0, 0⟩

def oneDrive : DriverCall :=
  .init ⟨0, 31, 2⟩ ⟨sataFunction, fun i => newController i ⟨0, 0, 0⟩, true, 0x80000000, 1,
    fun _ => driveFound⟩ [some (0x1000, 0x100000), some (0x2000, 0x101000), some (0x3000, 0x102000),
      some (0x4000, 0x103000), some (0x5000, 0x104000)]

def driveName : DriverCall := .getBlockDevice 0 0 (some fun _ => 0x4142) [some (0x6000, 0x105000)]

theorem sataControllers_safe_drive : ∃ past s, Trace SataStep (.start fun _ _ => ⟨0, 0, 0, 0⟩) past s ∧
    s.memory.memory = [0x1000, 0x2000, 0x3000, 0x4000, 0x5000] ∧
      (s.memory.memory ++ s.names).Nodup ∧
        Sat driveName.exec s.memory (fun r t => s.Effect driveName r t) fun e => e = .allocator := by
  have hinit : SataStep (.start fun _ _ => ⟨0, 0, 0, 0⟩) oneDrive ⟨_, []⟩ :=
    ⟨.initialised true (some 0), rfl, rfl⟩
  have hsafe := sataControllers_safe (Trace.nil.snoc hinit)
    (Trace.admits_snoc.mpr ⟨Trace.admits_nil, fun i hi => absurd hi (Nat.not_lt_zero i)⟩)
  exact ⟨_, _, Trace.nil.snoc hinit, rfl, hsafe.1, hsafe.2.2.2 driveName trivial⟩

end Sessions

end AosKernel.Io.Ahci
