import AosKernel.Io.SataControllers

namespace AosKernel.Io.Ahci

open Verif Verif.Exec

-- A run that only the allocator can spoil.
def Blames (e : Fault) : Prop := e = .allocator

-- Only the heap and what the allocator has left to answer may differ.
structure SataMemory.Same (s t : SataMemory) : Prop where
  controllers : t.controllers = s.controllers
  controllerCount : t.controllerCount = s.controllerCount
  controllerCap : t.controllerCap = s.controllerCap
  regs : t.regs = s.regs

theorem SataMemory.Same.trans {s t u : SataMemory} (h : s.Same t) (h' : t.Same u) : s.Same u :=
  ⟨h'.controllers.trans h.controllers, h'.controllerCount.trans h.controllerCount,
    h'.controllerCap.trans h.controllerCap, h'.regs.trans h.regs⟩

section Memory

variable {s : SataMemory} {l rest : List (Nat × SataBlock)} {a clt clb phys j : Nat}
  {b : SataBlock} {virts : Nat → Nat}

theorem sat_avmfAlloc (h : HoldsJust s.heap l) (content : SataContent) :
    Sat (avmfAlloc content) s (fun r t => s.Same t ∧
      (r.1 = 0 ∧ HoldsJust t.heap l ∨
        r.1 ≠ 0 ∧ r.2 < 2 ^ 64 ∧ HoldsJust t.heap ((r.1, ⟨r.2, content⟩) :: l))) Blames := by
  rw [avmfAlloc, sat_bind, sat_get]
  have hsame (t : SataMemory) (ht : t = { s with heap := t.heap, allocs := t.allocs }) :
      s.Same t := by
    rw [ht]
    exact ⟨rfl, rfl, rfl, rfl⟩
  split
  · exact ⟨hsame s rfl, .inl ⟨rfl, h⟩⟩
  · exact ⟨hsame _ rfl, .inl ⟨rfl, h⟩⟩
  · rename_i virt phys tail _
    by_cases hbad : virt = 0 ∨ phys ≥ 2 ^ 64 ∨ (s.heap virt).isSome
    · rw [if_pos hbad]
      exact rfl
    · rw [if_neg hbad]
      obtain ⟨hvirt, hphys, hfree⟩ := by simpa only [not_or] using hbad
      refine ⟨hsame _ rfl, .inr ⟨hvirt, Nat.lt_of_not_le hphys, h.alloc ?_⟩⟩
      exact Option.not_isSome_iff_eq_none.mp hfree

theorem sat_avmfFree (h : HoldsJust s.heap ((a, b) :: rest)) :
    Sat (avmfFree a) s (fun _ t => s.Same t ∧ HoldsJust t.heap rest) Blames := by
  have huse : (s.heap a).isNone = false := by rw [h.load (.head _), Option.isNone_some]
  rw [avmfFree, sat_bind, sat_get, huse]
  exact ⟨⟨rfl, rfl, rfl, rfl⟩, h.free⟩

theorem sat_loadClt (h : HoldsJust s.heap ((clt, ⟨phys, .clt virts⟩) :: rest))
    (Q : Nat → SataMemory → Prop) (E : Fault → Prop) :
    Sat (loadClt clt j) s Q E ↔ Q (virts j) s := by
  rw [loadClt, sat_bind, sat_get, h.load (.head _)]
  rfl

theorem sat_storeClt (h : HoldsJust s.heap ((clt, ⟨phys, .clt virts⟩) :: rest)) (virt : Nat) :
    Sat (storeClt clt j virt) s (fun _ t => s.Same t ∧
      HoldsJust t.heap ((clt, ⟨phys, .clt (Function.update virts j virt)⟩) :: rest)) Blames := by
  rw [storeClt, sat_bind, sat_get, h.load (.head _)]
  exact ⟨⟨rfl, rfl, rfl, rfl⟩, h.store⟩

theorem sat_storeCmdHdr {first : Nat × SataBlock} {hdrs : Nat → Nat × Nat}
    (h : HoldsJust s.heap (first :: (clb, ⟨phys, .cmdHdrs hdrs⟩) :: rest)) (hj : j < 32)
    (ctba : Nat × Nat) : Sat (storeCmdHdr clb j ctba) s (fun _ t => s.Same t ∧
      HoldsJust t.heap (first :: (clb, ⟨phys, .cmdHdrs (Function.update hdrs j ctba)⟩) :: rest))
      Blames := by
  rw [storeCmdHdr, sat_bind, sat_get, h.load (.tail _ (.head _))]
  dsimp only
  rw [if_neg (Nat.not_le_of_lt hj)]
  exact ⟨⟨rfl, rfl, rfl, rfl⟩, h.storeAt (l := [first])⟩

end Memory

section Tables

variable {s : SataMemory} {rest : List (Nat × SataBlock)} {clt clb cltPhys clbPhys slots : Nat}
  {virts phys : Nat → Nat} {hdrs : Nat → Nat × Nat} {is js : List Nat}

-- The command tables that the pointers of a port have, with their physical addresses.
def tableBlocks (virts phys : Nat → Nat) (js : List Nat) : List (Nat × SataBlock) :=
  js.flatMap fun j => if virts j = 0 then [] else [(virts j, ⟨phys j, .cmdTable⟩)]

theorem tableBlocks_update (hj : j ∉ js) (virt : Nat) :
    tableBlocks (Function.update virts j virt) phys js = tableBlocks virts phys js := by
  refine List.flatMap_congr fun i hi => ?_
  have hne : i ≠ j := fun heq => hj (heq ▸ hi)
  simp only [Function.update_of_ne hne]

theorem sat_freeCmdTables (hjs : js.Nodup)
    (h : HoldsJust s.heap ((clt, ⟨cltPhys, .clt virts⟩) :: (tableBlocks virts phys js ++ rest))) :
    Sat (freeCmdTables clt js) s (fun _ t => s.Same t ∧
      ∃ virts', HoldsJust t.heap ((clt, ⟨cltPhys, .clt virts'⟩) :: rest)) Blames := by
  induction js generalizing s virts with
  | nil => exact ⟨⟨rfl, rfl, rfl, rfl⟩, virts, h⟩
  | cons j js ih =>
      obtain ⟨hj, hjs⟩ := List.nodup_cons.mp hjs
      rw [freeCmdTables, sat_bind, sat_loadClt h]
      by_cases hzero : virts j = 0
      · rw [tableBlocks, List.flatMap_cons, if_pos hzero] at h
        rw [if_neg (not_not.mpr hzero)]
        exact ih hjs h
      · rw [tableBlocks, List.flatMap_cons, if_neg hzero] at h
        rw [if_pos hzero, sat_bind]
        have hfront := h.perm (List.Perm.swap _ _ _)
        refine (sat_avmfFree hfront).imp fun _ t ht => ?_
        obtain ⟨hsame, ht⟩ := ht
        rw [sat_bind]
        refine (sat_storeClt ht 0).imp fun _ u hu => ?_
        obtain ⟨hsame', hu⟩ := hu
        have htables : tableBlocks (Function.update virts j 0) phys js = tableBlocks virts phys js :=
          tableBlocks_update hj 0
        refine (ih hjs (by rw [htables]; exact hu)).imp fun _ v hv => ?_
        exact ⟨(hsame.trans hsame').trans hv.1, hv.2⟩

-- The pointers that are set, among the first `slots`.
theorem sat_allocCmdTables (hslots : slots ≤ 32) (his : is.Nodup) (hlt : ∀ i ∈ is, i < slots)
    (hzero : ∀ i ∈ is, virts i = 0)
    (hdone : ∀ j < slots, j ∉ is → virts j ≠ 0 ∧ hdrs j = halves (phys j) ∧ phys j < 2 ^ 64)
    (h : HoldsJust s.heap ((clt, ⟨cltPhys, .clt virts⟩) :: (clb, ⟨clbPhys, .cmdHdrs hdrs⟩) ::
      (tableBlocks virts phys (List.range slots) ++ rest))) :
    Sat (allocCmdTables clt clb is) s (fun ok t => s.Same t ∧ ∃ virts' phys' hdrs',
      HoldsJust t.heap ((clt, ⟨cltPhys, .clt virts'⟩) :: (clb, ⟨clbPhys, .cmdHdrs hdrs'⟩) ::
        (tableBlocks virts' phys' (List.range slots) ++ rest)) ∧
      (ok = true → ∀ j < slots, virts' j ≠ 0 ∧ hdrs' j = halves (phys' j) ∧ phys' j < 2 ^ 64))
      Blames := by
  induction is generalizing s virts phys hdrs with
  | nil =>
      exact ⟨⟨rfl, rfl, rfl, rfl⟩, virts, phys, hdrs, h,
        fun _ j hj => hdone j hj (List.not_mem_nil)⟩
  | cons i is ih =>
      obtain ⟨hi, his⟩ := List.nodup_cons.mp his
      rw [allocCmdTables, sat_bind]
      refine (sat_avmfAlloc h .cmdTable).imp fun r t ht => ?_
      obtain ⟨virt, p⟩ := r
      obtain ⟨hsame, ⟨hvirt, ht⟩ | ⟨hvirt, hphys, ht⟩⟩ := ht
      · dsimp only at hvirt ⊢
        rw [if_pos hvirt]
        exact ⟨hsame, virts, phys, hdrs, ht, fun heq => by cases heq⟩
      · dsimp only at hvirt hphys ht ⊢
        rw [if_neg hvirt, sat_bind]
        -- the new table goes behind the two blocks that are written to
        have hbehind := ht.perm ((List.Perm.swap _ _ _).trans ((List.Perm.swap _ _ _).cons _))
        refine (sat_storeClt hbehind virt).imp fun _ u hu => ?_
        obtain ⟨hsame', hu⟩ := hu
        rw [sat_bind]
        refine (sat_storeCmdHdr hu ((hlt i (.head _)).trans_le hslots) (halves p)).imp
          fun _ v hv => ?_
        obtain ⟨hsame'', hv⟩ := hv
        have hfill := flatMap_fill_perm (l := List.range slots) (i := i) List.nodup_range
          (List.mem_range.mpr (hlt i (.head _)))
          (f := fun j => if virts j = 0 then [] else [(virts j, (⟨phys j, .cmdTable⟩ : SataBlock))])
          (g := fun j => if Function.update virts i virt j = 0 then [] else
            [(Function.update virts i virt j, ⟨Function.update phys i p j, .cmdTable⟩)])
          (if_pos (hzero i (.head _))) (fun j hj => by simp only [Function.update_of_ne hj])
        rw [Function.update_self, Function.update_self, if_neg hvirt] at hfill
        refine (ih his (fun j hj => hlt j (.tail _ hj)) ?_ ?_
          (hv.perm (((hfill.symm.append_right rest).cons _).cons _))).imp fun ok w hw => ?_
        · intro j hj
          have hne : j ≠ i := fun heq => hi (heq ▸ hj)
          rw [Function.update_of_ne hne, hzero j (.tail _ hj)]
        · intro j hj hnot
          by_cases heq : j = i
          · subst heq
            simp only [Function.update_self]
            exact ⟨hvirt, trivial, hphys⟩
          · simp only [Function.update_of_ne heq]
            exact hdone j hj fun hmem => (List.mem_cons.mp hmem).elim heq hnot
        · exact ⟨(hsame.trans (hsame'.trans hsame'')).trans hw.1, hw.2⟩

end Tables

section Ports

-- The memory of a port that is up.
structure OwnedPort where
  clt : Nat
  cltPhys : Nat
  clb : Nat
  clbPhys : Nat
  fis : Nat
  fisPhys : Nat
  slots : Nat
  virts : Nat → Nat
  phys : Nat → Nat
  ctba : Nat → Nat × Nat
  clt_ne : clt ≠ 0
  clb_ne : clb ≠ 0
  fis_ne : fis ≠ 0
  tables : ∀ j < slots, virts j ≠ 0 ∧ ctba j = halves (phys j) ∧ phys j < 2 ^ 64
  clbPhys_lt : clbPhys < 2 ^ 64
  fisPhys_lt : fisPhys < 2 ^ 64

namespace OwnedPort

variable (o : OwnedPort)

def blocks : List (Nat × SataBlock) :=
  (o.clt, ⟨o.cltPhys, .clt o.virts⟩) :: (o.clb, ⟨o.clbPhys, .cmdHdrs o.ctba⟩) ::
    (o.fis, ⟨o.fisPhys, .fis⟩) :: tableBlocks o.virts o.phys (List.range o.slots)

def regs : PortRegs :=
  ⟨(halves o.clbPhys).1, (halves o.clbPhys).2, (halves o.fisPhys).1, (halves o.fisPhys).2⟩

-- The state that the driver has for the port.
def portState : PortState := ⟨⟨true, o.slots⟩, o.clt, o.clb, o.clbPhys, o.fis, o.fisPhys⟩

end OwnedPort

-- The port has no memory and is not up.
structure PortState.Empty (state : PortState) : Prop where
  active : state.active = false
  cltVirts : state.cltVirts = 0
  clbVirt : state.clbVirt = 0
  fisVirt : state.fisVirt = 0

-- What a port is, and the memory it has.
def PortState.Has (state : PortState) : Option OwnedPort → Prop
  | none => state.Empty
  | some o => state = o.portState

variable {s : SataMemory} {rest : List (Nat × SataBlock)} {slots port : Nat}
  {device : PcieDevice} {state : PortState} {a : PortAnswers}

theorem sat_freePort {clt cltPhys clb clbPhys fis fisPhys : Nat} {virts phys : Nat → Nat}
    {hdrs : Nat → Nat × Nat} (hclt : state.cltVirts = clt) (hclb : state.clbVirt = clb)
    (hfis : state.fisVirt = fis)
    (h : HoldsJust s.heap ((clt, ⟨cltPhys, .clt virts⟩) :: (clb, ⟨clbPhys, .cmdHdrs hdrs⟩) ::
      (tableBlocks virts phys (List.range slots) ++ (fis, ⟨fisPhys, .fis⟩) :: rest))) :
    Sat (freePort slots state) s (fun state' t => state' = state.freed ∧ s.Same t ∧
      HoldsJust t.heap rest) Blames := by
  subst hclt hclb hfis
  rw [freePort, sat_bind]
  refine (sat_freeCmdTables List.nodup_range
    (h.perm (List.perm_middle.symm.cons _))).imp fun _ t ht => ?_
  obtain ⟨hsame, virts', ht⟩ := ht
  rw [sat_bind]
  refine (sat_avmfFree ht).imp fun _ u hu => ?_
  rw [sat_bind]
  refine (sat_avmfFree hu.2).imp fun _ v hv => ?_
  rw [sat_bind]
  refine (sat_avmfFree hv.2).imp fun _ w hw => ?_
  exact ⟨rfl, hsame.trans (hu.1.trans (hv.1.trans hw.1)), hw.2⟩

-- Only the port's registers may differ besides.
structure SataMemory.SameBut (s t : SataMemory) (device : PcieDevice) (ports : List Nat) : Prop where
  controllers : t.controllers = s.controllers
  controllerCount : t.controllerCount = s.controllerCount
  controllerCap : t.controllerCap = s.controllerCap
  regs : ∀ d i, (d ≠ device ∨ i ∉ ports) → t.regs d i = s.regs d i

theorem SataMemory.Same.but {s t : SataMemory} (h : s.Same t) (device : PcieDevice)
    (ports : List Nat) : s.SameBut t device ports :=
  ⟨h.controllers, h.controllerCount, h.controllerCap, fun d i _ => by rw [h.regs]⟩

theorem setRegs_regs (s : SataMemory) (device d : PcieDevice) (port i : Nat) (regs : PortRegs) :
    (s.setRegs device port regs).regs d i = if d = device ∧ i = port then regs else s.regs d i := by
  simp only [SataMemory.setRegs, Function.update_apply]
  by_cases hd : d = device
  · simp only [hd, if_true, true_and, Function.update_apply]
  · simp only [hd, if_false, false_and]

theorem SataMemory.Same.setRegs {s t : SataMemory} (h : s.Same t) (device : PcieDevice)
    (port : Nat) (regs : PortRegs) : s.SameBut (t.setRegs device port regs) device [port] := by
  refine ⟨h.controllers, h.controllerCount, h.controllerCap, fun d i hor => ?_⟩
  have hnot : ¬ (d = device ∧ i = port) := fun heq =>
    hor.elim (fun hne => hne heq.1) fun hne => hne (List.mem_singleton.mpr heq.2)
  rw [setRegs_regs, if_neg hnot, h.regs]

-- What sata_port_init leaves, whether the port comes up or not.
def PortOutcome (s : SataMemory) (device : PcieDevice) (port : Nat) (rest : List (Nat × SataBlock))
    (r : Bool × PortState) (t : SataMemory) : Prop :=
  s.SameBut t device [port] ∧ (r.1 = false ∧ r.2.Empty ∧ HoldsJust t.heap rest ∨
    r.1 = true ∧ ∃ o : OwnedPort, r.2 = o.portState ∧ HoldsJust t.heap (o.blocks ++ rest) ∧
      t.regs device port = o.regs)

theorem sat_sataPortInit (hslots : slots ≤ 32) (hempty : state.Empty)
    (h : HoldsJust s.heap rest) : Sat (sataPortInit device slots port a state) s
      (PortOutcome s device port rest) Blames := by
  have hfail {state' : PortState} {t : SataMemory} (hsame : s.Same t) (hstate : state'.Empty)
      (ht : HoldsJust t.heap rest) : PortOutcome s device port rest (false, state') t :=
    ⟨hsame.but device [port], .inl ⟨rfl, hstate, ht⟩⟩
  have hrefl : s.Same s := ⟨rfl, rfl, rfl, rfl⟩
  obtain ⟨⟨active, slots'⟩, clt', clb', clbPhys', fis', fisPhys'⟩ := state
  obtain ⟨rfl, rfl, rfl, rfl⟩ := hempty
  unfold sataPortInit
  refine Sat.ite (fun _ => hfail hrefl ⟨rfl, rfl, rfl, rfl⟩ h) fun _ => ?_
  refine Sat.ite (fun _ => hfail hrefl ⟨rfl, rfl, rfl, rfl⟩ h) fun _ => ?_
  refine Sat.ite (fun _ => hfail hrefl ⟨rfl, rfl, rfl, rfl⟩ h) fun _ => ?_
  rw [sat_bind]
  refine (sat_avmfAlloc h _).imp fun r t ht => ?_
  obtain ⟨clt, cltPhys⟩ := r
  obtain ⟨hsame, ⟨rfl, ht⟩ | ⟨hclt, -, ht⟩⟩ := ht
  · exact Sat.ite (fun _ => hfail hsame ⟨rfl, rfl, rfl, rfl⟩ ht) fun hne => absurd rfl hne
  refine Sat.ite (fun hzero => absurd hzero hclt) fun _ => ?_
  rw [sat_bind]
  refine (sat_avmfAlloc ht _).imp fun r u hu => ?_
  obtain ⟨clb, clbPhys⟩ := r
  obtain ⟨hsame', ⟨rfl, hu⟩ | ⟨hclb, hclbPhys, hu⟩⟩ := hu
  · refine Sat.ite (fun _ => ?_) fun hne => absurd rfl hne
    rw [sat_bind]
    refine (sat_avmfFree hu).imp fun _ v hv => ?_
    exact hfail (hsame.trans (hsame'.trans hv.1)) ⟨rfl, rfl, rfl, rfl⟩ hv.2
  refine Sat.ite (fun hzero => absurd hzero hclb) fun _ => ?_
  have hsame := hsame.trans hsame'
  rw [sat_bind]
  refine (sat_avmfAlloc hu _).imp fun r v hv => ?_
  obtain ⟨fis, fisPhys⟩ := r
  obtain ⟨hsame', ⟨rfl, hv⟩ | ⟨hfis, hfisPhys, hv⟩⟩ := hv
  · refine Sat.ite (fun _ => ?_) fun hne => absurd rfl hne
    rw [sat_bind]
    refine (sat_avmfFree (hv.perm (List.Perm.swap _ _ _))).imp fun _ w hw => ?_
    rw [sat_bind]
    refine (sat_avmfFree hw.2).imp fun _ x hx => ?_
    exact hfail (hsame.trans (hsame'.trans (hw.1.trans hx.1))) ⟨rfl, rfl, rfl, rfl⟩ hx.2
  refine Sat.ite (fun hzero => absurd hzero hfis) fun _ => ?_
  have hsame := hsame.trans hsame'
  have hstart : HoldsJust v.heap ((clt, ⟨cltPhys, .clt fun _ => 0⟩) ::
      (clb, ⟨clbPhys, .cmdHdrs fun _ => (0, 0)⟩) ::
        (tableBlocks (fun _ => 0) (fun _ => 0) (List.range slots) ++ (fis, ⟨fisPhys, .fis⟩) :: rest)) := by
    have hnil : tableBlocks (fun _ => 0) (fun _ => 0) (List.range slots) = [] :=
      List.flatMap_eq_nil_iff.mpr fun j _ => if_pos rfl
    rw [hnil, List.nil_append]
    exact hv.perm ((List.Perm.swap _ _ _).trans
      (((List.Perm.swap _ _ _).cons _).trans (List.Perm.swap _ _ _)))
  rw [sat_bind]
  refine (sat_allocCmdTables hslots List.nodup_range (fun i hi => List.mem_range.mp hi)
    (fun _ _ => rfl) (fun j hj hnot => absurd (List.mem_range.mpr hj) hnot) hstart).imp
      fun ok w hw => ?_
  obtain ⟨hsame', virts, phys, hdrs, hw, hall⟩ := hw
  have hsame := hsame.trans hsame'
  cases ok with
  | false =>
      refine Sat.ite (fun _ => ?_) fun hne => absurd rfl hne
      rw [sat_bind]
      refine (sat_freePort rfl rfl rfl hw).imp fun state' x hx => ?_
      obtain ⟨rfl, hsame', hx⟩ := hx
      exact hfail (hsame.trans hsame') ⟨rfl, rfl, rfl, rfl⟩ hx
  | true =>
      refine Sat.ite (fun hne => by cases hne) fun _ => ?_
      let o : OwnedPort := ⟨clt, cltPhys, clb, clbPhys, fis, fisPhys, slots, virts, phys, hdrs,
        hclt, hclb, hfis, hall rfl, hclbPhys, hfisPhys⟩
      rw [sat_bind, sat_modify]
      have hbut := hsame.setRegs device port o.regs
      refine Sat.ite (fun _ => ?_) fun _ => ?_
      · rw [sat_bind]
        refine (sat_freePort rfl rfl rfl hw).imp fun state' x hx => ?_
        obtain ⟨rfl, hsame', hx⟩ := hx
        refine ⟨⟨hsame'.controllers.trans hbut.controllers, ?_, ?_, fun d i hor => ?_⟩,
          .inl ⟨rfl, ⟨rfl, rfl, rfl, rfl⟩, hx⟩⟩
        · exact hsame'.controllerCount.trans hbut.controllerCount
        · exact hsame'.controllerCap.trans hbut.controllerCap
        · rw [hsame'.regs]
          exact hbut.regs d i hor
      · refine ⟨hbut, .inr ⟨rfl, o, rfl, ?_, ?_⟩⟩
        · exact hw.perm ((List.perm_middle.cons _).cons _)
        · rw [setRegs_regs, if_pos ⟨rfl, rfl⟩]
          rfl

end Ports

end AosKernel.Io.Ahci
