import AosKernel.Gpu.CapSearch
import AosKernel.Lib.Exec
import AosKernel.Lib.Registers
import AosKernel.Mm.PagerRange

namespace AosKernel.Io.Bars

open Verif Verif.Exec Mm Gpu

def PCI_BAR0 : Nat := 0x10

-- The registers of a function's configuration space, by dword.
abbrev PciConfig := Nat → Register 32

-- The function decodes the addresses in its BARs.
def memorySpace (c : PciConfig) : Bool := (c 1).value.getLsbD 1

-- Configuration space with what it has been since, and what has been mapped.
structure BarRun where
  config : PciConfig
  past : List PciConfig
  mapped : List MapRange

-- Nothing here stops. The function is on segment 0, where pcie_read and pcie_write
-- reach the same registers.
abbrev BarM := Exec Empty BarRun

section Accessors

def pcieRead (offset : Nat) : BarM (BitVec 32) := do
  return ((← get).config (offset % 256 / 4)).value

def BarRun.write (s : BarRun) (i : Nat) (value : BitVec 32) : BarRun :=
  { s with
    config := Function.update s.config i ((s.config i).write value)
    past := s.config :: s.past }

def pcieWrite (offset : Nat) (value : BitVec 32) : BarM Unit :=
  modify fun s => s.write (offset % 256 / 4) value

def pcieReadBar (i : Nat) : BarM (BitVec 32) := pcieRead (PCI_BAR0 + i * 4)

def pcieWriteBar (i : Nat) (value : BitVec 32) : BarM Unit := pcieWrite (PCI_BAR0 + i * 4) value

def toggled (cmdReg : BitVec 32) (bit : Nat) (toggle : Bool) : BitVec 32 :=
  if toggle then cmdReg ||| 1#32 <<< bit else cmdReg &&& ~~~(1#32 <<< bit)

def toggleCommand (bit : Nat) (toggle : Bool) : BarM Unit := do
  let cmdReg ← pcieRead 0x04
  pcieWrite 0x04 (toggled cmdReg bit toggle)

def pcieToggleBusmaster := toggleCommand 2
def pcieToggleMemorySpace := toggleCommand 1

def pcieGetMemorySpaceToggled : BarM Bool := do
  return (← pcieRead 0x04) &&& 1#32 <<< 1 ≠ 0

def pagerMapRange (r : MapRange) : BarM Unit :=
  modify fun s => { s with mapped := s.mapped ++ [r] }

end Accessors

section Drivers

-- What a driver has read from a memory BAR.
structure Bar where
  phys : BitVec 64
  is64bit : Bool
  orig0 : BitVec 32
  orig1 : BitVec 32

-- `none` for a BAR that is not page-aligned or not of memory.
def readBar (i : Nat) : BarM (Option Bar) := do
  let bar ← pcieReadBar i
  let barPhys := bar.setWidth 64 &&& ~~~0xF#64
  if barPhys &&& 0xFFF ≠ 0 then return none
  let is64bit : Bool := bar >>> 1 &&& 0b011 = 0x2
  if bar &&& 0b001 = 0x1 then return none
  if is64bit then
    let orig1 ← pcieReadBar (i + 1)
    return some ⟨barPhys ||| orig1.setWidth 64 <<< 32, true, bar, orig1⟩
  return some ⟨barPhys, false, bar, 0⟩

def barSize (is64bit : Bool) (mask0 mask1 : BitVec 32) : Nat :=
  if is64bit then
    (~~~(mask0.setWidth 64 &&& ~~~0xF#64 ||| mask1.setWidth 64 <<< 32) + 1#64).toNat
  else (~~~(mask0 &&& ~~~0xF#32) + 1#32).toNat

-- Write all ones, see which of them stay, and put back what was there.
def probeBar (i : Nat) (b : Bar) : BarM Nat := do
  pcieWriteBar i 0xFFFFFFFF
  if b.is64bit then pcieWriteBar (i + 1) 0xFFFFFFFF
  let mask0 ← pcieReadBar i
  let mask1 ← if b.is64bit then pcieReadBar (i + 1) else pure 0
  pcieWriteBar i b.orig0
  if b.is64bit then pcieWriteBar (i + 1) b.orig1
  return barSize b.is64bit mask0 mask1

def directMap (phys : BitVec 64) (size : Nat) : MapRange :=
  ⟨BitVec.ofNat 64 AOS_DIRECT_MAP_BASE + phys, phys, size, PAGE_PRESENT ||| PAGE_RW ||| PAGE_PCD⟩

-- What nvme_map_bar, sata_map_bar and map_xhci_mmio begin with: the registers of BAR `i`
-- in the direct map, and their size.
def mapBar (i minimum : Nat) : BarM (Option MapRange) := do
  match ← readBar i with
  | none => return none
  | some b =>
      pcieToggleMemorySpace false
      let size ← probeBar i b
      pcieToggleMemorySpace true
      if size < minimum then return none
      pagerMapRange (directMap b.phys size)
      pcieToggleBusmaster true
      return some (directMap b.phys size)

def sizeofNvmeRegs : Nat := 56
def sizeofXhciCapRegs : Nat := 32
def sizeofVirtioCommonCfg : Nat := 56

def NVME_IO_QUEUE_ID : Nat := 1

def NVME_CAP_DSTRD (cap : BitVec 64) : Nat := (cap >>> 32 &&& 0xF).toNat

def nvmeDoorbellStride (cap : BitVec 64) : Nat := 4 <<< NVME_CAP_DSTRD cap

-- The doorbells of the admin queue and of the I/O queue, submission before completion.
structure NvmeDoorbells where
  adminSq : BitVec 64
  adminCq : BitVec 64
  ioSq : BitVec 64
  ioCq : BitVec 64

-- `cap` is what the controller's capability register has.
def nvmeMapBar (cap : BitVec 64) : BarM (Option (MapRange × NvmeDoorbells)) := do
  match ← mapBar 0 sizeofNvmeRegs with
  | none => return none
  | some regs =>
      let stride := nvmeDoorbellStride cap
      if regs.size < PAGE_SIZE + (2 * NVME_IO_QUEUE_ID + 2) * stride then return none
      let doorbell (n : Nat) : BitVec 64 := regs.virt + BitVec.ofNat 64 (PAGE_SIZE + n * stride)
      return some (regs, ⟨doorbell 0, doorbell 1, doorbell (2 * NVME_IO_QUEUE_ID),
        doorbell (2 * NVME_IO_QUEUE_ID + 1)⟩)

def sataMapBar : BarM (Option MapRange) := mapBar 5 0x100

-- What an xHCI controller's capability registers have.
structure XhciCapRegs where
  capLengthResHciVersion : BitVec 32
  dboff : BitVec 32
  rtsoff : BitVec 32

def mapXhciMmio (cap : XhciCapRegs) : BarM (Option MapRange) := do
  match ← mapBar 0 sizeofXhciCapRegs with
  | none => return none
  | some mmio =>
      if cap.capLengthResHciVersion >>> 16 &&& 0xFFFF = 0 then return none
      if (cap.capLengthResHciVersion &&& 0xFF).toNat > mmio.size then return none
      if cap.dboff.toNat ≥ mmio.size then return none
      if cap.rtsoff.toNat ≥ mmio.size then return none
      return some mmio

structure VirtioMapping where
  common : MapRange
  notify : MapRange
  commonCfg : BitVec 64
  notifyBase : BitVec 64
  notifyMultiplier : BitVec 32

-- Memory decoding stays off where it was off.
def toggleWhen (memspace toggle : Bool) : BarM Unit :=
  if memspace then pcieToggleMemorySpace toggle else pure ()

-- The capabilities are those that get_cap finds.
def virtioMap (commonCap notifyCap : Option VirtioCap) : BarM (Option VirtioMapping) := do
  match commonCap, notifyCap with
  | some commonCap, some notifyCap =>
      match ← readBar commonCap.bar.toNat with
      | none => return none
      | some b =>
          match ← readBar notifyCap.bar.toNat with
          | none => return none
          | some n =>
              let memspace ← pcieGetMemorySpaceToggled
              toggleWhen memspace false
              let size ← probeBar commonCap.bar.toNat b
              let notifySize ← probeBar notifyCap.bar.toNat n
              toggleWhen memspace true
              if size < sizeofVirtioCommonCfg then return none
              let common := directMap b.phys size
              let notify := directMap n.phys notifySize
              pagerMapRange common
              pagerMapRange notify
              pcieToggleBusmaster true
              let notifyMultiplier ← pcieRead (notifyCap.capPtr.toNat + 16)
              return some ⟨common, notify, common.virt + commonCap.offset.toBitVec.setWidth 64,
                notify.virt + notifyCap.offset.toBitVec.setWidth 64, notifyMultiplier⟩
  | _, _ => return none

-- The drivers that find out where their device's registers are.
inductive BarDriver
  | nvme (cap : BitVec 64)
  | sata
  | xhci (cap : XhciCapRegs)
  | virtio (commonCap notifyCap : VirtioCap)

namespace BarDriver

def bars : BarDriver → List Nat
  | nvme _ => [0]
  | sata => [5]
  | xhci _ => [0]
  | virtio commonCap notifyCap => [commonCap.bar.toNat, notifyCap.bar.toNat]

-- Whether the driver goes on.
def map : BarDriver → BarM Bool
  | nvme cap => do return (← nvmeMapBar cap).isSome
  | sata => do return (← sataMapBar).isSome
  | xhci cap => do return (← mapXhciMmio cap).isSome
  | virtio commonCap notifyCap => do return (← virtioMap (some commonCap) (some notifyCap)).isSome

-- Whether the device decodes its registers when the driver goes on.
def decodes (c : PciConfig) : BarDriver → Bool
  | virtio _ _ => memorySpace c
  | _ => true

end BarDriver

end Drivers

section Probe

-- BAR `i` decodes the 2 ^ k bytes of memory from `base` on. A BAR of 64 bits has its
-- upper half in the next register.
structure MemoryBar (c : PciConfig) (i : Nat) (base : BitVec 64) (k : Nat) (is64bit : Bool) :
    Prop where
  index : i < 6
  memory : (c (4 + i)).value.getLsbD 0 = false
  type : ((c (4 + i)).value.getLsbD 2 && !(c (4 + i)).value.getLsbD 1) = is64bit
  plain : (c (4 + i)).clearing = 0#32
  plain_upper : is64bit = true → (c (5 + i)).clearing = 0#32
  four_le : 4 ≤ k
  lt : k < if is64bit then 64 else 32
  writable : ∀ j < 32, (c (4 + i)).writable.getLsbD j = decide (k ≤ j)
  writable_upper : is64bit = true → ∀ j < 32, (c (5 + i)).writable.getLsbD j = decide (k ≤ 32 + j)
  lower : ∀ j < 32, base.getLsbD j = (decide (4 ≤ j) && (c (4 + i)).value.getLsbD j)
  upper : ∀ j < 32, base.getLsbD (32 + j) = (is64bit && (c (5 + i)).value.getLsbD j)
  aligned : ∀ j < k, base.getLsbD j = false

variable {c : PciConfig} {s : BarRun} {i j k : Nat} {base : BitVec 64} {is64bit : Bool}

@[simp] theorem sat_pcieRead (offset : Nat) (Q : BitVec 32 → BarRun → Prop) (E : Empty → Prop) :
    Sat (pcieRead offset) s Q E ↔ Q (s.config (offset % 256 / 4)).value s :=
  Iff.rfl

@[simp] theorem sat_pcieWrite (offset : Nat) (value : BitVec 32) (Q : Unit → BarRun → Prop)
    (E : Empty → Prop) :
    Sat (pcieWrite offset value) s Q E ↔ Q () (s.write (offset % 256 / 4) value) :=
  Iff.rfl

@[simp] theorem write_config (v : BitVec 32) :
    (s.write j v).config = Function.update s.config j ((s.config j).write v) := rfl

theorem barOffset (h : i < 7) : (PCI_BAR0 + i * 4) % 256 / 4 = 4 + i := by
  unfold PCI_BAR0
  omega

theorem sat_pcieReadBar (h : i < 7) (Q : BitVec 32 → BarRun → Prop) (E : Empty → Prop) :
    Sat (pcieReadBar i) s Q E ↔ Q (s.config (4 + i)).value s := by
  rw [pcieReadBar, sat_pcieRead, barOffset h]

theorem sat_pcieWriteBar (h : i < 7) (value : BitVec 32) (Q : Unit → BarRun → Prop)
    (E : Empty → Prop) : Sat (pcieWriteBar i value) s Q E ↔ Q () (s.write (4 + i) value) := by
  rw [pcieWriteBar, sat_pcieWrite, barOffset h]

theorem getLsbD_and_not_fifteen {w : Nat} (v : BitVec w) (j : Nat) :
    (v &&& ~~~0xF#w).getLsbD j = (decide (4 ≤ j) && v.getLsbD j) := by
  by_cases hj : j < w
  · have hlow : (15 : Nat).testBit j = decide (j < 4) := Nat.testBit_two_pow_sub_one 4 j
    rw [BitVec.getLsbD_and, BitVec.getLsbD_not, BitVec.getLsbD_ofNat, hlow, Bool.and_comm]
    simp only [hj, decide_true, Bool.true_and, ← decide_not, Nat.not_lt]
  · simp [BitVec.getLsbD_of_ge _ _ (Nat.le_of_not_lt hj)]

-- What is read back after all ones were written.
theorem MemoryBar.mask (h : MemoryBar c i base k is64bit) {j : Nat} (hj : j < 32) (hge : 4 ≤ j) :
    ((c (4 + i)).write (BitVec.allOnes 32)).value.getLsbD j = decide (k ≤ j) := by
  rw [Register.write_allOnes h.plain, BitVec.getLsbD_or, h.writable j hj]
  by_cases hk : k ≤ j
  · simp [hk]
  · have hzero := h.aligned j (Nat.lt_of_not_le hk)
    rw [h.lower j hj] at hzero
    simp_all

theorem MemoryBar.mask_upper (h : MemoryBar c i base k true) {j : Nat} (hj : j < 32) :
    ((c (5 + i)).write (BitVec.allOnes 32)).value.getLsbD j = decide (k ≤ 32 + j) := by
  rw [Register.write_allOnes (h.plain_upper rfl), BitVec.getLsbD_or, h.writable_upper rfl j hj]
  by_cases hk : k ≤ 32 + j
  · simp [hk]
  · have hzero := h.aligned (32 + j) (Nat.lt_of_not_le hk)
    rw [h.upper j hj] at hzero
    simp_all

-- Where the upper of two registers is.
theorem getLsbD_upper (upper : BitVec 32) {j : Nat} (hj : j < 64) :
    (upper.setWidth 64 <<< 32).getLsbD j = (decide (32 ≤ j) && upper.getLsbD (j - 32)) := by
  have hwide : j - 32 < 64 := Nat.lt_of_le_of_lt (Nat.sub_le j 32) hj
  simp only [BitVec.getLsbD_shiftLeft, BitVec.getLsbD_setWidth, hj, hwide, decide_true,
    Bool.true_and, ← decide_not, Nat.not_lt]

theorem barSize_eq (h : MemoryBar c i base k is64bit) :
    barSize is64bit ((c (4 + i)).write (BitVec.allOnes 32)).value
      (if is64bit then ((c (5 + i)).write (BitVec.allOnes 32)).value else 0) = 2 ^ k := by
  have hfour := h.four_le
  have hlower {j : Nat} (hj : j < 32) : (decide (4 ≤ j) &&
      ((c (4 + i)).write (BitVec.allOnes 32)).value.getLsbD j) = decide (k ≤ j) := by
    by_cases hge : 4 ≤ j
    · simp only [hge, decide_true, Bool.true_and, h.mask hj hge]
    · simp only [hge, decide_false, Bool.false_and, Bool.false_eq, decide_eq_false_iff_not]
      omega
  cases is64bit with
  | false =>
      refine toNat_not_mask h.lt fun j hj => ?_
      rw [getLsbD_and_not_fifteen, hlower hj]
  | true =>
      refine toNat_not_mask h.lt fun j hj => ?_
      rw [BitVec.getLsbD_or, getLsbD_and_not_fifteen, getLsbD_upper _ hj, BitVec.getLsbD_setWidth]
      by_cases hlow : j < 32
      · have hnot : ¬ 32 ≤ j := Nat.not_le_of_lt hlow
        simp only [hj, hnot, decide_true, Bool.true_and, hlower hlow, decide_false, Bool.false_and,
          Bool.or_false]
      · have hge : 32 ≤ j := Nat.le_of_not_lt hlow
        have hj' : j - 32 < 32 := by omega
        simp only [BitVec.getLsbD_of_ge _ _ hge, Bool.and_false, hge, if_true, decide_true,
          Bool.true_and, h.mask_upper hj', Nat.add_sub_cancel' hge, Bool.false_or]

theorem is64bit_iff (v : BitVec 32) :
    v >>> 1 &&& 0b011 = 0x2 ↔ (v.getLsbD 2 && !v.getLsbD 1) = true := by
  have hand : (v >>> 1 &&& 0b011).toNat = v.toNat / 2 % 4 := by
    rw [BitVec.toNat_and, BitVec.toNat_ushiftRight, Nat.shiftRight_eq_div_pow]
    exact Nat.and_two_pow_sub_one_eq_mod _ 2
  rw [← BitVec.toNat_inj, hand, BitVec.getLsbD, BitVec.getLsbD, Nat.testBit_eq_decide_div_mod_eq,
    Nat.testBit_eq_decide_div_mod_eq, Bool.and_eq_true, decide_eq_true_eq, Bool.not_eq_true',
    decide_eq_false_iff_not]
  change _ = 2 ↔ _
  omega

theorem ioSpace_iff (v : BitVec 32) : v &&& 0b001 = 0x1 ↔ v.getLsbD 0 = true := by
  have hand : (v &&& 0b001).toNat = v.toNat % 2 := by
    rw [BitVec.toNat_and]
    exact Nat.and_two_pow_sub_one_eq_mod _ 1
  rw [← BitVec.toNat_inj, hand, BitVec.getLsbD, Nat.testBit_eq_decide_div_mod_eq,
    decide_eq_true_eq, Nat.pow_zero, Nat.div_one]
  rfl

-- The low half of the base is what the BAR itself holds.
theorem MemoryBar.lower_half (h : MemoryBar c i base k is64bit) {j : Nat} (hj : j < 32) :
    ((c (4 + i)).value.setWidth 64 &&& ~~~0xF#64).getLsbD j = base.getLsbD j := by
  have hwide : j < 64 := Nat.lt_trans hj (by decide)
  rw [getLsbD_and_not_fifteen, BitVec.getLsbD_setWidth, h.lower j hj]
  simp only [hwide, decide_true, Bool.true_and]

theorem MemoryBar.base_eq (h : MemoryBar c i base k is64bit) :
    ((c (4 + i)).value.setWidth 64 &&& ~~~0xF#64 |||
      (if is64bit then (c (5 + i)).value else 0).setWidth 64 <<< 32) = base := by
  refine BitVec.eq_of_getLsbD_eq fun j hj => ?_
  rw [BitVec.getLsbD_or, getLsbD_upper _ hj]
  by_cases hlow : j < 32
  · have hnot : ¬ 32 ≤ j := Nat.not_le_of_lt hlow
    simp only [h.lower_half hlow, hnot, decide_false, Bool.false_and, Bool.or_false]
  · have hge : 32 ≤ j := Nat.le_of_not_lt hlow
    have hupper := h.upper (j - 32) (by omega)
    rw [Nat.add_sub_cancel' hge] at hupper
    rw [getLsbD_and_not_fifteen, BitVec.getLsbD_setWidth, BitVec.getLsbD_of_ge _ _ hge, hupper]
    cases is64bit <;> simp [hge]

theorem MemoryBar.offset_eq (h : MemoryBar c i base k is64bit) :
    ((c (4 + i)).value.setWidth 64 &&& ~~~0xF#64) &&& 0xFFF = base &&& 0xFFF := by
  refine BitVec.eq_of_getLsbD_eq fun j hj => ?_
  have hmask : (0xFFF : BitVec 64).getLsbD j = decide (j < 12) := by
    have hlow : (0xFFF : Nat).testBit j = decide (j < 12) := Nat.testBit_two_pow_sub_one 12 j
    rw [show (0xFFF : BitVec 64) = BitVec.ofNat 64 0xFFF from rfl, BitVec.getLsbD_ofNat, hlow]
    simp only [hj, decide_true, Bool.true_and]
  rw [BitVec.getLsbD_and (y := 0xFFF), BitVec.getLsbD_and (y := 0xFFF), hmask]
  by_cases hlow : j < 12
  · rw [h.lower_half (Nat.lt_trans hlow (by decide))]
  · simp only [hlow, decide_false, Bool.and_false]

-- What a driver reads from the BAR.
def barOf (c : PciConfig) (i : Nat) (base : BitVec 64) (is64bit : Bool) : Bar :=
  ⟨base, is64bit, (c (4 + i)).value, if is64bit then (c (5 + i)).value else 0⟩

theorem sat_readBar (h : MemoryBar s.config i base k is64bit) (Q : Option Bar → BarRun → Prop)
    (E : Empty → Prop) : Sat (readBar i) s Q E ↔
      Q (if base &&& 0xFFF = 0 then some (barOf s.config i base is64bit) else none) s := by
  have hindex := h.index
  have hbase := h.base_eq
  have hio : ¬ (s.config (4 + i)).value &&& 0b001 = 0x1 := by
    rw [ioSpace_iff, h.memory]
    exact Bool.false_ne_true
  have hwide : decide ((s.config (4 + i)).value >>> 1 &&& 0b011 = 0x2) = is64bit := by
    rw [← h.type, Bool.eq_iff_iff, decide_eq_true_iff]
    exact is64bit_iff _
  simp only [readBar, sat_bind, sat_pcieReadBar (Nat.lt_succ_of_lt hindex), h.offset_eq]
  by_cases haligned : base &&& 0xFFF = 0
  · rw [if_neg (not_not.mpr haligned), if_neg hio, if_pos haligned, hwide]
    cases is64bit with
    | false =>
        have hphys : (s.config (4 + i)).value.setWidth 64 &&& ~~~0xF#64 = base := by
          simpa using hbase
        rw [if_neg Bool.false_ne_true, sat_pure, hphys]
        rfl
    | true =>
        rw [if_pos rfl, sat_bind, sat_pcieReadBar (Nat.succ_lt_succ hindex), sat_pure,
          show 4 + (i + 1) = 5 + i by omega]
        rw [if_pos rfl] at hbase
        rw [hbase]
        rfl
  · rw [if_pos haligned, if_neg haligned, sat_pure]

-- Wherever the function decoded memory, its BARs were those of `c`.
def BarRun.Kept (s : BarRun) (c : PciConfig) : Prop :=
  ∀ d ∈ s.config :: s.past, memorySpace d = true → ∀ j ≠ 1, d j = c j

theorem memorySpace_write {j : Nat} (v : BitVec 32) (hj : j ≠ 1) :
    memorySpace (s.write j v).config = memorySpace s.config := by
  rw [memorySpace, memorySpace, write_config, Function.update_of_ne hj.symm]

theorem BarRun.Kept.write_off (h : s.Kept c) (hoff : memorySpace s.config = false) {j : Nat}
    (hj : j ≠ 1) (v : BitVec 32) : (s.write j v).Kept c := by
  intro d hd hdecodes
  obtain rfl | hd := List.mem_cons.mp hd
  · rw [memorySpace_write v hj, hoff] at hdecodes
    cases hdecodes
  · exact h d hd hdecodes

-- Ones are written to a register, and what it held is put back.
theorem write_write_config (h : (s.config j).clearing = 0#32) (v : BitVec 32) :
    ((s.write j v).write j (s.config j).value).config = s.config := by
  simp only [write_config, Function.update_self, Register.write_restores v h, Function.update_idem,
    Function.update_eq_self]

-- The same with two registers.
theorem write_writes_config {j' : Nat} (hne : j ≠ j') (h : (s.config j).clearing = 0#32)
    (h' : (s.config j').clearing = 0#32) (v : BitVec 32) :
    ((((s.write j v).write j' v).write j (s.config j).value).write j' (s.config j').value).config =
      s.config := by
  funext d
  simp only [write_config, Function.update_apply]
  by_cases hd' : d = j'
  · simp [hd', hne.symm, Register.write_restores v h']
  · by_cases hd : d = j <;> simp [hd, hd', hne, Register.write_restores v h]

theorem sat_probeBar (h : MemoryBar s.config i base k is64bit) (hkept : s.Kept c)
    (hoff : memorySpace s.config = false) :
    Sat (probeBar i (barOf s.config i base is64bit)) s (fun size t => size = 2 ^ k ∧
      t.config = s.config ∧ t.mapped = s.mapped ∧ t.Kept c) fun _ => False := by
  have hlt := Nat.lt_succ_of_lt h.index
  have hlt' := Nat.succ_lt_succ h.index
  have hones : (0xFFFFFFFF : BitVec 32) = BitVec.allOnes 32 := by decide
  have hsize := barSize_eq h
  have hlower : 4 + i ≠ 1 := by omega
  have hstep {s : BarRun} (hs : s.Kept c ∧ memorySpace s.config = false) {j : Nat} (hj : j ≠ 1)
      (v : BitVec 32) : (s.write j v).Kept c ∧ memorySpace (s.write j v).config = false :=
    ⟨hs.1.write_off hs.2 hj v, (memorySpace_write v hj).trans hs.2⟩
  simp only [probeBar, sat_bind, sat_pcieWriteBar hlt, hones, barOf]
  cases is64bit with
  | false =>
      simp only [Bool.false_eq_true, if_false, sat_pure, sat_bind, sat_pcieWriteBar hlt,
        sat_pcieReadBar hlt]
      refine ⟨?_, write_write_config h.plain _, rfl, ?_⟩
      · simpa using hsize
      · exact (hstep (hstep ⟨hkept, hoff⟩ hlower _) hlower _).1
  | true =>
      have hupper : 5 + i ≠ 1 := by omega
      have hne : 4 + i ≠ 5 + i := by omega
      simp only [if_true, sat_pure, sat_bind, sat_pcieWriteBar hlt', sat_pcieWriteBar hlt,
        sat_pcieReadBar hlt', sat_pcieReadBar hlt, show 4 + (i + 1) = 5 + i by omega]
      refine ⟨?_, write_writes_config hne h.plain (h.plain_upper rfl) _, rfl, ?_⟩
      · simpa [Function.update_of_ne hne, Function.update_of_ne hne.symm] using hsize
      · exact (hstep (hstep (hstep (hstep ⟨hkept, hoff⟩ hlower _) hupper _) hlower _) hupper _).1

theorem MemoryBar.congr {d : PciConfig} (h : MemoryBar c i base k is64bit)
    (hd : ∀ j ≠ 1, d j = c j) : MemoryBar d i base k is64bit := by
  have hlower := hd (4 + i) (by omega)
  have hupper := hd (5 + i) (by omega)
  constructor
  case index => exact h.index
  case four_le => exact h.four_le
  case lt => exact h.lt
  case aligned => exact h.aligned
  all_goals
    simp only [hlower, hupper]
    first | exact h.memory | exact h.type | exact h.plain | exact h.plain_upper |
      exact h.writable | exact h.writable_upper | exact h.lower | exact h.upper

-- The function is as in `c` but for the two bits that turn memory decoding and bus
-- mastering on, and for status bits that reading and writing back clears.
structure BarRun.From (s : BarRun) (c : PciConfig) : Prop where
  bars : ∀ j ≠ 1, s.config j = c j
  kept : s.Kept c
  writable : (s.config 1).writable = (c 1).writable
  clearing : (s.config 1).clearing = (c 1).clearing
  command : ∀ j, j ≠ 1 → j ≠ 2 → (c 1).clearing.getLsbD j = false →
    (s.config 1).value.getLsbD j = (c 1).value.getLsbD j

-- The two bits of the command register are there.
def Commanded (c : PciConfig) : Prop :=
  (c 1).writable.getLsbD 1 = true ∧ (c 1).writable.getLsbD 2 = true

def busmaster (c : PciConfig) : Bool := (c 1).value.getLsbD 2

theorem BarRun.From.write_command (h : s.From c) {v : BitVec 32}
    (hv : ∀ j, j ≠ 1 → j ≠ 2 → v.getLsbD j = (s.config 1).value.getLsbD j) :
    (s.write 1 v).From c where
  bars j hj := by rw [write_config, Function.update_of_ne hj, h.bars j hj]
  kept d hd hdecodes j hj := by
    obtain rfl | hd := List.mem_cons.mp hd
    · rw [write_config, Function.update_of_ne hj, h.bars j hj]
    · exact h.kept d hd hdecodes j hj
  writable := by simp [h.writable]
  clearing := by simp [h.clearing]
  command j h1 h2 hj := by
    have hsame := h.command j h1 h2 hj
    have hclear : (s.config 1).clearing.getLsbD j = false := by rw [h.clearing, hj]
    rw [write_config, Function.update_self, Register.getLsbD_write, hclear, hv j h1 h2, hsame]
    simp

theorem getLsbD_toggled (cmdReg : BitVec 32) {bit : Nat} (hbit : bit < 32) (toggle : Bool) :
    (toggled cmdReg bit toggle).getLsbD j = if j = bit then toggle else cmdReg.getLsbD j := by
  by_cases hj : j < 32
  · have hone : (1#32 <<< bit).getLsbD j = decide (j = bit) := by
      rw [BitVec.getLsbD_shiftLeft, BitVec.getLsbD_one, ← Bool.decide_and]
      simp only [hj, decide_true, Bool.true_and, Nat.zero_lt_succ, true_and]
      by_cases heq : j = bit
      · simp [heq]
      · rw [decide_eq_false heq, Bool.and_eq_false_imp]
        simp only [Bool.not_eq_true', decide_eq_false_iff_not]
        omega
    cases toggle <;> simp only [toggled, Bool.false_eq_true, if_true, if_false, BitVec.getLsbD_or,
      BitVec.getLsbD_and, BitVec.getLsbD_not, hone, hj, decide_true, Bool.true_and] <;>
      by_cases heq : j = bit <;> simp [heq]
  · have hne : j ≠ bit := fun heq => hj (heq ▸ hbit)
    rw [if_neg hne, BitVec.getLsbD_of_ge _ _ (Nat.le_of_not_lt hj),
      BitVec.getLsbD_of_ge _ _ (Nat.le_of_not_lt hj)]

theorem sat_toggleCommand (h : s.From c) (hc : Commanded c) {bit : Nat} (hbit : bit = 1 ∨ bit = 2)
    (toggle : Bool) : Sat (toggleCommand bit toggle) s (fun _ t => t.From c ∧
      t.mapped = s.mapped ∧ (t.config 1).value.getLsbD bit = toggle ∧
        ∀ j, j ≠ bit → (j = 1 ∨ j = 2) →
          (t.config 1).value.getLsbD j = (s.config 1).value.getLsbD j) fun _ => False := by
  have hlt : bit < 32 := by omega
  have hwrite (j : Nat) (hj : j = 1 ∨ j = 2) : (s.config 1).writable.getLsbD j = true := by
    rw [h.writable]
    obtain rfl | rfl := hj
    · exact hc.1
    · exact hc.2
  have hget (j : Nat) := getLsbD_toggled (j := j) (s.config 1).value hlt toggle
  simp only [toggleCommand, sat_bind, sat_pcieRead, sat_pcieWrite]
  refine ⟨h.write_command fun j h1 h2 => ?_, rfl, ?_, fun j hj hor => ?_⟩
  · rw [hget, if_neg (by omega)]
  · change (((s.config 1).write (toggled _ bit toggle)).value).getLsbD bit = toggle
    rw [Register.getLsbD_write, hwrite bit hbit, if_pos rfl, hget, if_pos rfl]
  · change (((s.config 1).write (toggled _ bit toggle)).value).getLsbD j = _
    rw [Register.getLsbD_write, hwrite j hor, if_pos rfl, hget, if_neg hj]

theorem BarRun.From.mapped (h : s.From c) (r : MapRange) :
    ({ s with mapped := s.mapped ++ [r] } : BarRun).From c :=
  ⟨h.bars, h.kept, h.writable, h.clearing, h.command⟩

theorem sat_probeBar_from (h : s.From c) (hbar : MemoryBar c i base k is64bit)
    (hoff : memorySpace s.config = false) :
    Sat (probeBar i (barOf c i base is64bit)) s (fun size t => size = 2 ^ k ∧ t.From c ∧
      t.config = s.config ∧ t.mapped = s.mapped) fun _ => False := by
  have hsame : barOf c i base is64bit = barOf s.config i base is64bit := by
    unfold barOf
    rw [h.bars (4 + i) (by omega), h.bars (5 + i) (by omega)]
  rw [hsame]
  refine (sat_probeBar (hbar.congr h.bars) h.kept hoff).imp fun size t ht => ?_
  obtain ⟨hsize, hconfig, hmapped, hkept⟩ := ht
  refine ⟨hsize, ⟨?_, hkept, ?_, ?_, ?_⟩, hconfig, hmapped⟩
  · simpa only [hconfig] using h.bars
  · simpa only [hconfig] using h.writable
  · simpa only [hconfig] using h.clearing
  · simpa only [hconfig] using h.command

theorem sat_readBar_from (h : s.From c) (hbar : MemoryBar c i base k is64bit)
    (Q : Option Bar → BarRun → Prop) (E : Empty → Prop) : Sat (readBar i) s Q E ↔
      Q (if base &&& 0xFFF = 0 then some (barOf c i base is64bit) else none) s := by
  rw [sat_readBar (hbar.congr h.bars), barOf, barOf, h.bars (4 + i) (by omega),
    h.bars (5 + i) (by omega)]

theorem sat_mapBar (h : s.From c) (hc : Commanded c) (hbar : MemoryBar c i base k is64bit)
    (minimum : Nat) : Sat (mapBar i minimum) s (fun r t => t.From c ∧
      r = (if base &&& 0xFFF = 0 ∧ minimum ≤ 2 ^ k then some (directMap base (2 ^ k)) else none) ∧
        t.mapped = s.mapped ++ r.toList ∧
          (base &&& 0xFFF = 0 → memorySpace t.config = true) ∧
            (r ≠ none → busmaster t.config = true)) fun _ => False := by
  rw [mapBar, sat_bind, sat_readBar_from h hbar]
  by_cases haligned : base &&& 0xFFF = 0
  · simp only [haligned, if_true, true_and, true_implies]
    refine (sat_toggleCommand h hc (.inl rfl) false).bind fun _ t ht => ?_
    obtain ⟨hfrom, hmapped, hoff, -⟩ := ht
    refine (sat_probeBar_from hfrom hbar hoff).bind fun size u hu => ?_
    obtain ⟨rfl, hfrom, -, hmapped'⟩ := hu
    refine (sat_toggleCommand hfrom hc (.inl rfl) true).bind fun _ v hv => ?_
    obtain ⟨hfrom, hmapped'', hon, -⟩ := hv
    have hsame : v.mapped = s.mapped := hmapped''.trans (hmapped'.trans hmapped)
    by_cases hsize : minimum ≤ 2 ^ k
    · rw [if_neg (Nat.not_lt.mpr hsize), if_pos hsize, pagerMapRange, sat_bind, sat_modify]
      refine (sat_toggleCommand (hfrom.mapped _) hc (.inr rfl) true).bind fun _ w hw => ?_
      obtain ⟨hfrom, hmapped, hmaster, hothers⟩ := hw
      refine ⟨hfrom, rfl, ?_, ?_, fun _ => hmaster⟩
      · rw [hmapped, hsame]
        rfl
      · exact (hothers 1 (by decide) (.inl rfl)).trans hon
    · rw [if_pos (Nat.lt_of_not_le hsize), if_neg hsize]
      exact ⟨hfrom, rfl, by simpa using hsame, hon, fun hne => absurd rfl hne⟩
  · simp only [haligned, if_false, false_and, false_implies, true_and, sat_pure]
    exact ⟨h, (List.append_nil _).symm, fun hne => absurd rfl hne⟩

theorem sat_pcieGetMemorySpaceToggled (Q : Bool → BarRun → Prop) (E : Empty → Prop) :
    Sat pcieGetMemorySpaceToggled s Q E ↔ Q (memorySpace s.config) s := by
  have hbit : decide ((s.config 1).value &&& 1#32 <<< 1 ≠ 0) = memorySpace s.config := by
    rw [show 1#32 <<< 1 = BitVec.twoPow 32 1 from rfl, BitVec.and_twoPow, memorySpace]
    cases (s.config 1).value.getLsbD 1 <;> decide
  rw [pcieGetMemorySpaceToggled, sat_bind, sat_pcieRead, sat_pure, hbit]

theorem sat_toggleWhen (h : s.From c) (hc : Commanded c) (memspace toggle : Bool)
    (hoff : memspace = false → memorySpace s.config = false) :
    Sat (toggleWhen memspace toggle) s (fun _ t => t.From c ∧
      t.mapped = s.mapped ∧ memorySpace t.config = (memspace && toggle)) fun _ => False := by
  cases memspace with
  | false => exact ⟨h, rfl, hoff rfl⟩
  | true =>
      exact (sat_toggleCommand h hc (.inl rfl) toggle).imp fun _ t ht => ⟨ht.1, ht.2.1, ht.2.2.1⟩

theorem sat_virtioMap (h : s.From c) (hc : Commanded c) {commonCap notifyCap : VirtioCap}
    {base : Nat → BitVec 64} {bits : Nat → Nat}
    (hbar : ∀ i ∈ [commonCap.bar.toNat, notifyCap.bar.toNat], ∃ is64bit,
      MemoryBar c i (base i) (bits i) is64bit) :
    Sat (virtioMap (some commonCap) (some notifyCap)) s (fun r t => t.From c ∧
      memorySpace t.config = memorySpace s.config ∧ (r = none ∧ t.mapped = s.mapped ∨
        r ≠ none ∧ busmaster t.config = true ∧ t.mapped = s.mapped ++
          [commonCap.bar.toNat, notifyCap.bar.toNat].map fun i => directMap (base i) (2 ^ bits i)))
      fun _ => False := by
  obtain ⟨w, hcommon⟩ := hbar _ (.head _)
  obtain ⟨w', hnotify⟩ := hbar _ (.tail _ (.head _))
  simp only [virtioMap, sat_bind, sat_readBar_from h hcommon]
  by_cases haligned : base commonCap.bar.toNat &&& 0xFFF = 0
  · simp only [haligned, if_true, sat_bind, sat_readBar_from h hnotify]
    by_cases haligned' : base notifyCap.bar.toNat &&& 0xFFF = 0
    · simp only [haligned', if_true, sat_bind, sat_pcieGetMemorySpaceToggled]
      refine (sat_toggleWhen h hc _ false id).imp fun _ t ht => ?_
      obtain ⟨hfrom, hmapped, hoff⟩ := ht
      rw [Bool.and_false] at hoff
      refine (sat_probeBar_from hfrom hcommon hoff).imp fun size u hu => ?_
      obtain ⟨rfl, hfrom, hconfig, hmapped'⟩ := hu
      refine (sat_probeBar_from hfrom hnotify (hconfig ▸ hoff)).imp fun size v hv => ?_
      obtain ⟨rfl, hfrom, hconfig', hmapped''⟩ := hv
      refine (sat_toggleWhen hfrom hc _ true fun _ => ?_).imp fun _ w hw => ?_
      · rw [hconfig', hconfig, hoff]
      obtain ⟨hfrom, hmapped''', hon⟩ := hw
      rw [Bool.and_true] at hon
      have hsame : w.mapped = s.mapped :=
        hmapped'''.trans (hmapped''.trans (hmapped'.trans hmapped))
      refine Sat.ite (fun _ => ⟨hfrom, hon, .inl ⟨rfl, hsame⟩⟩) fun _ => ?_
      simp only [pagerMapRange, sat_bind, sat_modify]
      refine (sat_toggleCommand ((hfrom.mapped _).mapped _) hc (.inr rfl) true).imp fun _ x hx => ?_
      obtain ⟨hfrom, hmapped, hmaster, hothers⟩ := hx
      refine ⟨hfrom, ?_, .inr ⟨Option.some_ne_none _, hmaster, ?_⟩⟩
      · exact (hothers 1 (by decide) (.inl rfl)).trans hon
      · rw [hmapped, hsame, List.append_assoc]
        rfl
    · simp only [haligned', if_false, sat_pure]
      simpa using h
  · simp only [haligned, if_false, sat_pure]
    simpa using h

-- How a driver leaves the function that it found as `c`.
structure Settled (c : PciConfig) (s : BarRun) (d : BarDriver) (windows : List MapRange) (ok : Bool)
    (t : BarRun) : Prop where
  started : t.From c
  mapped : t.mapped = s.mapped ∨ t.mapped = s.mapped ++ windows
  accepted : ok = true → t.mapped = s.mapped ++ windows ∧ busmaster t.config = true ∧
    memorySpace t.config = d.decodes c

theorem Settled.of_mapBar {d : BarDriver} {r : Option MapRange} {t : BarRun} {minimum : Nat}
    (h : t.From c ∧ r = (if base &&& 0xFFF = 0 ∧ minimum ≤ 2 ^ k then
      some (directMap base (2 ^ k)) else none) ∧ t.mapped = s.mapped ++ r.toList ∧
        (base &&& 0xFFF = 0 → memorySpace t.config = true) ∧
          (r ≠ none → busmaster t.config = true)) (hd : d.decodes c = true) {ok : Bool}
    (hok : ok = true → r ≠ none) : Settled c s d [directMap base (2 ^ k)] ok t := by
  obtain ⟨hfrom, hr, hmapped, hon, hmaster⟩ := h
  by_cases hfits : base &&& 0xFFF = 0 ∧ minimum ≤ 2 ^ k
  · rw [if_pos hfits] at hr
    subst hr
    refine ⟨hfrom, .inr hmapped, fun _ => ⟨hmapped, ?_, ?_⟩⟩
    · exact hmaster (Option.some_ne_none _)
    · rw [hd, hon hfits.1]
  · rw [if_neg hfits] at hr
    subst hr
    exact ⟨hfrom, .inl (by simpa using hmapped), fun heq => absurd rfl (hok heq)⟩

theorem BarDriver.sat_map (d : BarDriver) (h : s.From c) (hc : Commanded c)
    (hdec : memorySpace s.config = memorySpace c) {base : Nat → BitVec 64} {bits : Nat → Nat}
    (hbar : ∀ i ∈ d.bars, ∃ is64bit, MemoryBar c i (base i) (bits i) is64bit) :
    Sat d.map s (Settled c s d (d.bars.map fun i => directMap (base i) (2 ^ bits i)))
      fun _ => False := by
  cases d with
  | nvme cap =>
      obtain ⟨w, hbar⟩ := hbar 0 (.head _)
      simp only [map, nvmeMapBar, sat_bind]
      refine (sat_mapBar h hc hbar _).imp fun r t ht => ?_
      cases r with
      | none => exact .of_mapBar ht rfl fun heq => by cases heq
      | some regs =>
          exact Sat.ite (fun _ => .of_mapBar ht rfl fun heq => by cases heq)
            fun _ => .of_mapBar ht rfl fun _ => Option.some_ne_none _
  | sata =>
      obtain ⟨w, hbar⟩ := hbar 5 (.head _)
      simp only [map, sataMapBar, sat_bind]
      refine (sat_mapBar h hc hbar _).imp fun r t ht => .of_mapBar ht rfl fun heq => ?_
      rintro rfl
      cases heq
  | xhci cap =>
      obtain ⟨w, hbar⟩ := hbar 0 (.head _)
      simp only [map, mapXhciMmio, sat_bind]
      refine (sat_mapBar h hc hbar _).imp fun r t ht => ?_
      cases r with
      | none => exact .of_mapBar ht rfl fun heq => by cases heq
      | some mmio =>
          have hfail : Settled c s (.xhci cap) [directMap (base 0) (2 ^ bits 0)] false t :=
            .of_mapBar ht rfl fun heq => by cases heq
          refine Sat.ite (fun _ => hfail) fun _ => Sat.ite (fun _ => hfail) fun _ =>
            Sat.ite (fun _ => hfail) fun _ => Sat.ite (fun _ => hfail) fun _ => ?_
          exact .of_mapBar ht rfl fun _ => Option.some_ne_none _
  | virtio commonCap notifyCap =>
      simp only [map, sat_bind]
      refine (sat_virtioMap h hc hbar).imp fun r t ht => ?_
      obtain ⟨hfrom, hsame, ⟨rfl, hmapped⟩ | ⟨hr, hmaster, hmapped⟩⟩ := ht
      · exact ⟨hfrom, .inl hmapped, fun heq => by cases heq⟩
      · exact ⟨hfrom, .inr hmapped, fun _ => ⟨hmapped, hmaster, hsame.trans hdec⟩⟩

-- Each driver finds the base and the size of its BARs, whatever they are, and puts the
-- function back as it was. Wherever the function decodes memory meanwhile, it decodes the
-- addresses that the firmware gave it.
theorem barDriver_settles (d : BarDriver) {base : Nat → BitVec 64} {bits : Nat → Nat}
    (hc : Commanded c)
    (hbar : ∀ i ∈ d.bars, ∃ is64bit, MemoryBar c i (base i) (bits i) is64bit)
    (mapped : List MapRange) : ∃ ok t, Returns d.map ⟨c, [], mapped⟩ ok t ∧
      Settled c ⟨c, [], mapped⟩ d (d.bars.map fun i => directMap (base i) (2 ^ bits i)) ok t := by
  have hfrom : (⟨c, [], mapped⟩ : BarRun).From c := by
    refine ⟨fun _ _ => rfl, fun d hd _ j _ => ?_, rfl, rfl, fun _ _ _ _ => rfl⟩
    rw [List.mem_singleton.mp hd]
  obtain ⟨ok, t, hret, hsettled⟩ | ⟨e, -, -⟩ := (d.sat_map hfrom hc rfl hbar).returns_or_stops
  · exact ⟨ok, t, hret, hsettled⟩
  · exact e.elim

-- An NVMe controller with 16 KiB of registers, where it can be above 4 GiB.
def nvmeFunction : PciConfig
  | 1 => ⟨0x00100006, 0x00000147, 0xF9000000⟩
  | 4 => ⟨0xFEB04004, 0xFFFFC000, 0⟩
  | 5 => ⟨0x00000020, 0xFFFFFFFF, 0⟩
  | _ => ⟨0, 0, 0⟩

theorem barDriver_settles_nvme : ∃ ok t, Returns (BarDriver.nvme 0).map ⟨nvmeFunction, [], []⟩ ok t ∧
    Settled nvmeFunction ⟨nvmeFunction, [], []⟩ (.nvme 0) [directMap 0x20FEB04000 (2 ^ 14)] ok t := by
  refine @barDriver_settles nvmeFunction (.nvme 0) (fun _ => 0x20FEB04000) (fun _ => 14)
    ⟨by decide, by decide⟩ (fun i hi => ⟨true, ?_⟩) []
  obtain rfl := List.mem_singleton.mp hi
  constructor <;> decide

end Probe

end AosKernel.Io.Bars
